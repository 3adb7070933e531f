import TopicServer.Kernel

/-!
# The registry of clients

`Registry k g s` ties the entries of the registry to the descriptors: IDs differ, the online entries
stand on different open descriptors, these are what the server watches besides its own sockets,
and each carries the ID that arrived on its descriptor. During a scan every client descriptor that
is still to be handled belongs to an online entry (`Ready`), although clients come and go
meanwhile. Both are kept by every step (`Effect.registry`), hence by every run.
-/

namespace TopicServer

open Interactive Linked Memory

/-- The descriptors of the online clients. -/
def onlineSocks (cs : List ClientStructure) : List ℤ := (cs.filter (·.online)).map (·.sock)

section OnlineSocks

variable {cs ds : List ClientStructure} {c : ClientStructure}

@[simp] theorem onlineSocks_append : onlineSocks (cs ++ ds) = onlineSocks cs ++ onlineSocks ds := by
  simp [onlineSocks]

theorem onlineSocks_cons_online (h : c.online = true) :
    onlineSocks (c :: cs) = c.sock :: onlineSocks cs := by
  simp [onlineSocks, h]

theorem onlineSocks_cons_offline (h : c.online = false) : onlineSocks (c :: cs) = onlineSocks cs := by
  simp [onlineSocks, h]

theorem mem_onlineSocks {i : ℤ} : i ∈ onlineSocks cs ↔ ∃ c ∈ cs, c.online = true ∧ c.sock = i := by
  simp [onlineSocks, and_assoc]

end OnlineSocks

/-- The clients and the watched descriptors agree with each other and with the kernel. -/
structure Registry (k : Sockets) (g : Kernel) (cs : List ClientStructure) (readFds : Finset ℤ) :
    Prop where
  ids : (cs.map fun c => c.id.str).Nodup
  flag : ∀ c ∈ cs, c.online = true ↔ c.sock ≠ -1
  socks : (onlineSocks cs).Nodup
  client : ∀ i ∈ onlineSocks cs, k.Client i ∧ 0 ≤ i
  watched : ∀ i, i ∈ readFds ↔ ¬ k.Client i ∨ i ∈ onlineSocks cs
  opened : ∀ i ∈ readFds, i ∈ g.opened
  owner : ∀ c ∈ cs, c.online = true → g.identified c.sock = c.id.str

/-- The client descriptors that are still to be handled belong to online clients. -/
def Ready (k : Sockets) (cs : List ClientStructure) (tmp : Finset ℤ) (i : ℤ) : Prop :=
  ∀ j ∈ tmp, i ≤ j → k.Client j → j ∈ onlineSocks cs

/-! ## One entry changes -/

namespace Registry

variable {k : Sockets} {g : Kernel} {cs xs ys : List ClientStructure} {c : ClientStructure}
  {readFds : Finset ℤ} {fd : ℤ}

/-- The kernel after a connection on `fd` gave its ID. -/
def connected (g : Kernel) (fd : ℤ) (request id : List Byte) : Kernel where
  opened := insert fd g.opened
  request := request
  identified := Function.update g.identified fd id

/-- Before the first connection. -/
theorem start (h : ({0, k.tcp, k.udp} : Finset ℤ) ⊆ g.opened) :
    Registry k g [] {0, k.tcp, k.udp} where
  ids := List.nodup_nil
  flag _ hc := by cases hc
  socks := List.nodup_nil
  client _ hi := by cases hi
  watched i := by
    unfold Sockets.Client
    simp only [Finset.mem_insert, Finset.mem_singleton, onlineSocks, List.filter_nil, List.map_nil,
      List.not_mem_nil, or_false]
    tauto
  opened _ hi := h hi
  owner _ hc := by cases hc

theorem init (k : Sockets) : Registry k (kernelInit k) [] {0, k.tcp, k.udp} :=
  start (Finset.Subset.refl _)

theorem fresh (h : Registry k g cs readFds) (hfd : fd ∉ g.opened) :
    k.Client fd ∧ fd ∉ onlineSocks cs := by
  have hno : fd ∉ readFds := fun hmem => hfd (h.opened fd hmem)
  rw [h.watched, not_or, not_not] at hno
  exact hno

/-- An entry comes online on a fresh descriptor. -/
theorem connect (c : ClientStructure) (request : List Byte) (h : Registry k g (xs ++ ys) readFds)
    (hfd : fd ∉ g.opened) (h0 : 0 ≤ fd) (hon : c.online = true) (hsock : c.sock = fd)
    (hid : ((xs ++ c :: ys).map fun c => c.id.str).Nodup) :
    Registry k (connected g fd request c.id.str) (xs ++ c :: ys) (insert fd readFds) where
  ids := hid
  flag d hd := by
    rw [List.mem_append, List.mem_cons] at hd
    rcases hd with hd | rfl | hd
    · exact h.flag d (List.mem_append_left _ hd)
    · rw [hon, hsock]
      exact iff_of_true rfl (by omega)
    · exact h.flag d (List.mem_append_right _ hd)
  socks := by
    have hnd := h.socks
    have hfresh := (h.fresh hfd).2
    rw [onlineSocks_append] at hnd hfresh
    rw [onlineSocks_append, onlineSocks_cons_online hon, hsock, List.nodup_middle, List.nodup_cons]
    exact ⟨hfresh, hnd⟩
  client i hi := by
    rw [onlineSocks_append, onlineSocks_cons_online hon, List.mem_append, List.mem_cons] at hi
    have hold := h.client i
    rw [onlineSocks_append, List.mem_append] at hold
    rcases hi with hi | rfl | hi
    · exact hold (Or.inl hi)
    · exact hsock ▸ ⟨(h.fresh hfd).1, h0⟩
    · exact hold (Or.inr hi)
  watched i := by
    rw [Finset.mem_insert, h.watched, onlineSocks_append, onlineSocks_append,
      onlineSocks_cons_online hon, hsock]
    simp only [List.mem_append, List.mem_cons]
    tauto
  opened i hi := by
    rcases Finset.mem_insert.mp hi with rfl | hi
    · exact Finset.mem_insert_self _ _
    · exact Finset.mem_insert_of_mem (h.opened i hi)
  owner d hd hdon := by
    show Function.update g.identified fd c.id.str d.sock = d.id.str
    have hold : d ∈ xs ++ ys → Function.update g.identified fd c.id.str d.sock = d.id.str := by
      intro hd
      have hne : d.sock ≠ fd := fun he =>
        (h.fresh hfd).2 (mem_onlineSocks.mpr ⟨d, hd, hdon, he⟩)
      rw [Function.update_of_ne hne]
      exact h.owner d hd hdon
    rw [List.mem_append, List.mem_cons] at hd
    rcases hd with hd | rfl | hd
    · exact hold (List.mem_append_left _ hd)
    · rw [hsock, Function.update_self]
    · exact hold (List.mem_append_right _ hd)

/-- An offline entry may be taken out of the list and put back with another state. -/
theorem remove_offline (h : Registry k g (xs ++ c :: ys) readFds) (hoff : c.online = false) :
    Registry k g (xs ++ ys) readFds := by
  have hsub : ∀ d ∈ xs ++ ys, d ∈ xs ++ c :: ys := fun d hd => by
    rw [List.mem_append, List.mem_cons]
    rw [List.mem_append] at hd
    tauto
  have hsocks : onlineSocks (xs ++ c :: ys) = onlineSocks (xs ++ ys) := by
    rw [onlineSocks_append, onlineSocks_append, onlineSocks_cons_offline hoff]
  have hids : ((xs ++ ys).map fun c => c.id.str).Sublist
      ((xs ++ c :: ys).map fun c => c.id.str) :=
    List.Sublist.map _ ((List.sublist_cons_self _ _).append_left _)
  exact {
    ids := h.ids.sublist hids
    flag := fun d hd => h.flag d (hsub d hd)
    socks := hsocks ▸ h.socks
    client := hsocks ▸ h.client
    watched := hsocks ▸ h.watched
    opened := h.opened
    owner := fun d hd => h.owner d (hsub d hd) }

/-- An online entry goes offline, and its descriptor is closed. -/
theorem disconnect (h : Registry k g (xs ++ c :: ys) readFds) (hon : c.online = true) :
    Registry k { g with opened := g.opened.erase c.sock }
      (xs ++ { c with sock := -1, online := false } :: ys) (readFds.erase c.sock) := by
  have hnd := h.socks
  have hclient := h.client
  have hwatched := h.watched
  rw [onlineSocks_append, onlineSocks_cons_online hon] at hnd hclient hwatched
  rw [List.nodup_middle, List.nodup_cons] at hnd
  have hsocks : onlineSocks (xs ++ { c with sock := -1, online := false } :: ys) =
      onlineSocks xs ++ onlineSocks ys := by
    rw [onlineSocks_append, onlineSocks_cons_offline rfl]
  have hids : (xs ++ { c with sock := -1, online := false } :: ys).map (fun c => c.id.str) =
      (xs ++ c :: ys).map fun c => c.id.str := by simp
  exact {
    ids := hids ▸ h.ids
    flag := by
      intro d hd
      rw [List.mem_append, List.mem_cons] at hd
      rcases hd with hd | rfl | hd
      · exact h.flag d (List.mem_append_left _ hd)
      · exact iff_of_false (by simp) (by simp)
      · exact h.flag d (List.mem_append_right _ (List.mem_cons_of_mem _ hd))
    socks := hsocks ▸ hnd.2
    client := by
      intro i hi
      rw [hsocks, List.mem_append] at hi
      exact hclient i (List.mem_append.mpr (hi.imp id (List.mem_cons_of_mem _)))
    watched := by
      intro i
      rw [Finset.mem_erase, hwatched, hsocks]
      have hci : i = c.sock → k.Client i := fun he =>
        (hclient i (by rw [he]; simp)).1
      have hout : i = c.sock → i ∉ onlineSocks xs ++ onlineSocks ys := fun he => he ▸ hnd.1
      simp only [List.mem_append, List.mem_cons] at hout ⊢
      tauto
    opened := by
      intro i hi
      rw [Finset.mem_erase] at hi ⊢
      exact ⟨hi.1, h.opened i hi.2⟩
    owner := by
      intro d hd hdon
      rw [List.mem_append, List.mem_cons] at hd
      rcases hd with hd | rfl | hd
      · exact h.owner d (List.mem_append_left _ hd) hdon
      · cases hdon
      · exact h.owner d (List.mem_append_right _ (List.mem_cons_of_mem _ hd)) hdon }

theorem onlineSocks_congr {ds : List ClientStructure}
    (he : ds.map (fun c => (c.id, c.sock, c.online)) =
      cs.map fun c => (c.id, c.sock, c.online)) : onlineSocks ds = onlineSocks cs := by
  have hm := congrArg (fun l => (l.filter fun x => x.2.2).map fun x => x.2.1) he
  unfold onlineSocks
  simpa only [List.filter_map, List.map_map, Function.comp_def] using hm

/-- Changes that leave IDs, descriptors and flags alone. -/
theorem congr {ds : List ClientStructure} (h : Registry k g cs readFds)
    (he : ds.map (fun c => (c.id, c.sock, c.online)) =
      cs.map fun c => (c.id, c.sock, c.online)) : Registry k g ds readFds := by
  have hids : ds.map (fun c => c.id.str) = cs.map fun c => c.id.str := by
    have hm := congrArg (List.map fun x => CharArray.str x.1) he
    simpa only [List.map_map, Function.comp_def] using hm
  have hsocks := onlineSocks_congr he
  have hmem : ∀ d ∈ ds, ∃ c ∈ cs, c.id = d.id ∧ c.sock = d.sock ∧ c.online = d.online := by
    intro d hd
    have hd' := List.mem_map_of_mem (f := fun c => (c.id, c.sock, c.online)) hd
    rw [he, List.mem_map] at hd'
    simpa only [Prod.mk.injEq] using hd'
  exact {
    ids := hids ▸ h.ids
    flag := by
      intro d hd
      obtain ⟨c, hc, -, h2, h3⟩ := hmem d hd
      rw [← h2, ← h3]
      exact h.flag c hc
    socks := hsocks ▸ h.socks
    client := hsocks ▸ h.client
    watched := hsocks ▸ h.watched
    opened := h.opened
    owner := by
      intro d hd hon
      obtain ⟨c, hc, h1, h2, h3⟩ := hmem d hd
      rw [← h1, ← h2]
      exact h.owner c hc (h3.trans hon) }

/-- Changes of the kernel that leave the watched descriptors alone. -/
theorem of_kernel {g' : Kernel} (h : Registry k g cs readFds)
    (hopen : ∀ i ∈ readFds, i ∈ g.opened → i ∈ g'.opened)
    (hid : ∀ i ∈ onlineSocks cs, g'.identified i = g.identified i) : Registry k g' cs readFds where
  ids := h.ids
  flag := h.flag
  socks := h.socks
  client := h.client
  watched := h.watched
  opened i hi := hopen i hi (h.opened i hi)
  owner c hc hon := by
    rw [hid c.sock (mem_onlineSocks.mpr ⟨c, hc, hon, rfl⟩)]
    exact h.owner c hc hon

end Registry

/-! ## The kernel after the calls of a step -/

section Calls

variable {k : Sockets} {g : Kernel} {fd : ℤ} {addr : SockAddrIn}
  {svCl : CharArray serverHdrSize} {ret : Option (List Byte)} {es : List (Event Sys)}

theorem after_greeting (hfd : fd ≠ -1) :
    kernel.after g (greeting k.tcp fd addr svCl ret ++ es) =
      kernel.after (Registry.connected g fd (5 :: svCl.bytes.drop 1) (receivedId svCl ret).str)
        es := by
  have haccept : kernel.next g (.accept k.tcp) (fd, addr) =
      { g with opened := insert fd g.opened } := if_neg hfd
  unfold greeting
  rw [List.cons_append, Protocol.after_cons, haccept]
  rfl

theorem obeys_greeting (hfd : fd ≠ -1)
    (ho : kernel.Obeys g (greeting k.tcp fd addr svCl ret ++ es)) : 0 ≤ fd ∧ fd ∉ g.opened :=
  Or.resolve_left (show fd = -1 ∨ 0 ≤ fd ∧ fd ∉ g.opened from ho.1) hfd

theorem Flushed.quiet {sock : ℤ} {els : List QueueElement} (h : Flushed sock els es) :
    ∀ e ∈ es, Quiet e := by
  induction els generalizing es with
  | nil =>
    obtain rfl := h
    simp
  | cons el els ih =>
    obtain ⟨ret, rest, rfl, -, h⟩ := h
    intro e he
    rw [List.mem_cons, List.mem_cons] at he
    rcases he with rfl | rfl | he
    · exact fun g => rfl
    · exact fun g => rfl
    · exact ih h e he

theorem Relayed.quiet {data topic : List Byte} {bytes : ℤ} {c c' : ClientStructure}
    (h : Relayed data topic bytes c es c') : ∀ e ∈ es, Quiet e := by
  unfold Relayed at h
  split at h
  · rw [h.1]
    simp
  · split_ifs at h with hon hsf
    · obtain ⟨⟨ret, rfl, -⟩, -⟩ := h
      intro e he
      simp only [List.mem_cons, List.not_mem_nil, or_false] at he
      rcases he with rfl | rfl
      · exact fun g => rfl
      · exact fun g => rfl
    · rw [h.1]
      simp
    · rw [h.1]
      simp

theorem RelayedAll.quiet {data topic : List Byte} {bytes : ℤ}
    {ns ns' : List (Addr × ClientStructure)} (h : RelayedAll data topic bytes ns es ns') :
    ∀ e ∈ es, Quiet e := by
  induction ns generalizing es ns' with
  | nil =>
    rw [h.1]
    simp
  | cons n ns ih =>
    obtain ⟨es₁, c', es₂, ns'', rfl, -, h1, h2⟩ := h
    intro e he
    rcases List.mem_append.mp he with he | he
    · exact h1.quiet e he
    · exact ih h2 e he

theorem after_commandCalls {i : ℤ} {between : List (Event Sys)} (h : ∀ e ∈ between, Quiet e) :
    kernel.after g (commandCalls i ret between svCl ++ es) = kernel.after g es := by
  have hq : ∀ e ∈ commandCalls i ret between svCl, Quiet e := by
    intro e he
    unfold commandCalls at he
    simp only [List.cons_append, List.mem_cons, List.mem_append, List.not_mem_nil, or_false] at he
    rcases he with rfl | he | rfl | rfl
    · exact fun g => rfl
    · exact h e he
    · exact fun g => rfl
    · exact fun g => rfl
  rw [Protocol.after_append, after_quiet hq]

end Calls

/-! ## The steps -/

section Steps

variable {k : Sockets} {g : Kernel} {s : ServerState} {i : ℤ} {evs : List (Event Sys)}
  {r : ServerState × Flow}

/-- A step keeps the registry, and no other client goes offline. -/
theorem Effect.registry (he : Effect k s i evs r) (hnext : r.2 = .next) (hl : s.Lists)
    (ho : kernel.Obeys g evs) (h : Registry k g s.clientsContainer.toList s.readFds)
    (hi : k.Client i → i ∈ onlineSocks s.clientsContainer.toList) :
    Registry k (kernel.after g evs) r.1.clientsContainer.toList r.1.readFds ∧
      ∀ j ∈ onlineSocks s.clientsContainer.toList, j ≠ i →
        j ∈ onlineSocks r.1.clientsContainer.toList := by
  cases he with
  | @registered fd addr svCl ret list hfd _ hid _ hn =>
    obtain ⟨h0, hfresh⟩ := obeys_greeting hfd ho
    have hlist : list.toList =
        s.clientsContainer.toList ++ newClient (receivedId svCl ret) fd :: [] := by
      rw [LinkedList.toList, hn, List.map_append]
      rfl
    rw [after_greeting hfd, hlist]
    have h' : Registry k g (s.clientsContainer.toList ++ []) s.readFds := by
      rwa [List.append_nil]
    refine ⟨h'.connect (newClient (receivedId svCl ret) fd) (5 :: svCl.bytes.drop 1) hfresh h0
      rfl rfl ?_, fun j hj _ => ?_⟩
    · rw [List.map_append, List.map_cons, List.map_nil, List.nodup_append]
      refine ⟨h.ids, List.nodup_singleton _, fun x hx y hy => ?_⟩
      obtain ⟨c, hc, rfl⟩ := List.mem_map.mp hx
      obtain ⟨n, hn, rfl⟩ := List.mem_map.mp hc
      rw [List.mem_singleton.mp hy]
      exact hid n hn
    · rw [onlineSocks_append]
      exact List.mem_append_left _ hj
  | @refused fd addr svCl ret a c sent hfd _ hmem hid hon =>
    obtain ⟨h0, hfresh⟩ := obeys_greeting hfd ho
    rw [after_greeting hfd]
    refine ⟨h.of_kernel ?_ ?_, fun j hj _ => hj⟩
    · intro j hj hopen
      have hne : j ≠ fd := fun he => hfresh (he ▸ hopen)
      exact Finset.mem_erase.mpr ⟨hne, Finset.mem_insert_of_mem hopen⟩
    · intro j hj
      have hne : j ≠ fd := fun he => (h.fresh hfresh).2 (he ▸ hj)
      exact Function.update_of_ne hne _ _
  | @reconnected fd addr svCl ret xs a c ys es queue list hfd _ hn hid hoff hfl _ _ _ hn' =>
    obtain ⟨h0, hfresh⟩ := obeys_greeting hfd ho
    rw [LinkedList.toList_of_nodes hn] at h
    rw [after_greeting hfd, LinkedList.toList_of_nodes hn', LinkedList.toList_of_nodes hn, Protocol.after_cons,
      after_quiet hfl.quiet, ← hid]
    refine ⟨(h.remove_offline hoff).connect { c with sock := fd, online := true, queue := queue }
      (5 :: svCl.bytes.drop 1) hfresh h0 rfl rfl ?_, fun j hj _ => ?_⟩
    · simpa using h.ids
    · rw [onlineSocks_append, onlineSocks_cons_offline hoff] at hj
      rw [onlineSocks_append, onlineSocks_cons_online rfl]
      rw [List.mem_append] at hj ⊢
      exact hj.imp id (List.mem_cons_of_mem _)
  | @published datagram addr bytes slack padding msg buf es list _ _ _ hrel =>
    have hsame := hrel.map_eq (fun n => (n.2.id, n.2.sock, n.2.online)) (fun _ _ _ => rfl) hl.clients
    have hview : list.toList.map (fun c => (c.id, c.sock, c.online)) =
        s.clientsContainer.toList.map fun c => (c.id, c.sock, c.online) := by
      simpa only [LinkedList.toList, List.map_map, Function.comp_def] using hsame
    have hafter : kernel.after g (reception k.udp datagram addr bytes slack padding ++ es) = g := by
      rw [Protocol.after_append, after_quiet hrel.quiet]
      rfl
    rw [hafter]
    exact ⟨h.congr hview, fun j hj _ => Registry.onlineSocks_congr hview ▸ hj⟩
  | ignored => exact ⟨h, fun j hj _ => hj⟩
  | stopped => cases hnext
  | @subscribed i ret svCl xs a c ys topics list _ _ hn _ _ _ _ hn' =>
    have hview : list.toList.map (fun c => (c.id, c.sock, c.online)) =
        s.clientsContainer.toList.map fun c => (c.id, c.sock, c.online) := by
      rw [LinkedList.toList_of_nodes hn, LinkedList.toList_of_nodes hn', List.map_append, List.map_append]
      rfl
    exact ⟨h.congr hview, fun j hj _ => Registry.onlineSocks_congr hview ▸ hj⟩
  | @unsubscribed i ret svCl xs a c ys topics list _ _ hn _ _ _ _ hn' =>
    have hview : list.toList.map (fun c => (c.id, c.sock, c.online)) =
        s.clientsContainer.toList.map fun c => (c.id, c.sock, c.online) := by
      rw [LinkedList.toList_of_nodes hn, LinkedList.toList_of_nodes hn', List.map_append, List.map_append]
      rfl
    exact ⟨h.congr hview, fun j hj _ => Registry.onlineSocks_congr hview ▸ hj⟩
  | @disconnected i ret svCl xs a c ys list hk _ hn _ hc _ hn' =>
    have hmem := hi hk
    have hne : i ≠ -1 := by
      have h0 := (h.client i hmem).2
      omega
    rw [LinkedList.toList_of_nodes hn] at h hmem ⊢
    have hon : c.online = true := (h.flag c (by simp)).mpr (by rw [hc]; exact hne)
    have hquiet : ∀ e ∈ [(⟨.printf (.disc c.id), ()⟩ : Event Sys)], Quiet e := by
      intro e he
      rw [List.mem_singleton.mp he]
      exact fun g => rfl
    rw [after_commandCalls hquiet, if_neg hne, LinkedList.toList_of_nodes hn', ← hc]
    refine ⟨h.disconnect hon, fun j hj hji => ?_⟩
    rw [onlineSocks_append, onlineSocks_cons_online hon, List.mem_append, List.mem_cons] at hj
    rw [onlineSocks_append, onlineSocks_cons_offline rfl, List.mem_append]
    exact hj.imp id fun h => h.resolve_left (hc ▸ hji)
  | unknown => exact ⟨h, fun j hj _ => hj⟩

/-- The invariant of the points of a run. -/
def RegistryAt (k : Sockets) (g : Kernel) : Point ServerState → Prop
  | .select s => Registry k g s.clientsContainer.toList s.readFds
  | .scan s tmp i => Registry k g s.clientsContainer.toList s.readFds ∧
      Ready k s.clientsContainer.toList tmp i
  | .left s => ∃ g', Registry k g' s.clientsContainer.toList s.readFds

/-- Both are kept along every run that starts in a kernel where the server's own descriptors are
open. -/
theorem run_registryAt {g₀ : Kernel} {p : Point ServerState} {hs : List (Handled Sys ServerState)}
    (h0 : Registry k g₀ [] {0, k.tcp, k.udp})
    (h : (server k).Run kernel g₀ (.select (serverInit k)) g p hs) :
    p.state.Lists ∧ RegistryAt k g p := by
  have hinit : RegistryAt k g₀ (.select (serverInit k)) := h0
  refine h.invariant (fun g p => p.state.Lists ∧ RegistryAt k g p)
    ⟨lists_serverInit k, hinit⟩ ?_ ?_ ?_ ?_
  · rintro g s tmp ⟨hl, hr⟩ hsub
    refine ⟨hl, hr, fun j hj _ hk => ?_⟩
    exact ((hr.watched j).mp (hsub hj)).resolve_left (not_not_intro hk)
  · rintro g s tmp i ⟨hl, hr, hready⟩ hi
    exact ⟨hl, hr, fun j hj hle => hready j hj (by omega)⟩
  · rintro g s tmp i ⟨hl, hr, -⟩
    exact ⟨hl, hr⟩
  · rintro g s tmp i evs ⟨s', flow⟩ ⟨hl, hr, hready⟩ hi he ho
    have heff := mainBody_effect hl he
    refine ⟨by rw [Point.state_following]; exact heff.lists hl, ?_⟩
    cases flow with
    | leave =>
      obtain rfl : s' = s := by cases heff; rfl
      exact ⟨g, hr⟩
    | next =>
      obtain ⟨h1, h2⟩ := heff.registry rfl hl ho hr (hready i hi le_rfl)
      exact ⟨h1, fun j hj hle hk => h2 j (hready j hj (by omega) hk) (by omega)⟩

theorem ServerRun.registryAt {p : Point ServerState} {hs : List (Handled Sys ServerState)}
    (h : ServerRun k g p hs) : RegistryAt k g p :=
  (run_registryAt (Registry.init k) h).2

/-- The kernel that a point of a run agrees with; behind the loop it is an earlier one. -/
theorem ServerRun.registry {p : Point ServerState} {hs : List (Handled Sys ServerState)}
    (h : ServerRun k g p hs) :
    ∃ g', Registry k g' p.state.clientsContainer.toList p.state.readFds := by
  have hat := h.registryAt
  cases p with
  | select s => exact ⟨g, hat⟩
  | scan s tmp i => exact ⟨g, hat.1⟩
  | left s => exact hat

/-- The registry invariant, in the terms of the program: IDs differ, an entry is online exactly
when it has a descriptor, the descriptors of the online entries differ and are the watched ones
besides the server's own, and a descriptor that is left to `manage_command_from_client` is found
in the registry, with the ID that arrived on it. -/
theorem registry_invariant {p : Point ServerState} {hs : List (Handled Sys ServerState)}
    (h : ServerRun k g p hs) :
    (p.state.clientsContainer.toList.Pairwise fun c d =>
      strncmp c.id.bytes d.id.bytes idLen ≠ 0) ∧
    (∀ c ∈ p.state.clientsContainer.toList, c.online = true ↔ c.sock ≠ -1) ∧
    ((p.state.clientsContainer.toList.filter (·.online)).map (·.sock)).Nodup ∧
    (∀ i, (∃ c ∈ p.state.clientsContainer.toList, c.online = true ∧ c.sock = i) ↔
      i ∈ p.state.readFds ∧ i ≠ k.tcp ∧ i ≠ k.udp ∧ i ≠ 0) ∧
    ∀ s tmp i, p = .scan s tmp i → i ∈ tmp → i ≠ k.tcp → i ≠ k.udp → i ≠ 0 →
      ∃ a c next, getClientBySock s.clientsContainer i = .ok (some a) ∧
        deref s.clientsContainer.heap (some a) = .ok (a, ⟨c, next⟩) ∧
        c.online = true ∧ c.sock = i ∧ c.id.str = g.identified i := by
  have hat := h.registryAt
  obtain ⟨g', hreg⟩ := h.registry
  refine ⟨?_, hreg.flag, hreg.socks, fun i => ?_, ?_⟩
  · have hids := hreg.ids
    rw [List.Nodup, List.pairwise_map] at hids
    refine hids.imp fun {c d} hne he => hne ?_
    exact (strncmp_array _ _ le_rfl).mp he
  · rw [← mem_onlineSocks]
    have hc := hreg.client i
    have hw := hreg.watched i
    unfold Sockets.Client at hc hw
    tauto
  · rintro s tmp i rfl hi h1 h2 h3
    obtain ⟨hr, hready⟩ := hat
    obtain ⟨c, hc, hon, hsock⟩ := mem_onlineSocks.mp (hready i hi le_rfl ⟨h1, h2, h3⟩)
    have hl : s.Lists := ServerRun.lists h
    rcases getClientBySock_spec hl.registry i with ⟨-, hall⟩ | ⟨xs, a, d, ys, hn, -, hd, he⟩
    · obtain ⟨n, hn, rfl⟩ := List.mem_map.mp hc
      exact absurd hsock (hall n hn)
    · have hmem : (a, d) ∈ s.clientsContainer.nodes := by rw [hn]; simp
      obtain ⟨nx, hderef⟩ := hl.registry.repr.deref_mem hmem
      have hd' : d ∈ s.clientsContainer.toList := List.mem_map_of_mem hmem
      have hdon : d.online = true := by
        rw [hr.flag d hd', hd, ← hsock]
        exact (hr.flag c hc).mp hon
      exact ⟨a, d, nx, he, hderef, hdon, hd, by rw [← hd, hr.owner d hd' hdon]⟩

/-- Two clients connect, the first leaves and a third connection reuses its descriptor: it asks for
the ID of the second and is refused, and the first client comes back on the same descriptor. -/
theorem registry_invariant_reconnected :
    ∃ g s hs, ServerRun sockets g (.select s) hs ∧ s.clientsContainer.toList.length = 2 ∧
      (s.clientsContainer.toList.Pairwise fun c d =>
        strncmp c.id.bytes d.id.bytes idLen ≠ 0) ∧
      ((s.clientsContainer.toList.filter (·.online)).map (·.sock)).Nodup := by
  obtain ⟨g, s, hs, hrun, hlen⟩ := serveScript_check
    [(3, scripted 5 [] (idMessage [65])), (3, scripted 6 [] (idMessage [66])),
      (5, scripted 0 [] (commandMessage 3 0 [])), (3, scripted 5 [] (idMessage [66])),
      (3, scripted 5 [] (idMessage [65]))]
    (fun x => x.2.clientsContainer.toList.length == 2) (by decide +kernel)
  have hinv := registry_invariant hrun
  exact ⟨g, s, hs, hrun, by simpa using hlen, hinv.1, hinv.2.2.1⟩

end Steps

end TopicServer
