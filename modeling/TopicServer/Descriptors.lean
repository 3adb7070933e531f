import TopicServer.Registry

/-!
# Descriptors

`fdmax` bounds `select` and the scan behind it, but it is only counted: up with every connection
that is kept, down when a client leaves that stands on it. With an `accept` that returns the lowest
unused descriptor it stays above every open one (`fdmax_covers`). It may rise beyond them, by one
with every connection on a descriptor that was free below it (`fdmax_lt_add_reuses`).
-/

namespace TopicServer

open Interactive Linked Memory

/-- `FD_SETSIZE`. -/
def fdSetSize : ℤ := 1024

/-- The lowest descriptor that is not open. -/
def Lowest (opened : Finset ℤ) (fd : ℤ) : Prop :=
  0 ≤ fd ∧ fd ∉ opened ∧ ∀ j, 0 ≤ j → j < fd → j ∈ opened

/-- The answers of a kernel whose `accept` returns the lowest unused descriptor. -/
def Kernel.LowestExpected (g : Kernel) : (c : Call) → Answer c → Prop
  | .accept _, r => r.1 = -1 ∨ Lowest g.opened r.1
  | _, _ => True

def lowest : Protocol Sys Kernel where
  Allowed _ _ := True
  Expected := Kernel.LowestExpected
  next := Kernel.next

/-- A connection that is not refused, on a descriptor up to `fdmax`. -/
def Reuses (k : Sockets) (x : Handled Sys ServerState) : Prop :=
  ∃ fd addr svCl ret rest, x.events = greeting k.tcp fd addr svCl ret ++ rest ∧
    fd ≤ x.pre.fdmax ∧
    ¬ ∃ c ∈ x.pre.clientsContainer.toList, c.id.str = (receivedId svCl ret).str ∧ c.online = true

section Descriptors

variable {k : Sockets} {g : Kernel} {s : ServerState} {i : ℤ} {evs : List (Event Sys)}
  {r : ServerState × Flow}

theorem after_lowest (g : Kernel) (evs : List (Event Sys)) : lowest.after g evs = kernel.after g evs :=
  Protocol.after_map (P := kernel) (O := lowest) (f := id) (fun _ _ _ => rfl) g evs

theorem expected_of_lowest (g : Kernel) (c : Call) (r : Answer c) (h : lowest.Expected g c r) :
    kernel.Expected g c r := by
  cases c with
  | accept sockfd => exact h.imp id fun h => ⟨h.1, h.2.1⟩
  | _ => trivial

theorem run_of_lowest {g₀ : Kernel} {p₀ p : Point ServerState} {hs : List (Handled Sys ServerState)}
    (h : (server k).Run lowest g₀ p₀ g p hs) : (server k).Run kernel g₀ p₀ g p hs :=
  h.mono (P := lowest) (O := kernel) (fun _ _ _ => rfl) expected_of_lowest

/-! ## What a step does to the descriptors -/

/-- Without an `accept` no descriptor is opened. -/
theorem after_opened_subset (h : ∀ e ∈ evs, ∀ fd, e.call ≠ Call.accept fd) :
    (kernel.after g evs).opened ⊆ g.opened := by
  induction evs generalizing g with
  | nil => exact Finset.Subset.refl _
  | cons e evs ih =>
    obtain ⟨c, r⟩ := e
    have hnext : (kernel.next g c r).opened ⊆ g.opened := by
      cases c with
      | accept fd => exact absurd rfl (h _ List.mem_cons_self fd)
      | close fd => exact Finset.erase_subset _ _
      | send site fd buf => cases site <;> exact Finset.Subset.refl _
      | recv site fd len => cases site <;> exact Finset.Subset.refl _
      | _ => exact Finset.Subset.refl _
    exact (ih fun e he => h e (List.mem_cons_of_mem _ he)).trans hnext

/-- A step opens the lowest unused descriptor for a connection that it keeps, closes the
descriptor of a client that leaves, or opens none. -/
theorem Effect.descriptors (he : Effect k s i evs r) (ho : lowest.Obeys g evs)
    (hreg : Registry k g s.clientsContainer.toList s.readFds)
    (hi : k.Client i → i ∈ onlineSocks s.clientsContainer.toList) :
    (∃ fd, Lowest g.opened fd ∧ (kernel.after g evs).opened = insert fd g.opened ∧
      r.1.readFds = insert fd s.readFds ∧ r.1.fdmax = s.fdmax + 1 ∧
      (∃ addr, (⟨.accept k.tcp, (fd, addr)⟩ : Event Sys) ∈ evs) ∧
      (fd ≤ s.fdmax → Reuses k ⟨s, i, evs, r.1⟩)) ∨
    (i ∈ g.opened ∧ (kernel.after g evs).opened = g.opened.erase i ∧
      r.1.readFds = s.readFds.erase i ∧
      r.1.fdmax = if s.fdmax = i then s.fdmax - 1 else s.fdmax) ∨
    ((kernel.after g evs).opened ⊆ g.opened ∧ r.1.readFds = s.readFds ∧
      r.1.fdmax = s.fdmax) := by
  have hquiet {es : List (Event Sys)} (hq : ∀ e ∈ es, Quiet e) :
      (kernel.after g es).opened ⊆ g.opened := by
    rw [after_quiet hq]
  have hkept {fd : ℤ} {addr : SockAddrIn} {svCl : CharArray serverHdrSize}
      {ret : Option (List Byte)} {es : List (Event Sys)} (hfd : fd ≠ -1)
      (ho : lowest.Obeys g (greeting k.tcp fd addr svCl ret ++ es)) (hq : ∀ e ∈ es, Quiet e) :
      Lowest g.opened fd ∧ (kernel.after g (greeting k.tcp fd addr svCl ret ++ es)).opened =
        insert fd g.opened := by
    refine ⟨Or.resolve_left (show fd = -1 ∨ Lowest g.opened fd from ho.1) hfd, ?_⟩
    rw [after_greeting hfd, after_quiet hq]
    rfl
  cases he with
  | @registered fd addr svCl ret list hfd _ hid _ hn =>
    have hq : ∀ e ∈ [(⟨.printf (.newConn (receivedId svCl ret) addr), ()⟩ : Event Sys)],
        Quiet e := by
      intro e he
      rw [List.mem_singleton.mp he]
      exact fun g => rfl
    obtain ⟨hlow, hopen⟩ := hkept hfd ho hq
    refine Or.inl ⟨fd, hlow, hopen, rfl, rfl, ⟨addr, List.mem_cons_self⟩, fun hle => ?_⟩
    refine ⟨fd, addr, svCl, ret, _, rfl, hle, ?_⟩
    rintro ⟨c, hc, he, -⟩
    obtain ⟨n, hn, rfl⟩ := List.mem_map.mp hc
    exact hid n hn he
  | @refused fd addr svCl ret a c sent hfd _ _ _ _ =>
    have hfresh := (Or.resolve_left (show fd = -1 ∨ Lowest g.opened fd from ho.1) hfd).2.1
    refine Or.inr (Or.inr ⟨?_, rfl, rfl⟩)
    rw [after_greeting hfd]
    show (insert fd g.opened).erase fd ⊆ g.opened
    rw [Finset.erase_insert hfresh]
  | @reconnected fd addr svCl ret xs a c ys es queue list hfd _ hn hid hoff hfl _ _ _ hn' =>
    have hq : ∀ e ∈ (⟨.printf (.newConn c.id addr), ()⟩ : Event Sys) :: es, Quiet e := by
      intro e he
      rcases List.mem_cons.mp he with rfl | he
      · exact fun g => rfl
      · exact hfl.quiet e he
    obtain ⟨hlow, hopen⟩ := hkept hfd ho hq
    refine Or.inl ⟨fd, hlow, hopen, rfl, rfl, ⟨addr, List.mem_cons_self⟩, fun hle => ?_⟩
    refine ⟨fd, addr, svCl, ret, _, rfl, hle, ?_⟩
    rintro ⟨d, hd, he, hon⟩
    -- two entries with one ID are the same, and this one is offline
    have hc : c ∈ s.clientsContainer.toList := by
      rw [LinkedList.toList_of_nodes hn]
      simp
    have hsame := List.inj_on_of_nodup_map hreg.ids hd hc (he.trans hid.symm)
    rw [hsame, hoff] at hon
    cases hon
  | @published datagram addr bytes slack padding msg buf es list _ _ _ hrel =>
    refine Or.inr (Or.inr ⟨?_, rfl, rfl⟩)
    rw [Protocol.after_append]
    exact hquiet hrel.quiet
  | ignored => exact Or.inr (Or.inr ⟨Finset.Subset.refl _, rfl, rfl⟩)
  | stopped hclose =>
    refine Or.inr (Or.inr ⟨after_opened_subset fun e he => ?_, rfl, rfl⟩)
    rcases List.mem_cons.mp he with rfl | he
    · exact fun _ => nofun
    · intro fd hcall
      have hleave := closeFrom_calls.exec hclose e he
      rw [hcall] at hleave
      exact hleave
  | subscribed => exact Or.inr (Or.inr ⟨Finset.Subset.refl _, rfl, rfl⟩)
  | unsubscribed => exact Or.inr (Or.inr ⟨Finset.Subset.refl _, rfl, rfl⟩)
  | @disconnected i ret svCl xs a c ys list hk =>
    have h0 := (hreg.client i (hi hk)).2
    refine Or.inr (Or.inl ⟨?_, ?_, rfl, rfl⟩)
    · exact hreg.opened i ((hreg.watched i).mpr (Or.inr (hi hk)))
    · rw [if_neg (by omega)]
      rfl
  | unknown => exact Or.inr (Or.inr ⟨Finset.Subset.refl _, rfl, rfl⟩)

/-! ## Every descriptor is covered -/

/-- `fdmax` bounds the open and the watched descriptors. -/
structure Covered (g : Kernel) (s : ServerState) : Prop where
  opened : ∀ fd ∈ g.opened, fd ≤ s.fdmax
  watched : ∀ fd ∈ s.readFds, fd ≤ s.fdmax

/-- The lowest unused descriptor is at most the one behind `fdmax`. -/
theorem Covered.lowest_le {fd : ℤ} (h : Covered g s) (hmax : 0 ≤ s.fdmax)
    (hlow : Lowest g.opened fd) : fd ≤ s.fdmax + 1 := by
  by_contra hlt
  have hbehind := hlow.2.2 (s.fdmax + 1) (by omega) (by omega)
  have hle := h.opened _ hbehind
  omega

theorem Registry.fdmax_pos (h : Registry k g s.clientsContainer.toList s.readFds)
    (hc : Covered g s) : 0 < s.fdmax := by
  have hudp : k.udp ∈ s.readFds := (h.watched k.udp).mpr (Or.inl fun hk => hk.2.1 rfl)
  exact k.udp_pos.trans_le (hc.watched _ hudp)

theorem Effect.covered (he : Effect k s i evs r) (ho : lowest.Obeys g evs)
    (hreg : Registry k g s.clientsContainer.toList s.readFds)
    (hi : k.Client i → i ∈ onlineSocks s.clientsContainer.toList) (h : Covered g s) :
    Covered (kernel.after g evs) r.1 := by
  have hpos := hreg.fdmax_pos h
  rcases he.descriptors ho hreg hi with
    ⟨fd, hlow, hopen, hread, hmax, -⟩ | ⟨hmem, hopen, hread, hmax⟩ | ⟨hopen, hread, hmax⟩
  · have hle := h.lowest_le hpos.le hlow
    constructor
    · intro j hj
      rw [hopen, Finset.mem_insert] at hj
      rcases hj with rfl | hj
      · omega
      · have hj := h.opened j hj
        omega
    · intro j hj
      rw [hread, Finset.mem_insert] at hj
      rcases hj with rfl | hj
      · omega
      · have hj := h.watched j hj
        omega
  · -- what is left is below `fdmax` also where that was the closed descriptor
    constructor
    · intro j hj
      rw [hopen, Finset.mem_erase] at hj
      have hle := h.opened j hj.2
      rw [hmax]
      split_ifs with heq
      · have hne := hj.1
        omega
      · exact hle
    · intro j hj
      rw [hread, Finset.mem_erase] at hj
      have hle := h.watched j hj.2
      rw [hmax]
      split_ifs with heq
      · have hne := hj.1
        omega
      · exact hle
  · constructor
    · intro j hj
      rw [hmax]
      exact h.opened j (hopen hj)
    · intro j hj
      rw [hread] at hj
      rw [hmax]
      exact h.watched j hj

variable {g₀ : Kernel} {p : Point ServerState} {hs : List (Handled Sys ServerState)}

theorem run_covered (hopen : ({0, k.tcp, k.udp} : Finset ℤ) ⊆ g₀.opened)
    (hmax : ∀ fd ∈ g₀.opened, fd ≤ k.udp)
    (h : (server k).Run lowest g₀ (.select (serverInit k)) g p hs) : Covered g p.state := by
  induction h with
  | start => exact ⟨hmax, fun fd hfd => hmax fd (hopen hfd)⟩
  | select _ _ _ ih => exact ih
  | skip _ _ _ ih => exact ih
  | done _ _ ih => exact ih
  | @handle g s hs tmp i evs r hrun _ hmem he ho ih =>
    obtain ⟨hl, hreg, hready⟩ := run_registryAt (.start hopen) (run_of_lowest hrun)
    rw [Point.state_following, after_lowest]
    exact (mainBody_effect hl he).covered ho hreg (hready i hmem le_rfl) ih

/-- In every run over an `accept` that returns the lowest unused descriptor, `fdmax` is at least
every open and every watched descriptor, so that `select` and the scan cover every connected
client. -/
theorem fdmax_covers (hopen : ({0, k.tcp, k.udp} : Finset ℤ) ⊆ g₀.opened)
    (hmax : ∀ fd ∈ g₀.opened, fd ≤ k.udp)
    (h : (server k).Run lowest g₀ (.select (serverInit k)) g p hs) :
    (∀ fd ∈ g.opened, fd ≤ p.state.fdmax) ∧ (∀ fd ∈ p.state.readFds, fd ≤ p.state.fdmax) ∧
    ∀ c ∈ p.state.clientsContainer.toList, c.online = true →
      c.sock ∈ p.state.readFds ∧ 0 ≤ c.sock ∧ c.sock ≤ p.state.fdmax := by
  have hcov := run_covered hopen hmax h
  refine ⟨hcov.opened, hcov.watched, fun c hc hon => ?_⟩
  obtain ⟨g', hreg⟩ : ∃ g', Registry k g' p.state.clientsContainer.toList p.state.readFds := by
    have hat := (run_registryAt (.start hopen) (run_of_lowest h)).2
    cases p with
    | select s => exact ⟨g, hat⟩
    | scan s tmp i => exact ⟨g, hat.1⟩
    | left s => exact hat
  have hsock : c.sock ∈ onlineSocks p.state.clientsContainer.toList :=
    mem_onlineSocks.mpr ⟨c, hc, hon, rfl⟩
  have hread := (hreg.watched _).mpr (Or.inr hsock)
  exact ⟨hread, (hreg.client _ hsock).2, hcov.watched _ hread⟩

/-! ## The drift of `fdmax` -/

open Classical in
/-- The number of connections that reuse a descriptor up to `fdmax`. -/
noncomputable def reuses (k : Sockets) (hs : List (Handled Sys ServerState)) : ℕ :=
  hs.countP fun x => Reuses k x

/-- Every descriptor that is opened fits into an `fd_set`. -/
def AcceptsSmall (k : Sockets) (hs : List (Handled Sys ServerState)) : Prop :=
  ∀ x ∈ hs, ∀ fd addr, (⟨.accept k.tcp, (fd, addr)⟩ : Event Sys) ∈ x.events → fd < fdSetSize

/-- `fdmax` leaves the range of an `fd_set` by one with every reuse, at most. -/
theorem fdmax_lt_add_reuses (hopen : ({0, k.tcp, k.udp} : Finset ℤ) ⊆ g₀.opened)
    (hmax : ∀ fd ∈ g₀.opened, fd ≤ k.udp) (hsize : ∀ fd ∈ g₀.opened, fd < fdSetSize)
    (h : (server k).Run lowest g₀ (.select (serverInit k)) g p hs) (hsmall : AcceptsSmall k hs) :
    p.state.fdmax < fdSetSize + reuses k hs := by
  induction h with
  | start =>
    have hudp := hsize k.udp (hopen (by simp))
    exact hudp.trans_le (by simp)
  | select _ _ _ ih => exact ih hsmall
  | skip _ _ _ ih => exact ih hsmall
  | done _ _ ih => exact ih hsmall
  | @handle g s hs tmp i evs r hrun _ hmem he ho ih =>
    have ih := ih fun x hx => hsmall x (List.mem_append_left _ hx)
    obtain ⟨hl, hreg, hready⟩ := run_registryAt (.start hopen) (run_of_lowest hrun)
    have hcov : Covered g s := run_covered hopen hmax hrun
    rw [Point.state_scan] at ih
    rw [Point.state_following]
    have hcount : reuses k (hs ++ [⟨s, i, evs, r.1⟩]) =
        reuses k hs + reuses k [⟨s, i, evs, r.1⟩] := List.countP_append
    have heff : Effect k s i evs r := mainBody_effect hl he
    rcases heff.descriptors ho hreg (hready i hmem le_rfl) with
      ⟨fd, hlow, -, -, hup, ⟨addr, hacc⟩, hreuse⟩ | ⟨-, -, -, hdown⟩ | ⟨-, -, hsame⟩
    · have hfd : fd < fdSetSize :=
        hsmall _ (List.mem_append_right _ (List.mem_singleton_self _)) fd addr hacc
      have hle := hcov.lowest_le (hreg.fdmax_pos hcov).le hlow
      by_cases hold : fd ≤ s.fdmax
      · have hone : reuses k [⟨s, i, evs, r.1⟩] = 1 := by
          simp [reuses, hreuse hold]
        omega
      · omega
    · rw [hdown]
      split_ifs <;> omega
    · omega

/-- While every connection that is kept stands behind `fdmax`, `fdmax` is a descriptor that fits
into an `fd_set`. -/
theorem fdmax_bounded (hopen : ({0, k.tcp, k.udp} : Finset ℤ) ⊆ g₀.opened)
    (hmax : ∀ fd ∈ g₀.opened, fd ≤ k.udp) (hsize : ∀ fd ∈ g₀.opened, fd < fdSetSize)
    (h : (server k).Run lowest g₀ (.select (serverInit k)) g p hs) (hsmall : AcceptsSmall k hs)
    (hno : ∀ x ∈ hs, ¬ Reuses k x) : p.state.fdmax < fdSetSize := by
  have hlt := fdmax_lt_add_reuses hopen hmax hsize h hsmall
  have hzero : reuses k hs = 0 := by
    unfold reuses
    rw [List.countP_eq_zero]
    intro x hx
    simpa using hno x hx
  omega

end Descriptors

/-! ## Runs with a free descriptor below `fdmax` -/

/-- A server that was started with the standard descriptors open. -/
def started : Kernel := { kernelInit sockets with opened := {0, 1, 2, 3, 4} }

/-- The registry with a client on 5 and one more on 6. -/
def twoClients (c : ClientStructure) : LinkedList ClientStructure where
  head := some 0
  tail := some 1
  size := 2
  heap := ⟨[some ⟨c, some 1⟩, some ⟨newClient (.ofList idLen [66]) 6, none⟩]⟩

/-- One client on 5. -/
def oneConnected : ServerState where
  clientsContainer := ⟨some 0, some 0, 1, ⟨[some ⟨newClient (.ofList idLen [65]) 5, none⟩]⟩⟩
  readFds := insert 5 {0, 3, 4}
  fdmax := 5

/-- Clients on 5 and 6. -/
def bothConnected (m : ℤ) : ServerState where
  clientsContainer := twoClients (newClient (.ofList idLen [65]) 5)
  readFds := insert 6 (insert 5 {0, 3, 4})
  fdmax := m

/-- The first client has left. -/
def firstLeft (m : ℤ) : ServerState where
  clientsContainer :=
    twoClients { newClient (.ofList idLen [65]) 5 with sock := -1, online := false }
  readFds := (insert 6 (insert 5 {0, 3, 4}) : Finset ℤ).erase 5
  fdmax := if m = 5 then m - 1 else m

/-- The calls for a new connection with one byte of ID. -/
def connectCalls (fd : ℤ) (id : Byte) : List (Event Sys) :=
  greeting 3 fd ⟨0, 0⟩ (.ofList serverHdrSize []) (some (idMessage [id])) ++
    [⟨.printf (.newConn (.ofList idLen [id]) ⟨0, 0⟩), ()⟩]

/-- The calls for an exit command. -/
def leaveCalls5 : List (Event Sys) :=
  commandCalls 5 (some (commandMessage 3 0 [])) [⟨.printf (.disc (.ofList idLen [65])), ()⟩]
    (.ofList serverHdrSize []) ++ [⟨.close 5, ()⟩]

theorem connect_first : (mainBody sockets (serverInit sockets) 3).play
    (fun _ => scripted 5 [] (idMessage [65])) 0 = (connectCalls 5 65, .ok (oneConnected, .next)) := by
  rfl

theorem connect_second : (mainBody sockets oneConnected 3).play
    (fun _ => scripted 6 [] (idMessage [66])) 0 =
      (connectCalls 6 66, .ok (bothConnected 6, .next)) := by
  rfl

theorem leave_first (m : ℤ) : (mainBody sockets (bothConnected m) 5).play
    (fun _ => scripted 0 [] (commandMessage 3 0 [])) 0 =
      (leaveCalls5, .ok (firstLeft m, .next)) := by
  rfl

theorem return_first {m : ℤ} (h : m ≠ 5) : (mainBody sockets (firstLeft m) 3).play
    (fun _ => scripted 5 [] (idMessage [65])) 0 =
      (connectCalls 5 65, .ok (bothConnected (m + 1), .next)) := by
  have hstate : bothConnected (m + 1) =
      { clientsContainer := twoClients (newClient (.ofList idLen [65]) 5)
        readFds := insert 5 ((insert 6 (insert 5 {0, 3, 4}) : Finset ℤ).erase 5)
        fdmax := (if m = 5 then m - 1 else m) + 1 } := by
    rw [Finset.insert_erase (by decide), if_neg h]
    rfl
  rw [hstate]
  rfl

section Cycle

variable {g : Kernel} {s s' : ServerState} {hs : List (Handled Sys ServerState)} {m : ℤ}

/-- A run from the start in which only descriptors below 7 were opened. -/
def Reached (g : Kernel) (s : ServerState) (opened : Finset ℤ) : Prop :=
  g.opened = opened ∧ ∃ hs, (server sockets).Run lowest started (.select (serverInit sockets)) g
    (.select s) hs ∧ AcceptsSmall sockets hs

/-- One more descriptor is handled. -/
theorem Reached.round {i : ℤ} {opened : Finset ℤ} {answers : (c : Call) → Answer c}
    {evs : List (Event Sys)} (h : Reached g s opened) (hi : i ∈ s.readFds) (h0 : 0 ≤ i)
    (hle : i ≤ s.fdmax)
    (hplay : (mainBody sockets s i).play (fun _ => answers) 0 = (evs, .ok (s', .next)))
    (ho : lowest.Obeys g evs)
    (hsmall : ∀ fd addr, (⟨.accept 3, (fd, addr)⟩ : Event Sys) ∈ evs → fd < fdSetSize) :
    Reached (lowest.after g evs) s' (lowest.after g evs).opened := by
  obtain ⟨-, hs, hrun, hacc⟩ := h
  have he := Program.exec_play (fun _ => answers) (mainBody sockets s i) 0
  rw [hplay] at he
  refine ⟨rfl, _, hrun.round hi h0 hle he ho, fun x hx => ?_⟩
  rcases List.mem_append.mp hx with hx | hx
  · exact hacc x hx
  · rw [List.mem_singleton.mp hx]
    exact hsmall

theorem obeys_connect {fd : ℤ} {id : Byte} (h : Lowest g.opened fd) :
    lowest.Obeys g (connectCalls fd id) :=
  ⟨Or.inr h, trivial, trivial, trivial, trivial, trivial⟩

theorem opened_connect {fd : ℤ} {id : Byte} (h : 0 ≤ fd) :
    (lowest.after g (connectCalls fd id)).opened = insert fd g.opened := by
  have hne : fd ≠ -1 := by omega
  rw [after_lowest]
  exact congrArg Kernel.opened (after_greeting (k := sockets) hne)

theorem accepted_connect {fd fd' : ℤ} {id : Byte} {addr : SockAddrIn}
    (h : (⟨.accept 3, (fd', addr)⟩ : Event Sys) ∈ connectCalls fd id) : fd' = fd := by
  simp only [connectCalls, greeting, List.cons_append, List.nil_append, List.mem_cons,
    List.not_mem_nil, or_false] at h
  rcases h with h | h | h | h | h
  · cases h
    rfl
  all_goals cases h

/-- The first client leaves and comes back on its descriptor: `fdmax` is one more. -/
theorem Reached.cycle (h : Reached g (bothConnected m) {0, 1, 2, 3, 4, 5, 6}) (hm : 6 ≤ m) :
    ∃ g', Reached g' (bothConnected (m + 1)) {0, 1, 2, 3, 4, 5, 6} := by
  have hopen := h.1
  have h5 : (5 : ℤ) ∈ (insert 6 (insert 5 {0, 3, 4}) : Finset ℤ) := by decide
  have h3 : (3 : ℤ) ∈ (insert 6 (insert 5 {0, 3, 4}) : Finset ℤ).erase 5 := by decide
  have hleft := h.round (i := 5) h5 (by decide) (by show (5 : ℤ) ≤ m; omega)
    (leave_first m) ⟨trivial, trivial, trivial, trivial, trivial, trivial⟩ (by
      intro fd addr hmem
      simp [leaveCalls5, commandCalls] at hmem)
  have hopen' : (lowest.after g leaveCalls5).opened = {0, 1, 2, 3, 4, 6} := by
    show g.opened.erase 5 = _
    rw [hopen]
    rfl
  have hlow : Lowest (lowest.after g leaveCalls5).opened 5 := by
    rw [hopen']
    refine ⟨by decide, by decide, fun j h0 hj => ?_⟩
    simp only [Finset.mem_insert, Finset.mem_singleton]
    omega
  have hback := hleft.round (i := 3) h3 (by decide)
    (by show (3 : ℤ) ≤ if m = 5 then m - 1 else m; rw [if_neg (by omega)]; omega)
    (return_first (by omega)) (obeys_connect hlow) (by
      intro fd addr hmem
      rw [accepted_connect hmem]
      decide)
  have hall : insert 5 ({0, 1, 2, 3, 4, 6} : Finset ℤ) = {0, 1, 2, 3, 4, 5, 6} := by decide
  rw [opened_connect (by decide), hopen', hall] at hback
  exact ⟨_, hback⟩

theorem lowest_started : Lowest started.opened 5 := by
  refine ⟨by decide, by decide, fun j h0 hj => ?_⟩
  simp only [started, Finset.mem_insert, Finset.mem_singleton]
  omega

/-- Two clients are connected. -/
theorem reached_both : ∃ g, Reached g (bothConnected 6) {0, 1, 2, 3, 4, 5, 6} := by
  have hstart : Reached started (serverInit sockets) {0, 1, 2, 3, 4} :=
    ⟨rfl, [], .start, fun x hx => by cases hx⟩
  have hone := hstart.round (i := 3) (by decide) (by decide) (by decide) connect_first
    (obeys_connect lowest_started) (by
      intro fd addr hmem
      rw [accepted_connect hmem]
      decide)
  rw [opened_connect (by decide)] at hone
  have hlow' : Lowest (lowest.after started (connectCalls 5 65)).opened 6 := by
    rw [opened_connect (by decide)]
    refine ⟨by decide, by decide, fun j h0 hj => ?_⟩
    simp only [started, Finset.mem_insert, Finset.mem_singleton]
    omega
  have htwo := hone.round (i := 3) (by decide) (by decide) (by decide) connect_second
    (obeys_connect hlow') (by
      intro fd addr hmem
      rw [accepted_connect hmem]
      decide)
  have hall : insert 6 (insert 5 started.opened) = {0, 1, 2, 3, 4, 5, 6} := by decide
  rw [opened_connect (by decide), opened_connect (by decide), hall] at htwo
  exact ⟨_, htwo⟩

theorem reached_cycles (n : ℕ) : ∃ g, Reached g (bothConnected (6 + n)) {0, 1, 2, 3, 4, 5, 6} := by
  induction n with
  | zero => simpa using reached_both
  | succ n ih =>
    obtain ⟨g, h⟩ := ih
    obtain ⟨g', h'⟩ := h.cycle (by omega)
    rw [add_assoc] at h'
    exact ⟨g', by exact_mod_cast h'⟩

/-- With seven descriptors open at most, the first of two clients leaves and comes back until
`fdmax` is no descriptor of an `fd_set`. -/
theorem fdmax_bounded_fails :
    ∃ g s hs, (server sockets).Run lowest started (.select (serverInit sockets)) g (.select s) hs ∧
      (∀ fd ∈ started.opened, fd ≤ sockets.udp) ∧ AcceptsSmall sockets hs ∧
      (∀ fd ∈ g.opened, fd ≤ 6) ∧ ¬ s.fdmax < fdSetSize := by
  obtain ⟨g, hopen, hs, hrun, hsmall⟩ := reached_cycles 1018
  refine ⟨g, bothConnected (6 + (1018 : ℕ)), hs, hrun, by decide, hsmall, ?_, by decide⟩
  rw [hopen]
  decide

/-- After a client has left and come back every descriptor is covered. -/
theorem fdmax_covers_returned :
    ∃ g s hs, (server sockets).Run lowest started (.select (serverInit sockets)) g (.select s) hs ∧
      (∃ c ∈ s.clientsContainer.toList, c.online = true) ∧
      ∀ c ∈ s.clientsContainer.toList, c.online = true →
        c.sock ∈ s.readFds ∧ 0 ≤ c.sock ∧ c.sock ≤ s.fdmax := by
  obtain ⟨g, -, hs, hrun, -⟩ := reached_cycles 1
  exact ⟨g, bothConnected (6 + (1 : ℕ)), hs, hrun,
    ⟨newClient (.ofList idLen [65]) 5, List.mem_cons_self, rfl⟩,
    (fdmax_covers (by decide) (by decide) hrun).2.2⟩

/-- One connection, behind `fdmax`. -/
theorem fdmax_bounded_connected :
    ∃ g hs, (server sockets).Run lowest started (.select (serverInit sockets)) g
      (.select oneConnected) hs ∧ hs.length = 1 ∧ oneConnected.fdmax < fdSetSize := by
  have he := Program.exec_play (fun _ => scripted 5 [] (idMessage [65]))
    (mainBody sockets (serverInit sockets) 3) 0
  rw [connect_first] at he
  have hstart : (server sockets).Run lowest started (.select (serverInit sockets)) started
    (.select (serverInit sockets)) [] := .start
  have hrun := hstart.round (i := 3) (by decide) (by decide) (by decide) he (obeys_connect lowest_started)
  refine ⟨_, _, hrun, rfl, fdmax_bounded (by decide) (by decide) (by decide) hrun ?_ ?_⟩
  · intro x hx fd addr hmem
    rw [List.mem_singleton.mp hx] at hmem
    rw [accepted_connect hmem]
    decide
  · intro x hx
    rw [List.mem_singleton.mp hx]
    rintro ⟨fd, addr, svCl, ret, rest, hevs, hle, -⟩
    have hacc : (⟨.accept 3, (fd, addr)⟩ : Event Sys) ∈ connectCalls 5 65 := by
      rw [show connectCalls 5 65 = _ from hevs]
      exact List.mem_cons_self
    rw [accepted_connect hacc] at hle
    exact absurd hle (by decide)

end Cycle

end TopicServer
