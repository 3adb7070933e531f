import TopicServer.Session
import TopicServer.Subscriptions
import TopicServer.System

/-!
# What a body of the server leaves behind

After the body of a descriptor the views are those of the registry again (`Effect.views_eq`), so the
server keeps to the protocol of its descriptors in every run (`serverContract`). The command that
was executed is the one whose answer, or whose end of the connection, was the last call
(`Effect.commands`); behind the answer to any command but `exit` there is no call left
(`response_last`).
-/

namespace TopicServer

open Interactive Linked Memory

/-- The command that is finished by a call. -/
def Views.finished (g : Views) : Call → List (List Byte)
  | .send .response fd _ =>
    match g fd with
    | .executing _ m => issued m
    | _ => []
  | .close fd =>
    match g fd with
    | .closing m => issued m
    | _ => []
  | _ => []

/-- A call that finishes no command. -/
def Plain (c : Call) : Prop := (∀ fd buf, c ≠ .send .response fd buf) ∧ ∀ fd, c ≠ .close fd

theorem Plain.finished {c : Call} (h : Plain c) (g : Views) : g.finished c = [] := by
  unfold Views.finished
  split
  · exact absurd rfl (h.1 _ _)
  · exact absurd rfl (h.2 _)
  · rfl

section Calls

variable {k : Sockets} {g : Views} {fd : ℤ} {id : List Byte} {es : List (Event Sys)}

/-! ## The calls of a step -/

theorem after_exchange {site ack : Site} {buf : List Byte} {len : ℕ} {ret : Option (List Byte)}
    (hsite : site = .data ∧ ack = .dataAck ∨ site = .queued ∧ ack = .queuedAck)
    (hg : g fd = .settled id) (hret : replyType ret = 4) :
    (sessions k).after (some g) (⟨.send site fd buf, true⟩ :: ⟨.recv ack fd len, ret⟩ :: es) =
      (sessions k).after (some g) es := by
  have hsent : (g fd).sent site = .awaiting id := by
    rw [hg]
    rcases hsite with ⟨rfl, -⟩ | ⟨rfl, -⟩ <;> rfl
  have hgot : (ServerView.awaiting id).got (ret.getD []) ack = some (.settled id) := by
    rcases hsite with ⟨-, rfl⟩ | ⟨-, rfl⟩ <;> exact if_pos hret
  have hnext : (sessions k).next ((sessions k).next (some g) (.send site fd buf) true)
      (.recv ack fd len) ret = some g := by
    show ((Function.update g fd ((g fd).sent site) fd).got (ret.getD []) ack).map _ = _
    rw [Function.update_self, hsent, hgot]
    exact congrArg some (update_settled hg _)
  rw [Protocol.after_cons, Protocol.after_cons, hnext]

theorem Flushed.views {els : List QueueElement} (h : Flushed fd els es) (hg : g fd = .settled id) :
    (sessions k).after (some g) es = some g := by
  induction els generalizing es with
  | nil =>
    obtain rfl := h
    rfl
  | cons el els ih =>
    obtain ⟨ret, rest, rfl, hret, h⟩ := h
    rw [after_exchange (Or.inr ⟨rfl, rfl⟩) hg hret]
    exact ih h

theorem Relayed.views {data topic : List Byte} {bytes : ℤ} {c c' : ClientStructure}
    (h : Relayed data topic bytes c es c')
    (hg : c.online = true → ∃ id, g c.sock = .settled id) :
    (sessions k).after (some g) es = some g := by
  unfold Relayed at h
  split at h
  · rw [h.1]
    rfl
  · split_ifs at h with hon hsf
    · obtain ⟨⟨ret, rfl, hret⟩, -⟩ := h
      obtain ⟨id, hid⟩ := hg hon
      exact after_exchange (Or.inl ⟨rfl, rfl⟩) hid hret
    · rw [h.1]
      rfl
    · rw [h.1]
      rfl

theorem RelayedAll.views {data topic : List Byte} {bytes : ℤ}
    {ns ns' : List (Addr × ClientStructure)} (h : RelayedAll data topic bytes ns es ns')
    (hg : ∀ n ∈ ns, n.2.online = true → ∃ id, g n.2.sock = .settled id) :
    (sessions k).after (some g) es = some g := by
  induction ns generalizing es ns' with
  | nil =>
    rw [h.1]
    rfl
  | cons n ns ih =>
    obtain ⟨es₁, c', es₂, ns'', rfl, -, h1, h2⟩ := h
    rw [Protocol.after_append, h1.views (hg n List.mem_cons_self)]
    exact ih h2 fun n hn => hg n (List.mem_cons_of_mem _ hn)

/-- A greeting settles the descriptor under the ID of the reply. -/
theorem after_greeting_views {addr : SockAddrIn} {svCl : CharArray serverHdrSize}
    {ret : Option (List Byte)} :
    (sessions k).after (some g) (greeting k.tcp fd addr svCl ret ++ es) =
      (sessions k).after (some (Function.update g fd (.settled (replyId (ret.getD []))))) es := by
  have hnext : ∀ v₁ v₂ : ServerView,
      (some (Function.update (Function.update (Function.update g fd v₁) fd v₂) fd
        (.settled (replyId (ret.getD []))))) =
      some (Function.update g fd (.settled (replyId (ret.getD [])))) := by
    intro v₁ v₂
    rw [Function.update_idem, Function.update_idem]
  exact congrArg (fun v => (sessions k).after v es) (hnext _ _)

/-- What the connection answered to a greeting. -/
theorem obeys_greeting_views {addr : SockAddrIn} {svCl : CharArray serverHdrSize}
    {ret : Option (List Byte)}
    (ho : (sessions k).Obeys (some g) (greeting k.tcp fd addr svCl ret ++ es)) :
    (0 ≤ fd ∧ k.Client fd ∧ g fd = .unused) ∧
      (receivedId svCl ret).str = replyId (ret.getD []) := by
  refine ⟨ho.1 g rfl, ?_⟩
  obtain ⟨m, rfl, hm, -⟩ : ∃ m, ret = some m ∧ m.length = clientHdrSize + idLen ∧ msgType m = 2 :=
    ho.2.2.2.1 _ rfl
  exact receivedId_reply hm

/-- A command and its answer: the descriptor stays settled, or is to be closed. -/
theorem after_command_views {i : ℤ} {ret : Option (List Byte)} {between : List (Event Sys)}
    {svCl : CharArray serverHdrSize} (hg : g i = .settled id)
    (hb : between = [] ∨ ∃ line, between = [⟨.printf line, ()⟩]) :
    (sessions k).after (some g) (commandCalls i ret between svCl ++ es) =
      (sessions k).after (some (Function.update g i
        (if msgType (ret.getD []) = 3 then .closing (ret.getD []) else .settled id))) es := by
  have hrecv : (sessions k).next (some g) (.recv .command i maxLenBuf) ret =
      some (Function.update g i (.executing id (ret.getD []))) := by
    show ((g i).got (ret.getD []) .command).map _ = _
    rw [hg]
    rfl
  have hsend : ∀ buf, (sessions k).next (some (Function.update g i (.executing id (ret.getD []))))
      (.send .response i buf) true = some (Function.update g i
        (if msgType (ret.getD []) = 3 then .closing (ret.getD []) else .settled id)) := by
    intro buf
    show some (Function.update (Function.update g i (.executing id (ret.getD []))) i
      ((Function.update g i (.executing id (ret.getD [])) i).sent .response)) = _
    rw [Function.update_self, Function.update_idem]
    rfl
  unfold commandCalls
  rcases hb with rfl | ⟨line, rfl⟩
  · simp only [List.cons_append, List.nil_append, Protocol.after_cons, hrecv,
      sessions_indeterminate, hsend]
  · simp only [List.cons_append, List.nil_append, Protocol.after_cons, hrecv,
      sessions_indeterminate, sessions_printf, hsend]

end Calls

/-! ## After a step -/

section Effects

variable {k : Sockets} {gk : Kernel} {s : ServerState} {i : ℤ} {evs : List (Event Sys)}
  {r : ServerState × Flow}

/-- The descriptor of a view that is unused belongs to no online client. -/
theorem not_online_of_unused {cs : List ClientStructure} (hn : (onlineSocks cs).Nodup) {fd : ℤ}
    (h : views cs fd = .unused) : fd ∉ onlineSocks cs := fun hmem => by
  obtain ⟨c, hc, hon, rfl⟩ := mem_onlineSocks.mp hmem
  rw [views_of_mem hn hc hon] at h
  cases h

/-- After a step the views are those of the registry. -/
theorem Effect.views_eq (he : Effect k s i evs r) (hnext : r.2 = .next) (hl : s.Lists)
    (hr : Registry k gk s.clientsContainer.toList s.readFds)
    (hready : k.Client i → i ∈ onlineSocks s.clientsContainer.toList)
    (ho : (sessions k).Obeys (some (views s.clientsContainer.toList)) evs) :
    (sessions k).after (some (views s.clientsContainer.toList)) evs =
      some (views r.1.clientsContainer.toList) := by
  have hsettled : ∀ n ∈ s.clientsContainer.nodes, n.2.online = true →
      ∃ id, views s.clientsContainer.toList n.2.sock = .settled id :=
    fun n hn hon => ⟨_, views_of_mem hr.socks (List.mem_map_of_mem hn) hon⟩
  -- a command that replaces the entry of `i` and keeps its ID, descriptor and flag
  have hkeep : ∀ {xs ys : List (Addr × ClientStructure)} {a : Addr} {c c' : ClientStructure}
      {list : LinkedList ClientStructure}, s.clientsContainer.nodes = xs ++ (a, c) :: ys →
      list.nodes = xs ++ (a, c') :: ys → (c'.id, c'.sock, c'.online) = (c.id, c.sock, c.online) →
      views list.toList = views s.clientsContainer.toList := by
    intro xs ys a c c' list hn hn' hc
    refine views_congr ?_
    rw [LinkedList.toList_of_nodes hn, LinkedList.toList_of_nodes hn', List.map_append,
      List.map_append, List.map_cons, List.map_cons, hc]
  have hclient : k.Client i → ∃ id, views s.clientsContainer.toList i = .settled id := by
    intro hk
    obtain ⟨c, hc, hon, rfl⟩ := mem_onlineSocks.mp (hready hk)
    exact ⟨_, views_of_mem hr.socks hc hon⟩
  -- a command other than `exit` leaves its descriptor settled
  have hcommand : ∀ {ret : Option (List Byte)} {svCl : CharArray serverHdrSize}, k.Client i →
      (commandHdr ret).type ≠ 3 →
      (sessions k).after (some (views s.clientsContainer.toList))
        (commandCalls i ret [] svCl) = some (views s.clientsContainer.toList) := by
    intro ret svCl hk h3
    obtain ⟨id, hid⟩ := hclient hk
    rw [commandHdr_type] at h3
    rw [← List.append_nil (commandCalls i ret [] svCl), after_command_views hid (Or.inl rfl),
      if_neg h3, ← hid, Function.update_eq_self, Protocol.after_nil]
  cases he with
  | @registered fd addr svCl ret list hfd _ hid _ hn =>
    obtain ⟨⟨-, -, hfree⟩, hrid⟩ := obeys_greeting_views ho
    have hlist : list.toList =
        s.clientsContainer.toList ++ newClient (receivedId svCl ret) fd :: [] := by
      rw [LinkedList.toList, hn, List.map_append]
      rfl
    have hfd' := not_online_of_unused hr.socks hfree
    rw [after_greeting_views, hlist, views_online rfl (by rwa [List.append_nil]), List.append_nil,
      ← hrid]
    rfl
  | @refused fd addr svCl ret a c sent hfd _ hmem hid hon =>
    obtain ⟨⟨-, -, hfree⟩, -⟩ := obeys_greeting_views ho
    rw [after_greeting_views]
    simp only [Protocol.after_cons, Protocol.after_nil, sessions_printf, sessions_refusal,
      sessions_close, Function.update_idem]
    rw [← hfree, Function.update_eq_self]
  | @reconnected fd addr svCl ret xs a c ys es queue list hfd _ hn hid hoff hfl _ _ _ hn' =>
    obtain ⟨⟨-, -, hfree⟩, hrid⟩ := obeys_greeting_views ho
    have hfd' := not_online_of_unused hr.socks hfree
    rw [LinkedList.toList_of_nodes hn, onlineSocks_append, onlineSocks_cons_offline hoff,
      ← onlineSocks_append] at hfd'
    rw [after_greeting_views, Protocol.after_cons, sessions_printf,
      hfl.views (Function.update_self _ _ _), LinkedList.toList_of_nodes hn',
      LinkedList.toList_of_nodes hn, views_offline hoff,
      views_online (c := { c with sock := fd, online := true, queue := queue }) rfl hfd']
    rw [← hrid, ← hid]
  | @published datagram addr bytes slack padding msg buf es list _ _ _ hrel =>
    have hsame := hrel.map_eq (fun n => (n.2.id, n.2.sock, n.2.online)) (fun _ _ _ => rfl)
      hl.clients
    have hview : list.toList.map (fun c => (c.id, c.sock, c.online)) =
        s.clientsContainer.toList.map fun c => (c.id, c.sock, c.online) := by
      simpa only [LinkedList.toList, List.map_map, Function.comp_def] using hsame
    rw [views_congr hview, Protocol.after_append]
    exact hrel.views hsettled
  | ignored => rfl
  | stopped => cases hnext
  | subscribed hk h0 hn _ _ _ _ hn' =>
    rw [hcommand hk (by rw [h0]; decide), hkeep hn hn' rfl]
  | unsubscribed hk h1 hn _ _ _ _ hn' =>
    rw [hcommand hk (by rw [h1]; decide), hkeep hn hn' rfl]
  | @disconnected i ret svCl xs a c ys list hk h3 hn _ hc _ hn' =>
    have hne : i ≠ -1 := by
      have h0 := (hr.client i (hready hk)).2
      omega
    obtain ⟨id, hid⟩ := hclient hk
    rw [commandHdr_type] at h3
    have hon : c.online = true :=
      (hr.flag c (by rw [LinkedList.toList_of_nodes hn]; simp)).mpr (by rw [hc]; exact hne)
    have hsocks := hr.socks
    rw [LinkedList.toList_of_nodes hn, onlineSocks_append, onlineSocks_cons_online hon,
      List.nodup_middle, List.nodup_cons, ← onlineSocks_append] at hsocks
    rw [if_neg hne, after_command_views hid (Or.inr ⟨_, rfl⟩), if_pos h3]
    rw [Protocol.after_cons, sessions_close, Protocol.after_nil, Function.update_idem,
      LinkedList.toList_of_nodes hn, LinkedList.toList_of_nodes hn',
      views_offline (c := { c with sock := -1, online := false }) rfl, views_online hon hsocks.1,
      hc, Function.update_idem]
    rw [hc] at hsocks
    rw [← views_unused hsocks.1, Function.update_eq_self]
  | unknown hk _ _ h3 => exact hcommand hk h3

/-- The console is silent, so no step leaves the loop. -/
theorem Effect.next {g : Views} (he : Effect k s i evs r) (ho : (sessions k).Obeys (some g) evs) :
    r.2 = .next := by
  cases he with
  | stopped => exact (ho.1 g rfl).elim
  | _ => rfl

theorem Flushed.plain {sock : ℤ} {els : List QueueElement} {es : List (Event Sys)}
    (h : Flushed sock els es) : ∀ e ∈ es, Plain e.call := by
  induction els generalizing es with
  | nil =>
    obtain rfl := h
    simp
  | cons el els ih =>
    obtain ⟨ret, rest, rfl, -, h⟩ := h
    intro e he
    rw [List.mem_cons, List.mem_cons] at he
    rcases he with rfl | rfl | he
    · exact ⟨by simp, by simp⟩
    · exact ⟨by simp, by simp⟩
    · exact ih h e he

theorem RelayedAll.plain {data topic : List Byte} {bytes : ℤ}
    {ns ns' : List (Addr × ClientStructure)} {es : List (Event Sys)}
    (h : RelayedAll data topic bytes ns es ns') : ∀ e ∈ es, Plain e.call := by
  induction ns generalizing es ns' with
  | nil =>
    rw [h.1]
    simp
  | cons n ns ih =>
    obtain ⟨es₁, c', es₂, ns'', rfl, -, h1, h2⟩ := h
    intro e he
    rcases List.mem_append.mp he with he | he
    · unfold Relayed at h1
      split at h1
      · rw [h1.1] at he
        cases he
      · split_ifs at h1 with hon hsf
        · obtain ⟨⟨ret, rfl, -⟩, -⟩ := h1
          simp only [List.mem_cons, List.not_mem_nil, or_false] at he
          rcases he with rfl | rfl <;> exact ⟨by simp, by simp⟩
        · rw [h1.1] at he
          cases he
        · rw [h1.1] at he
          cases he
    · exact ih h2 e he

theorem greeting_plain {fd : ℤ} {addr : SockAddrIn} {svCl : CharArray serverHdrSize}
    {ret : Option (List Byte)} : ∀ e ∈ greeting k.tcp fd addr svCl ret, Plain e.call := by
  intro e he
  unfold greeting at he
  simp only [List.mem_cons, List.not_mem_nil, or_false] at he
  rcases he with rfl | rfl | rfl | rfl <;> exact ⟨by simp, by simp⟩

/-- What the last call of a step finished, with the views `vs` before the step: the answer to a
command, or the end of the connection that `exit` asked for. -/
structure Finishes (vs g : Views) (i : ℤ) (c : Call) (commands : List (List Byte)) : Prop where
  commands : commands = g.finished c
  response : ∀ fd buf, c = .send .response fd buf →
    fd = i ∧ ∀ id m, g fd = .executing id m → msgType m ≠ 3 ∧ vs fd = .settled id
  close : ∀ fd, c = .close fd → g.finished c = [] ∨ fd = i ∧ ∀ m ∈ g.finished c, msgType m = 3

theorem Plain.finishes {c : Call} (h : Plain c) (vs g : Views) (i : ℤ) :
    Finishes vs g i c [] where
  commands := (h.finished g).symm
  response fd buf hc := absurd hc (h.1 fd buf)
  close fd hc := absurd hc (h.2 fd)

theorem Effect.finishes {g : Views} {done : List (Event Sys)} {c : Call} {a : Answer c}
    (he : Effect k s i (done ++ [⟨c, a⟩]) r)
    (hr : Registry k gk s.clientsContainer.toList s.readFds)
    (hready : k.Client i → i ∈ onlineSocks s.clientsContainer.toList)
    (ho : (sessions k).Obeys (some (views s.clientsContainer.toList)) (done ++ [⟨c, a⟩]))
    (hg : (sessions k).after (some (views s.clientsContainer.toList)) done = some g) :
    Finishes (views s.clientsContainer.toList) g i c (commandsOf (done ++ [⟨c, a⟩])) := by
  have hnext := he.next ho
  have hlast : (⟨c, a⟩ : Event Sys) ∈ done ++ [⟨c, a⟩] := by simp
  generalize hevs : done ++ [(⟨c, a⟩ : Event Sys)] = evs at he ho hlast ⊢
  have hclient : k.Client i → ∃ id, views s.clientsContainer.toList i = .settled id := by
    intro hk
    obtain ⟨d, hd, hon, rfl⟩ := mem_onlineSocks.mp (hready hk)
    exact ⟨_, views_of_mem hr.socks hd hon⟩
  -- a command other than `exit` ends with its answer
  have hcommand : ∀ {ret : Option (List Byte)} {svCl : CharArray serverHdrSize}, k.Client i →
      (commandHdr ret).type ≠ 3 → done ++ [(⟨c, a⟩ : Event Sys)] = commandCalls i ret [] svCl →
      Finishes (views s.clientsContainer.toList) g i c
        (commandsOf (commandCalls i ret [] svCl)) := by
    intro ret svCl hk h3 heq
    obtain ⟨id, hid⟩ := hclient hk
    have hsplit : done ++ [(⟨c, a⟩ : Event Sys)] =
        [⟨.recv .command i maxLenBuf, ret⟩, ⟨.indeterminate serverHdrSize, svCl⟩] ++
          [⟨.send .response i (6 :: svCl.bytes.drop 1 ++ [0]), true⟩] := heq
    obtain ⟨rfl, hc⟩ := List.append_inj' hsplit rfl
    cases hc
    have hview : g i = .executing id (ret.getD []) := by
      have hgot : (sessions k).next (some (views s.clientsContainer.toList))
          (.recv .command i maxLenBuf) ret = some (Function.update
            (views s.clientsContainer.toList) i (.executing id (ret.getD []))) := by
        show ((views s.clientsContainer.toList i).got (ret.getD []) .command).map _ = _
        rw [hid]
        rfl
      rw [Protocol.after_cons, hgot, Protocol.after_cons, sessions_indeterminate] at hg
      rw [← Option.some.inj hg, Function.update_self]
    refine ⟨?_, ?_, ?_⟩
    · unfold Views.finished
      simp only [hview]
      rfl
    · rintro fd buf hc
      cases hc
      refine ⟨rfl, fun id' m hm => ?_⟩
      rw [hview] at hm
      cases hm
      rw [commandHdr_type] at h3
      exact ⟨h3, hid⟩
    · intro fd hc
      cases hc
  cases he with
  | registered =>
    refine Plain.finishes ?_ _ g _
    rcases List.mem_append.mp hlast with hmem | hmem
    · exact greeting_plain _ hmem
    · rw [List.mem_singleton] at hmem
      cases hmem
      exact ⟨by simp, by simp⟩
  | @refused fd addr svCl ret _ d sent =>
    have hsplit : done ++ [(⟨c, a⟩ : Event Sys)] = (greeting k.tcp fd addr svCl ret ++
        [⟨.printf (.conRef d.id), ()⟩, ⟨.send .refusal fd (4 :: svCl.bytes.drop 1), sent⟩]) ++
          [⟨.close fd, ()⟩] := by rw [hevs, List.append_assoc]; rfl
    obtain ⟨rfl, hc⟩ := List.append_inj' hsplit rfl
    cases hc
    rw [after_greeting_views] at hg
    simp only [Protocol.after_cons, Protocol.after_nil, sessions_printf, sessions_refusal] at hg
    have hfin : g.finished (.close fd) = [] := by
      unfold Views.finished
      simp only [← Option.some.inj hg, Function.update_self, issued_nil]
    refine ⟨hfin.symm, fun _ _ hc => ?_, fun _ hc => ?_⟩
    · cases hc
    · cases hc
      exact Or.inl hfin
  | @reconnected fd addr svCl ret xs a c ys es queue list _ _ _ _ _ hfl =>
    refine Plain.finishes ?_ _ g _
    rcases List.mem_append.mp hlast with hmem | hmem
    · exact greeting_plain _ hmem
    · rcases List.mem_cons.mp hmem with hmem | hmem
      · cases hmem
        exact ⟨by simp, by simp⟩
      · exact hfl.plain _ hmem
  | published _ _ _ hrel =>
    refine Plain.finishes ?_ _ g _
    rcases List.mem_append.mp hlast with hmem | hmem
    · unfold reception at hmem
      simp only [List.mem_cons, List.not_mem_nil, or_false] at hmem
      rcases hmem with hmem | hmem | hmem | hmem <;> cases hmem <;> exact ⟨by simp, by simp⟩
    · exact hrel.plain _ hmem
  | ignored =>
    rw [List.mem_singleton] at hlast
    cases hlast
    exact Plain.finishes ⟨by simp, by simp⟩ _ g 0
  | stopped => cases hnext
  | subscribed hk h0 => exact hcommand hk (by rw [h0]; decide) hevs
  | unsubscribed hk h1 => exact hcommand hk (by rw [h1]; decide) hevs
  | @disconnected i ret svCl _ _ d _ _ hk h3 =>
    have hne : i ≠ -1 := by
      have h0 := (hr.client i (hready hk)).2
      omega
    obtain ⟨id, hid⟩ := hclient hk
    rw [commandHdr_type] at h3
    rw [if_neg hne] at hevs ⊢
    obtain ⟨rfl, hc⟩ := List.append_inj' hevs rfl
    cases hc
    rw [← List.append_nil (commandCalls i ret _ svCl), after_command_views hid (Or.inr ⟨_, rfl⟩),
      if_pos h3, Protocol.after_nil] at hg
    have hfin : g.finished (.close i) = issued (ret.getD []) := by
      unfold Views.finished
      simp only [← Option.some.inj hg, Function.update_self]
    refine ⟨hfin.symm, fun _ _ hc => ?_, fun _ hc => ?_⟩
    · cases hc
    · cases hc
      refine Or.inr ⟨rfl, fun m hm => ?_⟩
      rw [hfin] at hm
      unfold issued at hm
      split_ifs at hm
      · cases hm
      · rwa [List.mem_singleton.mp hm]
  | unknown hk _ _ h3 => exact hcommand hk h3 hevs

end Effects

/-! ## The execution of a command -/

/-- What the server handled is one of the effects, on a registry that agrees with the kernel. -/
def Handles (k : Sockets) (hd : Handled Sys ServerState) : Prop :=
  ∃ gk flow, Registry k gk hd.pre.clientsContainer.toList hd.pre.readFds ∧
    (k.Client hd.fd → hd.fd ∈ onlineSocks hd.pre.clientsContainer.toList) ∧
    Effect k hd.pre hd.fd hd.events (hd.post, flow)

/-- The command `m` was executed on the entry of the online client `id`, and on no other. -/
def ExecutedOn (id m : List Byte) (hd : Handled Sys ServerState) : Prop :=
  ∃ xs a c ys topics, hd.pre.clientsContainer.nodes = xs ++ (a, c) :: ys ∧
    c.online = true ∧ c.sock = hd.fd ∧ c.id.str = id ∧
    execute c.subscribedTopics (commandHdr (some m)) = .ok topics ∧
    hd.post.clientsContainer.nodes = xs ++ (a, { c with subscribedTopics := topics }) :: ys

theorem mem_issued {m m' : List Byte} (h : m ∈ issued m') : m = m' := by
  unfold issued at h
  split_ifs at h
  · cases h
  · exact List.mem_singleton.mp h

/-- A subscribe or unsubscribe command that was handled was executed. -/
theorem Handles.executedOn {k : Sockets} {hd : Handled Sys ServerState} (h : Handles k hd)
    {id m : List Byte} (hid : views hd.pre.clientsContainer.toList hd.fd = .settled id)
    (hm : m ∈ commandsOf hd.events) (htype : msgType m = 0 ∨ msgType m = 1) :
    ExecutedOn id m hd := by
  obtain ⟨s, i, evs, s'⟩ := hd
  obtain ⟨gk, flow, hreg, hready, heff⟩ := h
  simp only at hreg hready heff hid hm
  obtain ⟨d, hd, hdon, hdsock, -⟩ := views_mem hid
  -- the entry on the descriptor is online, and it is the one of the client
  have hentry : ∀ {xs ys : List (Addr × ClientStructure)} {a : Addr} {c : ClientStructure},
      s.clientsContainer.nodes = xs ++ (a, c) :: ys → c.sock = i →
      c.online = true ∧ c.id.str = id := by
    intro xs ys a c hn hc
    have hmem : c ∈ s.clientsContainer.toList := by
      rw [LinkedList.toList_of_nodes hn]
      simp
    have hon : c.online = true := by
      rw [hreg.flag c hmem, hc, ← hdsock]
      exact (hreg.flag d hd).mp hdon
    have hview := views_of_mem hreg.socks hmem hon
    rw [hc, hid] at hview
    cases hview
    exact ⟨hon, rfl⟩
  have hcommand : ∀ {ret : Option (List Byte)}, m ∈ issued (ret.getD []) →
      commandHdr (some m) = commandHdr ret ∧ (commandHdr ret).type = msgType m := by
    intro ret hm
    rw [commandHdr_type, mem_issued hm]
    exact ⟨rfl, rfl⟩
  cases heff with
  | subscribed hk h0 hn hxs hc ht hw hn' =>
    obtain ⟨hhdr, -⟩ := hcommand hm
    obtain ⟨hon, hcid⟩ := hentry hn hc
    refine ⟨_, _, _, _, _, hn, hon, hc, hcid, ?_, hn'⟩
    rw [execute, hhdr, if_pos h0]
    exact ht
  | unsubscribed hk h1 hn hxs hc ht hw hn' =>
    obtain ⟨hhdr, -⟩ := hcommand hm
    obtain ⟨hon, hcid⟩ := hentry hn hc
    refine ⟨_, _, _, _, _, hn, hon, hc, hcid, ?_, hn'⟩
    rw [execute, hhdr, if_neg (by rw [h1]; decide)]
    exact ht
  | disconnected hk h3 =>
    obtain ⟨-, ht⟩ := hcommand hm
    rw [← ht, h3] at htype
    rcases htype with h0 | h1
    · cases h0
    · cases h1
  | unknown hk h0 h1 =>
    obtain ⟨-, ht⟩ := hcommand hm
    rw [ht] at h0 h1
    exact (htype.elim h0 h1).elim
  | _ => exact (List.not_mem_nil hm).elim

/-! ## The answer is the last word -/

/-- A call that answers no command. -/
def NoResponse : Call → Prop
  | .send .response _ _ => False
  | _ => True

/-- A call that receives with room for an ID reply and for a command. -/
def Roomy : Call → Prop
  | .recv _ _ len => clientHdrSize + idLen ≤ len
  | _ => True

/-- The calls of all branches but the one of a command. -/
def Ordinary (c : Call) : Prop := NoResponse c ∧ Roomy c

section NoResponse

variable {k : Sockets} {s : ServerState}

theorem ordinary_recv {site : Site} {fd : ℤ} {len : ℕ} (h : clientHdrSize + idLen ≤ len) :
    Ordinary (.recv site fd len) := ⟨trivial, h⟩

theorem sendToClient_calls {data topic : List Byte} {bytes : ℤ} {c : ClientStructure} :
    (sendToClient data topic bytes c).Calls Ordinary := by
  unfold sendToClient
  refine calls_mem fun found => ?_
  cases found with
  | none => trivial
  | some found =>
    obtain ⟨prev, curr⟩ := found
    split_ifs
    · refine calls_ask ⟨trivial, trivial⟩ fun ret => calls_die ?_
      exact calls_ask (ordinary_recv (by decide)) fun ret => calls_die (calls_die trivial)
    · refine calls_mem fun node => ?_
      dsimp only
      split_ifs
      · exact calls_mem fun _ => trivial
      · trivial

theorem sendDataFrom_calls {data topic : List Byte} {bytes : ℤ} {fuel : ℕ} {curr : Option Addr}
    {list : LinkedList ClientStructure} :
    (sendDataFrom data topic bytes fuel curr list).Calls Ordinary := by
  induction fuel generalizing curr list with
  | zero => cases curr <;> trivial
  | succ fuel ih =>
    cases curr with
    | none => trivial
    | some a =>
      unfold sendDataFrom
      exact calls_mem fun node => sendToClient_calls.bind fun client => calls_mem fun list => ih

theorem udpBranch_calls : (udpBranch k s).Calls Ordinary := by
  unfold udpBranch
  refine calls_ask ⟨trivial, trivial⟩ fun ret => ?_
  cases ret with
  | none => trivial
  | some ret =>
    refine calls_die (calls_ask ⟨trivial, trivial⟩ fun bytes => calls_mem fun msg => ?_)
    refine calls_ask ⟨trivial, trivial⟩ fun slack => calls_ask ⟨trivial, trivial⟩ fun padding => ?_
    exact calls_mem fun buf => sendDataFrom_calls.bind fun list => trivial

theorem manageConnectionRequest_calls :
    (manageConnectionRequest k.tcp s).Calls Ordinary := by
  unfold manageConnectionRequest
  refine calls_ask ⟨trivial, trivial⟩ fun conn => calls_die ?_
  refine calls_ask ⟨trivial, trivial⟩ fun svCl => calls_ask ⟨trivial, trivial⟩ fun ret => ?_
  refine calls_die (calls_ask (ordinary_recv (by decide)) fun ret => ?_)
  refine calls_die (calls_die (calls_mem fun old => ?_))
  cases old with
  | none => exact calls_ask ⟨trivial, trivial⟩ fun _ => calls_mem fun list => trivial
  | some old =>
    refine calls_mem fun node => ?_
    dsimp only
    split_ifs
    · exact calls_ask ⟨trivial, trivial⟩ fun _ => calls_ask ⟨trivial, trivial⟩ fun _ =>
        calls_ask ⟨trivial, trivial⟩ fun _ => trivial
    · refine calls_ask ⟨trivial, trivial⟩ fun _ => ?_
      exact (emptyQueue_calls (fun _ => ⟨trivial, trivial⟩) (ordinary_recv (by decide))).bind
        fun client => calls_mem fun list => trivial

theorem stdinBranch_calls : (stdinBranch s).Calls Ordinary := by
  unfold stdinBranch
  refine calls_ask ⟨trivial, trivial⟩ fun ret => calls_die ?_
  split_ifs
  · refine Program.Calls.bind (closeFrom_calls.mono fun c hc => ?_) fun _ => trivial
    cases c with
    | send site fd buf =>
      cases site with
      | response => cases hc
      | _ => exact ⟨trivial, trivial⟩
    | recv site fd len =>
      cases site with
      | shutdownAck =>
        obtain rfl : len = maxLenBuf := hc
        exact ordinary_recv (by decide)
      | _ => cases hc
    | _ => exact ⟨trivial, trivial⟩
  · trivial

theorem manageCommandFromClient_roomy {i : ℤ} : (manageCommandFromClient i s).Calls Roomy := by
  unfold manageCommandFromClient
  have hroom : Roomy (.recv .command i maxLenBuf) := by
    show clientHdrSize + idLen ≤ maxLenBuf
    decide
  refine calls_ask hroom fun ret => ?_
  dsimp only
  split_ifs
  · exact calls_mem fun client => calls_mem fun node => calls_mem fun topics =>
      calls_mem fun list => trivial
  · exact calls_mem fun client => calls_mem fun node => calls_mem fun topics =>
      calls_mem fun list => trivial
  · exact calls_mem fun client => calls_mem fun node => calls_ask trivial fun _ =>
      calls_mem fun list => trivial
  · trivial

/-- The server has room for everything that it receives from a subscriber. -/
theorem mainBody_roomy (i : ℤ) : (mainBody k s i).Calls Roomy := by
  have hroomy : ∀ {α : Type} {p : Proc α}, p.Calls Ordinary → p.Calls Roomy :=
    fun hp => hp.mono fun _ hc => hc.2
  unfold mainBody
  split_ifs
  · exact (hroomy manageConnectionRequest_calls).bind fun _ => trivial
  · exact (hroomy udpBranch_calls).bind fun _ => trivial
  · exact (hroomy stdinBranch_calls).bind fun _ => trivial
  · refine Program.Calls.bind (Program.Calls.bind manageCommandFromClient_roomy fun r => ?_)
      fun _ => trivial
    refine calls_ask trivial fun svCl => calls_ask trivial fun sent => calls_die ?_
    split_ifs
    · exact calls_ask trivial fun _ => trivial
    · trivial

end NoResponse

section LastWord

variable {k : Sockets} {gk : Kernel} {s : ServerState} {i : ℤ}

/-- Behind the answer to a command other than `exit` there is nothing left of a body. -/
theorem response_last {fd : ℤ} {buf m : List Byte} {done : List (Event Sys)}
    {rest : Bool → Proc (ServerState × Flow)} {g : Views} {id : List Byte}
    (hr : Registry k gk s.clientsContainer.toList s.readFds)
    (hready : k.Client i → i ∈ onlineSocks s.clientsContainer.toList)
    (hlead : (mainBody k s i).Leads done (.call (.send .response fd buf) rest))
    (ho : (sessions k).Obeys (some (views s.clientsContainer.toList)) done)
    (hg : (sessions k).after (some (views s.clientsContainer.toList)) done = some g)
    (hm : g fd = .executing id m) (h3 : msgType m ≠ 3) : ∃ r, rest true = .ret r := by
  have hcalls : ∀ {α : Type} {p : Proc α} (f : α → ServerState × Flow), p.Calls Ordinary →
      ¬ (p >>= fun a => pure (f a)).Leads done (.call (.send .response fd buf) rest) := by
    intro α p f hp hl
    have hbody : (p >>= fun a => pure (f a)).Calls NoResponse :=
      (hp.mono fun _ hc => hc.1).bind fun a => trivial
    exact (hbody.leads hl).1
  unfold mainBody at hlead
  split_ifs at hlead with htcp hudp h0
  · exact (hcalls _ manageConnectionRequest_calls hlead).elim
  · exact (hcalls _ udpBranch_calls hlead).elim
  · exact (hcalls _ stdinBranch_calls hlead).elim
  obtain ⟨c, hc, hon, rfl⟩ := mem_onlineSocks.mp (hready ⟨htcp, hudp, h0⟩)
  have hw : (commandBranch c.sock s >>= fun s => pure (s, Flow.next)).wp (answering k)
      (some (views s.clientsContainer.toList), false)
      (Program.post (fun _ _ => True) fun g' e => g'.2 = false ∧ ServerStop g'.1 e) := by
    rw [Program.wp_bind]
    refine (commandBranch_wp (views_of_mem hr.socks hc hon)).mono fun g' o ho => ?_
    cases o with
    | error e => exact ho
    | ok s' => trivial
  have hfst : ∀ (d : Option Views × Bool) (c : Call) (r : Answer c),
      ((answering k).next d c r).1 = (sessions k).next d.1 c r := fun _ _ _ => rfl
  have hrest := hw.leads hlead (Protocol.obeys_map (f := Prod.fst) hfst (fun _ _ _ h => h) ho)
  have hafter := Protocol.after_map (f := Prod.fst) hfst
    (some (views s.clientsContainer.toList), false) done
  generalize (answering k).after (some (views s.clientsContainer.toList), false) done = d at *
  rw [hg] at hafter
  have hover : ((answering k).next d (.send .response fd buf) true).2 = true := by
    show d.1.any (·.answers (.send .response fd buf)) = true
    rw [hafter]
    simp [Views.answers, hm, h3]
  have hend := hrest.2 true fun v hv => rfl
  cases hk : rest true with
  | ret r => exact ⟨r, rfl⟩
  | stop e =>
    rw [hk] at hend
    exact absurd (hover.symm.trans hend.1) (by decide)
  | call c' k' =>
    rw [hk] at hend
    exact absurd (hover.symm.trans hend.1.1) (by decide)

end LastWord

/-! ## The contract -/

/-- Between two bodies the server is in one of its runs, and its descriptors are settled. -/
def ServerAt (k : Sockets) (g : Kernel × Option Views) : Point ServerState → Prop
  | .left _ => False
  | p => (∃ hs, ServerRun k g.1 p hs) ∧ g.2 = some (views p.state.clientsContainer.toList)

/-- The server keeps to the protocol of its descriptors. -/
def serverContract (k : Sockets) : (server k).Contract (kernel.prod (sessions k)) where
  At := ServerAt k
  Stop g e := ServerStop g.2 e
  select h hsub hle := ⟨h.1.imp fun _ hrun => hrun.select hsub hle, h.2⟩
  skip h hle hi := ⟨h.1.imp fun _ hrun => hrun.skip hle hi, h.2⟩
  done h hlt := ⟨h.1.imp fun _ hrun => hrun.done hlt, h.2⟩
  body := by
    rintro ⟨gk, gv⟩ s tmp i ⟨⟨hs, hrun⟩, hgv⟩ hle hmem
    obtain rfl : gv = some (views s.clientsContainer.toList) := hgv
    obtain ⟨hr, hready⟩ : Registry k gk s.clientsContainer.toList s.readFds ∧
        Ready k s.clientsContainer.toList tmp i := ServerRun.registryAt hrun
    have hl : s.Lists := ServerRun.lists hrun
    have hready := hready i hmem le_rfl
    refine ((mainBody_wp hl hr hready).prod (O := kernel) (fun _ _ => trivial) gk).along.mono ?_
    rintro g' o ⟨ho, evs, he, hobeys, rfl⟩
    cases o with
    | error e => exact ho
    | ok r =>
      obtain ⟨hk, hv⟩ := Protocol.obeys_prod.mp hobeys
      have heff := mainBody_effect hl he
      have hnext := heff.next hv
      have hviews := heff.views_eq hnext hl hr hready hv
      have hrun' := hrun.handle hle hmem he hk
      obtain ⟨s', flow⟩ := r
      obtain rfl : flow = .next := hnext
      rw [Protocol.after_prod]
      exact ⟨⟨_, hrun'⟩, hviews⟩
  finish h := h.elim

end TopicServer
