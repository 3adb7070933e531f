import TopicServer.Registry

/-!
# Connections that end

A connection should end in one of two ways: the client leaves, and its entry goes offline
(`EndHandled`), or the server stops and takes leave of every online client (`TakesLeave`). When a
connection ends without a command, `manage_command_from_client` takes the zeroed buffer for a
subscribe command, so it never does the first; `close_all_sockets` also speaks to the clients that
are offline, so it does the second only where there are none.
-/

namespace TopicServer

open Interactive Linked Memory

/-! ## The end of a connection -/

/-- The end of the connection on descriptor `i` takes its client offline and off the watched
descriptors, and touches neither subscriptions nor queues. -/
def EndHandled (s : ServerState) (i : ℤ) (o : Except Halt (ServerState × Flow)) : Prop :=
  ∃ s', o = .ok (s', .next) ∧ i ∉ s'.readFds ∧
    ∀ c ∈ s.clientsContainer.toList, ∃ c' ∈ s'.clientsContainer.toList, c'.id = c.id ∧
      c'.subscribedTopics = c.subscribedTopics ∧ c'.queue = c.queue ∧
      (c.sock = i → c'.online = false ∧ c'.sock = -1)

section Ended

variable {k : Sockets} {g : Kernel} {s : ServerState} {i : ℤ} {evs : List (Event Sys)}
  {ret : Option (List Byte)}

/-- A connection that ended leaves a subscribe command in the buffer. -/
theorem commandHdr_ended (hret : ret = none ∨ ret = some []) : (commandHdr ret).type = 0 := by
  rcases hret with rfl | rfl <;> rfl

/-- A subscribe command leaves its descriptor watched. -/
theorem Effect.readFds_of_subscribe {r : ServerState × Flow} (he : Effect k s i evs r)
    (hi : k.Client i) {rest : List (Event Sys)}
    (hev : evs = ⟨.recv .command i maxLenBuf, ret⟩ :: rest) (h0 : (commandHdr ret).type = 0) :
    r.1.readFds = s.readFds := by
  cases he with
  | registered => exact absurd rfl hi.1
  | refused => rfl
  | reconnected => exact absurd rfl hi.1
  | published => rfl
  | ignored => rfl
  | stopped => rfl
  | subscribed => rfl
  | unsubscribed => rfl
  | disconnected _ h3 =>
    cases hev
    rw [h0] at h3
    cases h3
  | unknown => rfl

/-- The end of a connection is never handled. -/
theorem end_not_handled {p : Point ServerState} {hs : List (Handled Sys ServerState)}
    (h : ServerRun k g p hs) {c : ClientStructure} (hc : c ∈ p.state.clientsContainer.toList)
    (hon : c.online = true) {o : Except Halt (ServerState × Flow)}
    (he : (mainBody k p.state c.sock).Exec evs o) {rest : List (Event Sys)}
    (hev : evs = ⟨.recv .command c.sock maxLenBuf, ret⟩ :: rest)
    (hret : ret = none ∨ ret = some []) : ¬ EndHandled p.state c.sock o := by
  rintro ⟨s', rfl, hout, -⟩
  obtain ⟨g', hreg⟩ := h.registry
  have hsock : c.sock ∈ onlineSocks p.state.clientsContainer.toList :=
    mem_onlineSocks.mpr ⟨c, hc, hon, rfl⟩
  have hclient := (hreg.client c.sock hsock).1
  have heff := mainBody_effect h.lists he
  have hsame := heff.readFds_of_subscribe hclient hev (commandHdr_ended hret)
  apply hout
  rw [show s'.readFds = p.state.readFds from hsame, hreg.watched]
  exact Or.inr hsock

/-- The body for the descriptor of a client whose connection ended. -/
def endedStep (s : ServerState) : List (Event Sys) × Except Halt (ServerState × Flow) :=
  (mainBody sockets s 5).play (fun _ => scripted 0 [] []) 0

theorem endedStep_exec (s : ServerState) :
    (mainBody sockets s 5).Exec (endedStep s).1 (endedStep s).2 := Program.exec_play _ _ _

/-- After the end of the connection the descriptor is still watched, and its client has a
subscription more. -/
def endMissed (s : ServerState) : Bool :=
  match (endedStep s).2 with
  | .ok (s', _) => decide (5 ∈ s'.readFds) && s'.clientsContainer.toList.any fun c =>
      c.online && c.subscribedTopics.toList.length == 1
  | .error _ => false

/-- A client connects, and its connection ends. -/
theorem ended_run : ∃ g s hs c, ServerRun sockets g (.select s) hs ∧
    c ∈ s.clientsContainer.toList ∧ c.online = true ∧ c.sock = 5 ∧ endMissed s = true := by
  obtain ⟨g, s, hs, hrun, hcheck⟩ := serveScript_check [(3, scripted 5 [] (idMessage [65]))]
    (fun x => (x.2.clientsContainer.toList.any fun c => c.online && c.sock == 5) && endMissed x.2)
    (by decide +kernel)
  simp only [Bool.and_eq_true, List.any_eq_true, beq_iff_eq] at hcheck
  obtain ⟨⟨c, hc, hon, hsock⟩, hmissed⟩ := hcheck
  exact ⟨g, s, hs, c, hrun, hc, hon, hsock, hmissed⟩

theorem end_not_handled_connected : ∃ g s hs, ServerRun sockets g (.select s) hs ∧
    ¬ EndHandled s 5 (endedStep s).2 := by
  obtain ⟨g, s, hs, c, hrun, hc, hon, hsock, -⟩ := ended_run
  refine ⟨g, s, hs, hrun, ?_⟩
  have he : (mainBody sockets s c.sock).Exec (endedStep s).1 (endedStep s).2 := by
    rw [hsock]
    exact endedStep_exec s
  have hev : (endedStep s).1 = ⟨.recv .command c.sock maxLenBuf, some []⟩ ::
      (endedStep s).1.tail := by
    rw [hsock]
    rfl
  rw [← hsock]
  exact end_not_handled hrun hc hon he hev (Or.inr rfl)

/-- The client whose connection ended is subscribed to the empty topic and stays online. -/
theorem end_handled_fails :
    ∃ g s hs c o rest, ServerRun sockets g (.select s) hs ∧ c ∈ s.clientsContainer.toList ∧
      c.online = true ∧
      (mainBody sockets s c.sock).Exec (⟨.recv .command c.sock maxLenBuf, some []⟩ :: rest) o ∧
      ¬ EndHandled s c.sock o := by
  obtain ⟨g, s, hs, c, hrun, hc, hon, hsock, hmissed⟩ := ended_run
  refine ⟨g, s, hs, c, (endedStep s).2, (endedStep s).1.tail, hrun, hc, hon, ?_, ?_⟩
  · rw [hsock]
    exact endedStep_exec s
  · rw [hsock]
    rintro ⟨s', ho, hout, -⟩
    unfold endMissed at hmissed
    rw [ho, Bool.and_eq_true, decide_eq_true_eq] at hmissed
    exact hout hmissed.1

end Ended

/-! ## The end of the server -/

/-- The answers that the shutdown relies on: nothing goes over the descriptor `-1`, and a client
that got the message of type 4 acknowledges it. -/
def shutdownAnswer (e : Event Sys) : Prop :=
  match e with
  | ⟨.send .shutdown fd _, r⟩ => fd = -1 → r = false
  | ⟨.recv .shutdownAck fd _, r⟩ => if fd = -1 then r = none else replyType r = 4
  | _ => True

/-- The calls by which the server takes leave of a client. -/
def leaveCalls (sock : ℤ) (svCl : CharArray serverHdrSize) (sent : Bool)
    (ret : Option (List Byte)) : List (Event Sys) :=
  [⟨.indeterminate serverHdrSize, svCl⟩, ⟨.send .shutdown sock (4 :: svCl.bytes.drop 1), sent⟩,
    ⟨.recv .shutdownAck sock maxLenBuf, ret⟩, ⟨.close sock, ()⟩]

/-- The server ends without a `DIE`, and every online client got its message of type 4, has
acknowledged it, and its descriptor is closed. -/
def TakesLeave (s : ServerState) (evs : List (Event Sys))
    (o : Except Halt (ServerState × Flow)) : Prop :=
  o = .ok (s, .leave) ∧ ∀ c ∈ s.clientsContainer.toList, c.online = true →
    ∃ svCl sent ret, leaveCalls c.sock svCl sent ret <:+: evs ∧ replyType ret = 4

/-- The calls of `close_all_sockets` when it goes through. -/
def ClosedAll : List ClientStructure → List (Event Sys) → Prop
  | [], evs => evs = []
  | c :: cs, evs => ∃ svCl sent ret rest, evs = leaveCalls c.sock svCl sent ret ++ rest ∧
      replyType ret = 4 ∧ ClosedAll cs rest

section Shutdown

variable {k : Sockets} {g : Kernel} {s : ServerState} {evs : List (Event Sys)}
  {cs : List ClientStructure} {c : ClientStructure}

theorem ClosedAll.mem (h : ClosedAll cs evs) (hc : c ∈ cs) :
    ∃ svCl sent ret, leaveCalls c.sock svCl sent ret <:+: evs ∧ replyType ret = 4 := by
  induction cs generalizing evs with
  | nil => cases hc
  | cons d cs ih =>
    obtain ⟨svCl, sent, ret, rest, rfl, hret, h⟩ := h
    rcases List.mem_cons.mp hc with rfl | hc
    · exact ⟨svCl, sent, ret, (List.prefix_append _ _).isInfix, hret⟩
    · obtain ⟨x, y, z, hin, hz⟩ := ih h hc
      exact ⟨x, y, z, hin.trans (List.suffix_append _ _).isInfix, hz⟩

/-- The walk of `close_all_sockets` goes through, or it stops at a client that does not
acknowledge. -/
theorem closeFrom_exec {list : LinkedList ClientStructure} {fuel : ℕ} {curr : Option Addr}
    {todo : List (Addr × ClientStructure)} {o : Except Halt Unit}
    (hs : Seg list.heap curr todo none) (hf : todo.length ≤ fuel)
    (he : (closeFrom list fuel curr).Exec evs o) :
    (o = .ok () ∧ ClosedAll (todo.map Prod.snd) evs) ∨
    ∃ n ret, n ∈ todo ∧ o = .error (.dieType lackAck) ∧ replyType ret ≠ 4 ∧
      (⟨.recv .shutdownAck n.2.sock maxLenBuf, ret⟩ : Event Sys) ∈ evs := by
  induction todo generalizing fuel curr evs with
  | nil =>
    obtain rfl := hs
    obtain ⟨rfl, rfl⟩ : evs = [] ∧ o = .ok () := by cases fuel <;> exact he
    exact Or.inl ⟨rfl, rfl⟩
  | cons n todo ih =>
    obtain ⟨a, c⟩ := n
    obtain ⟨rfl, nx, hg, hs⟩ := hs
    obtain ⟨f, rfl⟩ : ∃ f, fuel = f + 1 := ⟨fuel - 1, by simp at hf; omega⟩
    have hd : deref list.heap (some a) = .ok (a, ⟨c, nx⟩) := by rw [deref, hg]
    unfold closeFrom at he
    rw [hd, mem_ok, Program.ret_bind] at he
    simp only at he
    rw [exec_indeterminate] at he
    obtain ⟨svCl, rest, rfl, he⟩ := he
    rw [exec_send] at he
    obtain ⟨sent, rest, rfl, he⟩ := he
    rw [exec_recv] at he
    obtain ⟨ret, rest, rfl, he⟩ := he
    rw [exec_dieType] at he
    rcases he with ⟨hret, rfl, rfl⟩ | ⟨hret, he⟩
    · exact Or.inr ⟨(a, c), ret, List.mem_cons_self, rfl, by simpa using hret, by simp⟩
    rw [exec_close] at he
    obtain ⟨u, rest, rfl, he⟩ := he
    rcases ih hs (by simpa using hf) he with ⟨rfl, hrest⟩ | ⟨n, ret', hn, rfl, hret', hmem⟩
    · exact Or.inl ⟨rfl, svCl, sent, ret, rest, rfl, by simpa using hret, hrest⟩
    · refine Or.inr ⟨n, ret', List.mem_cons_of_mem _ hn, rfl, hret', ?_⟩
      simp only [List.mem_cons]
      exact Or.inr (Or.inr (Or.inr (Or.inr hmem)))

/-- A line that begins with `exit` is the command. -/
theorem strncmp_exit {line : List Byte} (h : exitWord <+: line) :
    strncmp (pad maxLenBuf line) exitWord exitWord.length = 0 := by
  refine strncmp_prefix ?_
  obtain ⟨t, rfl⟩ := h
  unfold pad
  rw [List.append_assoc]
  exact List.prefix_take_iff.mpr ⟨List.prefix_append _ _, by decide +kernel⟩

/-- The command `exit` runs `close_all_sockets` and leaves the loop. -/
theorem exitBody_exec {line : List Byte} {rest : List (Event Sys)}
    {o : Except Halt (ServerState × Flow)} (hline : exitWord <+: line)
    (he : (mainBody k s 0).Exec (⟨.read 0 maxLenBuf, some line⟩ :: rest) o) :
    ∃ o', (closeAllSockets s.clientsContainer).Exec rest o' ∧ o = o'.map fun _ => (s, .leave) := by
  unfold mainBody stdinBranch at he
  rw [if_neg k.tcp_pos.ne, if_neg k.udp_pos.ne, if_pos rfl, LawfulMonad.bind_assoc,
    exec_read] at he
  obtain ⟨ret, rest', heq, he⟩ := he
  cases heq
  rw [LawfulMonad.bind_assoc, exec_dieCall] at he
  rcases he with ⟨hret, -⟩ | ⟨-, he⟩
  · cases hret
  rw [Option.getD_some, if_pos (strncmp_exit hline), LawfulMonad.bind_assoc,
    Program.exec_bind] at he
  rcases he with ⟨e, hclose, rfl⟩ | ⟨es, es', u, rfl, hclose, rfl, rfl⟩
  · exact ⟨_, hclose, rfl⟩
  · rw [List.append_nil]
    exact ⟨_, hclose, rfl⟩

/-- The server takes leave of its clients if and only if all of them are online. -/
theorem takes_leave_iff {p : Point ServerState} {hs : List (Handled Sys ServerState)}
    (h : ServerRun k g p hs) {o : Except Halt (ServerState × Flow)} {line : List Byte}
    {rest : List (Event Sys)} (hline : exitWord <+: line)
    (he : (mainBody k p.state 0).Exec (⟨.read 0 maxLenBuf, some line⟩ :: rest) o)
    (hans : ∀ e ∈ rest, shutdownAnswer e) :
    TakesLeave p.state (⟨.read 0 maxLenBuf, some line⟩ :: rest) o ↔
      ∀ c ∈ p.state.clientsContainer.toList, c.online = true := by
  obtain ⟨g', hreg⟩ := h.registry
  have hl := h.lists
  -- the answer is an acknowledgement exactly where there is a client to give it
  have hack : ∀ c ∈ p.state.clientsContainer.toList, ∀ ret : Option (List Byte),
      (⟨.recv .shutdownAck c.sock maxLenBuf, ret⟩ : Event Sys) ∈ rest →
      (replyType ret = 4 ↔ c.online = true) := by
    intro c hc ret hmem
    have hr : if c.sock = -1 then ret = none else replyType ret = 4 := hans _ hmem
    rw [hreg.flag c hc]
    by_cases hsock : c.sock = -1
    · rw [if_pos hsock] at hr
      subst hr
      exact iff_of_false (by decide) (not_not_intro hsock)
    · rw [if_neg hsock] at hr
      exact iff_of_true hr hsock
  obtain ⟨o', hclose, rfl⟩ := exitBody_exec hline he
  have hs : Seg p.state.clientsContainer.heap p.state.clientsContainer.head
      p.state.clientsContainer.nodes none := hl.registry.repr
  rcases closeFrom_exec hs hs.length_le hclose with
    ⟨rfl, hall⟩ | ⟨n, ret, hn, rfl, hret, hmem⟩
  · refine iff_of_true ⟨rfl, fun c hc _ => ?_⟩ fun c hc => ?_
    · obtain ⟨svCl, sent, ret, hin, hret⟩ := hall.mem hc
      exact ⟨svCl, sent, ret, hin.trans (List.suffix_cons _ _).isInfix, hret⟩
    · obtain ⟨svCl, sent, ret, hin, hret⟩ := hall.mem hc
      refine (hack c hc ret (hin.subset ?_)).mp hret
      simp [leaveCalls]
  · refine iff_of_false (fun hleave => ?_) fun hall => ?_
    · cases hleave.1
    · have hc := List.mem_map_of_mem (f := Prod.snd) hn
      exact hret ((hack n.2 hc ret hmem).mpr (hall n.2 hc))

/-- The answers to the command `exit`: the clients that are online acknowledge. -/
def exitAnswers : (c : Call) → Answer c
  | .read _ _ => some exitWord
  | .send _ fd _ => decide (fd ≠ -1)
  | .recv _ fd _ => if fd = -1 then none else some [4]
  | c => scripted 0 [] [] c

/-- The body for the command `exit`. -/
def exitStep (s : ServerState) : List (Event Sys) × Except Halt (ServerState × Flow) :=
  (mainBody sockets s 0).play (fun _ => exitAnswers) 0

theorem exitStep_exec (s : ServerState) :
    (mainBody sockets s 0).Exec (exitStep s).1 (exitStep s).2 := Program.exec_play _ _ _

theorem exitStep_read (s : ServerState) :
    (exitStep s).1 = ⟨.read 0 maxLenBuf, some exitWord⟩ :: (exitStep s).1.tail := rfl

theorem exitAnswers_shutdown (c : Call) : shutdownAnswer ⟨c, exitAnswers c⟩ := by
  unfold shutdownAnswer
  split
  · rename_i heq
    cases heq
    exact fun hfd => by rw [hfd]; rfl
  · rename_i heq
    cases heq
    split_ifs with hfd
    · exact if_pos hfd
    · show replyType (if _ then none else some [4]) = 4
      rw [if_neg hfd]
      rfl
  · trivial

theorem takes_leave_iff_online : ∃ g s hs, ServerRun sockets g (.select s) hs ∧
    s.clientsContainer.toList ≠ [] ∧ TakesLeave s (exitStep s).1 (exitStep s).2 := by
  obtain ⟨g, s, hs, hrun, hcheck⟩ := serveScript_check
    [(3, scripted 5 [] (idMessage [65])), (3, scripted 6 [] (idMessage [66]))]
    (fun x => !x.2.clientsContainer.toList.isEmpty && x.2.clientsContainer.toList.all (·.online))
    (by decide +kernel)
  rw [Bool.and_eq_true, List.all_eq_true] at hcheck
  refine ⟨g, s, hs, hrun, by simpa using hcheck.1, ?_⟩
  have he := exitStep_exec s
  rw [exitStep_read] at he ⊢
  refine (takes_leave_iff hrun (List.prefix_refl _) he fun e hmem => ?_).mpr hcheck.2
  rw [Program.mem_play (List.mem_of_mem_tail hmem)]
  exact exitAnswers_shutdown _

/-- A client connects and leaves; the command `exit` then ends in a `DIE`. -/
theorem takes_leave_fails : ∃ g s hs, ServerRun sockets g (.select s) hs ∧
    (∀ e ∈ (exitStep s).1.tail, shutdownAnswer e) ∧
    (exitStep s).2 = .error (.dieType lackAck) ∧
    ¬ TakesLeave s (exitStep s).1 (exitStep s).2 := by
  obtain ⟨g, s, hs, hrun, hcheck⟩ := serveScript_check
    [(3, scripted 5 [] (idMessage [65])), (5, scripted 0 [] (commandMessage 3 0 []))]
    (fun x => match (exitStep x.2).2 with
      | .error e => decide (e = .dieType lackAck)
      | .ok _ => false) (by decide +kernel)
  have hdie : (exitStep s).2 = .error (.dieType lackAck) := by
    cases ho : (exitStep s).2 with
    | ok r =>
      simp only [ho] at hcheck
      cases hcheck
    | error e =>
      simp only [ho] at hcheck
      rw [of_decide_eq_true hcheck]
  refine ⟨g, s, hs, hrun, fun e hmem => ?_, hdie, ?_⟩
  · rw [Program.mem_play (List.mem_of_mem_tail hmem)]
    exact exitAnswers_shutdown _
  · rintro ⟨ho, -⟩
    rw [hdie] at ho
    cases ho

end Shutdown

end TopicServer
