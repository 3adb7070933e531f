import TopicServer.FrameBounds
import TopicServer.Registry

/-!
# Admission by ID

A connection that gives an ID is refused when a client with this ID is online, and then nothing
changes; it brings an offline client back on the new descriptor; or it is registered as a new
client (`admission`). The ID is the string in a field of ten bytes: what follows its NUL does not
matter, and an ID of ten characters has none.
-/

namespace TopicServer

open Interactive Linked Memory

/-- A whole reply, with the string `id` in its field of `ID_LEN` bytes. -/
structure CarriesId (reply id : List Byte) : Prop where
  type : msgType reply = 2
  whole : clientHdrSize + idLen ≤ reply.length
  field : cstr ((reply.drop clientHdrSize).take idLen) = id

/-- The connection is told that it is refused, and closed. -/
def RefusedOn (fd : ℤ) (evs : List (Event Sys)) : Prop :=
  (∃ buf sent, (⟨.send .refusal fd buf, sent⟩ : Event Sys) ∈ evs ∧ msgType buf = 4) ∧
    (⟨.close fd, ()⟩ : Event Sys) ∈ evs

/-- The state in which the clients are `cs` and the descriptor is watched. -/
def Admitted (s s' : ServerState) (fd : ℤ) (cs : List ClientStructure) : Prop :=
  s'.clientsContainer.toList = cs ∧ s'.readFds = insert fd s.readFds ∧ s'.fdmax = s.fdmax + 1

/-- The offline client `c` came back: its entry is online on the descriptor, with its subscriptions,
and its queue was flushed there. -/
def CameBack (s : ServerState) (fd : ℤ) (c : ClientStructure) (es : List (Event Sys))
    (o : Except Halt (ServerState × Flow)) : Prop :=
  ∃ xs ys s' queue, s.clientsContainer.toList = xs ++ c :: ys ∧ Flushed fd c.queue.toList es ∧
    o = .ok (s', .next) ∧ queue.toList = [] ∧
    Admitted s s' fd (xs ++ { c with sock := fd, online := true, queue := queue } :: ys)

section Reply

variable {reply id : List Byte} {svCl : CharArray serverHdrSize}

theorem length_request (svCl : CharArray serverHdrSize) :
    (5 :: svCl.bytes.drop 1).length = serverHdrSize := by
  rw [List.length_cons, List.length_drop, svCl.length_eq]
  rfl

theorem CarriesId.type_received (h : CarriesId reply id) :
    (idReply svCl (some reply)).getD 0 0 = 2 := by
  have hlen := h.whole
  cases reply with
  | nil => exact absurd hlen (by decide)
  | cons b reply => exact h.type

/-- The ID that is read is the string in its field. -/
theorem CarriesId.received (h : CarriesId reply id) : (receivedId svCl (some reply)).str = id := by
  have h52 : clientHdrSize = 52 := rfl
  have h10 : idLen = 10 := rfl
  have h64 : serverHdrSize = 64 := rfl
  have hlen := h.whole
  have hfield : ((idReply svCl (some reply)).drop clientHdrSize).take idLen =
      (reply.drop clientHdrSize).take idLen := by
    unfold idReply overlay
    rw [Option.getD_some, length_request, List.drop_append_of_le_length
      (by rw [List.length_take]; omega), List.take_append_of_le_length
      (by rw [List.length_drop, List.length_take]; omega), List.drop_take, List.take_take,
      Nat.min_eq_left (by omega)]
  have hfull : ((reply.drop clientHdrSize).take idLen).length = idLen := by
    rw [List.length_take, List.length_drop]
    omega
  unfold receivedId
  rw [hfield]
  show cstr (pad idLen ((reply.drop clientHdrSize).take idLen)) = id
  rw [pad_of_length hfull, h.field]

end Reply

section Admission

variable {k : Sockets} {g : Kernel} {p : Point ServerState} {hs : List (Handled Sys ServerState)}
  {fd : ℤ} {addr : SockAddrIn} {svCl : CharArray serverHdrSize} {reply id : List Byte}
  {evs : List (Event Sys)} {o : Except Halt (ServerState × Flow)}

/-- What the main loop does behind the ID reply. -/
theorem mainBody_greeted {s : ServerState} (h : CarriesId reply id) (hfd : fd ≠ -1)
    (he : (mainBody k s k.tcp).Exec (greeting k.tcp fd addr svCl (some reply) ++ evs) o) :
    ∃ o', (admitClient s fd addr svCl (receivedId svCl (some reply))).Exec evs o' ∧
      o = o'.map fun s => (s, .next) := by
  have hbody : mainBody k s k.tcp =
      manageConnectionRequest k.tcp s >>= fun s => pure (s, .next) := by
    unfold mainBody
    rw [if_pos rfl]
  rw [hbody, Program.exec_bind] at he
  rcases he with ⟨e, he, rfl⟩ | ⟨es, es', s', hevs, he, rfl, rfl⟩
  · exact ⟨.error e, manageConnectionRequest_greeted hfd h.type_received he, rfl⟩
  · rw [List.append_nil] at hevs
    rw [← hevs] at he
    exact ⟨.ok s', manageConnectionRequest_greeted hfd h.type_received he, rfl⟩

/-- Nobody is refused where no refusal is sent. -/
theorem not_refusedOn (h : ∀ e ∈ evs, ∀ buf, e.call ≠ .send .refusal fd buf) :
    ¬ RefusedOn fd evs := by
  rintro ⟨⟨buf, sent, hsend, -⟩, -⟩
  exact h _ hsend buf rfl

/-- A connection with an ID is refused exactly when this ID is online, and then nothing changes; it
brings an offline client back, with its subscriptions; or it is registered behind the others. A
client comes back unless a frame of its queue is not delivered on the new descriptor; there the
server ends. -/
theorem admission (hrun : ServerRun k g p hs) (hid : CarriesId reply id) (hfd : fd ≠ -1)
    (he : (mainBody k p.state k.tcp).Exec (greeting k.tcp fd addr svCl (some reply) ++ evs) o) :
    (RefusedOn fd evs ↔
      ∃ c ∈ p.state.clientsContainer.toList, c.id.str = id ∧ c.online = true) ∧
    (RefusedOn fd evs → o = .ok (p.state, .next)) ∧
    (∀ c ∈ p.state.clientsContainer.toList, c.id.str = id → c.online = false →
      ∃ es, evs = ⟨.printf (.newConn c.id addr), ()⟩ :: es ∧ (CameBack p.state fd c es o ∨
        ∃ e, FlushBroken fd c.queue.toList es e ∧ o = .error e)) ∧
    ((∀ c ∈ p.state.clientsContainer.toList, c.id.str ≠ id) →
      ∃ s' c, o = .ok (s', .next) ∧ c.id.str = id ∧ c.sock = fd ∧ c.online = true ∧
        c.subscribedTopics.toList = [] ∧ c.queue.toList = [] ∧
        Admitted p.state s' fd (p.state.clientsContainer.toList ++ [c])) := by
  obtain ⟨_, hreg⟩ := hrun.registry
  have hunique : ∀ c ∈ p.state.clientsContainer.toList, ∀ d ∈ p.state.clientsContainer.toList,
      c.id.str = id → d.id.str = id → c = d := fun c hc d hd hcid hdid =>
    List.inj_on_of_nodup_map hreg.ids hc hd (hcid.trans hdid.symm)
  obtain ⟨o', hadmit, rfl⟩ := mainBody_greeted hid hfd he
  rcases admitClient_exec hrun.lists hadmit with ⟨hall, rfl, list, -, hn, rfl⟩ |
    ⟨a, c, sent, hmem, hcid, hon, rfl, rfl⟩ | ⟨xs, a, c, ys, es, hn, hcid, hoff, rfl, hes, hend⟩
  · -- No client has the ID.
    rw [hid.received] at hall
    have hnone : ∀ c ∈ p.state.clientsContainer.toList, c.id.str ≠ id := by
      rw [LinkedList.toList, List.forall_mem_map]
      exact hall
    have hno : ¬ RefusedOn fd [⟨.printf (.newConn (receivedId svCl (some reply)) addr), ()⟩] :=
      not_refusedOn fun e he buf hcall => by
        rw [List.mem_singleton] at he
        rw [he] at hcall
        cases hcall
    refine ⟨iff_of_false hno ?_, fun href => absurd href hno, ?_, fun _ => ?_⟩
    · rintro ⟨c, hc, hcid, -⟩
      exact hnone c hc hcid
    · exact fun c hc hcid _ => absurd hcid (hnone c hc)
    · refine ⟨_, newClient (receivedId svCl (some reply)) fd, rfl, hid.received, rfl, rfl, rfl, rfl,
        ?_, rfl, rfl⟩
      rw [LinkedList.toList, hn, List.map_append]
      rfl
  · -- The client with the ID is online.
    rw [hid.received] at hcid
    have hc : c ∈ p.state.clientsContainer.toList := List.mem_map_of_mem hmem
    refine ⟨iff_of_true ⟨⟨_, sent, ?_, rfl⟩, ?_⟩ ⟨c, hc, hcid, hon⟩, fun _ => rfl, ?_, fun hall => ?_⟩
    · simp
    · simp
    · intro d hd hdid hoff
      rw [hunique d hd c hc hdid hcid, hon] at hoff
      cases hoff
    · exact absurd hcid (hall c hc)
  · -- The client with the ID is offline.
    rw [hid.received] at hcid
    have hc : c ∈ p.state.clientsContainer.toList := by
      rw [LinkedList.toList, hn]
      simp
    have hno : ¬ RefusedOn fd (⟨.printf (.newConn c.id addr), ()⟩ :: es) :=
      not_refusedOn fun e he buf hcall => by
        rcases List.mem_cons.mp he with rfl | he
        · cases hcall
        · rcases hes e he with ⟨buf', hsend⟩ | hrecv
          · rw [hsend] at hcall
            cases hcall
          · rw [hrecv] at hcall
            cases hcall
    refine ⟨iff_of_false hno ?_, fun href => absurd href hno, ?_, fun hall => ?_⟩
    · rintro ⟨d, hd, hdid, hon⟩
      rw [hunique d hd c hc hdid hcid, hoff] at hon
      cases hon
    · intro d hd hdid _
      obtain rfl := hunique d hd c hc hdid hcid
      refine ⟨es, rfl, ?_⟩
      rcases hend with ⟨queue, list, hflushed, -, hqn, -, hn', rfl⟩ | ⟨e, rfl, hstop⟩
      · refine Or.inl ⟨xs.map Prod.snd, ys.map Prod.snd, _, queue, ?_, hflushed, rfl, ?_, ?_, rfl,
          rfl⟩
        · rw [LinkedList.toList_of_nodes hn]
        · rw [LinkedList.toList, hqn]
          rfl
        · exact LinkedList.toList_of_nodes hn'
      · exact Or.inr ⟨e, hstop.broken (hrun.queuesFit d hc), rfl⟩
    · exact absurd hcid (hall c hc)

/-- The ID `A` in a whole reply, with other bytes behind its end. -/
def replyA : List Byte := idMessage [65, 0, 7, 7, 7, 7, 7, 7, 7, 7]

/-- The answers to a connection with the ID `A` that acknowledges what it is sent. -/
def askingAgain (n : ℕ) : (c : Call) → Answer c := scripted 6 [] (if n ≤ 3 then replyA else [4])

/-- Another connection asks for the ID of a client: while this is online it is refused, and when it
has left and a publication waits in its queue it comes back. -/
theorem admission_visits :
    (∃ g s hs evs o, ServerRun sockets g (.select s) hs ∧
      (mainBody sockets s 3).Exec
        (greeting 3 6 ⟨0, 0⟩ (.ofList serverHdrSize []) (some replyA) ++ evs) o ∧
      RefusedOn 6 evs ∧ o = .ok (s, .next)) ∧
    ∃ g s hs evs o c, ServerRun sockets g (.select s) hs ∧
      (mainBody sockets s 3).Exec
        (greeting 3 6 ⟨0, 0⟩ (.ofList serverHdrSize []) (some replyA) ++
          ⟨.printf (.newConn c.id ⟨0, 0⟩), ()⟩ :: evs) o ∧
      c.queue.toList ≠ [] ∧ CameBack s 6 c evs o := by
  have hid : CarriesId replyA [65] := ⟨rfl, by decide, by decide⟩
  have hvisit : ∀ s, ∃ evs, (mainBody sockets s 3).Exec
      (greeting 3 6 ⟨0, 0⟩ (.ofList serverHdrSize []) (some replyA) ++ evs)
      (Program.play askingAgain 0 (mainBody sockets s 3)).2 := by
    intro s
    have hexec := Program.exec_play askingAgain (mainBody sockets s 3) 0
    obtain ⟨evs, hevs⟩ : ∃ evs, (Program.play askingAgain 0 (mainBody sockets s 3)).1 =
        greeting 3 6 ⟨0, 0⟩ (.ofList serverHdrSize []) (some replyA) ++ evs := ⟨_, rfl⟩
    exact ⟨evs, hevs ▸ hexec⟩
  constructor
  · obtain ⟨g, s, hs, hrun, hon⟩ := serveScript_check [(3, scripted 5 [] (idMessage [65]))]
      (fun x => x.2.clientsContainer.toList.any fun c => c.id.str == [65] && c.online)
      (by decide +kernel)
    rw [List.any_eq_true] at hon
    obtain ⟨c, hc, hon⟩ := hon
    rw [Bool.and_eq_true, beq_iff_eq] at hon
    obtain ⟨evs, hexec⟩ := hvisit s
    have hadm := admission hrun hid (by decide) hexec
    have href := hadm.1.mpr ⟨c, hc, hon⟩
    exact ⟨g, s, hs, evs, _, hrun, hexec, href, hadm.2.1 href⟩
  · obtain ⟨g, s, hs, hrun, hcheck⟩ := serveScript_check
      [(3, scripted 5 [] (idMessage [65])), (5, scripted 0 [] (commandMessage 0 1 [97])),
        (5, scripted 0 [] (commandMessage 3 0 [])),
        (4, scripted 0 (97 :: List.replicate 49 0 ++ [3, 120]) [])]
      (fun x => (x.2.clientsContainer.toList.any fun c =>
        c.id.str == [65] && (!c.online && !c.queue.toList.isEmpty)) &&
          (Program.play askingAgain 0 (mainBody sockets x.2 3)).2.isOk) (by decide +kernel)
    rw [Bool.and_eq_true, List.any_eq_true] at hcheck
    obtain ⟨⟨c, hc, hoff⟩, hok⟩ := hcheck
    rw [Bool.and_eq_true, Bool.and_eq_true, beq_iff_eq, Bool.not_eq_true',
      Bool.not_eq_true'] at hoff
    obtain ⟨evs, hexec⟩ := hvisit s
    obtain ⟨es, rfl, hback | ⟨e, -, herr⟩⟩ :=
      (admission hrun hid (by decide) hexec).2.2.1 c hc hoff.1 hoff.2.1
    · refine ⟨g, s, hs, es, _, c, hrun, hexec, fun hnil => ?_, hback⟩
      rw [hnil] at hoff
      cases hoff.2.2
    · rw [herr] at hok
      cases hok

end Admission

end TopicServer
