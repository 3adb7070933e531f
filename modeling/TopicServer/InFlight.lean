import TopicServer.Agreement
import TopicServer.Turns

/-!
# Messages in flight

What one party sends beyond what it receives, both parties together, is what lies on their
connection (`LoggedRun.balanced`). Since neither party is more than one message ahead, never more
than two messages are in flight between the server and a subscriber (`in_flight`), however their
commands and frames cross.
-/

namespace TopicServer

open Interactive Memory

/-! ## The balance of a call -/

/-- What a call sends on a descriptor beyond what it receives. -/
def moved (fd : ℤ) : Call → ℤ
  | .send _ i _ => if i = fd then 1 else 0
  | .recv _ i _ => if i = fd then -1 else 0
  | _ => 0

section Tally

variable {t : ServerTurn} {u : ClientTurn} {c : Call} {r : Answer c} {fd sockfd : ℤ}

theorem ServerTurn.tally_send {site : Site} {i : ℤ} {buf : List Byte} {sent : Bool}
    (h : t.Allowed (.send site i buf)) :
    (t.next (.send site i buf) sent).tally fd = t.tally fd + if i = fd then 1 else 0 := by
  cases site with
  | idRequest =>
    obtain rfl : t = .accepted i := h
    exact (zero_add _).symm
  | response =>
    obtain rfl : t = .owing i := h
    show (0 : ℤ) = (if i = fd then -1 else 0) + _
    split_ifs <;> rfl
  | data | queued | shutdown | refusal =>
    obtain rfl : t = .rest := h
    exact (zero_add _).symm
  | _ => exact h.elim

theorem ServerTurn.tally_recv {site : Site} {i : ℤ} {len : ℕ} {ret : Option (List Byte)}
    (h : t.Allowed (.recv site i len)) :
    (t.next (.recv site i len) ret).tally fd = t.tally fd + if i = fd then -1 else 0 := by
  have hreply : ∀ b : Byte, ServerTurn.tally fd (if replyType ret = b then .rest else .broken) =
      ServerTurn.tally fd (.asked i) + if i = fd then -1 else 0 := by
    intro b
    show _ = (if i = fd then 1 else 0) + _
    split_ifs <;> rfl
  cases site with
  | command =>
    obtain rfl : t = .rest := h
    exact (zero_add _).symm
  | idReply | dataAck | queuedAck | shutdownAck =>
    obtain rfl : t = .asked i := h
    exact hreply _
  | _ => exact h.elim

/-- A call of the server changes by its balance what the server has sent too much. -/
theorem ServerTurn.tally_next (h : t.Allowed c) (hc : c ≠ .close fd) :
    (t.next c r).tally fd = t.tally fd + moved fd c := by
  cases c with
  | send site i buf => exact tally_send h
  | recv site i len => exact tally_recv h
  | accept i =>
    obtain rfl : t = .rest := h
    rfl
  | close i =>
    have hi : i ≠ fd := fun hi => hc (congrArg Call.close hi)
    rcases h with rfl | rfl
    · rfl
    · show (0 : ℤ) = (if i = fd then 1 else 0) + 0
      rw [if_neg hi, add_zero]
  | _ => exact (add_zero _).symm

theorem ServerTurn.tally_le (t : ServerTurn) (fd : ℤ) : t.tally fd ≤ 1 := by
  cases t with
  | asked i =>
    show (if i = fd then (1 : ℤ) else 0) ≤ 1
    split_ifs <;> omega
  | refusing i =>
    show (if i = fd then (1 : ℤ) else 0) ≤ 1
    split_ifs <;> omega
  | owing i =>
    show (if i = fd then (-1 : ℤ) else 0) ≤ 1
    split_ifs <;> omega
  | _ => exact zero_le_one

/-- A call of a subscriber changes by its balance what the subscriber has sent too much. -/
theorem ClientTurn.tally_next (h : u.Allowed sockfd c) :
    (u.next c r).tally = u.tally + moved sockfd c := by
  cases c with
  | send site i buf =>
    have hturn : i = sockfd ∧ ((site = .putIdReply ∨ site = .putAck) ∧ u = .holding ∨
        (site = .putCommand ∨ site = .putExit) ∧ u = .rest) := by
      cases site with
      | putIdReply => exact ⟨h.2, Or.inl ⟨Or.inl rfl, h.1⟩⟩
      | putAck => exact ⟨h.2, Or.inl ⟨Or.inr rfl, h.1⟩⟩
      | putCommand => exact ⟨h.2.1, Or.inr ⟨Or.inl rfl, h.1⟩⟩
      | putExit => exact ⟨h.2.1, Or.inr ⟨Or.inr rfl, h.1⟩⟩
      | _ => exact h.elim
    show _ = _ + if i = sockfd then 1 else 0
    rw [if_pos hturn.1]
    rcases hturn.2 with ⟨rfl | rfl, rfl⟩ | ⟨rfl | rfl, rfl⟩ <;> rfl
  | recv site i len =>
    have hturn : i = sockfd ∧ ((site = .getIdRequest ∨ site = .getMessage) ∧ u = .rest ∨
        (site = .getCommandAck ∨ site = .getExitAck) ∧ u = .waiting) := by
      cases site with
      | getIdRequest => exact ⟨h.2, Or.inl ⟨Or.inl rfl, h.1⟩⟩
      | getMessage => exact ⟨h.2, Or.inl ⟨Or.inr rfl, h.1⟩⟩
      | getCommandAck => exact ⟨h.2, Or.inr ⟨Or.inl rfl, h.1⟩⟩
      | getExitAck => exact ⟨h.2, Or.inr ⟨Or.inr rfl, h.1⟩⟩
      | _ => exact h.elim
    show _ = _ + if i = sockfd then -1 else 0
    rw [if_pos hturn.1]
    rcases hturn.2 with ⟨rfl | rfl, rfl⟩ | ⟨rfl | rfl, rfl⟩ <;> rfl
  | _ => exact (add_zero _).symm

theorem ClientTurn.tally_le (u : ClientTurn) : u.tally ≤ 1 := by
  cases u <;> decide

end Tally

/-! ## The balance of a run -/

/-- The turn of the server behind the calls of a log. -/
def serverTurn (log : List Entry) : ServerTurn := serverTurns.after .rest (callsOf none log)

/-- The turn of a subscriber behind the calls of a log. -/
def clientTurn (n : ℕ) (sockfd : ℤ) (log : List Entry) : ClientTurn :=
  (clientTurns sockfd).after .rest (callsOf (some n) log)

/-- What the server has sent on a connection beyond what it received. -/
def Conn.tally (t : ServerTurn) : Conn → ℤ
  | .accepted fd => t.tally fd
  | _ => 0

/-- On an open connection of a subscriber that has not ended lies what both parties have sent
beyond what they received. While the subscriber waits for an answer, the last message on the way to
the server is its command. -/
structure InBalance (cfg : Config) (log : List Entry) (n : ℕ) (p : Peer) : Prop where
  sum : ended p.phase = false → cfg.shut p = false →
    (p.toServer.length + p.toClient.length : ℤ) =
      (clientTurn n p.sockfd log).tally + p.conn.tally (serverTurn log)
  command : clientTurn n p.sockfd log = .waiting →
    ∀ m ∈ p.toServer.getLast?, ∃ exit, Command exit m

section Runs

variable {k : Sockets} {C : Config → Action → Prop} {cfg cfg' cfg₁ : Config} {log : List Entry}
  {n : ℕ} {p p' : Peer} {c : Call} {r : Answer c}

theorem shut_eq_false : cfg.shut p = false ↔ ended cfg.server = false ∧ p.conn ≠ .closed := by
  unfold Config.shut
  rw [Bool.or_eq_false_iff, beq_eq_false_iff_ne]

theorem serverTurn_append (e : Event Sys) (peer : Option ℕ) :
    serverTurn (log ++ [⟨none, peer, e⟩]) = (serverTurn log).next e.call e.answer := by
  unfold serverTurn
  rw [callsOf_append, callsOf_self, Protocol.after_append]
  rfl

theorem serverTurn_other (e : Event Sys) :
    serverTurn (log ++ [⟨some n, none, e⟩]) = serverTurn log := by
  unfold serverTurn
  rw [callsOf_append, callsOf_other (by simp), List.append_nil]

theorem clientTurn_append {sockfd : ℤ} (e : Event Sys) :
    clientTurn n sockfd (log ++ [⟨some n, none, e⟩]) =
      (clientTurn n sockfd log).next e.call e.answer := by
  unfold clientTurn
  rw [callsOf_append, callsOf_self, Protocol.after_append]
  rfl

theorem clientTurn_other {sockfd : ℤ} {party peer : Option ℕ} (e : Event Sys)
    (h : party ≠ some n) :
    clientTurn n sockfd (log ++ [⟨party, peer, e⟩]) = clientTurn n sockfd log := by
  unfold clientTurn
  rw [callsOf_append, callsOf_other h, List.append_nil]

/-- The server keeps to its turns. -/
theorem LoggedRun.serverTurn (h : LoggedRun k C cfg log) :
    Phase.Safe (serverTurns_contract k) (TopicServer.serverTurn log) cfg.server :=
  h.server.safe (fun _ _ _ => trivial) rfl

/-- A subscriber keeps to its turns. -/
theorem LoggedRun.clientTurn (h : LoggedRun k C cfg log) (hp : cfg.peers n = some p) :
    Phase.Safe (clientTurns_contract p.sockfd) (TopicServer.clientTurn n p.sockfd log) p.phase := by
  obtain ⟨hs, htracks⟩ := h.subscriber hp
  exact htracks.safe (fun _ _ _ => trivial) subscriberStart_turns

/-- What a call of the server does to the messages on an open connection. -/
theorem AnswerCase.moved (h : AnswerCase p c r p') (hend : ended p.phase = false)
    (hopen : p'.conn ≠ .closed) {t : ServerTurn} (ht : t.Allowed c) :
    (p'.toServer.length + p'.toClient.length : ℤ) + p.conn.tally t =
      p.toServer.length + p.toClient.length + p'.conn.tally (t.next c r) := by
  cases h with
  | accept hpend =>
    rw [hpend]
    rfl
  | @send site fd buf hconn =>
    have htally : (t.next (.send site fd buf) true).tally fd = t.tally fd + 1 := by
      rw [ServerTurn.tally_send ht, if_pos rfl]
    have hlen : (p.toClient ++ [buf]).length = p.toClient.length + 1 := List.length_append
    show _ + ((p.toClient ++ [buf]).length : ℤ) + p.conn.tally t = _ + p.conn.tally _
    rw [hconn, hlen]
    simp only [Conn.tally, htally]
    push_cast
    omega
  | @recv site fd len m rest hconn hqueue =>
    have htally : (t.next (.recv site fd len) (some (m.take len))).tally fd = t.tally fd + -1 := by
      rw [ServerTurn.tally_recv ht, if_pos rfl]
    show (rest.length : ℤ) + _ + p.conn.tally t = _ + p.conn.tally _
    rw [hconn, hqueue, List.length_cons]
    simp only [Conn.tally, htally]
    push_cast
    omega
  | stream hconn hqueue hended =>
    rw [hended] at hend
    cases hend
  | close hconn => exact absurd rfl hopen
  | other hno =>
    cases hc : p.conn with
    | accepted fd =>
      have hmoved : moved fd c = 0 := by
        cases c with
        | send site i buf => exact if_neg fun hi => hno i (Or.inl rfl) (by rw [hc, hi])
        | recv site i len => exact if_neg fun hi => hno i (Or.inl rfl) (by rw [hc, hi])
        | _ => rfl
      have htally : (t.next c r).tally fd = t.tally fd := by
        rw [ServerTurn.tally_next ht fun hcl => hno fd (Or.inr hcl) hc, hmoved, add_zero]
      show _ + t.tally fd = _ + (t.next c r).tally fd
      rw [htally]
    | _ => rfl

/-- What a call of a subscriber does to the messages on its open connection. -/
theorem Peer.answer_moved {inputs : (c : Call) → Answer c}
    (h : p.answer false inputs c = some (r, p')) :
    (p'.toServer.length + p'.toClient.length : ℤ) =
      p.toServer.length + p.toClient.length + TopicServer.moved p.sockfd c := by
  cases c with
  | send site fd buf =>
    simp only [Peer.answer] at h
    split_ifs at h with hfd
    · cases h
      have hlen : (p.toServer ++ [buf]).length = p.toServer.length + 1 := List.length_append
      show ((p.toServer ++ [buf]).length : ℤ) + p.toClient.length =
        _ + if fd = p.sockfd then 1 else 0
      rw [if_pos hfd, hlen]
      push_cast
      omega
    · cases h
      show _ = _ + if fd = p.sockfd then 1 else 0
      rw [if_neg hfd, add_zero]
  | recv site fd len =>
    by_cases hfd : fd = p.sockfd
    · simp only [Peer.answer, if_pos hfd] at h
      split at h
      · rename_i m rest hqueue
        cases h
        show (p.toServer.length : ℤ) + rest.length = _ + if fd = p.sockfd then -1 else 0
        rw [if_pos hfd, hqueue, List.length_cons]
        push_cast
        omega
      · cases h
    · simp only [Peer.answer, if_neg hfd] at h
      cases h
      show _ = _ + if fd = p.sockfd then -1 else 0
      rw [if_neg hfd, add_zero]
  | read fd len =>
    obtain ⟨line, -, heq⟩ := Option.map_eq_some_iff.mp h
    cases heq
    exact (add_zero _).symm
  | close fd =>
    cases h
    exact (add_zero _).symm
  | printf line =>
    cases h
    exact (add_zero _).symm
  | indeterminate m =>
    cases h
    exact (add_zero _).symm
  | _ => cases h

/-- A subscriber that waits for an answer has just sent a command, or sends nothing. -/
theorem Peer.answer_command {shut : Bool} {inputs : (c : Call) → Answer c} {u : ClientTurn}
    (h : p.answer shut inputs c = some (r, p')) (hu : u.Allowed p.sockfd c)
    (hwait : u.next c r = .waiting)
    (hold : u = .waiting → ∀ m ∈ p.toServer.getLast?, ∃ exit, Command exit m) :
    ∀ m ∈ p'.toServer.getLast?, ∃ exit, Command exit m := by
  cases c with
  | send site fd buf =>
    obtain ⟨hfd, hcommand⟩ : fd = p.sockfd ∧ ∃ exit, Command exit buf := by
      cases site with
      | putCommand => exact ⟨hu.2.1, _, hu.2.2⟩
      | putExit => exact ⟨hu.2.1, _, hu.2.2⟩
      | _ => cases hwait
    simp only [Peer.answer, if_pos hfd] at h
    cases h
    intro m hm
    have hlast : (p.toServer ++ [buf]).getLast? = some m := hm
    rw [List.getLast?_concat] at hlast
    cases hlast
    exact hcommand
  | recv site fd len => cases site <;> cases hwait
  | read fd len =>
    obtain ⟨line, -, heq⟩ := Option.map_eq_some_iff.mp h
    cases heq
    exact hold hwait
  | close fd =>
    cases h
    exact hold hwait
  | printf line =>
    cases h
    exact hold hwait
  | indeterminate m =>
    cases h
    exact hold hwait
  | _ => cases h

/-- A step that leaves the messages of a subscriber and the calls of both parties alone. -/
theorem InBalance.congr (h : InBalance cfg log n p) (hsockfd : p'.sockfd = p.sockfd)
    (hserver : p'.toServer = p.toServer) (hclient : p'.toClient = p.toClient)
    (hconn : p'.conn = p.conn) (hphase : ended p.phase = true → ended p'.phase = true)
    (hended : ended cfg.server = true → ended cfg'.server = true) : InBalance cfg' log n p' := by
  refine ⟨fun hlive hopen => ?_, by rw [hserver, hsockfd]; exact h.command⟩
  have hlive' : ended p.phase = false := by
    by_contra hc
    rw [hphase (eq_true_of_ne_false hc)] at hlive
    cases hlive
  have hopen' : cfg.shut p = false := by
    rw [shut_eq_false] at hopen ⊢
    refine ⟨?_, hconn ▸ hopen.2⟩
    by_contra hc
    rw [hended (eq_true_of_ne_false hc)] at hopen
    cases hopen.1
  rw [hserver, hclient, hsockfd, hconn]
  exact h.sum hlive' hopen'

/-- A call of the server keeps the balance. -/
theorem InBalance.server (h : InBalance cfg log n p) (hended : ended cfg.server = false)
    {peer : Option ℕ} (ht : (serverTurn log).Allowed c) (hcase : AnswerCase p c r p') :
    InBalance cfg' (log ++ [⟨none, peer, ⟨c, r⟩⟩]) n p' := by
  have hkept : p'.sockfd = p.sockfd ∧ p'.phase = p.phase ∧
      (p'.conn ≠ .closed → p.conn ≠ .closed) ∧
      ∀ m ∈ p'.toServer.getLast?, m ∈ p.toServer.getLast? := by
    cases hcase with
    | accept hpend => exact ⟨rfl, rfl, fun _ => by simp [hpend], fun _ => id⟩
    | @recv site fd len m rest hconn hqueue =>
      refine ⟨rfl, rfl, id, fun x hx => ?_⟩
      rw [hqueue, List.getLast?_cons, show rest.getLast? = some x from hx]
      rfl
    | close => exact ⟨rfl, rfl, fun hc => absurd rfl hc, fun _ => id⟩
    | _ => exact ⟨rfl, rfl, id, fun _ => id⟩
  obtain ⟨hsockfd, hphase, hconn, hlast⟩ := hkept
  have hturn : clientTurn n p'.sockfd (log ++ [⟨none, peer, ⟨c, r⟩⟩]) =
      clientTurn n p.sockfd log := by
    rw [clientTurn_other _ (by simp), hsockfd]
  refine ⟨fun hlive hopen => ?_, fun hwait m hm => ?_⟩
  swap
  · rw [hturn] at hwait
    exact h.command hwait m (hlast m hm)
  rw [hphase] at hlive
  have hopen' := (shut_eq_false.mp hopen).2
  have hbal := h.sum hlive (shut_eq_false.mpr ⟨hended, hconn hopen'⟩)
  have hmoved := hcase.moved hlive hopen' ht
  rw [serverTurn_append, hturn]
  show _ = _ + p'.conn.tally ((serverTurn log).next c r)
  omega

/-- A call of the subscriber keeps the balance. -/
theorem InBalance.client (h : InBalance cfg log n p) {inputs : (c : Call) → Answer c}
    (hlive : ended p.phase = false) (hu : (clientTurn n p.sockfd log).Allowed p.sockfd c)
    (hanswer : p.answer (cfg.shut p) inputs c = some (r, p'))
    {phase : Phase Sys Halt SubscriberState} {peers : ℕ → Option Peer} :
    InBalance { cfg with peers := peers } (log ++ [⟨some n, none, ⟨c, r⟩⟩]) n
      { p' with phase := phase } := by
  obtain ⟨-, hsockfd, hconn⟩ := Peer.answer_kept hanswer
  refine ⟨fun _ hopen => ?_, fun hwait => ?_⟩
  swap
  · rw [clientTurn_append] at hwait
    have hwait : (clientTurn n p'.sockfd log).next c r = .waiting := hwait
    rw [hsockfd] at hwait
    have hlast := Peer.answer_command hanswer hu hwait h.command
    exact hlast
  have hopen : cfg.shut p = false := by
    rw [shut_eq_false] at hopen ⊢
    exact ⟨hopen.1, hconn ▸ hopen.2⟩
  rw [hopen] at hanswer
  have hbal := h.sum hlive hopen
  have hmoved := Peer.answer_moved hanswer
  have htally : ((clientTurn n p.sockfd log).next c r).tally =
      (clientTurn n p.sockfd log).tally + moved p.sockfd c := ClientTurn.tally_next hu
  rw [serverTurn_other, clientTurn_append]
  show (p'.toServer.length + p'.toClient.length : ℤ) =
    ((clientTurn n p'.sockfd log).next c r).tally + p'.conn.tally (serverTurn log)
  rw [hsockfd, hconn, htally]
  omega

/-- In every run the connections are in balance. -/
theorem LoggedRun.balanced (h : LoggedRun k C cfg log) (hp : cfg.peers n = some p) :
    InBalance cfg log n p := by
  induction h generalizing p with
  | init => cases hp
  | @step cfg cfg' a log hrun _ hstep ih =>
    have hcases := step_cases hstep
    generalize cfg.entries k a = es at hcases
    cases hcases with
    | @connect m ident sockfd hm _ _ =>
      rw [List.append_nil]
      rcases peers_update rfl hp with ⟨rfl, rfl⟩ | ⟨-, hq⟩
      · have hcalls := hrun.followed n
        rw [hm] at hcalls
        have hrest : TopicServer.clientTurn n sockfd log = .rest := by
          unfold TopicServer.clientTurn
          rw [show callsOf (some n) log = [] from hcalls]
          rfl
        refine ⟨fun _ _ => ?_, fun _ _ hm => by cases hm⟩
        show (0 : ℤ) = (TopicServer.clientTurn n sockfd log).tally + 0
        rw [hrest]
        rfl
      · exact (ih hq).congr rfl rfl rfl rfl id id
    | @serverWake tmp phase _ hphase =>
      rw [List.append_nil]
      refine (ih hp).congr rfl rfl rfl rfl id fun hc => ?_
      rw [ended_wake hc] at hphase
      cases hphase
    | @serverAdvance phase hs hphase =>
      rw [List.append_nil]
      refine (ih hp).congr rfl rfl rfl rfl id fun hc => ?_
      rw [ended_advance hc] at hphase
      cases hphase
    | @serverCall inputs c next r cfg₁ hask hanswer =>
      have hended : ended cfg.server = false := by
        by_contra hc
        rw [ended_ask (eq_true_of_ne_false hc)] at hask
        cases hask
      have hallowed := (hrun.serverTurn.ask hask).1
      have hback := answer_peer hanswer n
      obtain ⟨q, hq, -⟩ : ∃ q, cfg.peers n = some q ∧ q.phase = p.phase := by
        rw [show cfg₁.peers n = some p from hp] at hback
        obtain ⟨q, hq, heq⟩ := Option.map_eq_some_iff.mp hback.symm
        exact ⟨q, hq, congrArg (fun x => x.2.2) heq⟩
      obtain ⟨p', hp', hcase⟩ := answer_cases hrun.plugged hanswer hq
      obtain rfl : p' = p := Option.some.inj (hp'.symm.trans hp)
      exact (ih hq).server hended hallowed hcase
    | @peerWake m q tmp phase hq _ hphase =>
      rw [List.append_nil]
      rcases peers_update rfl hp with ⟨rfl, rfl⟩ | ⟨-, hp⟩
      · refine (ih hq).congr rfl rfl rfl rfl (fun hc => ?_) id
        rw [ended_wake hc] at hphase
        cases hphase
      · exact (ih hp).congr rfl rfl rfl rfl id id
    | @peerAdvance m q phase hs hq hphase =>
      rw [List.append_nil]
      rcases peers_update rfl hp with ⟨rfl, rfl⟩ | ⟨-, hp⟩
      · refine (ih hq).congr rfl rfl rfl rfl (fun hc => ?_) id
        rw [ended_advance hc] at hphase
        cases hphase
      · exact (ih hp).congr rfl rfl rfl rfl id id
    | @peerCall m q inputs c next r q' hq hask hanswer =>
      rcases peers_update rfl hp with ⟨rfl, rfl⟩ | ⟨hne, hp⟩
      · have hlive : ended q.phase = false := by
          by_contra hc
          rw [ended_ask (eq_true_of_ne_false hc)] at hask
          cases hask
        exact (ih hq).client hlive ((hrun.clientTurn hq).ask hask).1 hanswer
      · have hturns : InBalance cfg (log ++ [⟨some m, none, ⟨c, r⟩⟩]) n p := by
          have hturn : TopicServer.clientTurn n p.sockfd (log ++ [⟨some m, none, ⟨c, r⟩⟩]) =
              TopicServer.clientTurn n p.sockfd log :=
            clientTurn_other _ (by simpa using Ne.symm hne)
          refine ⟨fun hlive hopen => ?_, by rw [hturn]; exact (ih hp).command⟩
          rw [serverTurn_other, hturn]
          exact (ih hp).sum hlive hopen
        exact hturns.congr rfl rfl rfl rfl id id

/-- However the commands and the frames cross, at most two messages are in flight on an open
connection of a subscriber that has not ended. -/
theorem in_flight (h : SystemRun k C cfg) (hp : cfg.peers n = some p)
    (hlive : ended p.phase = false) (hopen : cfg.shut p = false) :
    p.toServer.length + p.toClient.length ≤ 2 := by
  obtain ⟨log, hlog⟩ := h.logged
  have hbal := (hlog.balanced hp).sum hlive hopen
  have hclient := (clientTurn n p.sockfd log).tally_le
  have hserver : p.conn.tally (serverTurn log) ≤ 1 := by
    cases p.conn with
    | accepted fd => exact (serverTurn log).tally_le fd
    | _ => exact zero_le_one
  omega

/-- A command and a frame cross. -/
theorem in_flight_crossing : ∃ cfg p, SystemRun sockets (fun _ _ => True) cfg ∧
    cfg.peers 0 = some p ∧ p.toServer.length = 1 ∧ p.toClient.length = 1 ∧
      p.toServer.length + p.toClient.length ≤ 2 := by
  obtain ⟨cfg, hrun, hcheck⟩ := @play_check (fun _ _ => True) (fun _ _ => true)
    (fun _ _ _ => trivial) trivial (crossing 0) (fun cfg => (cfg.peers 0).any fun p =>
      !ended p.phase && !cfg.shut p && p.toServer.length == 1 && p.toClient.length == 1)
    (by decide +kernel)
  rw [Option.any_eq_true] at hcheck
  obtain ⟨p, hp, hcheck⟩ := hcheck
  simp only [Bool.and_eq_true, Bool.not_eq_true', beq_iff_eq] at hcheck
  obtain ⟨⟨⟨hlive, hopen⟩, h1⟩, h2⟩ := hcheck
  exact ⟨cfg, p, hrun, hp, h1, h2, in_flight hrun hp hlive hopen⟩

end Runs

end TopicServer
