import TopicServer.EndToEnd
import TopicServer.Waiting

/-!
# The server returns

The server waits for nothing but the reply of one subscriber at a time (`waits_for_reply`), and
that subscriber, by its own moves, comes to send one or to its end (`Releases`): what it holds it
answers, and what is on its connection it takes. So every call of the server is answered
(`returns_call`), and the server comes back to `select` (`server_returns`). The order of the moves
can be chosen for that, but not what is typed, published or found in memory on the way.
-/

namespace TopicServer

open Interactive Memory

/-- By its own moves a subscriber comes to send a message or to its end, whatever the answers to its
calls are, as long as they do not bring it to a fault. -/
inductive Releases : Peer → Prop
  | sent {p} : p.toServer ≠ [] → Releases p
  | done {p} : ended p.phase = true → Releases p
  | silent {p p' m} : (∀ inputs, m ≠ .call inputs) → p.step false m = some p' →
      faulty p'.phase = false → Releases p' → Releases p
  | call {p} : (p.step false (.call (script [] []))).isSome = true →
      (∀ inputs p', p.step false (.call inputs) = some p' → faulty p'.phase = false →
        Releases p') → Releases p

/-- A phase that holds what is left of a program: its calls are those of the program. -/
structure Holds {σ α : Type} (L : SelectLoop Sys Halt σ)
    (F : List (Event Sys) → Proc α → Phase Sys Halt σ) : Prop where
  ask : ∀ evs c k, ∃ next, L.ask (F evs (.call c k)) = some ⟨c, next⟩ ∧
    ∀ r, (next r).1 = F (evs ++ [⟨c, r⟩]) (k r)
  stop : ∀ evs e, F evs (.stop e) = .stopped e

section Holds

variable {σ : Type} {L : SelectLoop Sys Halt σ}

theorem holds_start : Holds L fun _ q => SelectLoop.start q :=
  ⟨fun _ _ _ => ⟨_, rfl, fun _ => rfl⟩, fun _ _ => rfl⟩

theorem holds_settle (s : σ) (tmp : Finset ℤ) (i : ℤ) :
    Holds L fun evs q => (L.settle s tmp i evs q).1 :=
  ⟨fun _ _ _ => ⟨_, rfl, fun _ => rfl⟩, fun _ _ => rfl⟩

theorem holds_close : Holds L fun _ q => SelectLoop.close q :=
  ⟨fun _ _ _ => ⟨_, rfl, fun _ => rfl⟩, fun _ _ => rfl⟩

end Holds

section Programs

variable {α : Type} {F : List (Event Sys) → Proc α → Phase Sys Halt SubscriberState}
  {p p' : Peer} {u : ClientTurn} {Q : ClientTurn → α → Prop}

theorem releases_asks {c : Call}
    {next : Answer c → Phase Sys Halt SubscriberState × List (Handled Sys SubscriberState)}
    (hask : (subscriber p.sockfd).ask p.phase = some ⟨c, next⟩)
    (hsome : (p.answer false (script [] []) c).isSome = true)
    (hnext : ∀ inputs r p', p.answer false inputs c = some (r, p') →
      faulty (next r).1 = false → Releases { p' with phase := (next r).1 }) : Releases p := by
  refine .call ?_ fun inputs p' hstep hsound => ?_
  · simp only [Peer.step, hask, Option.isSome_map]
    exact hsome
  · simp only [Peer.step, hask] at hstep
    obtain ⟨⟨r, q⟩, hanswer, rfl⟩ := Option.map_eq_some_iff.mp hstep
    exact hnext inputs r q hanswer hsound

theorem releases_stopped {e : Halt} (h : p.phase = .stopped e) (hsound : faulty p.phase = false) :
    Releases p := by
  cases e with
  | fault f =>
    rw [h] at hsound
    cases hsound
  | _ => exact .done (by rw [h]; rfl)

/-- A subscriber that sends is released at once. -/
theorem releases_send {site : Site} {fd : ℤ} {buf : List Byte}
    {next : Bool → Phase Sys Halt SubscriberState × List (Handled Sys SubscriberState)}
    (hu : u.Allowed p.sockfd (.send site fd buf))
    (hask : (subscriber p.sockfd).ask p.phase = some ⟨.send site fd buf, next⟩) : Releases p := by
  have hfd : fd = p.sockfd := by
    cases site with
    | putIdReply => exact hu.2
    | putAck => exact hu.2
    | putCommand => exact hu.2.1
    | putExit => exact hu.2.1
    | _ => exact hu.elim
  have hanswer : ∀ inputs, p.answer false inputs (.send site fd buf) =
      some (true, p.put site buf) := fun _ => if_pos hfd
  refine releases_asks hask (by rw [hanswer]; rfl) fun inputs r p' h _ => .sent ?_
  rw [hanswer] at h
  cases h
  exact List.append_ne_nil_of_right_ne_nil _ (List.cons_ne_nil _ _)

/-- A call that touches no connection leaves the subscriber as it was. -/
theorem answer_quiet {c : Call} (hu : u.Allowed p.sockfd c)
    (hsend : ∀ site fd buf, c ≠ .send site fd buf) (hrecv : ∀ site fd len, c ≠ .recv site fd len) :
    (p.answer false (script [] []) c).isSome = true ∧
      ∀ inputs r p', p.answer false inputs c = some (r, p') → p' = p ∧ u.next c r = u := by
  cases c with
  | send site fd buf => exact absurd rfl (hsend site fd buf)
  | recv site fd len => exact absurd rfl (hrecv site fd len)
  | accept fd => exact hu.elim
  | recvfrom fd len => exact hu.elim
  | read fd len =>
    refine ⟨rfl, fun inputs r p' h => ?_⟩
    obtain ⟨line, -, heq⟩ := Option.map_eq_some_iff.mp h
    cases heq
    exact ⟨rfl, rfl⟩
  | _ =>
    refine ⟨rfl, fun inputs r p' h => ?_⟩
    cases h
    exact ⟨rfl, rfl⟩

/-- One that holds a message answers it. -/
theorem releases_holding (hF : Holds (subscriber p.sockfd) F) {evs : List (Event Sys)} {q : Proc α}
    (hq : q.wp (clientTurns p.sockfd) .holding (Program.post Q fun _ _ => True))
    (hQ : ∀ a, ¬ Q .holding a) (hphase : p.phase = F evs q) (hsound : faulty p.phase = false) :
    Releases p := by
  induction q generalizing p evs with
  | ret a => exact absurd hq (hQ a)
  | stop e => exact releases_stopped (hphase.trans (hF.stop evs e)) hsound
  | call c k ih =>
    obtain ⟨next, hask, hnext⟩ := hF.ask evs c k
    rw [← hphase] at hask
    by_cases hsend : ∃ site fd buf, c = .send site fd buf
    · obtain ⟨site, fd, buf, rfl⟩ := hsend
      exact releases_send hq.1 hask
    · push Not at hsend
      have hrecv : ∀ site fd len, c ≠ .recv site fd len := by
        rintro site fd len rfl
        have hallowed := hq.1
        cases site with
        | getIdRequest | getMessage | getCommandAck | getExitAck => cases hallowed.1
        | _ => exact hallowed.elim
      obtain ⟨hsome, hquiet⟩ := answer_quiet hq.1 hsend hrecv
      refine releases_asks hask hsome fun inputs r p' hanswer hsound' => ?_
      obtain ⟨rfl, hturn⟩ := hquiet inputs r p' hanswer
      have hrest := hq.2 r trivial
      have hsame : (clientTurns p'.sockfd).next .holding c r = .holding := hturn
      rw [hsame] at hrest
      exact ih r hF hrest (hnext r) hsound'

/-- What a subscriber finds on its connection while the server waits for it. -/
def Supplied (p : Peer) (u : ClientTurn) : Prop := (p.toClient.length : ℤ) = 1 + u.tally

/-- One that takes what is on its connection holds it, or comes to the end of its program. -/
theorem releases_program (evs : List (Event Sys)) (hF : Holds (subscriber p.sockfd) F) {q : Proc α}
    (hq : q.wp (clientTurns p.sockfd) u (Program.post Q fun _ _ => True))
    (hQ : ∀ a, ¬ Q .holding a) (hphase : p.phase = F evs q) (hsound : faulty p.phase = false)
    (hsupplied : Supplied p u)
    (hret : ∀ evs a u' p', Q u' a → p'.sockfd = p.sockfd → p'.phase = F evs (.ret a) →
      Supplied p' u' → Releases p') : Releases p := by
  induction q generalizing p u evs with
  | ret a => exact hret evs a u p hq rfl hphase hsupplied
  | stop e => exact releases_stopped (hphase.trans (hF.stop evs e)) hsound
  | call c k ih =>
    obtain ⟨next, hask, hnext⟩ := hF.ask evs c k
    rw [← hphase] at hask
    by_cases hsend : ∃ site fd buf, c = .send site fd buf
    · obtain ⟨site, fd, buf, rfl⟩ := hsend
      exact releases_send hq.1 hask
    by_cases hrecv : ∃ site fd len, c = .recv site fd len
    · obtain ⟨site, fd, len, rfl⟩ := hrecv
      have hturn : fd = p.sockfd ∧ (u = .rest ∧ u.next (.recv site fd len) = fun _ => .holding) ∨
          fd = p.sockfd ∧ (u = .waiting ∧ u.next (.recv site fd len) = fun _ => .rest) := by
        have hallowed := hq.1
        cases site with
        | getIdRequest => exact Or.inl ⟨hallowed.2, hallowed.1, rfl⟩
        | getMessage => exact Or.inl ⟨hallowed.2, hallowed.1, rfl⟩
        | getCommandAck => exact Or.inr ⟨hallowed.2, hallowed.1, rfl⟩
        | getExitAck => exact Or.inr ⟨hallowed.2, hallowed.1, rfl⟩
        | _ => exact hallowed.elim
      have htake : ∀ m rest, p.toClient = m :: rest → fd = p.sockfd → ∀ inputs,
          p.answer false inputs (.recv site fd len) =
            some (some (m.take len), p.get site m rest) := by
        intro m rest hqueue hfd inputs
        simp only [Peer.answer, if_pos hfd, hqueue]
      rcases hturn with ⟨hfd, rfl, hturn⟩ | ⟨hfd, rfl, hturn⟩
      · have hone : (p.toClient.length : ℤ) = 1 + 0 := hsupplied
        obtain ⟨m, hm⟩ := List.length_eq_one_iff.mp (show p.toClient.length = 1 by omega)
        have hanswer := htake m [] hm hfd
        have hrest := hq.2 (some (m.take len)) trivial
        have hhold : (clientTurns p.sockfd).next .rest (.recv site fd len) (some (m.take len)) =
            .holding := congrFun hturn _
        rw [hhold] at hrest
        refine releases_asks hask (by rw [hanswer]; rfl) fun inputs r p' h hsound' => ?_
        rw [hanswer] at h
        cases h
        exact releases_holding hF hrest hQ (hnext _) hsound'
      · have htwo : (p.toClient.length : ℤ) = 1 + 1 := hsupplied
        obtain ⟨m, m', hm⟩ := List.length_eq_two.mp (show p.toClient.length = 2 by omega)
        have hanswer := htake m [m'] hm hfd
        have hrest := hq.2 (some (m.take len)) trivial
        have hidle : (clientTurns p.sockfd).next .waiting (.recv site fd len) (some (m.take len)) =
            .rest := congrFun hturn _
        rw [hidle] at hrest
        refine releases_asks hask (by rw [hanswer]; rfl) fun inputs r p' h hsound' => ?_
        rw [hanswer] at h
        cases h
        exact ih _ _ hF hrest (hnext _) hsound' rfl hret
    · push Not at hsend hrecv
      obtain ⟨hsome, hquiet⟩ := answer_quiet hq.1 hsend hrecv
      refine releases_asks hask hsome fun inputs r p' hanswer hsound' => ?_
      obtain ⟨rfl, hturn⟩ := hquiet inputs r p' hanswer
      have hrest := hq.2 r trivial
      have hsame : (clientTurns p'.sockfd).next u c r = u := hturn
      rw [hsame] at hrest
      exact ih r _ hF hrest (hnext r) hsound' hsupplied hret

end Programs

/-! ## The loop of a subscriber -/

section Loop

variable {p : Peer} {s : SubscriberState} {tmp : Finset ℤ} {i : ℤ}

theorem releases_advance {phase : Phase Sys Halt SubscriberState}
    {hs : List (Handled Sys SubscriberState)}
    (h : (subscriber p.sockfd).advance p.phase = some (phase, hs)) (hsound : faulty phase = false)
    (hreleases : Releases { p with phase := phase }) : Releases p := by
  refine .silent (m := .advance) (fun _ h => by cases h) ?_ hsound hreleases
  simp only [Peer.step, h]
  rfl

/-- A body begins with a call, or has nothing to do. -/
theorem subscriberBody_begins (sockfd : ℤ) (s : SubscriberState) (tmp : Finset ℤ) (i : ℤ) :
    faulty ((subscriber sockfd).settle s tmp i [] ((subscriber sockfd).body s i)).1 = false := by
  show faulty ((subscriber sockfd).settle s tmp i [] (subscriberBody sockfd s i)).1 = false
  unfold subscriberBody
  split_ifs
  · obtain ⟨rest, hline, -⟩ : ∃ rest, lineBranch sockfd s = .call (.read 0 buflen) rest ∧
      ∀ ret, (rest ret).Calls LineCall := lineBranch_calls
    rw [hline]
    rfl
  · rfl
  · rfl

/-- The body of the connection takes the message on it, which is answered then. -/
theorem releases_message (h0 : 0 < p.sockfd) (hphase : p.phase = .between (.scan s tmp p.sockfd))
    (hmem : p.sockfd ∈ tmp) (hsupplied : Supplied p .rest) : Releases p := by
  obtain ⟨kont, hbody⟩ : ∃ kont, (subscriber p.sockfd).body s p.sockfd =
      .call (.recv .getMessage p.sockfd buflen) kont := by
    show ∃ kont, subscriberBody p.sockfd s p.sockfd = _
    unfold subscriberBody
    rw [if_neg h0.ne', if_pos rfl]
    exact ⟨_, rfl⟩
  have hadvance : (subscriber p.sockfd).advance p.phase =
      some ((subscriber p.sockfd).settle s tmp p.sockfd []
        (.call (.recv .getMessage p.sockfd buflen) kont)) := by
    rw [hphase]
    simp only [SelectLoop.advance, hbody, if_pos hmem]
    exact if_neg (lt_irrefl p.sockfd)
  have hwp := (clientTurns_contract p.sockfd).body (g := .rest) (s := s)
    (i := p.sockfd) rfl le_rfl hmem
  rw [hbody] at hwp
  have hone : (p.toClient.length : ℤ) = 1 + 0 := hsupplied
  obtain ⟨m, hm⟩ := List.length_eq_one_iff.mp (show p.toClient.length = 1 by omega)
  refine releases_advance hadvance rfl ?_
  have hanswer : ∀ (q : Peer) inputs, q.sockfd = p.sockfd → q.toClient = [m] →
      q.answer false inputs (.recv .getMessage p.sockfd buflen) =
        some (some (m.take buflen), q.get .getMessage m []) := by
    intro q inputs hq hqueue
    simp only [Peer.answer, hq, hqueue, if_pos]
  refine releases_asks rfl (Option.isSome_iff_exists.mpr ⟨_, hanswer _ _ rfl hm⟩)
    fun inputs r p' h hsound => ?_
  cases h.symm.trans (hanswer _ _ rfl hm)
  exact releases_holding (holds_settle s tmp p.sockfd) (hwp.2 (some (m.take buflen)) trivial)
    (fun _ hQ => by cases hQ) rfl hsound

/-- One that waits in `select` finds its connection ready. -/
theorem releases_select (h0 : 0 < p.sockfd) (hphase : p.phase = .between (.select s))
    (hsupplied : Supplied p .rest) : Releases p := by
  -- the index passes the descriptors below the connection
  have hscan : ∀ (n : ℕ) (q : Peer) (i : ℤ), i + n = p.sockfd → q.sockfd = p.sockfd →
      q.phase = .between (.scan s {p.sockfd} i) → Supplied q .rest → Releases q := by
    intro n
    induction n with
    | zero =>
      intro q i hi hq hqphase hqsupplied
      obtain rfl : i = q.sockfd := by omega
      exact releases_message (by omega) hqphase
        (Finset.mem_singleton.mpr hq) hqsupplied
    | succ n ih =>
      intro q i hi hq hqphase hqsupplied
      push_cast at hi
      have hno : i ∉ ({p.sockfd} : Finset ℤ) := by
        rw [Finset.mem_singleton]
        omega
      have hadvance : (subscriber q.sockfd).advance q.phase =
          some (.between (.scan s {p.sockfd} (i + 1)), []) := by
        rw [hqphase]
        simp only [SelectLoop.advance, if_neg hno]
        exact if_neg (show ¬ q.sockfd < i by omega)
      exact releases_advance hadvance rfl (ih _ (i + 1) (by omega) hq rfl hqsupplied)
  have hready : ∀ j ∈ ({p.sockfd} : Finset ℤ), p.ready false j = true := by
    intro j hj
    obtain rfl := Finset.mem_singleton.mp hj
    have hone : (p.toClient.length : ℤ) = 1 + 0 := hsupplied
    obtain ⟨m, hm⟩ := List.length_eq_one_iff.mp (show p.toClient.length = 1 by omega)
    simp [Peer.ready, hm]
  have hwake : (subscriber p.sockfd).wake {p.sockfd} p.phase =
      some (.between (.scan s {p.sockfd} 0)) := by
    rw [hphase]
    refine if_pos ⟨?_, fun j hj => ?_⟩
    · rw [Finset.singleton_subset_iff]
      exact Finset.mem_insert_of_mem (Finset.mem_singleton_self _)
    · rw [Finset.mem_singleton.mp hj]
      exact ⟨h0.le, le_rfl⟩
  have hstep : p.step false (.wake {p.sockfd}) =
      some { p with phase := .between (.scan s {p.sockfd} 0) } := by
    simp only [Peer.step, hwake]
    exact if_pos hready
  exact .silent (m := .wake {p.sockfd}) (fun _ h => by cases h) hstep rfl
    (hscan p.sockfd.toNat _ 0 (by omega) rfl rfl hsupplied)

/-- Behind its loop a subscriber comes to its end. -/
theorem releases_leave (hphase : p.phase = SelectLoop.close ((subscriber p.sockfd).finish s)) :
    Releases p := by
  have hask : (subscriber p.sockfd).ask p.phase =
      some ⟨.close p.sockfd, fun r => (SelectLoop.close (.ret r), [])⟩ := by rw [hphase]; rfl
  exact releases_asks hask rfl fun _ _ _ _ _ => .done rfl

/-- A scan of any ready descriptors ends, or releases the subscriber before. -/
theorem releases_scan (n : ℕ) (h0 : 0 < p.sockfd) (hn : p.sockfd + 1 - i ≤ n)
    (hphase : p.phase = .between (.scan s tmp i)) (hsupplied : Supplied p .rest) : Releases p := by
  induction n generalizing p s i with
  | zero =>
    have hadvance : (subscriber p.sockfd).advance p.phase = some (.between (.select s), []) := by
      rw [hphase]
      exact if_pos (show p.sockfd < i by push_cast at hn; omega)
    exact releases_advance hadvance rfl (releases_select h0 rfl hsupplied)
  | succ n ih =>
    push_cast at hn
    by_cases hdone : p.sockfd < i
    · have hadvance : (subscriber p.sockfd).advance p.phase = some (.between (.select s), []) := by
        rw [hphase]
        exact if_pos hdone
      exact releases_advance hadvance rfl (releases_select h0 rfl hsupplied)
    by_cases hmem : i ∈ tmp
    · have hadvance : (subscriber p.sockfd).advance p.phase =
          some ((subscriber p.sockfd).settle s tmp i [] ((subscriber p.sockfd).body s i)) := by
        rw [hphase]
        simp only [SelectLoop.advance, if_pos hmem]
        exact if_neg hdone
      have hwp := (clientTurns_contract p.sockfd).body (g := .rest) (s := s) rfl
        (not_lt.mp hdone) hmem
      have hsound := subscriberBody_begins p.sockfd s tmp i
      refine releases_advance hadvance hsound (releases_program []
        (holds_settle s tmp i) hwp (fun _ hQ => by cases hQ) rfl hsound hsupplied ?_)
      intro evs a u' p' hQ hsock hphase' hsupplied'
      obtain ⟨s', flow⟩ := a
      obtain rfl : u' = .rest := hQ
      have hsock : p'.sockfd = p.sockfd := hsock
      cases flow with
      | next => exact ih (by omega) (by omega) hphase' hsupplied'
      | leave => exact releases_leave (s := s') (by rw [hphase', hsock]; rfl)
    · have hadvance : (subscriber p.sockfd).advance p.phase =
          some (.between (.scan s tmp (i + 1)), []) := by
        rw [hphase]
        simp only [SelectLoop.advance, if_neg hmem]
        exact if_neg hdone
      refine releases_advance hadvance rfl (ih h0 ?_ rfl hsupplied)
      show p.sockfd + 1 - (i + 1) ≤ n
      omega

end Loop

/-! ## Runs -/

section Runs

variable {k : Sockets} {C : Config → Action → Prop} {cfg : Config} {log : List Entry} {n : ℕ}
  {p p' : Peer}

theorem Peer.step_kept {shut : Bool} {move : Move} (h : p.step shut move = some p') :
    p'.sockfd = p.sockfd ∧ p'.conn = p.conn := by
  cases move with
  | wake tmp =>
    simp only [Peer.step] at h
    split_ifs at h
    obtain ⟨phase, -, rfl⟩ := Option.map_eq_some_iff.mp h
    exact ⟨rfl, rfl⟩
  | advance =>
    obtain ⟨r, -, rfl⟩ := Option.map_eq_some_iff.mp h
    exact ⟨rfl, rfl⟩
  | call inputs =>
    simp only [Peer.step] at h
    split at h
    · cases h
    · obtain ⟨⟨r, q⟩, hanswer, rfl⟩ := Option.map_eq_some_iff.mp h
      exact (Peer.answer_kept hanswer).2

/-- The socket of a subscriber is not its standard input. -/
theorem LoggedRun.sockfd_pos (h : LoggedRun k C cfg log) (hp : cfg.peers n = some p) :
    0 < p.sockfd := by
  induction h generalizing p with
  | init => cases hp
  | @step cfg cfg' a log hrun _ hstep ih =>
    have hcases := step_cases hstep
    generalize cfg.entries k a = es at hcases
    cases hcases with
    | connect _ _ hpos =>
      rcases peers_update rfl hp with ⟨rfl, rfl⟩ | ⟨-, hq⟩
      · exact hpos
      · exact ih hq
    | serverWake => exact ih hp
    | serverAdvance => exact ih hp
    | @serverCall inputs c next r cfg₁ _ hanswer =>
      have hback := answer_peer hanswer n
      rw [show cfg₁.peers n = some p from hp] at hback
      obtain ⟨q, hq, heq⟩ := Option.map_eq_some_iff.mp hback.symm
      have hsock : q.sockfd = p.sockfd := congrArg (fun x => x.2.1) heq
      exact hsock ▸ ih hq
    | peerWake hq =>
      rcases peers_update rfl hp with ⟨rfl, rfl⟩ | ⟨-, hp⟩
      · have hpos := ih hq
        exact hpos
      · exact ih hp
    | peerAdvance hq =>
      rcases peers_update rfl hp with ⟨rfl, rfl⟩ | ⟨-, hp⟩
      · have hpos := ih hq
        exact hpos
      · exact ih hp
    | @peerCall m q inputs c next r q' hq _ hanswer =>
      rcases peers_update rfl hp with ⟨rfl, rfl⟩ | ⟨-, hp⟩
      · show 0 < q'.sockfd
        rw [(Peer.answer_kept hanswer).2.1]
        exact ih hq
      · exact ih hp

/-- A subscriber with a message for it that it has not answered releases the server. -/
theorem LoggedRun.releases (h : LoggedRun k C cfg log) (hp : cfg.peers n = some p)
    (hsound : faulty p.phase = false)
    (hsupplied : Supplied p (TopicServer.clientTurn n p.sockfd log)) : Releases p := by
  have h0 := h.sockfd_pos hp
  have hsafe := h.clientTurn hp
  obtain ⟨hs, htracks⟩ := h.subscriber hp
  generalize TopicServer.clientTurn n p.sockfd log = u at hsafe hsupplied
  generalize callsOf (some n) log = evs at htracks
  cases hphase : p.phase with
  | starting rest =>
    rw [hphase] at htracks hsafe
    cases htracks with
    | starting =>
      refine releases_program [] holds_start hsafe (fun _ hQ => by cases hQ) hphase hsound
        hsupplied fun _ s u' p' hQ hsock hphase' hsupplied' => ?_
      obtain rfl : u' = .rest := hQ
      exact releases_select (by rw [hsock]; exact h0) hphase' hsupplied'
  | between pt =>
    rw [hphase] at htracks hsafe
    obtain rfl : u = .rest := hsafe
    cases htracks with
    | between _ hleft =>
      cases pt with
      | select s => exact releases_select h0 hphase hsupplied
      | scan s tmp i =>
        exact releases_scan (p.sockfd + 1 - i).toNat h0 (Int.self_le_toNat _) hphase hsupplied
      | left s => exact absurd rfl (hleft s)
  | running s tmp i done rest =>
    rw [hphase] at htracks hsafe
    have hwp := hsafe.rest
    cases htracks with
    | running =>
      refine releases_program done (holds_settle s tmp i) hwp (fun _ hQ => by cases hQ)
        hphase hsound hsupplied fun evs a u' p' hQ hsock hphase' hsupplied' => ?_
      obtain ⟨s', flow⟩ := a
      obtain rfl : u' = .rest := hQ
      cases flow with
      | next =>
        exact releases_scan (p'.sockfd + 1 - (i + 1)).toNat (by rw [hsock]; exact h0)
          (Int.self_le_toNat _) hphase' hsupplied'
      | leave => exact releases_leave (s := s') (by rw [hphase', hsock]; rfl)
  | finishing rest =>
    rw [hphase] at htracks
    cases htracks with
    | @finishing _ s _ _ _ _ _ _ hlead _ =>
      cases hlead with
      | nil => exact releases_leave (s := s) hphase
      | cons hrest => cases hrest
  | stopped e => exact releases_stopped hphase hsound
  | finished => exact .done (by rw [hphase]; rfl)

end Runs

/-! ## The server -/

/-- No subscriber has run into undefined behaviour. -/
def Sound (cfg : Config) : Prop := ∀ n p, cfg.peers n = some p → faulty p.phase = false

/-- The server waits in `select`, is at its end, or has run into undefined behaviour itself. -/
def Resting (cfg : Config) : Prop :=
  (∃ s, cfg.server = .between (.select s)) ∨ ended cfg.server = true ∨ faulty cfg.server = true

/-- The move of a subscriber, or of the server (`none`). -/
def Action.of : Option ℕ → Move → Action
  | none, move => .server move
  | some n, move => .subscriber n move

/-- The processes can move so that the server comes to rest, whatever the answers to their calls
are, as long as they do not bring a subscriber to a fault. No subscriber connects. -/
inductive Returns (k : Sockets) : Config → Prop
  | resting {cfg} : Resting cfg → Returns k cfg
  | silent {cfg cfg' party m} : (∀ inputs, m ≠ .call inputs) →
      cfg.step k (.of party m) = some cfg' → Sound cfg' → Returns k cfg' → Returns k cfg
  | call {cfg party} :
      (∃ inputs cfg', cfg.step k (.of party (.call inputs)) = some cfg' ∧ Sound cfg') →
      (∀ inputs cfg', cfg.step k (.of party (.call inputs)) = some cfg' → Sound cfg' →
        Returns k cfg') → Returns k cfg

section Server

variable {k : Sockets} {cfg cfg' : Config} {log : List Entry} {n : ℕ} {p p' : Peer}

theorem SystemRun.any {C : Config → Action → Prop} (h : SystemRun k C cfg) :
    SystemRun k (fun _ _ => True) cfg := by
  induction h with
  | init => exact .init
  | step _ _ hstep ih => exact ih.step trivial hstep

theorem Sound.update (h : Sound cfg) (hp' : faulty p'.phase = false) :
    Sound { cfg with peers := Function.update cfg.peers n (some p') } := by
  intro m q hq
  rcases peers_update rfl hq with ⟨-, rfl⟩ | ⟨-, hq⟩
  · exact hp'
  · exact h m q hq

/-- The server's calls leave the processes of the subscribers alone. -/
theorem Sound.answer (h : Sound cfg) {inputs : (c : Call) → Answer c} {c : Call} {r : Answer c}
    (hanswer : cfg.answer inputs c = some (r, cfg')) : Sound cfg' := by
  intro m q hq
  have hback := answer_peer hanswer m
  rw [hq] at hback
  obtain ⟨q', hq', heq⟩ := Option.map_eq_some_iff.mp hback.symm
  rw [← show q'.phase = q.phase from congrArg (fun x => x.2.2) heq]
  exact h m q' hq'

theorem step_subscriber (hp : cfg.peers n = some p) (hopen : cfg.shut p = false) (move : Move) :
    cfg.step k (.of (some n) move) = (p.step false move).map fun p' =>
      { cfg with peers := Function.update cfg.peers n (some p') } := by
  show cfg.step k (.subscriber n move) = _
  simp only [Config.step, hp, Option.bind_some, hopen]

/-- A subscriber that is given an empty line is not at fault behind it. -/
theorem sound_call {C : Config → Action → Prop} (hlog : LoggedRun k C cfg log) (hsound : Sound cfg)
    (hC : C cfg (.subscriber n (.call (script [] []))))
    (hstep : cfg.step k (.subscriber n (.call (script [] []))) = some cfg') : Sound cfg' := by
  intro m q hq
  by_contra hfaulty
  obtain ⟨f, hphase⟩ := exists_fault (eq_true_of_ne_false hfaulty)
  obtain ⟨es, block, hcalls, hfit⟩ := (hlog.step hC hstep).unfit hq hphase
  have hcases := step_cases hstep
  generalize cfg.entries k (.subscriber n (.call (script [] []))) = entries at hcases hcalls
  cases hcases with
  | @peerCall _ p _ c next r p₁ hp hask hanswer =>
    rcases peers_update rfl hq with ⟨rfl, rfl⟩ | ⟨-, hq⟩
    · rw [callsOf_append, callsOf_self] at hcalls
      obtain ⟨-, hlast⟩ := List.append_inj' hcalls rfl
      cases List.singleton_inj.mp hlast
      have hempty : some (some ([] : List Byte), p) = some (some block, p₁) := hanswer
      cases hempty
      exact hfit (by decide +kernel)
    · rw [hsound m q hq] at hfaulty
      exact hfaulty rfl

/-- A subscriber that releases the server does so among the others. -/
theorem Releases.returns (h : Releases p) (hlog : LoggedRun k (fun _ _ => True) cfg log)
    (hsound : Sound cfg) (hp : cfg.peers n = some p) (hopen : cfg.shut p = false)
    (hback : ∀ {cfg' log' p'}, LoggedRun k (fun _ _ => True) cfg' log' → Sound cfg' →
      cfg'.server = cfg.server → cfg'.fds = cfg.fds → cfg'.peers n = some p' →
      p'.toServer ≠ [] ∨ ended p'.phase = true → Returns k cfg') : Returns k cfg := by
  induction h generalizing cfg log with
  | sent hsent => exact hback hlog hsound rfl rfl hp (Or.inl hsent)
  | done hover => exact hback hlog hsound rfl rfl hp (Or.inr hover)
  | @silent p p' move hmove hpeer hp' _ ih =>
    have hstep := step_subscriber (k := k) hp hopen move
    rw [hpeer, Option.map_some] at hstep
    obtain ⟨hserver, hconn⟩ := shut_eq_false.mp hopen
    refine .silent hmove hstep (hsound.update hp') (ih (hlog.step trivial hstep)
      (hsound.update hp') (Function.update_self _ _ _)
      (shut_eq_false.mpr ⟨hserver, (Peer.step_kept hpeer).2 ▸ hconn⟩) hback)
  | @call p hsome _ ih =>
    obtain ⟨hserver, hconn⟩ := shut_eq_false.mp hopen
    refine @Returns.call k cfg (some n) ?_ fun inputs cfg' hstep hsound' => ?_
    · obtain ⟨p', hp'⟩ := Option.isSome_iff_exists.mp hsome
      have hstep := step_subscriber (k := k) hp hopen (.call (script [] []))
      rw [hp', Option.map_some] at hstep
      exact ⟨_, _, hstep, sound_call hlog hsound trivial hstep⟩
    · have hlog' := hlog.step trivial hstep
      rw [step_subscriber hp hopen] at hstep
      obtain ⟨p', hp', rfl⟩ := Option.map_eq_some_iff.mp hstep
      exact ih inputs p' hp' (hsound' n p' (Function.update_self _ _ _)) hlog' hsound'
        (Function.update_self _ _ _)
        (shut_eq_false.mpr ⟨hserver, (Peer.step_kept hp').2 ▸ hconn⟩) hback

/-- A call of the server that has an answer. -/
theorem returns_answered (h : SystemRun k (fun _ _ => True) cfg) (hsound : Sound cfg) {c : Call}
    {next : Answer c → Phase Sys Halt ServerState × List (Handled Sys ServerState)}
    (hask : (server k).ask cfg.server = some ⟨c, next⟩)
    (hsome : ∃ inputs, (cfg.answer inputs c).isSome = true)
    (hnext : ∀ {cfg' r}, SystemRun k (fun _ _ => True) cfg' → Sound cfg' →
      cfg'.server = (next r).1 → Returns k cfg') : Returns k cfg := by
  have hcall : ∀ inputs, cfg.step k (.of none (.call inputs)) =
      (cfg.answer inputs c).map fun (r, cfg') =>
        { cfg' with
          server := (next r).1
          kernel := TopicServer.kernel.next cfg.kernel c r
          handled := cfg.handled ++ cfg.tagged (next r).2 } := by
    intro inputs
    show cfg.serverStep k (.call inputs) = _
    simp only [Config.serverStep, hask]
  refine @Returns.call k cfg none ?_ fun inputs cfg' hstep hsound' => ?_
  · obtain ⟨inputs, hsome⟩ := hsome
    obtain ⟨⟨r, cfg₁⟩, hanswer⟩ := Option.isSome_iff_exists.mp hsome
    have hstep := hcall inputs
    rw [hanswer, Option.map_some] at hstep
    exact ⟨inputs, _, hstep, fun m q hq => hsound.answer hanswer m q hq⟩
  · have h' := h.step trivial hstep
    rw [hcall] at hstep
    obtain ⟨⟨r, cfg₁⟩, -, rfl⟩ := Option.map_eq_some_iff.mp hstep
    exact hnext h' hsound' rfl

/-- A call of the server is answered, behind moves of the subscriber it waits for. -/
theorem returns_call (h : SystemRun k (fun _ _ => True) cfg) (hsound : Sound cfg) {c : Call}
    {next : Answer c → Phase Sys Halt ServerState × List (Handled Sys ServerState)}
    (hask : (server k).ask cfg.server = some ⟨c, next⟩)
    (hnext : ∀ {cfg' r}, SystemRun k (fun _ _ => True) cfg' → Sound cfg' →
      cfg'.server = (next r).1 → Returns k cfg') : Returns k cfg := by
  by_cases hany : ∃ inputs, (cfg.answer inputs c).isSome = true
  · exact returns_answered h hsound hask hany hnext
  have hnone : ∀ inputs, cfg.answer inputs c = none := fun inputs =>
    Option.not_isSome_iff_eq_none.mp fun hsome => hany ⟨inputs, hsome⟩
  obtain ⟨log, hlog⟩ := h.logged
  obtain ⟨site, fd, len, n, p, rfl, hturn, hfd, hp, hqueue, hlive⟩ :=
    waits_for_reply hlog hask hnone
  have hserver : ended cfg.server = false := by
    by_contra hc
    rw [ended_ask (eq_true_of_ne_false hc)] at hask
    cases hask
  have hconn := (hlog.plugged.fds n p fd hp).mpr hfd
  have hopen : cfg.shut p = false := shut_eq_false.mpr ⟨hserver, by rw [hconn]; simp⟩
  -- all that is on the connection is what the server has sent
  have hsupplied : Supplied p (clientTurn n p.sockfd log) := by
    have hsum := (hlog.balanced hp).sum hlive hopen
    have htally : p.conn.tally (serverTurn log) = 1 := by
      rw [hconn, hturn]
      exact if_pos rfl
    rw [htally, hqueue] at hsum
    show (p.toClient.length : ℤ) = _
    simp only [List.length_nil, Nat.cast_zero, zero_add] at hsum
    omega
  refine (hlog.releases hp (hsound n p hp) hsupplied).returns hlog hsound hp hopen
    fun {cfg₁ log₁ p₁} hlog₁ hsound₁ hserver₁ hfds₁ hp₁ hcase => ?_
  have hanswered : (cfg₁.answer (script [] []) (.recv site fd len)).isSome = true := by
    simp only [Config.answer, hfds₁, hfd, hp₁, Option.bind_some]
    split
    · rfl
    · rename_i hqueue₁
      rw [if_pos (hcase.resolve_left (not_not.mpr hqueue₁))]
      rfl
  exact returns_answered hlog₁.run hsound₁ (by rw [hserver₁]; exact hask) ⟨_, hanswered⟩ hnext

theorem returns_stopped {e : Halt} (h : cfg.server = .stopped e) : Returns k cfg := by
  refine .resting (Or.inr ?_)
  rw [h]
  cases e with
  | fault f => exact Or.inr rfl
  | _ => exact Or.inl rfl

/-- The calls that are left of a program are answered one after the other. -/
theorem returns_program {α : Type}
    {F : List (Event Sys) → Proc α → Phase Sys Halt ServerState} (evs : List (Event Sys))
    (hF : Holds (server k) F) {q : Proc α} (h : SystemRun k (fun _ _ => True) cfg)
    (hsound : Sound cfg) (hphase : cfg.server = F evs q)
    (hret : ∀ {cfg' evs a}, SystemRun k (fun _ _ => True) cfg' → Sound cfg' →
      cfg'.server = F evs (.ret a) → Returns k cfg') : Returns k cfg := by
  induction q generalizing cfg evs with
  | ret a => exact hret h hsound hphase
  | stop e => exact returns_stopped (hphase.trans (hF.stop evs e))
  | call c kont ih =>
    obtain ⟨next, hask, hnext⟩ := hF.ask evs c kont
    rw [← hphase] at hask
    exact returns_call h hsound hask fun {cfg' r} h' hsound' hserver =>
      ih r _ h' hsound' (hserver.trans (hnext r))

theorem returns_advance (h : SystemRun k (fun _ _ => True) cfg) (hsound : Sound cfg)
    {phase : Phase Sys Halt ServerState} {hs : List (Handled Sys ServerState)}
    (hadvance : (server k).advance cfg.server = some (phase, hs))
    (hnext : ∀ {cfg'}, SystemRun k (fun _ _ => True) cfg' → Sound cfg' →
      cfg'.server = phase → Returns k cfg') : Returns k cfg := by
  have hstep : cfg.step k (.of none .advance) = some { cfg with
      server := phase
      handled := cfg.handled ++ cfg.tagged hs } := by
    show cfg.serverStep k .advance = _
    simp only [Config.serverStep, hadvance]
    rfl
  exact .silent (m := .advance) (fun _ h => by cases h) hstep hsound
    (hnext (h.step trivial hstep) hsound rfl)

/-- Behind the ready descriptors the scan comes to its end. -/
theorem returns_passed {s : ServerState} {tmp : Finset ℤ} (m : ℕ) {i : ℤ}
    (h : SystemRun k (fun _ _ => True) cfg) (hsound : Sound cfg)
    (hphase : cfg.server = .between (.scan s tmp i)) (htmp : ∀ j ∈ tmp, j < i)
    (hm : s.fdmax + 1 - i ≤ m) : Returns k cfg := by
  induction m generalizing cfg i with
  | zero =>
    have hadvance : (server k).advance cfg.server = some (.between (.select s), []) := by
      rw [hphase]
      exact if_pos (show s.fdmax < i by push_cast at hm; omega)
    exact returns_advance h hsound hadvance fun _ _ hserver => .resting (Or.inl ⟨s, hserver⟩)
  | succ m ih =>
    push_cast at hm
    by_cases hdone : s.fdmax < i
    · have hadvance : (server k).advance cfg.server = some (.between (.select s), []) := by
        rw [hphase]
        exact if_pos hdone
      exact returns_advance h hsound hadvance fun _ _ hserver => .resting (Or.inl ⟨s, hserver⟩)
    · have hadvance : (server k).advance cfg.server =
          some (.between (.scan s tmp (i + 1)), []) := by
        rw [hphase]
        simp only [SelectLoop.advance, if_neg fun hmem => (htmp i hmem).false]
        exact if_neg hdone
      refine returns_advance h hsound hadvance fun h' hsound' hserver =>
        ih h' hsound' hserver (fun j hj => ?_) (by omega)
      exact (htmp j hj).trans (lt_add_one i)

/-- Behind its loop the server comes to its end. -/
theorem returns_leave (h : SystemRun k (fun _ _ => True) cfg) (hsound : Sound cfg)
    {s : ServerState} (hphase : cfg.server = SelectLoop.close ((server k).finish s)) :
    Returns k cfg :=
  returns_program [] holds_close h hsound hphase fun _ _ hserver =>
    .resting (Or.inr (Or.inl (by rw [hserver]; rfl)))

/-- A body of the scan comes to its end, and the scan behind it. -/
theorem returns_body (h : SystemRun k (fun _ _ => True) cfg) (hsound : Sound cfg)
    {s : ServerState} {tmp : Finset ℤ} {i : ℤ} {evs : List (Event Sys)}
    {q : Proc (ServerState × Flow)} (hphase : cfg.server = ((server k).settle s tmp i evs q).1)
    (hscan : ∀ {cfg' s'}, SystemRun k (fun _ _ => True) cfg' → Sound cfg' →
      cfg'.server = .between (.scan s' tmp (i + 1)) → Returns k cfg') : Returns k cfg := by
  refine returns_program evs (holds_settle s tmp i) h hsound hphase
    fun {cfg' evs a} hrun hsound' hserver => ?_
  obtain ⟨s', flow⟩ := a
  cases flow with
  | next => exact hscan hrun hsound' hserver
  | leave => exact returns_leave hrun hsound' hserver

/-- A scan comes to its end: the bodies change the bound, but no ready descriptor is added. -/
theorem returns_scan {s : ServerState} {tmp : Finset ℤ} {i : ℤ} (m : ℕ)
    (h : SystemRun k (fun _ _ => True) cfg) (hsound : Sound cfg)
    (hphase : cfg.server = .between (.scan s tmp i)) (htmp : ∀ j ∈ tmp, j < i + m) :
    Returns k cfg := by
  induction m generalizing cfg s i with
  | zero =>
    exact returns_passed (s.fdmax + 1 - i).toNat h hsound hphase
      (fun j hj => by have := htmp j hj; omega) (Int.self_le_toNat _)
  | succ m ih =>
    push_cast at htmp
    have htmp' : ∀ j ∈ tmp, j < i + 1 + m := fun j hj => by have := htmp j hj; omega
    by_cases hdone : s.fdmax < i
    · have hadvance : (server k).advance cfg.server = some (.between (.select s), []) := by
        rw [hphase]
        exact if_pos hdone
      exact returns_advance h hsound hadvance fun _ _ hserver => .resting (Or.inl ⟨s, hserver⟩)
    by_cases hmem : i ∈ tmp
    · have hadvance : (server k).advance cfg.server =
          some ((server k).settle s tmp i [] ((server k).body s i)) := by
        rw [hphase]
        simp only [SelectLoop.advance, if_pos hmem]
        exact if_neg hdone
      exact returns_advance h hsound hadvance fun h' hsound' hserver =>
        returns_body h' hsound' hserver fun hrun hsound'' hscan => ih hrun hsound'' hscan htmp'
    · have hadvance : (server k).advance cfg.server =
          some (.between (.scan s tmp (i + 1)), []) := by
        rw [hphase]
        simp only [SelectLoop.advance, if_neg hmem]
        exact if_neg hdone
      exact returns_advance h hsound hadvance fun h' hsound' hserver =>
        ih h' hsound' hserver htmp'

/-- However the commands and the frames have crossed, the server can come back to `select`: no
state of the system in which the subscribers are sound is locked up. -/
theorem server_returns {C : Config → Action → Prop} (h : SystemRun k C cfg) (hsound : Sound cfg) :
    Returns k cfg := by
  have hbound : ∀ (tmp : Finset ℤ) (i : ℤ), ∃ m : ℕ, ∀ j ∈ tmp, j < i + m := by
    intro tmp i
    obtain ⟨b, hb⟩ := tmp.bddAbove
    refine ⟨(b + 1 - i).toNat, fun j hj => ?_⟩
    have hle : j ≤ b := hb hj
    omega
  have h := h.any
  obtain ⟨log, hlog⟩ := h.logged
  have htracks := hlog.server
  generalize cfg.kernel = g, cfg.handled.map Prod.snd = hs, callsOf none log = evs at htracks
  cases hphase : cfg.server with
  | starting rest =>
    rw [hphase] at htracks
    cases htracks with
    | starting hlead _ => cases hlead
  | between pt =>
    rw [hphase] at htracks
    cases htracks with
    | between _ hleft =>
      cases pt with
      | select s => exact .resting (Or.inl ⟨s, hphase⟩)
      | scan s tmp i =>
        obtain ⟨m, hm⟩ := hbound tmp i
        exact returns_scan m h hsound hphase hm
      | left s => exact absurd rfl (hleft s)
  | running s tmp i done rest =>
    rw [hphase] at htracks
    cases htracks with
    | running =>
      refine returns_body (s := s) (i := i) (q := .call _ _) h hsound hphase
        fun hrun hsound' hscan => ?_
      obtain ⟨m, hm⟩ := hbound tmp (i + 1)
      exact returns_scan m hrun hsound' hscan hm
  | finishing rest =>
    rw [hphase] at htracks
    cases htracks with
    | finishing =>
      exact returns_program [] (q := .call _ _) holds_close h hsound hphase
        fun _ _ hserver => .resting (Or.inr (Or.inl (by rw [hserver]; rfl)))
  | stopped e => exact returns_stopped hphase
  | finished => exact .resting (Or.inr (Or.inl (by rw [hphase]; rfl)))

/-- Subscribers that have made no call are sound. -/
theorem LoggedRun.sound {C : Config → Action → Prop} (h : LoggedRun k C cfg log)
    (hcalls : ∀ e ∈ log, e.party = none) : Sound cfg := by
  intro n p hp
  by_contra hfaulty
  obtain ⟨f, hphase⟩ := exists_fault (eq_true_of_ne_false hfaulty)
  obtain ⟨es, block, hlast, -⟩ := h.unfit hp hphase
  have hnil : callsOf (some n) log = [] := by
    refine List.filterMap_eq_nil_iff.mpr fun e he => if_neg ?_
    rw [hcalls e he]
    simp
  rw [hnil] at hlast
  simp at hlast

/-- The server waits for the ID of its first subscriber. -/
theorem server_returns_waiting : ∃ cfg s tmp i done rest, SystemRun sockets (fun _ _ => True) cfg ∧
    cfg.server = .running s tmp i done rest ∧ Sound cfg ∧ Returns sockets cfg := by
  obtain ⟨cfg, log, hrun, hcheck⟩ := play_log (serveReady 3 3 []) (fun x =>
    x.2.all (fun e => e.party.isNone) && match x.1.server with
      | .running .. => true
      | _ => false) (by decide +kernel)
  rw [Bool.and_eq_true, List.all_eq_true] at hcheck
  obtain ⟨hcalls, hserver⟩ := hcheck
  have hsound : Sound cfg := hrun.sound fun e he => Option.isNone_iff_eq_none.mp (hcalls e he)
  split at hserver
  · rename_i s tmp i done rest hphase
    exact ⟨cfg, s, tmp, i, done, rest, hrun.run, hphase, hsound, server_returns hrun.run hsound⟩
  · cases hserver

end Server

end TopicServer
