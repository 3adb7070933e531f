import TopicServer.ServerMoves
import TopicServer.Lib.Trace

/-!
# The calls of the system

`LoggedRun` is a run of the system with the calls of all its processes in their order. By its calls
each process comes to where it stands: the server is in one of its runs (`LoggedRun.server`), and
so is every subscriber (`LoggedRun.subscriber`), whatever the others do.
-/

namespace TopicServer

open Interactive Memory

/-! ## The log -/

/-- The descriptor of a connection that a call uses. -/
def connectionOf : Call → Option ℤ
  | .send _ fd _ => some fd
  | .recv _ fd _ => some fd
  | _ => none

/-- A call with its answer: of a subscriber, or of the server (`none`), with the subscriber on the
descriptor that it uses. -/
structure Entry where
  party : Option ℕ
  peer : Option ℕ
  event : Event Sys

/-- What an action adds to the log. -/
def Config.entries (k : Sockets) (cfg : Config) : Action → List Entry
  | .server (.call inputs) =>
    match (TopicServer.server k).ask cfg.server with
    | none => []
    | some ⟨c, _⟩ => ((cfg.answer inputs c).map fun x =>
      ⟨none, (connectionOf c).bind cfg.fds, ⟨c, x.1⟩⟩).toList
  | .subscriber n (.call inputs) =>
    match cfg.peers n with
    | none => []
    | some p =>
      match (TopicServer.subscriber p.sockfd).ask p.phase with
      | none => []
      | some ⟨c, _⟩ => ((p.answer (cfg.shut p) inputs c).map fun x =>
        ⟨some n, none, ⟨c, x.1⟩⟩).toList
  | _ => []

/-- The runs of the system with their logs. -/
inductive LoggedRun (k : Sockets) (C : Config → Action → Prop) : Config → List Entry → Prop
  | init : LoggedRun k C (.init k) []
  | step {cfg cfg' : Config} {a : Action} {log : List Entry} : LoggedRun k C cfg log → C cfg a →
      cfg.step k a = some cfg' → LoggedRun k C cfg' (log ++ cfg.entries k a)

/-- The configuration and the log after the actions, while each passes the check. -/
def Config.runLog (k : Sockets) (check : Config → Action → Bool) (cfg : Config)
    (log : List Entry) (as : List Action) : Option (Config × List Entry) :=
  as.foldlM (fun x a => if check x.1 a then
    (x.1.step k a).map fun cfg => (cfg, x.2 ++ x.1.entries k a) else none) (cfg, log)

/-- The calls of a party. -/
def callsOf (party : Option ℕ) (log : List Entry) : List (Event Sys) :=
  log.filterMap fun e => if e.party = party then some e.event else none

/-- The messages that the server sent to a subscriber. -/
def messagesTo (n : ℕ) (log : List Entry) : List (List Byte) :=
  log.filterMap fun e => match e with
    | ⟨none, some m, ⟨.send _ _ buf, _⟩⟩ => if m = n then some buf else none
    | _ => none

/-- A protocol that expects anything. -/
def anything : Protocol Sys Unit where
  Allowed _ _ := True
  Expected _ _ _ := True
  next _ _ _ := ()

section Log

variable {k : Sockets} {C : Config → Action → Prop} {cfg cfg' : Config} {log log' : List Entry}
  {n : ℕ} {p p' : Peer} {a : Action}

@[simp] theorem callsOf_append (party : Option ℕ) :
    callsOf party (log ++ log') = callsOf party log ++ callsOf party log' := List.filterMap_append

@[simp] theorem messagesTo_append :
    messagesTo n (log ++ log') = messagesTo n log ++ messagesTo n log' := List.filterMap_append

theorem messagesTo_send {peer : Option ℕ} {site : Site} {fd : ℤ} {buf : List Byte} {r : Bool} :
    messagesTo n [⟨none, peer, ⟨.send site fd buf, r⟩⟩] = if peer = some n then [buf] else [] := by
  cases peer with
  | none => rfl
  | some m =>
    by_cases hm : m = n
    · rw [if_pos (congrArg some hm)]
      exact List.filterMap_cons_some (if_pos hm)
    · rw [if_neg (fun h => hm (Option.some.inj h))]
      exact List.filterMap_cons_none (if_neg hm)

theorem messagesTo_other {peer : Option ℕ} {e : Event Sys}
    (h : ∀ site fd buf, e.call ≠ .send site fd buf) : messagesTo n [⟨none, peer, e⟩] = [] := by
  obtain ⟨c, r⟩ := e
  cases c with
  | send site fd buf => exact absurd rfl (h site fd buf)
  | _ => cases peer <;> rfl

/-- Every run has a log. -/
theorem SystemRun.logged (h : SystemRun k C cfg) : ∃ log, LoggedRun k C cfg log := by
  induction h with
  | init => exact ⟨[], .init⟩
  | step _ hc hstep ih =>
    obtain ⟨log, hlog⟩ := ih
    exact ⟨_, hlog.step hc hstep⟩

/-- A log belongs to a run. -/
theorem LoggedRun.run (h : LoggedRun k C cfg log) : SystemRun k C cfg := by
  induction h with
  | init => exact .init
  | step _ hc hstep ih => exact ih.step hc hstep

/-- Playing actions leads to a logged run. -/
theorem LoggedRun.play {check : Config → Action → Bool}
    (hC : ∀ cfg a, check cfg a = true → C cfg a) {as : List Action} (h : LoggedRun k C cfg log)
    (hrun : cfg.runLog k check log as = some (cfg', log')) : LoggedRun k C cfg' log' := by
  induction as generalizing cfg log with
  | nil =>
    cases hrun
    exact h
  | cons a as ih =>
    unfold Config.runLog at hrun
    rw [List.foldlM_cons] at hrun
    obtain ⟨⟨cfg₁, log₁⟩, hstep, hrest⟩ := Option.bind_eq_some_iff.mp hrun
    dsimp only at hstep
    split_ifs at hstep with hcheck
    obtain ⟨cfg₂, hnext, heq⟩ := Option.map_eq_some_iff.mp hstep
    cases heq
    exact ih (h.step (hC cfg a hcheck) hnext) hrest

/-! ## What a step logs -/

/-- What a step does: a subscriber connects, a process moves without a call, or it makes one. -/
inductive StepCase (k : Sockets) (cfg : Config) : Action → Config → List Entry → Prop
  | connect {n id sockfd} : cfg.peers n = none → 0 ∉ id → 0 < sockfd →
      StepCase k cfg (.connect n id sockfd)
        { cfg with
          peers := Function.update cfg.peers n (some (.init id sockfd))
          backlog := cfg.backlog ++ [n] } []
  | serverWake {tmp phase} : (∀ i ∈ tmp, cfg.ready k i) →
      (server k).wake tmp cfg.server = some phase →
      StepCase k cfg (.server (.wake tmp)) { cfg with server := phase } []
  | serverAdvance {phase hs} : (server k).advance cfg.server = some (phase, hs) →
      StepCase k cfg (.server .advance)
        { cfg with server := phase, handled := cfg.handled ++ cfg.tagged hs } []
  | serverCall {inputs c next r cfg₁} : (server k).ask cfg.server = some ⟨c, next⟩ →
      cfg.answer inputs c = some (r, cfg₁) →
      StepCase k cfg (.server (.call inputs))
        { cfg₁ with
          server := (next r).1
          kernel := kernel.next cfg.kernel c r
          handled := cfg.handled ++ cfg.tagged (next r).2 }
        [⟨none, (connectionOf c).bind cfg.fds, ⟨c, r⟩⟩]
  | peerWake {n p tmp phase} : cfg.peers n = some p →
      (∀ i ∈ tmp, p.ready (cfg.shut p) i) →
      (subscriber p.sockfd).wake tmp p.phase = some phase →
      StepCase k cfg (.subscriber n (.wake tmp))
        { cfg with peers := Function.update cfg.peers n (some { p with phase := phase }) } []
  | peerAdvance {n p phase hs} : cfg.peers n = some p →
      (subscriber p.sockfd).advance p.phase = some (phase, hs) →
      StepCase k cfg (.subscriber n .advance)
        { cfg with peers := Function.update cfg.peers n (some { p with phase := phase }) } []
  | peerCall {n p inputs c next r p'} : cfg.peers n = some p →
      (subscriber p.sockfd).ask p.phase = some ⟨c, next⟩ →
      p.answer (cfg.shut p) inputs c = some (r, p') →
      StepCase k cfg (.subscriber n (.call inputs))
        { cfg with peers := Function.update cfg.peers n (some { p' with phase := (next r).1 }) }
        [⟨some n, none, ⟨c, r⟩⟩]

theorem step_cases (h : cfg.step k a = some cfg') : StepCase k cfg a cfg' (cfg.entries k a) := by
  cases a with
  | connect n id sockfd =>
    simp only [Config.step] at h
    split_ifs at h with hnew
    cases h
    exact .connect (Option.isNone_iff_eq_none.mp hnew.1) hnew.2.1 hnew.2.2
  | server move =>
    have h : cfg.serverStep k move = some cfg' := h
    cases move with
    | wake tmp =>
      simp only [Config.serverStep] at h
      split_ifs at h with hready
      obtain ⟨phase, hphase, rfl⟩ := Option.map_eq_some_iff.mp h
      exact .serverWake hready hphase
    | advance =>
      obtain ⟨⟨phase, hs⟩, hphase, rfl⟩ := Option.map_eq_some_iff.mp h
      exact .serverAdvance hphase
    | call inputs =>
      simp only [Config.serverStep] at h
      split at h
      · cases h
      · rename_i c next hask
        obtain ⟨⟨r, cfg₁⟩, hanswer, rfl⟩ := Option.map_eq_some_iff.mp h
        have hentries : cfg.entries k (.server (.call inputs)) =
            [⟨none, (connectionOf c).bind cfg.fds, ⟨c, r⟩⟩] := by
          simp only [Config.entries, hask, hanswer]
          rfl
        rw [hentries]
        exact .serverCall hask hanswer
  | subscriber n move =>
    obtain ⟨p, hp, h⟩ := Option.bind_eq_some_iff.mp h
    obtain ⟨p', hp', rfl⟩ := Option.map_eq_some_iff.mp h
    cases move with
    | wake tmp =>
      simp only [Peer.step] at hp'
      split_ifs at hp' with hready
      obtain ⟨phase, hphase, rfl⟩ := Option.map_eq_some_iff.mp hp'
      exact .peerWake hp hready hphase
    | advance =>
      obtain ⟨⟨phase, hs⟩, hphase, rfl⟩ := Option.map_eq_some_iff.mp hp'
      exact .peerAdvance hp hphase
    | call inputs =>
      simp only [Peer.step] at hp'
      split at hp'
      · cases hp'
      · rename_i c next hask
        obtain ⟨⟨r, p₁⟩, hanswer, rfl⟩ := Option.map_eq_some_iff.mp hp'
        have hentries : cfg.entries k (.subscriber n (.call inputs)) =
            [⟨some n, none, ⟨c, r⟩⟩] := by
          simp only [Config.entries, hp, hask, hanswer]
          rfl
        rw [hentries]
        exact .peerCall hp hask hanswer

/-! ## Processes that have ended -/

/-- A process that has ended makes no step. -/
theorem ended_ask {σ : Type} {L : SelectLoop Sys Halt σ} {phase : Phase Sys Halt σ}
    (h : ended phase = true) : L.ask phase = none := by
  cases phase with
  | stopped e => rfl
  | finished => rfl
  | _ => cases h

theorem ended_wake {σ : Type} {L : SelectLoop Sys Halt σ} {phase : Phase Sys Halt σ}
    {tmp : Finset ℤ} (h : ended phase = true) : L.wake tmp phase = none := by
  cases phase with
  | stopped e => rfl
  | finished => rfl
  | _ => cases h

theorem ended_advance {σ : Type} {L : SelectLoop Sys Halt σ} {phase : Phase Sys Halt σ}
    (h : ended phase = true) : L.advance phase = none := by
  cases phase with
  | stopped e => rfl
  | finished => rfl
  | _ => cases h

/-- A process that has come to a fault. -/
def faulty {σ : Type} : Phase Sys Halt σ → Bool
  | .stopped (.fault _) => true
  | _ => false

theorem exists_fault {σ : Type} {phase : Phase Sys Halt σ} (h : faulty phase = true) :
    ∃ f, phase = .stopped (.fault f) := by
  cases phase with
  | stopped e =>
    cases e with
    | fault f => exact ⟨f, rfl⟩
    | _ => cases h
  | _ => cases h

/-! ## The processes by their calls -/

theorem tagged_snd (cfg : Config) (hs : List (Handled Sys ServerState)) :
    (cfg.tagged hs).map Prod.snd = hs := by
  unfold Config.tagged
  rw [List.map_map]
  exact List.map_id hs

/-- The kernel answers as its protocol says. -/
theorem answer_expected {inputs : (c : Call) → Answer c} {c : Call} {r : Answer c}
    (h : cfg.answer inputs c = some (r, cfg')) : kernel.Expected cfg.kernel c r := by
  cases c with
  | accept sockfd =>
    simp only [Config.answer] at h
    split at h
    · cases h
    · split_ifs at h with hfd
      cases h
      exact Or.inr hfd
  | _ => trivial

theorem callsOf_other {party party' peer : Option ℕ} {e : Event Sys} (h : party' ≠ party) :
    callsOf party [⟨party', peer, e⟩] = [] := List.filterMap_cons_none (if_neg h)

theorem callsOf_self {party peer : Option ℕ} {e : Event Sys} :
    callsOf party [⟨party, peer, e⟩] = [e] := List.filterMap_cons_some (if_pos rfl)

/-- The server is in one of its runs. -/
theorem LoggedRun.server (h : LoggedRun k C cfg log) :
    Phase.Tracks (TopicServer.server k) kernel (kernelInit k) (pure (serverInit k)) cfg.kernel
      (cfg.handled.map Prod.snd) (callsOf none log) cfg.server := by
  induction h with
  | init => exact Phase.tracks_start .nil trivial
  | @step cfg cfg' a log _ _ hstep ih =>
    have hcases := step_cases hstep
    generalize cfg.entries k a = es at hcases
    rw [callsOf_append]
    cases hcases with
    | connect => rwa [show callsOf none [] = [] from rfl, List.append_nil]
    | serverWake _ hphase =>
      rw [show callsOf none [] = [] from rfl, List.append_nil]
      exact ih.wake hphase
    | serverAdvance hphase =>
      rw [show callsOf none [] = [] from rfl, List.append_nil, List.map_append, tagged_snd]
      exact ih.advance hphase
    | serverCall hask hanswer =>
      rw [callsOf_self, List.map_append, tagged_snd]
      exact ih.ask hask (answer_expected hanswer)
    | peerWake => rwa [show callsOf none [] = [] from rfl, List.append_nil]
    | peerAdvance => rwa [show callsOf none [] = [] from rfl, List.append_nil]
    | peerCall => rwa [callsOf_other (by simp), List.append_nil]

/-- A call of the server leaves the processes of the subscribers alone. -/
theorem answer_peer {inputs : (c : Call) → Answer c} {c : Call} {r : Answer c}
    (h : cfg.answer inputs c = some (r, cfg')) (n : ℕ) :
    (cfg'.peers n).map (fun p => (p.id, p.sockfd, p.phase)) =
      (cfg.peers n).map fun p => (p.id, p.sockfd, p.phase) := by
  have hmodify : ∀ (m : ℕ) (f : Peer → Peer),
      (∀ p, ((f p).id, (f p).sockfd, (f p).phase) = (p.id, p.sockfd, p.phase)) →
      ((cfg.modify m f).peers n).map (fun p => (p.id, p.sockfd, p.phase)) =
        (cfg.peers n).map fun p => (p.id, p.sockfd, p.phase) := by
    intro m f hf
    by_cases hm : n = m
    · subst hm
      show (Function.update cfg.peers n _ n).map _ = _
      rw [Function.update_self, Option.map_map]
      congr 1
      funext p
      exact hf p
    · show (Function.update cfg.peers m _ n).map _ = _
      rw [Function.update_of_ne hm]
  cases c with
  | accept sockfd =>
    simp only [Config.answer] at h
    split at h
    · cases h
    · split_ifs at h
      cases h
      exact hmodify _ _ fun p => rfl
  | send site fd buf =>
    simp only [Config.answer] at h
    split at h
    · cases h
      rfl
    · cases h
      exact hmodify _ _ fun p => rfl
  | recv site fd len =>
    simp only [Config.answer] at h
    split at h
    · cases h
      rfl
    · obtain ⟨q, hq, h⟩ := Option.bind_eq_some_iff.mp h
      split at h
      · cases h
        exact hmodify _ _ fun p => rfl
      · split_ifs at h
        cases h
        rfl
  | recvfrom fd len =>
    simp only [Config.answer] at h
    split at h
    · cases h
    · split_ifs at h
      cases h
      rfl
  | read fd len => cases h
  | close fd =>
    simp only [Config.answer] at h
    split at h
    · cases h
      rfl
    · cases h
      exact hmodify _ _ fun p => rfl
  | printf line =>
    cases h
    rfl
  | indeterminate m =>
    cases h
    rfl

/-- A call of a subscriber keeps what it is. -/
theorem Peer.answer_kept {shut : Bool} {inputs : (c : Call) → Answer c} {c : Call} {r : Answer c}
    (h : p.answer shut inputs c = some (r, p')) :
    p'.id = p.id ∧ p'.sockfd = p.sockfd ∧ p'.conn = p.conn := by
  cases c with
  | send site fd buf =>
    simp only [Peer.answer] at h
    split_ifs at h
    · cases h
      exact ⟨rfl, rfl, rfl⟩
    · cases h
      exact ⟨rfl, rfl, rfl⟩
  | recv site fd len =>
    by_cases hfd : fd = p.sockfd
    · simp only [Peer.answer, if_pos hfd] at h
      split at h
      · cases h
        exact ⟨rfl, rfl, rfl⟩
      · split_ifs at h
        cases h
        exact ⟨rfl, rfl, rfl⟩
    · simp only [Peer.answer, if_neg hfd] at h
      cases h
      exact ⟨rfl, rfl, rfl⟩
  | read fd len =>
    obtain ⟨line, -, heq⟩ := Option.map_eq_some_iff.mp h
    cases heq
    exact ⟨rfl, rfl, rfl⟩
  | close fd =>
    cases h
    exact ⟨rfl, rfl, rfl⟩
  | printf line =>
    cases h
    exact ⟨rfl, rfl, rfl⟩
  | indeterminate m =>
    cases h
    exact ⟨rfl, rfl, rfl⟩
  | _ => cases h

/-- By its calls a subscriber has come to where it stands, and one that has not connected has made
none. -/
def Followed (n : ℕ) (log : List Entry) : Option Peer → Prop
  | none => callsOf (some n) log = []
  | some p => ∃ hs, Phase.Tracks (TopicServer.subscriber p.sockfd) anything ()
      (subscriberStart p.id p.sockfd) () hs (callsOf (some n) log) p.phase

theorem Followed.congr {x y : Option Peer} (h : Followed n log x)
    (he : y.map (fun p => (p.id, p.sockfd, p.phase)) = x.map fun p => (p.id, p.sockfd, p.phase)) :
    Followed n log y := by
  cases x with
  | none =>
    cases y with
    | none => exact h
    | some q => cases he
  | some p =>
    cases y with
    | none => cases he
    | some q =>
      obtain ⟨hid, hsock, hphase⟩ : q.id = p.id ∧ q.sockfd = p.sockfd ∧ q.phase = p.phase := by
        simpa using he
      show ∃ hs, Phase.Tracks (TopicServer.subscriber q.sockfd) anything ()
        (subscriberStart q.id q.sockfd) () hs (callsOf (some n) log) q.phase
      rw [hid, hsock, hphase]
      exact h

theorem LoggedRun.followed (h : LoggedRun k C cfg log) (n : ℕ) : Followed n log (cfg.peers n) := by
  induction h with
  | init => rfl
  | @step cfg cfg' a log _ _ hstep ih =>
    have hcases := step_cases hstep
    generalize cfg.entries k a = es at hcases
    have hnone : log ++ [] = log := List.append_nil log
    -- the process of one subscriber moves
    have hmove : ∀ {m : ℕ} {q : Peer} {es : List Entry}, (n ≠ m → callsOf (some n) es = []) →
        (n = m → Followed n (log ++ es) (some q)) →
        Followed n (log ++ es) (Function.update cfg.peers m (some q) n) := by
      intro m q es hother hself
      by_cases hm : n = m
      · rw [hm, Function.update_self, ← hm]
        exact hself hm
      · rw [Function.update_of_ne hm]
        have hcalls : callsOf (some n) (log ++ es) = callsOf (some n) log := by
          rw [callsOf_append, hother hm, List.append_nil]
        unfold Followed at ih ⊢
        rwa [hcalls]
    cases hcases with
    | @connect m id sockfd hm _ _ =>
      refine hmove (fun _ => rfl) ?_
      rintro rfl
      rw [hm] at ih
      have hcalls : callsOf (some n) log = [] := ih
      rw [hnone]
      show ∃ hs, Phase.Tracks _ _ _ _ () hs (callsOf (some n) log) _
      rw [hcalls]
      exact ⟨[], Phase.tracks_start .nil trivial⟩
    | serverWake => rwa [hnone]
    | serverAdvance => rwa [hnone]
    | serverCall hask hanswer =>
      have hfollowed := ih.congr (answer_peer hanswer n)
      unfold Followed at hfollowed ⊢
      rwa [callsOf_append, callsOf_other (by simp), List.append_nil]
    | @peerWake m p tmp phase hp _ hphase =>
      refine hmove (fun _ => rfl) ?_
      rintro rfl
      rw [hp] at ih
      obtain ⟨hs, htracks⟩ := ih
      rw [hnone]
      exact ⟨hs, htracks.wake hphase⟩
    | @peerAdvance m p phase hs' hp hphase =>
      refine hmove (fun _ => rfl) ?_
      rintro rfl
      rw [hp] at ih
      obtain ⟨hs, htracks⟩ := ih
      rw [hnone]
      exact ⟨_, htracks.advance hphase⟩
    | @peerCall m p inputs c next r p' hp hask hanswer =>
      refine hmove (fun hne => callsOf_other (by simpa using Ne.symm hne)) ?_
      rintro rfl
      rw [hp] at ih
      obtain ⟨hs, htracks⟩ := ih
      obtain ⟨hid, hsock, -⟩ := Peer.answer_kept hanswer
      have hcall := htracks.ask hask (r := r) trivial
      show ∃ hs, Phase.Tracks (TopicServer.subscriber p'.sockfd) anything ()
        (subscriberStart p'.id p'.sockfd) () hs (callsOf (some n) (log ++ _)) (next r).1
      rw [callsOf_append, callsOf_self, hid, hsock]
      exact ⟨_, hcall⟩

/-- Every subscriber is in one of its runs. -/
theorem LoggedRun.subscriber (h : LoggedRun k C cfg log) (hp : cfg.peers n = some p) :
    ∃ hs, Phase.Tracks (TopicServer.subscriber p.sockfd) anything ()
      (subscriberStart p.id p.sockfd) () hs (callsOf (some n) log) p.phase := by
  have hfollowed := h.followed n
  rwa [hp] at hfollowed

/-! ## The connections -/

/-- A connection is on the descriptor that it was accepted on, and waits in the backlog before. -/
structure Plugged (cfg : Config) : Prop where
  fds : ∀ n p fd, cfg.peers n = some p → (p.conn = .accepted fd ↔ cfg.fds fd = some n)
  known : ∀ n fd, cfg.fds fd = some n → (cfg.peers n).isSome ∧ fd ∈ cfg.kernel.opened
  backlog : ∀ n ∈ cfg.backlog, ∃ p, cfg.peers n = some p ∧ p.conn = .pending
  nodup : cfg.backlog.Nodup

/-- A step that leaves the connections alone. -/
theorem Plugged.congr (h : Plugged cfg)
    (hpeers : ∀ n, (cfg'.peers n).map Peer.conn = (cfg.peers n).map Peer.conn)
    (hfds : cfg'.fds = cfg.fds) (hbacklog : cfg'.backlog = cfg.backlog)
    (hopened : ∀ n fd, cfg.fds fd = some n → fd ∈ cfg.kernel.opened → fd ∈ cfg'.kernel.opened) :
    Plugged cfg' := by
  have hback : ∀ {n p}, cfg.peers n = some p → ∃ q, cfg'.peers n = some q ∧ q.conn = p.conn := by
    intro n p hp
    have hmap := hpeers n
    rw [hp] at hmap
    exact Option.map_eq_some_iff.mp hmap
  have hforth : ∀ {n q}, cfg'.peers n = some q → ∃ p, cfg.peers n = some p ∧ p.conn = q.conn := by
    intro n q hq
    have hmap := hpeers n
    rw [hq] at hmap
    exact Option.map_eq_some_iff.mp hmap.symm
  refine ⟨fun n q fd hq => ?_, fun n fd hfd => ?_, fun n hn => ?_, ?_⟩
  · obtain ⟨p, hp, hconn⟩ := hforth hq
    rw [hfds, ← hconn]
    exact h.fds n p fd hp
  · rw [hfds] at hfd
    obtain ⟨hsome, hopen⟩ := h.known n fd hfd
    obtain ⟨p, hp⟩ := Option.isSome_iff_exists.mp hsome
    obtain ⟨q, hq, -⟩ := hback hp
    exact ⟨Option.isSome_iff_exists.mpr ⟨q, hq⟩, hopened n fd hfd hopen⟩
  · rw [hbacklog] at hn
    obtain ⟨p, hp, hpend⟩ := h.backlog n hn
    obtain ⟨q, hq, hconn⟩ := hback hp
    exact ⟨q, hq, hconn.trans hpend⟩
  · rw [hbacklog]
    exact h.nodup

/-- A subscriber connects. -/
theorem Plugged.connect (h : Plugged cfg) {id : List Byte} {sockfd : ℤ} (hn : cfg.peers n = none) :
    Plugged { cfg with
      peers := Function.update cfg.peers n (some (.init id sockfd))
      backlog := cfg.backlog ++ [n] } := by
  have hne : ∀ {m q}, cfg.peers m = some q → m ≠ n := by
    rintro m q hq rfl
    rw [hn] at hq
    cases hq
  have hold : ∀ {m q}, cfg.peers m = some q →
      Function.update cfg.peers n (some (Peer.init id sockfd)) m = some q :=
    fun hq => (Function.update_of_ne (hne hq) _ _).trans hq
  refine ⟨fun m q fd hq => ?_, fun m fd hfd => ?_, fun m hm => ?_, ?_⟩
  · by_cases hm : m = n
    · subst hm
      have hq : Function.update cfg.peers m (some (Peer.init id sockfd)) m = some q := hq
      rw [Function.update_self] at hq
      cases hq
      refine iff_of_false (fun hc => by cases hc) fun hfd => ?_
      have hsome := (h.known m fd hfd).1
      rw [hn] at hsome
      cases hsome
    · have hq : Function.update cfg.peers n (some (Peer.init id sockfd)) m = some q := hq
      rw [Function.update_of_ne hm] at hq
      exact h.fds m q fd hq
  · obtain ⟨hsome, hopen⟩ := h.known m fd hfd
    obtain ⟨q, hq⟩ := Option.isSome_iff_exists.mp hsome
    exact ⟨Option.isSome_iff_exists.mpr ⟨q, hold hq⟩, hopen⟩
  · rcases List.mem_append.mp hm with hm | hm
    · obtain ⟨q, hq, hpend⟩ := h.backlog m hm
      exact ⟨q, hold hq, hpend⟩
    · rw [List.mem_singleton.mp hm]
      exact ⟨_, Function.update_self _ _ _, rfl⟩
  · refine List.nodup_append.mpr ⟨h.nodup, List.nodup_singleton n, fun m hm m' hm' => ?_⟩
    obtain ⟨q, hq, -⟩ := h.backlog m hm
    rw [List.mem_singleton.mp hm']
    exact hne hq

/-- The server accepts the first connection of the backlog on a descriptor that is not open. -/
theorem Plugged.accept (h : Plugged cfg) {backlog : List ℕ} {fd : ℤ}
    (hb : cfg.backlog = n :: backlog) (hfd : fd ∉ cfg.kernel.opened) (hp : cfg.peers n = some p)
    (hpeers : cfg'.peers = Function.update cfg.peers n (some { p with conn := .accepted fd }))
    (hbacklog : cfg'.backlog = backlog) (hfds : cfg'.fds = Function.update cfg.fds fd (some n))
    (hopened : cfg'.kernel.opened = insert fd cfg.kernel.opened) : Plugged cfg' := by
  have hfree : cfg.fds fd = none := by
    rw [Option.eq_none_iff_forall_ne_some]
    exact fun m hm => hfd (h.known m fd hm).2
  have hpend : ∀ fd', cfg.fds fd' ≠ some n := by
    intro fd' hn
    obtain ⟨q, hq, hpend⟩ := h.backlog n (by rw [hb]; exact List.mem_cons_self)
    rw [← h.fds n q fd' hq, hpend] at hn
    cases hn
  have hnodup := h.nodup
  rw [hb, List.nodup_cons] at hnodup
  refine ⟨fun m q fd' hq => ?_, fun m fd' hfd' => ?_, fun m hm => ?_, hbacklog ▸ hnodup.2⟩
  · rw [hfds]
    rcases peers_update hpeers hq with ⟨rfl, rfl⟩ | ⟨hne, hq⟩
    · by_cases he : fd' = fd
      · rw [he, Function.update_self]
        exact iff_of_true rfl rfl
      · rw [Function.update_of_ne he]
        exact iff_of_false (fun hc => he (Conn.accepted.inj hc).symm) (hpend fd')
    · rw [h.fds m q fd' hq]
      by_cases he : fd' = fd
      · rw [he, Function.update_self, hfree]
        exact iff_of_false (by simp) fun hm => hne (Option.some.inj hm).symm
      · rw [Function.update_of_ne he]
  · rw [hopened, peers_isSome hp hpeers]
    rw [hfds] at hfd'
    by_cases he : fd' = fd
    · rw [he, Function.update_self] at hfd'
      cases hfd'
      rw [he]
      exact ⟨by rw [hp]; rfl, Finset.mem_insert_self _ _⟩
    · rw [Function.update_of_ne he] at hfd'
      obtain ⟨hsome, hopen⟩ := h.known m fd' hfd'
      exact ⟨hsome, Finset.mem_insert_of_mem hopen⟩
  · rw [hbacklog] at hm
    obtain ⟨q, hq, hq'⟩ := h.backlog m (by rw [hb]; exact List.mem_cons_of_mem _ hm)
    refine ⟨q, ?_, hq'⟩
    rw [hpeers, Function.update_of_ne, hq]
    rintro rfl
    exact hnodup.1 hm

/-- The server closes a connection. -/
theorem Plugged.close (h : Plugged cfg) {fd : ℤ} (hn : cfg.fds fd = some n)
    (hp : cfg.peers n = some p)
    (hpeers : cfg'.peers = Function.update cfg.peers n (some { p with conn := .closed }))
    (hbacklog : cfg'.backlog = cfg.backlog) (hfds : cfg'.fds = Function.update cfg.fds fd none)
    (hopened : cfg'.kernel.opened = cfg.kernel.opened.erase fd) : Plugged cfg' := by
  have hconn := (h.fds n p fd hp).mpr hn
  refine ⟨fun m q fd' hq => ?_, fun m fd' hfd' => ?_, fun m hm => ?_, hbacklog ▸ h.nodup⟩
  · rw [hfds]
    rcases peers_update hpeers hq with ⟨rfl, rfl⟩ | ⟨hne, hq⟩
    · refine iff_of_false (fun hc => by cases hc) fun hfd' => ?_
      by_cases he : fd' = fd
      · rw [he, Function.update_self] at hfd'
        cases hfd'
      · rw [Function.update_of_ne he, ← h.fds m p fd' hp, hconn] at hfd'
        exact he (Conn.accepted.inj hfd').symm
    · rw [h.fds m q fd' hq]
      by_cases he : fd' = fd
      · rw [he, Function.update_self, hn]
        exact iff_of_false (fun hm => hne (Option.some.inj hm).symm) (by simp)
      · rw [Function.update_of_ne he]
  · rw [hopened, peers_isSome hp hpeers]
    rw [hfds] at hfd'
    by_cases he : fd' = fd
    · rw [he, Function.update_self] at hfd'
      cases hfd'
    · rw [Function.update_of_ne he] at hfd'
      obtain ⟨hsome, hopen⟩ := h.known m fd' hfd'
      exact ⟨hsome, Finset.mem_erase.mpr ⟨he, hopen⟩⟩
  · rw [hbacklog] at hm
    obtain ⟨q, hq, hpend⟩ := h.backlog m hm
    refine ⟨q, ?_, hpend⟩
    rw [hpeers, Function.update_of_ne, hq]
    rintro rfl
    rw [hp] at hq
    cases hq
    rw [hconn] at hpend
    cases hpend

/-- A message moves on a connection. -/
theorem Plugged.modify (h : Plugged cfg) {m : ℕ} {f : Peer → Peer}
    (hpeers : cfg'.peers = (cfg.modify m f).peers) (hf : ∀ p, (f p).conn = p.conn)
    (hfds : cfg'.fds = cfg.fds) (hbacklog : cfg'.backlog = cfg.backlog)
    (hopened : cfg'.kernel.opened = cfg.kernel.opened) : Plugged cfg' := by
  refine h.congr (fun n => ?_) hfds hbacklog fun _ _ _ hopen => hopened ▸ hopen
  rw [hpeers]
  show (Function.update cfg.peers m _ n).map _ = _
  by_cases hm : n = m
  · rw [hm, Function.update_self, Option.map_map]
    congr 1
    funext p
    exact hf p
  · rw [Function.update_of_ne hm]

/-- Only `accept` and `close` change the table of descriptors. -/
theorem opened_next {g : Kernel} {c : Call} {r : Answer c} (haccept : ∀ fd, c ≠ .accept fd)
    (hclose : ∀ fd, c ≠ .close fd) : (kernel.next g c r).opened = g.opened := by
  cases c with
  | accept fd => exact absurd rfl (haccept fd)
  | close fd => exact absurd rfl (hclose fd)
  | send site fd buf => cases site <;> rfl
  | recv site fd len => cases site <;> rfl
  | _ => rfl

/-- Every call of the server keeps the connections in order. -/
theorem Plugged.answer (h : Plugged cfg) {inputs : (c : Call) → Answer c} {c : Call}
    {r : Answer c} {cfg₁ : Config} (hanswer : cfg.answer inputs c = some (r, cfg₁))
    (hpeers : cfg'.peers = cfg₁.peers) (hfds : cfg'.fds = cfg₁.fds)
    (hbacklog : cfg'.backlog = cfg₁.backlog)
    (hkernel : cfg'.kernel = kernel.next cfg.kernel c r) : Plugged cfg' := by
  have hopened : (∀ fd, c ≠ .accept fd) → (∀ fd, c ≠ .close fd) →
      cfg'.kernel.opened = cfg.kernel.opened := fun h1 h2 => by rw [hkernel, opened_next h1 h2]
  -- a call that changes nothing
  have hquiet : cfg₁ = cfg → (∀ fd, c ≠ .accept fd) → (∀ fd, c ≠ .close fd) → Plugged cfg' := by
    rintro rfl h1 h2
    exact h.congr (fun n => by rw [hpeers]) hfds hbacklog fun _ _ _ hopen =>
      (hopened h1 h2).symm ▸ hopen
  cases c with
  | accept sockfd =>
    simp only [Config.answer] at hanswer
    split at hanswer
    · cases hanswer
    · rename_i n backlog hb
      split_ifs at hanswer with hfd
      cases hanswer
      obtain ⟨p, hp, -⟩ := h.backlog n (by rw [hb]; exact List.mem_cons_self)
      have hne : (inputs (.accept sockfd)).1 ≠ -1 := by omega
      have hnext : kernel.next cfg.kernel (.accept sockfd) (inputs (.accept sockfd)) =
          { cfg.kernel with
            opened := insert (inputs (.accept sockfd)).1 cfg.kernel.opened } := if_neg hne
      rw [hnext] at hkernel
      rw [Config.modify_eq hp] at hpeers
      exact h.accept hb hfd.2 hp hpeers hbacklog hfds (by rw [hkernel])
  | send site fd buf =>
    simp only [Config.answer] at hanswer
    split at hanswer
    · cases hanswer
      exact hquiet rfl (by simp) (by simp)
    · cases hanswer
      exact h.modify hpeers (fun p => rfl) hfds hbacklog (hopened (by simp) (by simp))
  | recv site fd len =>
    simp only [Config.answer] at hanswer
    split at hanswer
    · cases hanswer
      exact hquiet rfl (by simp) (by simp)
    · obtain ⟨q, hq, hanswer⟩ := Option.bind_eq_some_iff.mp hanswer
      split at hanswer
      · cases hanswer
        exact h.modify hpeers (fun p => rfl) hfds hbacklog (hopened (by simp) (by simp))
      · split_ifs at hanswer
        cases hanswer
        exact hquiet rfl (by simp) (by simp)
  | recvfrom fd len =>
    simp only [Config.answer] at hanswer
    split at hanswer
    · cases hanswer
    · split_ifs at hanswer
      cases hanswer
      exact hquiet rfl (by simp) (by simp)
  | read fd len => cases hanswer
  | close fd =>
    simp only [Config.answer] at hanswer
    split at hanswer
    · rename_i hnone
      cases hanswer
      refine h.congr (fun n => by rw [hpeers]) hfds hbacklog fun n fd' hn hopen => ?_
      rw [hkernel]
      refine Finset.mem_erase.mpr ⟨?_, hopen⟩
      rintro rfl
      rw [hnone] at hn
      cases hn
    · rename_i n hn
      cases hanswer
      obtain ⟨p, hp⟩ := Option.isSome_iff_exists.mp (h.known n fd hn).1
      rw [Config.modify_eq hp] at hpeers
      exact h.close hn hp hpeers hbacklog hfds (by rw [hkernel]; rfl)
  | printf line =>
    cases hanswer
    exact hquiet rfl (by simp) (by simp)
  | indeterminate m =>
    cases hanswer
    exact hquiet rfl (by simp) (by simp)

/-- The process of one subscriber moves. -/
theorem Plugged.peer (h : Plugged cfg) (hp : cfg.peers n = some p) (hconn : p'.conn = p.conn) :
    Plugged { cfg with peers := Function.update cfg.peers n (some p') } := by
  refine h.congr (fun m => ?_) rfl rfl fun _ _ _ hopen => hopen
  show (Function.update cfg.peers n (some p') m).map _ = _
  by_cases hm : m = n
  · rw [hm, Function.update_self, hp]
    exact congrArg some hconn
  · rw [Function.update_of_ne hm]

/-- In every run the connections are in order. -/
theorem LoggedRun.plugged (h : LoggedRun k C cfg log) : Plugged cfg := by
  induction h with
  | init =>
    exact ⟨fun _ _ _ hp => (by cases hp), fun _ _ hfd => (by cases hfd), fun _ hn => (by cases hn),
      List.nodup_nil⟩
  | @step cfg cfg' a log _ _ hstep ih =>
    have hcases := step_cases hstep
    generalize cfg.entries k a = es at hcases
    cases hcases with
    | connect hn => exact ih.connect hn
    | serverWake => exact ih.congr (fun _ => rfl) rfl rfl fun _ _ _ hopen => hopen
    | serverAdvance => exact ih.congr (fun _ => rfl) rfl rfl fun _ _ _ hopen => hopen
    | serverCall _ hanswer => exact ih.answer hanswer rfl rfl rfl rfl
    | peerWake hp => exact ih.peer hp rfl
    | peerAdvance hp => exact ih.peer hp rfl
    | peerCall hp _ hanswer => exact ih.peer hp (Peer.answer_kept hanswer).2.2

/-! ## What a call of the server does to a subscriber -/

/-- A call of the server accepts the connection of a subscriber, sends on it, takes a message or
the end of the stream from it, or closes it; any other call leaves the subscriber alone. -/
inductive AnswerCase (p : Peer) : (c : Call) → Answer c → Peer → Prop
  | accept {sockfd r} : p.conn = .pending →
      AnswerCase p (.accept sockfd) r { p with conn := .accepted r.1 }
  | send {site fd buf} : p.conn = .accepted fd →
      AnswerCase p (.send site fd buf) true { p with toClient := p.toClient ++ [buf] }
  | recv {site fd len m rest} : p.conn = .accepted fd → p.toServer = m :: rest →
      AnswerCase p (.recv site fd len) (some (m.take len)) { p with toServer := rest }
  | stream {site fd len} : p.conn = .accepted fd → p.toServer = [] → ended p.phase = true →
      AnswerCase p (.recv site fd len) (some []) p
  | close {fd} : p.conn = .accepted fd → AnswerCase p (.close fd) () { p with conn := .closed }
  | other {c r} : (∀ fd, connectionOf c = some fd ∨ c = .close fd → p.conn ≠ .accepted fd) →
      AnswerCase p c r p

theorem answer_cases (hplug : Plugged cfg) {inputs : (c : Call) → Answer c} {c : Call}
    {r : Answer c} {cfg₁ : Config} (h : cfg.answer inputs c = some (r, cfg₁))
    (hp : cfg.peers n = some p) : ∃ p', cfg₁.peers n = some p' ∧ AnswerCase p c r p' := by
  have hother : ∀ {m : ℕ} {f : Peer → Peer}, m ≠ n → (cfg.modify m f).peers n = some p :=
    fun hm => (Function.update_of_ne (Ne.symm hm) _ _).trans hp
  have hself : ∀ {f : Peer → Peer}, (cfg.modify n f).peers n = some (f p) := by
    intro f
    show Function.update cfg.peers n _ n = _
    rw [Function.update_self, hp]
    rfl
  -- the connection is on no descriptor but its own
  have hconn : ∀ {fd : ℤ}, cfg.fds fd ≠ some n → p.conn ≠ .accepted fd :=
    fun hfd hc => hfd ((hplug.fds n p _ hp).mp hc)
  have haside : ∀ {fd : ℤ} {c : Call} {r : Answer c},
      (∀ fd', connectionOf c = some fd' ∨ c = .close fd' → fd' = fd) → cfg.fds fd ≠ some n →
      AnswerCase p c r p := by
    intro fd c r huse hfd
    exact .other fun fd' hc => by rw [huse fd' hc]; exact hconn hfd
  cases c with
  | accept sockfd =>
    simp only [Config.answer] at h
    split at h
    · cases h
    · rename_i m backlog hb
      split_ifs at h
      cases h
      by_cases hm : m = n
      · subst hm
        obtain ⟨q, hq, hpend⟩ := hplug.backlog m (by rw [hb]; exact List.mem_cons_self)
        rw [hp] at hq
        cases hq
        exact ⟨_, hself, .accept hpend⟩
      · exact ⟨p, hother hm, .other fun fd hc => by simp [connectionOf] at hc⟩
  | send site fd buf =>
    have huse : ∀ fd', connectionOf (.send site fd buf) = some fd' ∨
        Call.send site fd buf = .close fd' → fd' = fd := by
      rintro fd' (hc | hc)
      · exact (Option.some.inj hc).symm
      · cases hc
    simp only [Config.answer] at h
    split at h
    · rename_i hnone
      cases h
      exact ⟨p, hp, haside huse (by rw [hnone]; simp)⟩
    · rename_i m hm
      cases h
      by_cases hmn : m = n
      · subst hmn
        exact ⟨_, hself, .send ((hplug.fds m p fd hp).mpr hm)⟩
      · exact ⟨p, hother hmn, haside huse (by rw [hm]; simpa using hmn)⟩
  | recv site fd len =>
    have huse : ∀ fd', connectionOf (.recv site fd len) = some fd' ∨
        Call.recv site fd len = .close fd' → fd' = fd := by
      rintro fd' (hc | hc)
      · exact (Option.some.inj hc).symm
      · cases hc
    simp only [Config.answer] at h
    split at h
    · rename_i hnone
      cases h
      exact ⟨p, hp, haside huse (by rw [hnone]; simp)⟩
    · rename_i m hm
      obtain ⟨q, hq, h⟩ := Option.bind_eq_some_iff.mp h
      by_cases hmn : m = n
      · subst hmn
        rw [hp] at hq
        cases hq
        have hacc := (hplug.fds m p fd hp).mpr hm
        split at h
        · rename_i hqueue
          cases h
          exact ⟨_, hself, .recv hacc hqueue⟩
        · rename_i hqueue
          split_ifs at h with hend
          cases h
          exact ⟨p, hp, .stream hacc hqueue hend⟩
      · have hne : cfg.fds fd ≠ some n := by
          rw [hm]
          simpa using hmn
        split at h
        · cases h
          exact ⟨p, hother hmn, haside huse hne⟩
        · split_ifs at h
          cases h
          exact ⟨p, hp, haside huse hne⟩
  | recvfrom fd len =>
    simp only [Config.answer] at h
    split at h
    · cases h
    · split_ifs at h
      cases h
      exact ⟨p, hp, .other fun fd hc => by simp [connectionOf] at hc⟩
  | read fd len => cases h
  | close fd =>
    have huse : ∀ fd', connectionOf (.close fd) = some fd' ∨ Call.close fd = .close fd' →
        fd' = fd := by
      rintro fd' (hc | hc)
      · cases hc
      · exact (Call.close.inj hc).symm
    simp only [Config.answer] at h
    split at h
    · rename_i hnone
      cases h
      exact ⟨p, hp, haside huse (by rw [hnone]; simp)⟩
    · rename_i m hm
      cases h
      by_cases hmn : m = n
      · subst hmn
        exact ⟨_, hself, .close ((hplug.fds m p fd hp).mpr hm)⟩
      · exact ⟨p, hother hmn, haside huse (by rw [hm]; simpa using hmn)⟩
  | printf line =>
    cases h
    exact ⟨p, hp, .other fun fd hc => by simp [connectionOf] at hc⟩
  | indeterminate m =>
    cases h
    exact ⟨p, hp, .other fun fd hc => by simp [connectionOf] at hc⟩

end Log

end TopicServer
