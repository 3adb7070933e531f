import TopicServer.InFlight
import TopicServer.Outgoing

/-!
# What the server waits for

A descriptor that `select` found ready stays ready until its body begins: a connection is in the
backlog, or a command is on its way from a subscriber that has not ended (`LoggedRun.owed`), for
nothing else takes it off: a command that is read where an acknowledgement is due ends the server.
So the server never waits for a command; it waits for replies only (`waits_for_reply`).
-/

namespace TopicServer

open Interactive Linked Memory

/-! ## The first call of a body -/

/-- A call that a body makes behind its first one. -/
def Inner : Call → Prop
  | .accept _ => False
  | .recvfrom .. => False
  | .read .. => False
  | .recv .command .. => False
  | _ => True

/-- The first call of the body of descriptor `i`. -/
def Opens (k : Sockets) (i : ℤ) : Call → Prop
  | .accept _ => i = k.tcp
  | .recvfrom .. => i = k.udp
  | .read .. => i = 0
  | .recv .command fd _ => fd = i ∧ k.Client i
  | _ => False

section Bodies

variable {k : Sockets} {s : ServerState} {i : ℤ}

theorem sendToClient_inner {data topic : List Byte} {bytes : ℤ} {c : ClientStructure} :
    (sendToClient data topic bytes c).Calls Inner := by
  unfold sendToClient
  refine calls_mem fun found => ?_
  cases found with
  | none => trivial
  | some found =>
    obtain ⟨prev, curr⟩ := found
    split_ifs
    · exact calls_ask trivial fun _ => calls_die (calls_ask trivial fun _ =>
        calls_die (calls_die trivial))
    · refine calls_mem fun node => ?_
      dsimp only
      split_ifs
      · exact calls_mem fun _ => trivial
      · trivial

theorem sendDataFrom_inner {data topic : List Byte} {bytes : ℤ} {fuel : ℕ} {curr : Option Addr}
    {list : LinkedList ClientStructure} :
    (sendDataFrom data topic bytes fuel curr list).Calls Inner := by
  induction fuel generalizing curr list with
  | zero => cases curr <;> trivial
  | succ fuel ih =>
    cases curr with
    | none => trivial
    | some a =>
      unfold sendDataFrom
      exact calls_mem fun node => sendToClient_inner.bind fun client => calls_mem fun list => ih

theorem LeaveCall.inner {c : Call} (h : LeaveCall c) : Inner c := by
  cases c with
  | recv site fd len =>
    cases site with
    | shutdownAck => trivial
    | _ => cases h
  | accept sockfd => cases h
  | recvfrom fd len => cases h
  | read fd len => cases h
  | _ => trivial

/-- A body begins with the call of its descriptor, and makes no other of this kind. -/
theorem mainBody_opens (k : Sockets) (s : ServerState) (i : ℤ) : ∃ c rest,
    mainBody k s i = .call c rest ∧ Opens k i c ∧ ∀ r, (rest r).Calls Inner := by
  unfold mainBody
  split_ifs with htcp hudp h0
  · refine ⟨_, _, rfl, htcp, fun conn => ?_⟩
    refine Program.Calls.bind (calls_die (calls_ask trivial fun svCl => ?_)) fun _ => trivial
    refine calls_ask trivial fun _ => calls_die (calls_ask trivial fun ret => ?_)
    refine calls_die (calls_die (calls_mem fun old => ?_))
    cases old with
    | none => exact calls_ask trivial fun _ => calls_mem fun list => trivial
    | some oldClient =>
      refine calls_mem fun node => ?_
      dsimp only
      split_ifs
      · exact calls_ask trivial fun _ => calls_ask trivial fun _ => calls_ask trivial fun _ =>
          trivial
      · exact calls_ask trivial fun _ => (emptyQueue_calls (fun _ => trivial) trivial).bind
          fun client => calls_mem fun list => trivial
  · refine ⟨_, _, rfl, hudp, fun ret => Program.Calls.bind ?_ fun _ => trivial⟩
    cases ret with
    | none => trivial
    | some ret =>
      refine calls_die (calls_ask trivial fun bytes => calls_mem fun msg => ?_)
      refine calls_ask trivial fun slack => calls_ask trivial fun padding => ?_
      exact calls_mem fun buf => sendDataFrom_inner.bind fun list => trivial
  · refine ⟨_, _, rfl, h0, fun ret => Program.Calls.bind (calls_die ?_) fun _ => trivial⟩
    split_ifs
    · exact (closeFrom_calls.mono fun _ => LeaveCall.inner).bind fun _ => trivial
    · trivial
  · have hcommand : ∃ rest, manageCommandFromClient i s = .call (.recv .command i maxLenBuf) rest ∧
        ∀ r, (rest r).Calls Inner := by
      unfold manageCommandFromClient
      refine ⟨_, rfl, fun ret => ?_⟩
      show Program.Calls (S := Sys) Inner (if _ then _ else _)
      split_ifs
      · exact calls_mem fun client => calls_mem fun node => calls_mem fun topics =>
          calls_mem fun list => trivial
      · exact calls_mem fun client => calls_mem fun node => calls_mem fun topics =>
          calls_mem fun list => trivial
      · exact calls_mem fun client => calls_mem fun node => calls_ask trivial fun _ =>
          calls_mem fun list => trivial
      · trivial
    obtain ⟨rest, hrest, hinner⟩ := hcommand
    unfold commandBranch
    rw [hrest]
    refine ⟨_, _, rfl, ⟨rfl, htcp, hudp, h0⟩, fun ret => ?_⟩
    refine Program.Calls.bind (Program.Calls.bind (hinner ret) fun r => ?_) fun _ => trivial
    refine calls_ask trivial fun svCl => calls_ask trivial fun sent => calls_die ?_
    split_ifs
    · exact calls_ask trivial fun _ => trivial
    · trivial

/-- A call that is not an inner one is the first. -/
theorem opens_of_leads {done : List (Event Sys)} {c : Call}
    {kont : Answer c → Proc (ServerState × Flow)}
    (h : (mainBody k s i).Leads done (.call c kont)) (hc : ¬ Inner c) :
    done = [] ∧ Opens k i c := by
  obtain ⟨c₀, rest, hbody, hopens, hinner⟩ := mainBody_opens k s i
  rw [hbody] at h
  cases h with
  | nil => exact ⟨rfl, hopens⟩
  | cons h => exact absurd ((hinner _).leads h).1 hc

end Bodies

/-! ## Descriptors that are due -/

/-- A ready descriptor is due until its body makes its first call. -/
def Due {σ : Type} (j : ℤ) : Phase Sys Halt σ → Prop
  | .between (.scan _ tmp i) => j ∈ tmp ∧ i ≤ j
  | .running _ tmp i done _ => j ∈ tmp ∧ (i < j ∨ i = j ∧ done = [])
  | _ => False

section Due

variable {σ : Type} {L : SelectLoop Sys Halt σ} {phase phase' : Phase Sys Halt σ} {j : ℤ}

theorem Due.not_ended (h : Due j phase) : ended phase = false := by
  cases phase with
  | stopped e => exact h.elim
  | finished => exact h.elim
  | _ => rfl

theorem Due.settle {s : σ} {tmp : Finset ℤ} {i : ℤ} {done : List (Event Sys)}
    {rest : Proc (σ × Flow)} (h : Due j (L.settle s tmp i done rest).1) :
    j ∈ tmp ∧ (i < j ∨ i = j ∧ done = []) := by
  match rest with
  | .ret (s', .next) =>
    obtain ⟨hmem, hle⟩ : j ∈ tmp ∧ i + 1 ≤ j := h
    exact ⟨hmem, Or.inl (by omega)⟩
  | .ret (s', .leave) =>
    have hclose : Due j (SelectLoop.close (σ := σ) (L.finish s')) := h
    cases hfinish : L.finish s' with
    | _ =>
      rw [hfinish] at hclose
      exact hclose.elim
  | .stop e => exact h.elim
  | .call c k => exact h

theorem Due.wake {tmp : Finset ℤ} (h : Due j phase') (hw : L.wake tmp phase = some phase') :
    j ∈ tmp := by
  unfold SelectLoop.wake at hw
  split at hw
  · split_ifs at hw
    cases hw
    exact h.1
  · cases hw

/-- No descriptor becomes due when the loop moves on. -/
theorem Due.advance {hs : List (Handled Sys σ)} (h : Due j phase')
    (ha : L.advance phase = some (phase', hs)) : Due j phase := by
  unfold SelectLoop.advance at ha
  split at ha
  · rename_i s tmp i
    split_ifs at ha with hdone hmem
    · cases ha
      exact h.elim
    · have hsettle : Due j (L.settle s tmp i [] (L.body s i)).1 := by rwa [Option.some.inj ha]
      obtain ⟨hmem, hle⟩ := hsettle.settle
      exact ⟨hmem, by omega⟩
    · cases ha
      obtain ⟨hmem, hle⟩ : j ∈ tmp ∧ i + 1 ≤ j := h
      exact ⟨hmem, by omega⟩
  · cases ha

/-- Behind a call only the descriptors are due that follow the one whose body makes it. -/
theorem Due.ask {c : Call} {next : Answer c → Phase Sys Halt σ × List (Handled Sys σ)}
    {r : Answer c} (h : Due j (next r).1) (ha : L.ask phase = some ⟨c, next⟩) :
    ∃ s tmp i done kont, phase = .running s tmp i done (.call c kont) ∧ j ∈ tmp ∧ i < j := by
  unfold SelectLoop.ask at ha
  split at ha
  · rename_i kont
    cases ha
    have hstart : Due j (SelectLoop.start (kont r)) := h
    cases hk : kont r with
    | _ =>
      rw [hk] at hstart
      exact hstart.elim
  · rename_i s tmp i done _ kont
    cases ha
    have hsettle : Due j (L.settle s tmp i (done ++ [⟨c, r⟩]) (kont r)).1 := h
    obtain ⟨hmem, hle⟩ := hsettle.settle
    exact ⟨s, tmp, i, done, kont, rfl, hmem, by simpa using hle⟩
  · rename_i kont
    cases ha
    have hclose : Due j (SelectLoop.close (σ := σ) (kont r)) := h
    cases hk : kont r with
    | _ =>
      rw [hk] at hclose
      exact hclose.elim
  · cases ha

end Due

/-! ## What is ready stays ready -/

/-- What is there for the body of a descriptor that is due. -/
structure Owed (k : Sockets) (cfg : Config) (j : ℤ) : Prop where
  backlog : j = k.tcp → cfg.backlog ≠ []
  console : j ≠ 0
  command : k.Client j → ∀ n p, cfg.fds j = some n → cfg.peers n = some p →
    ended p.phase = true ∨ p.toServer ≠ [] ∧ ∀ m ∈ p.toServer, ∃ exit, Command exit m

/-- A command is no reply. -/
theorem Command.not_reply {exit : Bool} {m : List Byte} (h : Command exit m) :
    msgType m ≠ 2 ∧ msgType m ≠ 4 := by
  have htype := h.type
  cases exit with
  | true =>
    have htype : msgType m = 3 := htype
    rw [htype]
    decide
  | false =>
    have htype : msgType m = 0 ∨ msgType m = 1 := htype
    rcases htype with h0 | h1
    · rw [h0]
      decide
    · rw [h1]
      decide

section Runs

variable {k : Sockets} {C : Config → Action → Prop} {cfg cfg' cfg₁ : Config} {log : List Entry}
  {n : ℕ} {p p' : Peer} {c : Call} {r : Answer c}
  {next : Answer c → Phase Sys Halt ServerState × List (Handled Sys ServerState)} {j : ℤ}

/-- A call that begins a body is made for the descriptor of the body, while the kernel agrees with
the registry. -/
theorem tracks_opening {g : Kernel} {hs : List (Handled Sys ServerState)} {evs : List (Event Sys)}
    {phase : Phase Sys Halt ServerState}
    (h : Phase.Tracks (server k) kernel (kernelInit k) (pure (serverInit k)) g hs evs phase)
    (hask : (server k).ask phase = some ⟨c, next⟩) (hc : ¬ Inner c) :
    ∃ s tmp i kont, phase = .running s tmp i [] (.call c kont) ∧ i ∈ tmp ∧ Opens k i c ∧
      RegistryAt k g (.scan s tmp i) := by
  unfold SelectLoop.ask at hask
  split at hask
  · cases h with
    | starting hlead _ => cases hlead
  · rename_i s tmp i done _ kont
    cases hask
    cases h with
    | running harr hle hmem hlead ho =>
      obtain ⟨rfl, hopens⟩ := opens_of_leads hlead hc
      exact ⟨s, tmp, i, kont, rfl, hmem, hopens, (serverRun_of_arrives harr).1.registryAt⟩
  · cases hask
    cases h with
    | finishing _ hlead _ =>
      have hcalls : ∀ s, ((server k).finish s).Calls Inner :=
        fun _ => calls_ask trivial fun _ => calls_ask trivial fun _ => trivial
      exact absurd ((hcalls _).leads hlead).1 hc
  · cases hask

/-- Only `accept` changes the backlog, and no other call puts a subscriber on a descriptor. -/
theorem answer_tables {inputs : (c : Call) → Answer c}
    (h : cfg.answer inputs c = some (r, cfg₁)) (hc : ∀ fd, c ≠ .accept fd) :
    cfg₁.backlog = cfg.backlog ∧ ∀ fd n, cfg₁.fds fd = some n → cfg.fds fd = some n := by
  cases c with
  | accept fd => exact absurd rfl (hc fd)
  | send site fd buf =>
    simp only [Config.answer] at h
    split at h <;> cases h <;> exact ⟨rfl, fun _ _ => id⟩
  | recv site fd len =>
    simp only [Config.answer] at h
    split at h
    · cases h
      exact ⟨rfl, fun _ _ => id⟩
    · obtain ⟨q, hq, h⟩ := Option.bind_eq_some_iff.mp h
      split at h
      · cases h
        exact ⟨rfl, fun _ _ => id⟩
      · split_ifs at h
        cases h
        exact ⟨rfl, fun _ _ => id⟩
  | recvfrom fd len =>
    simp only [Config.answer] at h
    split at h
    · cases h
    · split_ifs at h
      cases h
      exact ⟨rfl, fun _ _ => id⟩
  | read fd len => cases h
  | close fd =>
    simp only [Config.answer] at h
    split at h
    · cases h
      exact ⟨rfl, fun _ _ => id⟩
    · cases h
      refine ⟨rfl, fun fd' n hn => ?_⟩
      have hn : Function.update cfg.fds fd none fd' = some n := hn
      by_cases he : fd' = fd
      · rw [he, Function.update_self] at hn
        cases hn
      · rwa [Function.update_of_ne he] at hn
  | printf line =>
    cases h
    exact ⟨rfl, fun _ _ => id⟩
  | indeterminate m =>
    cases h
    exact ⟨rfl, fun _ _ => id⟩

/-- A ready descriptor of a subscriber that has not ended has a command on its connection. -/
theorem owed_wake (h : LoggedRun k C cfg log) {s : ServerState}
    (hserver : cfg.server = .between (.select s)) (hready : cfg.ready k j = true) :
    Owed k cfg j := by
  unfold Config.ready at hready
  refine ⟨fun htcp hnil => ?_, fun h0 => ?_, fun hk n p hfd hp => ?_⟩
  · rw [if_pos htcp, hnil] at hready
    cases hready
  · subst h0
    rw [if_neg k.tcp_pos.ne, if_neg k.udp_pos.ne, if_pos rfl] at hready
    cases hready
  · rw [if_neg hk.1, if_neg hk.2.1, if_neg hk.2.2, hfd, Option.bind_some, hp, Option.any_some,
      Bool.or_eq_true, Bool.not_eq_true', List.isEmpty_eq_false_iff] at hready
    by_cases hend : ended p.phase = true
    · exact Or.inl hend
    have hqueue := hready.resolve_right hend
    refine Or.inr ⟨hqueue, ?_⟩
    -- the server owes nothing, so the subscriber is ahead by the one message on the connection
    have hconn := (h.plugged.fds n p j hp).mpr hfd
    have hturn : serverTurn log = .rest := by
      have hsafe := h.serverTurn
      rw [hserver] at hsafe
      exact hsafe
    have hsum := (h.balanced hp).sum (eq_false_of_ne_true hend)
      (shut_eq_false.mpr ⟨by rw [hserver]; rfl, by rw [hconn]; simp⟩)
    rw [hturn, hconn, show (Conn.accepted j).tally .rest = 0 from rfl, add_zero] at hsum
    have hpos := List.length_pos_iff.mpr hqueue
    have hle := (clientTurn n p.sockfd log).tally_le
    obtain ⟨m, hm⟩ := List.length_eq_one_iff.mp (show p.toServer.length = 1 by omega)
    have hwait : clientTurn n p.sockfd log = .waiting := by
      have hone : (clientTurn n p.sockfd log).tally = 1 := by omega
      cases hu : clientTurn n p.sockfd log with
      | waiting => rfl
      | rest =>
        rw [hu] at hone
        cases hone
      | holding =>
        rw [hu] at hone
        cases hone
    have hcommand := (h.balanced hp).command hwait m (by rw [hm]; rfl)
    rw [hm]
    exact fun x hx => List.mem_singleton.mp hx ▸ hcommand

/-- A step that keeps the tables, and the messages of every subscriber that has not ended. -/
theorem Owed.congr (h : Owed k cfg j) (hbacklog : cfg'.backlog = cfg.backlog)
    (hfds : ∀ n, cfg'.fds j = some n → cfg.fds j = some n)
    (hpeers : ∀ n p', cfg'.fds j = some n → cfg'.peers n = some p' → ∃ p, cfg.peers n = some p ∧
      (ended p.phase = true → ended p'.phase = true) ∧
      ((p.toServer ≠ [] ∧ ∀ m ∈ p.toServer, ∃ exit, Command exit m) →
        p'.toServer ≠ [] ∧ ∀ m ∈ p'.toServer, ∃ exit, Command exit m)) : Owed k cfg' j := by
  refine ⟨fun htcp => hbacklog ▸ h.backlog htcp, h.console, fun hk n p' hfd hp' => ?_⟩
  obtain ⟨p, hp, hend, hcommand⟩ := hpeers n p' hfd hp'
  exact (h.command hk n p (hfds n hfd) hp).imp hend hcommand

theorem ServerTurn.not_allowed_broken (c : Call) : ¬ ServerTurn.broken.Allowed c := by
  cases c with
  | send site fd buf => cases site <;> simp [Allowed]
  | recv site fd len => cases site <;> simp [Allowed]
  | _ => simp [Allowed]

/-- A command that is read for a reply ends the server. -/
theorem reply_of_command (h : LoggedRun k C cfg log) {site : Site} {fd : ℤ} {len : ℕ}
    {m : List Byte} {exit : Bool} {next : Option (List Byte) →
      Phase Sys Halt ServerState × List (Handled Sys ServerState)}
    (hask : (server k).ask cfg.server = some ⟨.recv site fd len, next⟩) (hm : Command exit m)
    (hsite : site ≠ .command) : ended (next (some (m.take len))).1 = true := by
  have htracks := h.server.ask hask (r := some (m.take len)) trivial
  obtain ⟨hallowed, hsafe⟩ := h.serverTurn.ask hask
  have hroom : Roomy (.recv site fd len) := h.server.asks trivial (fun _ => mainBody_roomy _)
    (fun _ => calls_ask trivial fun _ => calls_ask trivial fun _ => trivial) hask
  have hreply : replyType (some (m.take len)) = msgType m := by
    have hpos : 0 < len := Nat.lt_of_lt_of_le (by decide) hroom
    obtain ⟨len, rfl⟩ := Nat.exists_eq_succ_of_ne_zero hpos.ne'
    cases m <;> rfl
  have hbroken : (serverTurn log).next (.recv site fd len) (some (m.take len)) = .broken := by
    cases site with
    | command => exact absurd rfl hsite
    | idReply => exact if_neg (hreply ▸ hm.not_reply.1)
    | dataAck | queuedAck | shutdownAck => exact if_neg (hreply ▸ hm.not_reply.2)
    | _ => exact hallowed.elim
  have hsafe : Phase.Safe (serverTurns_contract k)
      ((serverTurn log).next (.recv site fd len) (some (m.take len))) _ :=
    hsafe (some (m.take len)) trivial
  rw [hbroken] at hsafe
  rcases htracks.over hsafe ServerTurn.not_allowed_broken (fun _ hat => by cases hat) with
    hfinished | ⟨e, hstopped, hstop⟩
  · rw [hfinished]
    rfl
  · rw [hstopped]
    cases e with
    | fault f => exact hstop.elim
    | _ => rfl

/-- A call of the server leaves to the descriptors that follow what they are owed. -/
theorem owed_call (h : LoggedRun k C cfg log) (hold : Due j cfg.server → Owed k cfg j)
    (hask : (server k).ask cfg.server = some ⟨c, next⟩) {inputs : (c : Call) → Answer c}
    (hanswer : cfg.answer inputs c = some (r, cfg₁)) (hdue : Due j (next r).1)
    (hbacklog : cfg'.backlog = cfg₁.backlog) (hfds : cfg'.fds = cfg₁.fds)
    (hpeers : cfg'.peers = cfg₁.peers) (hplug : Plugged cfg') : Owed k cfg' j := by
  obtain ⟨s, tmp, i, done, kont, hphase, hmem, hlt⟩ := hdue.ask hask
  have hold : Owed k cfg j := hold (by rw [hphase]; exact ⟨hmem, Or.inl hlt⟩)
  -- the subscriber that is on the descriptor before and after the call
  have hcase : ∀ {n p'}, cfg.fds j = some n → cfg'.fds j = some n → cfg'.peers n = some p' →
      ∃ p, cfg.peers n = some p ∧ p.conn = .accepted j ∧ AnswerCase p c r p' ∧
        p'.conn ≠ .closed := by
    intro n p' hfd hfd' hp'
    obtain ⟨p, hp⟩ := Option.isSome_iff_exists.mp (h.plugged.known n j hfd).1
    obtain ⟨q, hq, hcase⟩ := answer_cases h.plugged hanswer hp
    rw [hpeers, hq] at hp'
    cases hp'
    refine ⟨p, hp, (h.plugged.fds n p j hp).mpr hfd, hcase, ?_⟩
    rw [(hplug.fds n p' j (by rw [hpeers, hq])).mpr hfd']
    simp
  by_cases hc : ∃ fd, c = .accept fd
  · obtain ⟨fd, rfl⟩ := hc
    obtain ⟨s', tmp', i', kont', hphase', -, htcp, hreg⟩ := tracks_opening h.server hask id
    obtain ⟨rfl, rfl, rfl, -⟩ : s = s' ∧ tmp = tmp' ∧ i = i' ∧ done = [] := by
      rw [hphase'] at hphase
      cases hphase
      exact ⟨rfl, rfl, rfl, rfl⟩
    have htcp : i = k.tcp := htcp
    refine ⟨fun he => absurd he (by omega), hold.console, fun hk n p' hfd' hp' => ?_⟩
    -- a descriptor that is due is open, so no connection is accepted on it
    have hopen : j ∈ cfg.kernel.opened :=
      hreg.1.opened j ((hreg.1.watched j).mpr (Or.inr (hreg.2 j hmem hlt.le hk)))
    have hfd : cfg.fds j = some n := by
      rw [hfds] at hfd'
      simp only [Config.answer] at hanswer
      split at hanswer
      · cases hanswer
      · split_ifs at hanswer with hfresh
        cases hanswer
        have hne : j ≠ (inputs (.accept fd)).1 := fun he => hfresh.2 (he ▸ hopen)
        exact (Function.update_of_ne hne _ _).symm.trans hfd'
    obtain ⟨p, hp, hconn, hcase, -⟩ := hcase hfd hfd' hp'
    cases hcase with
    | accept hpend =>
      rw [hconn] at hpend
      cases hpend
    | other => exact hold.command hk n _ hfd hp
  · push Not at hc
    obtain ⟨hback, htable⟩ := answer_tables hanswer hc
    refine hold.congr (hbacklog.trans hback) (fun n hn => htable j n (hfds ▸ hn)) ?_
    intro n p' hfd' hp'
    obtain ⟨p, hp, hconn, hcase, hopen⟩ := hcase (htable j n (hfds ▸ hfd')) hfd' hp'
    refine ⟨p, hp, ?_⟩
    cases hcase with
    | accept => exact absurd rfl (hc _)
    | @recv site fd len m rest hconn' hqueue =>
      refine ⟨id, fun hcommands => ?_⟩
      have hfd : fd = j := Conn.accepted.inj (hconn'.symm.trans hconn)
      have hsite : site ≠ .command := by
        rintro rfl
        obtain ⟨s', tmp', i', kont', hphase', -, hopens, -⟩ := tracks_opening h.server hask id
        rw [hphase'] at hphase
        cases hphase
        have hi : fd = i := hopens.1
        omega
      obtain ⟨exit, hm⟩ := hcommands.2 m (by rw [hqueue]; exact List.mem_cons_self)
      have hended := reply_of_command h hask hm hsite
      rw [hdue.not_ended] at hended
      cases hended
    | close => exact absurd rfl hopen
    | _ => exact ⟨id, id⟩

/-- A call of a subscriber leaves the command on its connection. -/
theorem owed_client (h : LoggedRun k C cfg log) (hserver : ended cfg.server = false)
    (hp : cfg.peers n = some p) (hfd : cfg.fds j = some n) {inputs : (c : Call) → Answer c}
    {next : Answer c → Phase Sys Halt SubscriberState × List (Handled Sys SubscriberState)}
    (hask : (subscriber p.sockfd).ask p.phase = some ⟨c, next⟩)
    (hanswer : p.answer (cfg.shut p) inputs c = some (r, p'))
    (hcommand : p.toServer ≠ [] ∧ ∀ m ∈ p.toServer, ∃ exit, Command exit m) :
    p'.toServer ≠ [] ∧ ∀ m ∈ p'.toServer, ∃ exit, Command exit m := by
  have hallowed := ((h.clientTurn hp).ask hask).1
  cases c with
  | send site fd buf =>
    have hconn := (h.plugged.fds n p j hp).mpr hfd
    have hlive : ended p.phase = false := by
      by_contra hc
      rw [ended_ask (eq_true_of_ne_false hc)] at hask
      cases hask
    have hsum := (h.balanced hp).sum hlive
      (shut_eq_false.mpr ⟨hserver, by rw [hconn]; simp⟩)
    have hle : p.conn.tally (serverTurn log) ≤ 1 := by
      rw [hconn]
      exact (serverTurn log).tally_le j
    have hpos := List.length_pos_iff.mpr hcommand.1
    -- one that holds a message has nothing on the way to the server
    have hheld : clientTurn n p.sockfd log ≠ .holding := fun hu => by
      rw [hu, show ClientTurn.holding.tally = -1 from rfl] at hsum
      omega
    obtain ⟨hsock, hbuf⟩ : fd = p.sockfd ∧ ∃ exit, Command exit buf := by
      cases site with
      | putIdReply => exact absurd hallowed.1 hheld
      | putAck => exact absurd hallowed.1 hheld
      | putCommand => exact ⟨hallowed.2.1, _, hallowed.2.2⟩
      | putExit => exact ⟨hallowed.2.1, _, hallowed.2.2⟩
      | _ => exact hallowed.elim
    simp only [Peer.answer, if_pos hsock] at hanswer
    cases hanswer
    refine ⟨List.append_ne_nil_of_left_ne_nil hcommand.1 _, fun m hm => ?_⟩
    rcases List.mem_append.mp hm with hm | hm
    · exact hcommand.2 m hm
    · exact List.mem_singleton.mp hm ▸ hbuf
  | recv site fd len =>
    by_cases hsock : fd = p.sockfd
    · simp only [Peer.answer, if_pos hsock] at hanswer
      split at hanswer
      · cases hanswer
        exact hcommand
      · split_ifs at hanswer
        cases hanswer
        exact hcommand
    · simp only [Peer.answer, if_neg hsock] at hanswer
      cases hanswer
      exact hcommand
  | read fd len =>
    obtain ⟨line, -, heq⟩ := Option.map_eq_some_iff.mp hanswer
    cases heq
    exact hcommand
  | close fd =>
    cases hanswer
    exact hcommand
  | printf line =>
    cases hanswer
    exact hcommand
  | indeterminate m =>
    cases hanswer
    exact hcommand
  | _ => exact hallowed.elim

/-- In every run, what `select` found ready stays ready until the body of the descriptor begins. -/
theorem LoggedRun.owed (h : LoggedRun k C cfg log) (hdue : Due j cfg.server) : Owed k cfg j := by
  induction h with
  | init => exact hdue.elim
  | @step cfg cfg' a log hrun hC hstep ih =>
    have hplug := (hrun.step hC hstep).plugged
    have hcases := step_cases hstep
    generalize cfg.entries k a = es at hcases
    -- one subscriber moves
    have hpeer : ∀ {m : ℕ} {q q' : Peer}, Due j cfg.server → cfg.peers m = some q →
        ended q.phase = false →
        (cfg.fds j = some m → (q.toServer ≠ [] ∧ ∀ x ∈ q.toServer, ∃ exit, Command exit x) →
          q'.toServer ≠ [] ∧ ∀ x ∈ q'.toServer, ∃ exit, Command exit x) →
        Owed k { cfg with peers := Function.update cfg.peers m (some q') } j := by
      intro m q q' hdue hq hlive hkeep
      refine (ih hdue).congr rfl (fun _ hn => hn) fun n p' hn hp' => ?_
      rcases peers_update rfl hp' with ⟨rfl, rfl⟩ | ⟨-, hp⟩
      · exact ⟨q, hq, fun hend => absurd (hlive.symm.trans hend) (by decide), hkeep hn⟩
      · exact ⟨p', hp, id, id⟩
    cases hcases with
    | @connect m ident sockfd hm _ _ =>
      have hold := ih hdue
      refine ⟨fun htcp hnil => ?_, hold.console, fun hk n p hfd hp => ?_⟩
      · exact hold.backlog htcp (List.append_eq_nil_iff.mp hnil).1
      · rcases peers_update rfl hp with ⟨rfl, rfl⟩ | ⟨-, hp⟩
        · have hsome := (hrun.plugged.known n j hfd).1
          rw [hm] at hsome
          cases hsome
        · exact hold.command hk n p hfd hp
    | @serverWake tmp phase hready hphase =>
      have hmem := hdue.wake hphase
      obtain ⟨s, hserver⟩ : ∃ s, cfg.server = .between (.select s) := by
        unfold SelectLoop.wake at hphase
        split at hphase
        · rename_i s hs
          exact ⟨s, hs⟩
        · cases hphase
      have hold := owed_wake hrun hserver (hready j hmem)
      exact ⟨hold.backlog, hold.console, hold.command⟩
    | @serverAdvance phase hs hphase =>
      have hold := ih (hdue.advance hphase)
      exact ⟨hold.backlog, hold.console, hold.command⟩
    | serverCall hask hanswer => exact owed_call hrun ih hask hanswer hdue rfl rfl rfl hplug
    | @peerWake m q tmp phase hq _ hphase =>
      refine hpeer hdue hq ?_ fun _ => id
      by_contra hc
      rw [ended_wake (eq_true_of_ne_false hc)] at hphase
      cases hphase
    | @peerAdvance m q phase hs hq hphase =>
      refine hpeer hdue hq ?_ fun _ => id
      by_contra hc
      rw [ended_advance (eq_true_of_ne_false hc)] at hphase
      cases hphase
    | @peerCall m q inputs c next r q' hq hask hanswer =>
      refine hpeer hdue hq ?_ fun hfd hcommand => ?_
      · by_contra hc
        rw [ended_ask (eq_true_of_ne_false hc)] at hask
        cases hask
      · have hserver : ended cfg.server = false := Due.not_ended (j := j) hdue
        have hleft := owed_client hrun hserver hq hfd hask hanswer hcommand
        exact hleft

/-- There is always a descriptor to accept a connection on. -/
theorem exists_fresh (opened : Finset ℤ) : ∃ fd, 0 ≤ fd ∧ fd ∉ opened := by
  have hsum : ∀ i ∈ opened, |i| ≤ ∑ j ∈ opened, |j| :=
    fun i hi => Finset.single_le_sum (f := fun j => |j|) (fun j _ => abs_nonneg j) hi
  refine ⟨∑ j ∈ opened, |j| + 1, ?_, fun hmem => ?_⟩
  · have hpos : 0 ≤ ∑ j ∈ opened, |j| := Finset.sum_nonneg fun j _ => abs_nonneg j
    omega
  · have hle := (le_abs_self _).trans (hsum _ hmem)
    omega

/-- Answers that accept a connection on the descriptor `fd`. -/
def acceptedOn (fd : ℤ) : (c : Call) → Answer c
  | .accept _ => (fd, ⟨0, 0⟩)
  | c => script [] [] c

/-- Where no answer comes to a call, the server waits for the reply of a subscriber. -/
theorem waits_for_reply (h : LoggedRun k C cfg log)
    (hask : (server k).ask cfg.server = some ⟨c, next⟩)
    (hnone : ∀ inputs, cfg.answer inputs c = none) :
    ∃ site fd len n p, c = .recv site fd len ∧ serverTurn log = .asked fd ∧
      cfg.fds fd = some n ∧ cfg.peers n = some p ∧ p.toServer = [] ∧ ended p.phase = false := by
  have hallowed := (h.serverTurn.ask hask).1
  -- the first call of a body finds what is owed
  have hfirst : ¬ Inner c → ∃ i, Opens k i c ∧ Owed k cfg i := by
    intro hc
    obtain ⟨s, tmp, i, kont, hphase, hmem, hopens, -⟩ := tracks_opening h.server hask hc
    exact ⟨i, hopens, h.owed (by rw [hphase]; exact ⟨hmem, Or.inr ⟨rfl, rfl⟩⟩)⟩
  cases c with
  | accept sockfd =>
    obtain ⟨i, htcp, howed⟩ := hfirst id
    obtain ⟨n, backlog, hback⟩ := List.exists_cons_of_ne_nil (howed.backlog htcp)
    obtain ⟨fd, hpos, hfresh⟩ := exists_fresh cfg.kernel.opened
    have hanswer := hnone (acceptedOn fd)
    simp [Config.answer, hback, acceptedOn, hpos, hfresh] at hanswer
  | send site fd buf =>
    have hanswer := hnone (script [] [])
    simp only [Config.answer] at hanswer
    split at hanswer <;> cases hanswer
  | recv site fd len =>
    have hanswer := hnone (script [] [])
    simp only [Config.answer] at hanswer
    split at hanswer
    · cases hanswer
    · rename_i n hfd
      obtain ⟨p, hp⟩ := Option.isSome_iff_exists.mp (h.plugged.known n fd hfd).1
      rw [hp, Option.bind_some] at hanswer
      split at hanswer
      · cases hanswer
      · rename_i hqueue
        split_ifs at hanswer with hend
        have hlive : ended p.phase = false := eq_false_of_ne_true hend
        refine ⟨site, fd, len, n, p, rfl, ?_, hfd, hp, hqueue, hlive⟩
        cases site with
        | command =>
          obtain ⟨i, ⟨rfl, hk⟩, howed⟩ := hfirst id
          rcases howed.command hk n p hfd hp with hended | ⟨hne, -⟩
          · exact absurd hended hend
          · exact absurd hqueue hne
        | idReply | dataAck | queuedAck | shutdownAck => exact hallowed
        | _ => exact hallowed.elim
  | recvfrom fd len =>
    have hanswer := hnone (script [0] [])
    simp [Config.answer, script] at hanswer
  | read fd len =>
    obtain ⟨i, hi, howed⟩ := hfirst id
    exact absurd hi howed.console
  | close fd =>
    have hanswer := hnone (script [] [])
    simp only [Config.answer] at hanswer
    split at hanswer <;> cases hanswer
  | printf line => cases hnone (script [] [])
  | indeterminate m => cases hnone (script [] [])

end Runs

end TopicServer
