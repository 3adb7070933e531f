import TopicServer.Connection

/-!
# The invariant of the system

`SystemInv` says what holds of the server, the kernel and all subscribers together: each process
keeps its contract, the tables of the kernel agree, and every connection is one of `Wire` with the
logs of `Logs`. Behind a message of the wrong type the views of the server are lost (`none`), and
only the logs of the subscribers are kept. `Careful` is the condition on a step under which the
invariant is kept; the lemmas here are the frame of such a step.
-/

namespace TopicServer

open Interactive Memory

/-! ## The invariant -/

/-- The view of the server on a connection. -/
def Views.of (v : Views) : Conn → ServerView
  | .pending => .pending
  | .accepted fd => v fd
  | .closed => .shut

/-- Behind the loop a subscriber has left. -/
def Leaving (w : Option ClientView) : Phase Sys Halt SubscriberState → Prop
  | .finishing _ => w = some .left
  | .finished => w = some .left
  | _ => True

/-- What holds of a subscriber with the view `w` whose commands `X` the server has executed, while
the server has the views `g`. -/
structure PeerInv (strict : Bool) (g : Option Views) (w : Option ClientView)
    (X : List (List Byte)) (p : Peer) : Prop where
  safe : Phase.Safe (subscriberContract p.key p.sockfd) w p.phase
  only : Phase.Only Roomy p.phase
  leaving : Leaving w p.phase
  logs : Logs p.sent p.acknowledged X p.toClient w
  wire : ∀ v, g = some v →
    Wire strict p.key p.sent p.acknowledged X (v.of p.conn) w p.toServer p.toClient

/-- The tables of the kernel: a connection is on the descriptor that it was accepted on, and a
descriptor without a connection is free or belongs to the server. -/
structure Tables (k : Sockets) (cfg : Config) (g : Option Views) : Prop where
  fds : ∀ n p fd, cfg.peers n = some p → (p.conn = .accepted fd ↔ cfg.fds fd = some n)
  known : ∀ n fd, cfg.fds fd = some n →
    (cfg.peers n).isSome ∧ fd ∈ cfg.kernel.opened ∧ k.Client fd
  backlog : ∀ n ∈ cfg.backlog, ∃ p, cfg.peers n = some p ∧ p.conn = .pending
  nodup : cfg.backlog.Nodup
  unused : ∀ v fd, g = some v → cfg.fds fd = none → v fd = .unused
  own : ∀ i, ¬ k.Client i → i ∈ cfg.kernel.opened

/-- The subscribe and unsubscribe commands that were handled were executed on the entries of their
subscribers. -/
def Config.Entries (cfg : Config) : Prop :=
  ∀ n p, cfg.peers n = some p → ∀ hd, (some n, hd) ∈ cfg.handled →
    ∀ m ∈ commandsOf hd.events, msgType m ≠ 3 → ExecutedOn p.key m hd

/-- What holds of a state of the system, with the views `g` of the server and `w` of the
subscribers. -/
structure SystemInv (strict : Bool) (k : Sockets) (cfg : Config) (g : Option Views)
    (w : ℕ → Option ClientView) : Prop extends Tables k cfg g where
  safe : Phase.Safe (serverContract k) (cfg.kernel, g) cfg.server
  only : Phase.Only Roomy cfg.server
  started : cfg.server.Started
  peer : ∀ n p, cfg.peers n = some p → PeerInv strict g (w n) (cfg.executed n) p
  entries : cfg.Entries
  fresh : ∀ n, cfg.peers n = none → cfg.executed n = []
  alive : strict = true → g.isSome ∧ ∀ n, (cfg.peers n).isSome → (w n).isSome
  distinct : strict = true → ∀ n n' p p', n ≠ n' → cfg.peers n = some p → cfg.peers n' = some p' →
    p.key = p'.key → w n = some .gone ∨ w n' = some .gone

/-- The message that the server is about to send, with the subscriber that it is for. -/
def Config.sends (k : Sockets) (cfg : Config) : Option (Site × List Byte × Peer) :=
  match (TopicServer.server k).ask cfg.server with
  | some ⟨.send site fd buf, _⟩ => ((cfg.fds fd).bind cfg.peers).map fun p => (site, buf, p)
  | _ => none

/-- The message that a subscriber is about to send. -/
def Peer.sends (p : Peer) : Option (Site × List Byte) :=
  match (subscriber p.sockfd).ask p.phase with
  | some ⟨.send site _ buf, _⟩ => some (site, buf)
  | _ => none

/-- The frame `buf` crosses no command of the subscriber that it is sent to. In the weaker form
only a frame of type 6 must not, and it may cross `exit`. -/
def FrameClear : Bool → List Byte → Peer → Prop
  | true, buf, p => msgType buf ≠ 4 ∧ p.toServer = []
  | false, buf, p => msgType buf = 6 → ∀ m ∈ p.toServer, msgType m = 3

/-- The message that a subscriber sends at `site` crosses no frame. -/
def CommandClear : Bool → Site → Peer → Prop
  | true, site, p => site = .putCommand ∨ site = .putExit → p.toClient = []
  | false, site, p => site = .putCommand → ∀ b ∈ p.toClient, msgType b ≠ 6

/-- The condition on a step: a frame and a command do not cross. In the strict form no frame has
type 4 either, and a subscriber connects only when earlier ones with its ID have ended. -/
def Careful (strict : Bool) (k : Sockets) (cfg : Config) : Action → Prop
  | .connect _ id _ => strict = true → ∀ n p, cfg.peers n = some p → p.key = id.take idLen →
    ended p.phase = true
  | .server (.call _) => ∀ site buf p, cfg.sends k = some (site, buf, p) →
    site = .data ∨ site = .queued → FrameClear strict buf p
  | .subscriber n (.call _) => ∀ p site buf, cfg.peers n = some p →
    p.sends = some (site, buf) → CommandClear strict site p
  | _ => True

theorem FrameClear.cases {strict : Bool} {buf : List Byte} {p : Peer}
    (h : FrameClear strict buf p) : (strict = true → msgType buf ≠ 4 ∧ p.toServer = []) ∧
      (msgType buf = 6 → ∀ m ∈ p.toServer, msgType m = 3) := by
  cases strict with
  | true =>
    refine ⟨fun _ => h, fun _ m hm => ?_⟩
    rw [h.2] at hm
    cases hm
  | false => exact ⟨fun hs => absurd hs Bool.false_ne_true, h⟩

theorem CommandClear.cases {strict : Bool} {site : Site} {p : Peer}
    (h : CommandClear strict site p) : (site = .putCommand → ∀ b ∈ p.toClient, msgType b ≠ 6) ∧
      (strict = true → site = .putCommand ∨ site = .putExit → p.toClient = []) := by
  cases strict with
  | true =>
    refine ⟨fun hsite b hb => ?_, fun _ => h⟩
    rw [h (Or.inl hsite)] at hb
    cases hb
  | false => exact ⟨h, fun hs => absurd hs Bool.false_ne_true⟩

section Basics

variable {strict : Bool} {k : Sockets} {cfg cfg' : Config} {g : Option Views} {v : Views}
  {w : ℕ → Option ClientView} {n : ℕ} {p : Peer} {fd : ℤ}

theorem Views.of_update_self {x : ServerView} :
    Views.of (Function.update v fd x) (.accepted fd) = x := Function.update_self _ _ _

/-- The process of a subscriber that has ended has left the connection. -/
theorem subscriber_over {w : Option ClientView} {X : List (List Byte)}
    (h : PeerInv strict g w X p) (hend : ended p.phase = true) : Over w := by
  have hsafe := h.safe
  have hleaving := h.leaving
  cases hphase : p.phase with
  | stopped e =>
    rw [hphase] at hsafe hend
    cases e with
    | dieCall m => exact (show False from hsafe).elim
    | dieType m =>
      obtain rfl : w = none := hsafe
      trivial
    | fault f => cases hend
    | exited =>
      obtain rfl : w = some .gone := hsafe
      trivial
  | finished =>
    rw [hphase] at hleaving
    obtain rfl : w = some .left := hleaving
    trivial
  | _ =>
    rw [hphase] at hend
    cases hend

/-- The commands of a subscriber among what a body handled. -/
def Config.commandsIn (cfg : Config) (n : ℕ) (hs : List (Handled Sys ServerState)) :
    List (List Byte) :=
  hs.flatMap fun hd => if cfg.fds hd.fd = some n then commandsOf hd.events else []

/-- The commands among what a body handled were executed on the entries of their subscribers. -/
def Config.Executes (cfg : Config) (hs : List (Handled Sys ServerState)) : Prop :=
  ∀ hd ∈ hs, ∀ n p, cfg.fds hd.fd = some n → cfg.peers n = some p →
    ∀ m ∈ commandsOf hd.events, msgType m ≠ 3 → ExecutedOn p.key m hd

theorem executed_append {hs : List (Handled Sys ServerState)}
    (h : cfg'.handled = cfg.handled ++ cfg.tagged hs) (n : ℕ) :
    cfg'.executed n = cfg.executed n ++ cfg.commandsIn n hs := by
  unfold Config.executed Config.commandsIn Config.tagged at *
  rw [h, List.flatMap_append, List.flatMap_map]

/-- A body that executed no command. -/
theorem executes_of_nil {hs : List (Handled Sys ServerState)}
    (h : ∀ n, cfg.commandsIn n hs = []) : cfg.Executes hs := by
  intro hd hmem n p hn _ m hm
  have hnil := List.flatMap_eq_nil_iff.mp (h n) hd hmem
  rw [if_pos hn] at hnil
  rw [hnil] at hm
  cases hm

/-- The executions of the commands, when a body ends and the subscribers keep their IDs. -/
theorem entries_append {hs : List (Handled Sys ServerState)} (h : cfg.Entries)
    (hhandled : cfg'.handled = cfg.handled ++ cfg.tagged hs) (hs' : cfg.Executes hs)
    (hkeys : ∀ n p, cfg'.peers n = some p → ∃ q, cfg.peers n = some q ∧ q.key = p.key) :
    cfg'.Entries := by
  intro n p hp hd hmem m hm h3
  obtain ⟨q, hq, hkey⟩ := hkeys n p hp
  rw [hhandled, List.mem_append] at hmem
  rw [← hkey]
  rcases hmem with hmem | hmem
  · exact h n q hq hd hmem m hm h3
  · obtain ⟨hd', hhd', heq⟩ := List.mem_map.mp hmem
    obtain ⟨hn, rfl⟩ := Prod.mk.inj heq
    exact hs' hd' hhd' n q hn hq m hm h3

/-- The descriptor that the server uses belongs to a subscriber. -/
theorem SystemInv.peer_of (h : SystemInv strict k cfg (some v) w) (hfd : v fd ≠ .unused) :
    ∃ n p, cfg.fds fd = some n ∧ cfg.peers n = some p := by
  obtain ⟨n, hn⟩ : ∃ n, cfg.fds fd = some n := by
    by_contra hno
    push Not at hno
    exact hfd (h.unused v fd rfl (Option.eq_none_iff_forall_ne_some.mpr hno))
  obtain ⟨p, hp⟩ := Option.isSome_iff_exists.mp (h.known n fd hn).1
  exact ⟨n, p, hn, hp⟩

/-- Both ends of the connection on a descriptor. -/
theorem SystemInv.wire_at (h : SystemInv strict k cfg (some v) w) (hn : cfg.fds fd = some n)
    (hp : cfg.peers n = some p) : p.conn = .accepted fd ∧
      Wire strict p.key p.sent p.acknowledged (cfg.executed n) (v fd) (w n) p.toServer
        p.toClient := by
  have hconn := (h.fds n p fd hp).mpr hn
  have hwire := (h.peer n p hp).wire v rfl
  rw [hconn] at hwire
  exact ⟨hconn, hwire⟩

end Basics

/-! ## Steps that change one connection -/

section Replace

variable {strict : Bool} {k : Sockets} {cfg cfg' : Config} {g g₀ : Option Views} {v : Views}
  {w w' : ℕ → Option ClientView} {n : ℕ} {p p' : Peer} {fd : ℤ}

/-- The subscribers when one of them changes. -/
theorem peers_update {ps ps' : ℕ → Option Peer} (hpeers : ps' = Function.update ps n (some p'))
    {n' : ℕ} {q : Peer} (h : ps' n' = some q) : n' = n ∧ q = p' ∨ n' ≠ n ∧ ps n' = some q := by
  rw [hpeers] at h
  by_cases hn : n' = n
  · subst hn
    rw [Function.update_self] at h
    exact Or.inl ⟨rfl, (Option.some.inj h).symm⟩
  · rw [Function.update_of_ne hn] at h
    exact Or.inr ⟨hn, h⟩

theorem peers_isSome (hp : cfg.peers n = some p)
    (hpeers : cfg'.peers = Function.update cfg.peers n (some p')) (n' : ℕ) :
    (cfg'.peers n').isSome = (cfg.peers n').isSome := by
  rw [hpeers]
  by_cases hn : n' = n
  · subst hn
    rw [Function.update_self, hp]
    rfl
  · rw [Function.update_of_ne hn]

/-- The tables stay when a subscriber changes behind its connection. -/
theorem Tables.replace (h : Tables k cfg g₀) (hp : cfg.peers n = some p)
    (hpeers : cfg'.peers = Function.update cfg.peers n (some p')) (hconn : p'.conn = p.conn)
    (hbacklog : cfg'.backlog = cfg.backlog) (hfds : cfg'.fds = cfg.fds)
    (hopened : cfg'.kernel.opened = cfg.kernel.opened)
    (hview : ∀ v', g = some v' → ∃ v, g₀ = some v ∧
      ∀ fd, cfg.fds fd ≠ some n → v' fd = v fd) : Tables k cfg' g := by
  have hsome := peers_isSome hp hpeers
  -- the connections are as they were
  have hold : ∀ n' q, cfg'.peers n' = some q →
      ∃ q₀, cfg.peers n' = some q₀ ∧ q₀.conn = q.conn := by
    intro n' q hq
    rcases peers_update hpeers hq with ⟨rfl, rfl⟩ | ⟨-, hq⟩
    · exact ⟨p, hp, hconn.symm⟩
    · exact ⟨q, hq, rfl⟩
  refine ⟨?_, ?_, ?_, ?_, ?_, ?_⟩
  · intro n' q fd' hq
    obtain ⟨q₀, hq₀, hc⟩ := hold n' q hq
    rw [hfds, ← hc]
    exact h.fds n' q₀ fd' hq₀
  · intro n' fd' hn'
    rw [hfds] at hn'
    rw [hsome, hopened]
    exact h.known n' fd' hn'
  · intro n' hn'
    rw [hbacklog] at hn'
    obtain ⟨q₀, hq₀, hpend⟩ := h.backlog n' hn'
    obtain ⟨q, hq⟩ := Option.isSome_iff_exists.mp ((hsome n').trans (by rw [hq₀]; rfl))
    obtain ⟨q₁, hq₁, hc⟩ := hold n' q hq
    rw [hq₀] at hq₁
    cases hq₁
    exact ⟨q, hq, hc.symm.trans hpend⟩
  · rw [hbacklog]
    exact h.nodup
  · intro v' fd' hv' hnone
    rw [hfds] at hnone
    obtain ⟨v, hv, hsame⟩ := hview v' hv'
    rw [hsame fd' (by rw [hnone]; simp)]
    exact h.unused v fd' hv hnone
  · rw [hopened]
    exact h.own

/-- The server closes the descriptor of a subscriber. -/
theorem Tables.close (h : Tables k cfg (some v)) (hp : cfg.peers n = some p)
    (hn : cfg.fds fd = some n)
    (hpeers : cfg'.peers = Function.update cfg.peers n (some { p with conn := .closed }))
    (hbacklog : cfg'.backlog = cfg.backlog) (hfds : cfg'.fds = Function.update cfg.fds fd none)
    (hopened : cfg'.kernel.opened = cfg.kernel.opened.erase fd) :
    Tables k cfg' (some (Function.update v fd .unused)) := by
  have hconn := (h.fds n p fd hp).mpr hn
  have hrest : ∀ {fd' n'}, cfg'.fds fd' = some n' ↔ fd' ≠ fd ∧ cfg.fds fd' = some n' := by
    intro fd' n'
    rw [hfds]
    by_cases he : fd' = fd
    · rw [he, Function.update_self]
      simp
    · rw [Function.update_of_ne he]
      simp [he]
  refine ⟨?_, ?_, ?_, ?_, ?_, ?_⟩
  · intro n' q fd' hq
    rw [hrest]
    rcases peers_update hpeers hq with ⟨rfl, rfl⟩ | ⟨hne, hq⟩
    · refine iff_of_false (fun hc => by cases hc) fun ⟨he, hfd'⟩ => he ?_
      have hconn' := (h.fds n' p fd' hp).mpr hfd'
      rw [hconn] at hconn'
      exact (Conn.accepted.inj hconn').symm
    · rw [h.fds n' q fd' hq]
      refine ⟨fun hfd' => ⟨?_, hfd'⟩, fun hfd' => hfd'.2⟩
      rintro rfl
      exact hne (Option.some.inj (hfd'.symm.trans hn))
  · intro n' fd' hfd'
    obtain ⟨he, hfd'⟩ := hrest.mp hfd'
    obtain ⟨hsome, hopen, hclient⟩ := h.known n' fd' hfd'
    rw [hopened, peers_isSome hp hpeers]
    exact ⟨hsome, Finset.mem_erase.mpr ⟨he, hopen⟩, hclient⟩
  · intro n' hn'
    rw [hbacklog] at hn'
    obtain ⟨q, hq, hpend⟩ := h.backlog n' hn'
    refine ⟨q, ?_, hpend⟩
    rw [hpeers, Function.update_of_ne, hq]
    rintro rfl
    rw [hp] at hq
    cases hq
    rw [hconn] at hpend
    cases hpend
  · rw [hbacklog]
    exact h.nodup
  · rintro v' fd' ⟨⟩ hnone
    by_cases he : fd' = fd
    · rw [he, Function.update_self]
    · rw [hfds, Function.update_of_ne he] at hnone
      rw [Function.update_of_ne he]
      exact h.unused v fd' rfl hnone
  · intro i hi
    rw [hopened]
    refine Finset.mem_erase.mpr ⟨?_, h.own i hi⟩
    rintro rfl
    exact hi (h.known n i hn).2.2

/-- A descriptor that is not open is free. -/
theorem Tables.free (h : Tables k cfg g₀) (hfd : fd ∉ cfg.kernel.opened) :
    cfg.fds fd = none ∧ k.Client fd := by
  constructor
  · cases hn : cfg.fds fd with
    | none => rfl
    | some n => exact absurd (h.known n fd hn).2.1 hfd
  · by_contra hno
    exact hfd (h.own fd hno)

/-- The server accepts the first connection of the backlog on a descriptor that is not open. -/
theorem Tables.accept (h : Tables k cfg (some v)) (hp : cfg.peers n = some p) {backlog : List ℕ}
    (hb : cfg.backlog = n :: backlog) (hfd : fd ∉ cfg.kernel.opened)
    (hpeers : cfg'.peers = Function.update cfg.peers n (some { p with conn := .accepted fd }))
    (hbacklog : cfg'.backlog = backlog) (hfds : cfg'.fds = Function.update cfg.fds fd (some n))
    (hopened : cfg'.kernel.opened = insert fd cfg.kernel.opened) :
    Tables k cfg' (some (Function.update v fd .accepted)) := by
  obtain ⟨hnone, hclient⟩ := h.free hfd
  have hpend : ∀ fd', cfg.fds fd' ≠ some n := by
    intro fd' hn
    obtain ⟨q, hq, hpend⟩ := h.backlog n (by rw [hb]; exact List.mem_cons_self)
    rw [← h.fds n q fd' hq, hpend] at hn
    cases hn
  have hnodup := h.nodup
  rw [hb, List.nodup_cons] at hnodup
  have hget : ∀ {fd' n'}, cfg'.fds fd' = some n' ↔
      fd' = fd ∧ n' = n ∨ fd' ≠ fd ∧ cfg.fds fd' = some n' := by
    intro fd' n'
    rw [hfds]
    by_cases he : fd' = fd
    · rw [he, Function.update_self]
      simp [eq_comm]
    · rw [Function.update_of_ne he]
      simp [he]
  refine ⟨?_, ?_, ?_, ?_, ?_, ?_⟩
  · intro n' q fd' hq
    rw [hget]
    rcases peers_update hpeers hq with ⟨rfl, rfl⟩ | ⟨hne, hq⟩
    · refine ⟨fun hc => Or.inl ⟨(Conn.accepted.inj hc).symm, rfl⟩, ?_⟩
      rintro (⟨rfl, -⟩ | ⟨-, hfd'⟩)
      · rfl
      · exact absurd hfd' (hpend fd')
    · rw [h.fds n' q fd' hq]
      refine ⟨fun hfd' => Or.inr ⟨?_, hfd'⟩, ?_⟩
      · rintro rfl
        rw [hnone] at hfd'
        cases hfd'
      · rintro (⟨-, he⟩ | ⟨-, hfd'⟩)
        · exact absurd he hne
        · exact hfd'
  · intro n' fd' hfd'
    rw [hopened, peers_isSome hp hpeers]
    rcases hget.mp hfd' with ⟨rfl, rfl⟩ | ⟨-, hfd'⟩
    · exact ⟨by rw [hp]; rfl, Finset.mem_insert_self _ _, hclient⟩
    · obtain ⟨hsome, hopen, hc⟩ := h.known n' fd' hfd'
      exact ⟨hsome, Finset.mem_insert_of_mem hopen, hc⟩
  · intro n' hn'
    rw [hbacklog] at hn'
    obtain ⟨q, hq, hq'⟩ := h.backlog n' (by rw [hb]; exact List.mem_cons_of_mem _ hn')
    refine ⟨q, ?_, hq'⟩
    rw [hpeers, Function.update_of_ne, hq]
    rintro rfl
    exact hnodup.1 hn'
  · rw [hbacklog]
    exact hnodup.2
  · rintro v' fd' ⟨⟩ hfree
    rw [hfds] at hfree
    by_cases he : fd' = fd
    · rw [he, Function.update_self] at hfree
      cases hfree
    · rw [Function.update_of_ne he] at hfree ⊢
      exact h.unused v fd' rfl hfree
  · intro i hi
    rw [hopened]
    exact Finset.mem_insert_of_mem (h.own i hi)

/-- A step that changes one subscriber with its view, and the view of its connection. -/
theorem SystemInv.change (h : SystemInv strict k cfg g₀ w) (hp : cfg.peers n = some p)
    (hpeers : cfg'.peers = Function.update cfg.peers n (some p')) (htables : Tables k cfg' g)
    (hsafe : Phase.Safe (serverContract k) (cfg'.kernel, g) cfg'.server)
    (honly : Phase.Only Roomy cfg'.server) (hstarted : cfg'.server.Started)
    (hview : ∀ v', g = some v' → ∃ v, g₀ = some v ∧
      ∀ n' fd, n' ≠ n → cfg.fds fd = some n' → v' fd = v fd)
    (hstrict : strict = true → g.isSome ∧ (w' n).isSome) (hw : ∀ n', n' ≠ n → w' n' = w n')
    (hgone : w n = some .gone → w' n = some .gone)
    (hpeer : PeerInv strict g (w' n) (cfg'.executed n) p') (hkey : p'.key = p.key)
    {hs : List (Handled Sys ServerState)}
    (hhandled : cfg'.handled = cfg.handled ++ cfg.tagged hs) (hexecutes : cfg.Executes hs)
    (hother : ∀ n', n' ≠ n → cfg.commandsIn n' hs = []) : SystemInv strict k cfg' g w' := by
  have hsome := peers_isSome hp hpeers
  have hsame : ∀ n', n' ≠ n → cfg'.executed n' = cfg.executed n' := by
    intro n' hn'
    rw [executed_append hhandled, hother n' hn', List.append_nil]
  -- the keys of the subscribers are as they were
  have hold : ∀ n' q, cfg'.peers n' = some q →
      ∃ q₀, cfg.peers n' = some q₀ ∧ q₀.key = q.key := by
    intro n' q hq
    rcases peers_update hpeers hq with ⟨rfl, rfl⟩ | ⟨-, hq⟩
    · exact ⟨p, hp, hkey.symm⟩
    · exact ⟨q, hq, rfl⟩
  have hgone' : ∀ n', w n' = some .gone → w' n' = some .gone := by
    intro n' hn'
    by_cases hn : n' = n
    · subst hn
      exact hgone hn'
    · rw [hw n' hn, hn']
  refine ⟨htables, hsafe, honly, hstarted, ?_, entries_append h.entries hhandled hexecutes hold,
    ?_, ?_, ?_⟩
  · intro n' q hq
    rcases peers_update hpeers hq with ⟨rfl, rfl⟩ | ⟨hn, hq⟩
    · exact hpeer
    · obtain ⟨h1, h2, h3, h4, h5⟩ := h.peer n' q hq
      rw [hsame n' hn, hw n' hn]
      refine ⟨h1, h2, h3, h4, fun v' hv' => ?_⟩
      obtain ⟨v, hv, hsame⟩ := hview v' hv'
      have hof : v'.of q.conn = v.of q.conn := by
        cases hc : q.conn with
        | accepted fd => exact hsame n' fd hn ((h.fds n' q fd hq).mp hc)
        | _ => rfl
      rw [hof]
      exact h5 v hv
  · intro n' hnone
    have hnone' : (cfg.peers n').isSome = false := by rw [← hsome, hnone]; rfl
    have hn : n' ≠ n := fun he => by
      rw [he, hp] at hnone'
      cases hnone'
    rw [hsame n' hn]
    exact h.fresh n' (Option.isNone_iff_eq_none.mp (by simpa using hnone'))
  · intro hs
    refine ⟨(hstrict hs).1, fun n' hn' => ?_⟩
    by_cases hn : n' = n
    · subst hn
      exact (hstrict hs).2
    · rw [hw n' hn]
      exact (h.alive hs).2 n' (by rwa [← hsome])
  · intro hs n₁ n₂ p₁ p₂ hne h₁ h₂ hkeys
    obtain ⟨q₁, hq₁, hk₁⟩ := hold n₁ p₁ h₁
    obtain ⟨q₂, hq₂, hk₂⟩ := hold n₂ p₂ h₂
    exact (h.distinct hs n₁ n₂ q₁ q₂ hne hq₁ hq₂ (hk₁.trans (hkeys.trans hk₂.symm))).imp
      (hgone' n₁) (hgone' n₂)

/-- A step that changes one subscriber with its view behind the connection. -/
theorem SystemInv.replace (h : SystemInv strict k cfg g₀ w) (hp : cfg.peers n = some p)
    (hpeers : cfg'.peers = Function.update cfg.peers n (some p')) (hconn : p'.conn = p.conn)
    (hkey : p'.key = p.key) (hbacklog : cfg'.backlog = cfg.backlog) (hfds : cfg'.fds = cfg.fds)
    (hopened : cfg'.kernel.opened = cfg.kernel.opened)
    (hsafe : Phase.Safe (serverContract k) (cfg'.kernel, g) cfg'.server)
    (honly : Phase.Only Roomy cfg'.server) (hstarted : cfg'.server.Started)
    (hview : ∀ v', g = some v' → ∃ v, g₀ = some v ∧
      ∀ fd, cfg.fds fd ≠ some n → v' fd = v fd)
    (hstrict : strict = true → g.isSome ∧ (w' n).isSome) (hw : ∀ n', n' ≠ n → w' n' = w n')
    (hgone : w n = some .gone → w' n = some .gone)
    (hpeer : PeerInv strict g (w' n) (cfg'.executed n) p')
    {hs : List (Handled Sys ServerState)}
    (hhandled : cfg'.handled = cfg.handled ++ cfg.tagged hs) (hexecutes : cfg.Executes hs)
    (hother : ∀ n', n' ≠ n → cfg.commandsIn n' hs = []) : SystemInv strict k cfg' g w' := by
  have htables := h.toTables.replace hp hpeers hconn hbacklog hfds hopened hview
  refine h.change hp hpeers htables hsafe honly hstarted (fun v' hv' => ?_) hstrict hw hgone hpeer
    hkey hhandled hexecutes hother
  obtain ⟨v, hv, hsame⟩ := hview v' hv'
  refine ⟨v, hv, fun n' fd hne hn' => hsame fd fun he => hne ?_⟩
  exact Option.some.inj (hn'.symm.trans he)

/-- A step of the server that changes no connection. -/
theorem SystemInv.quiet (h : SystemInv strict k cfg g w)
    (hpeers : cfg'.peers = cfg.peers) (hbacklog : cfg'.backlog = cfg.backlog)
    (hfds : cfg'.fds = cfg.fds) (hopened : cfg'.kernel.opened = cfg.kernel.opened)
    (hsafe : Phase.Safe (serverContract k) (cfg'.kernel, g) cfg'.server)
    (honly : Phase.Only Roomy cfg'.server) (hstarted : cfg'.server.Started)
    {hs : List (Handled Sys ServerState)}
    (hhandled : cfg'.handled = cfg.handled ++ cfg.tagged hs)
    (hnil : ∀ n, cfg.commandsIn n hs = []) : SystemInv strict k cfg' g w := by
  have hexecuted : ∀ n, cfg'.executed n = cfg.executed n := by
    intro n
    rw [executed_append hhandled, hnil, List.append_nil]
  refine ⟨⟨?_, ?_, ?_, ?_, ?_, ?_⟩, hsafe, honly, hstarted, ?_,
    entries_append h.entries hhandled (executes_of_nil hnil) ?_, ?_, ?_, ?_⟩
  · rw [hpeers, hfds]
    exact h.fds
  · rw [hpeers, hfds, hopened]
    exact h.known
  · rw [hpeers, hbacklog]
    exact h.backlog
  · rw [hbacklog]
    exact h.nodup
  · rw [hfds]
    exact h.unused
  · rw [hopened]
    exact h.own
  · intro n p hp
    rw [hpeers] at hp
    rw [hexecuted]
    exact h.peer n p hp
  · intro n p hp
    rw [hpeers] at hp
    exact ⟨p, hp, rfl⟩
  · intro n hn
    rw [hpeers] at hn
    rw [hexecuted]
    exact h.fresh n hn
  · rw [hpeers]
    exact h.alive
  · rw [hpeers]
    exact h.distinct

end Replace

end TopicServer
