import TopicServer.SystemInvariant

/-!
# Moves of the server

Every call of the server keeps the invariant of the system: it sends a message, receives one or
the end of a stream, closes or accepts a connection, or does something that no subscriber sees.
-/

namespace TopicServer

open Interactive Memory

/-! ## The phases of the server -/

section Server

variable {k : Sockets} {gk : Kernel} {v : Views} {phase : Phase Sys Halt ServerState}

/-- Behind a message of the wrong type the server does nothing more. -/
theorem server_silent (h : Phase.Safe (serverContract k) (gk, none) phase) :
    (server k).ask phase = none ∧ (server k).advance phase = none ∧
      ∀ tmp, (server k).wake tmp phase = none := by
  have hcall : ∀ {α : Type} {rest : Proc α} {Q : Kernel × Option Views → Except Halt α → Prop},
      rest.wp (kernel.prod (sessions k)) (gk, none) Q → ∀ c kont, rest ≠ .call c kont := by
    intro α rest Q hw c kont hrest
    rw [hrest] at hw
    obtain ⟨⟨-, v, hv, -⟩, -⟩ := hw
    cases hv
  cases phase with
  | starting rest =>
    refine ⟨?_, rfl, fun _ => rfl⟩
    cases rest with
    | call c kont => exact absurd rfl (hcall h c kont)
    | _ => rfl
  | between p =>
    have hat : ServerAt k (gk, none) p := h
    cases p with
    | left s => exact hat.elim
    | _ => cases hat.2
  | running s tmp i done rest =>
    refine ⟨?_, rfl, fun _ => rfl⟩
    cases rest with
    | call c kont => exact absurd rfl (hcall h.rest c kont)
    | _ => rfl
  | finishing rest =>
    obtain ⟨⟨g₀, s, hat⟩, -⟩ := h
    exact hat.elim
  | stopped e => exact ⟨rfl, rfl, fun _ => rfl⟩
  | finished => exact ⟨rfl, rfl, fun _ => rfl⟩

/-- The server ends only at a message of the wrong type. -/
theorem server_ended {g : Option Views} (h : Phase.Safe (serverContract k) (gk, g) phase)
    (hend : ended phase = true) : g = none := by
  cases phase with
  | stopped e =>
    cases e with
    | dieCall m => exact (show False from h).elim
    | dieType m => exact h
    | fault f => cases hend
    | exited => exact (show False from h).elim
  | finished =>
    obtain ⟨g₀, s, hat⟩ := h
    exact hat.elim
  | _ => cases hend

/-- The phase in which the server makes a call. -/
theorem server_running (h : Phase.Safe (serverContract k) (gk, some v) phase)
    (hstarted : phase.Started) {c : Call}
    {next : Answer c → Phase Sys Halt ServerState × List (Handled Sys ServerState)}
    (hask : (server k).ask phase = some ⟨c, next⟩) :
    ∃ s tmp i done kont, phase = .running s tmp i done (.call c kont) ∧
      next = fun r => (server k).settle s tmp i (done ++ [⟨c, r⟩]) (kont r) := by
  unfold SelectLoop.ask at hask
  split at hask
  · exact hstarted.elim
  · cases hask
    exact ⟨_, _, _, _, _, rfl, rfl⟩
  · obtain ⟨⟨g₀, s, hat⟩, -⟩ := h
    exact hat.elim
  · cases hask

/-- What a call of the server finishes: the answer to a command other than `exit` always ends its
body, and the end of a body is the command that it executed. -/
theorem server_finishes (h : Phase.Safe (serverContract k) (gk, some v) phase)
    (hstarted : phase.Started) {c : Call}
    {next : Answer c → Phase Sys Halt ServerState × List (Handled Sys ServerState)}
    (hask : (server k).ask phase = some ⟨c, next⟩) {r : Answer c}
    (hr : (kernel.prod (sessions k)).Expected (gk, some v) c r) :
    ((next r).2 = [] ∨ ∃ hd, (next r).2 = [hd] ∧ Handles k hd ∧
      Finishes (views hd.pre.clientsContainer.toList) v hd.fd c (commandsOf hd.events)) ∧
    ∀ fd buf id m, c = .send .response fd buf → v fd = .executing id m → msgType m ≠ 3 →
      (next r).2 ≠ [] := by
  obtain ⟨s, tmp, i, done, kont, rfl, rfl⟩ := server_running h hstarted hask
  obtain ⟨⟨gk₀, gv⟩, ⟨⟨hs, hrun⟩, hgv⟩, -, hmem, hlead, ho, hafter⟩ := h
  obtain rfl : gv = some (views s.clientsContainer.toList) := hgv
  obtain ⟨hreg, hready⟩ : Registry k gk₀ s.clientsContainer.toList s.readFds ∧
      Ready k s.clientsContainer.toList tmp i := ServerRun.registryAt hrun
  have hready := hready i hmem le_rfl
  rw [Protocol.after_prod] at hafter
  obtain ⟨-, hv⟩ := Prod.mk.inj hafter
  have hobeys := (Protocol.obeys_prod.mp ho).2
  constructor
  · cases hk : kont r with
    | ret a =>
      obtain ⟨s', flow⟩ := a
      have hexec : (mainBody k s i).Exec (done ++ [⟨c, r⟩]) (.ok (s', flow)) := by
        have hlead' := hlead.snoc r
        rw [hk] at hlead'
        have he := hlead'.exec (show Program.Exec (.ret (s', flow)) [] (.ok (s', flow)) from
          ⟨rfl, rfl⟩)
        rwa [List.append_nil] at he
      have heff : Effect k s i (done ++ [⟨c, r⟩]) (s', flow) :=
        mainBody_effect (ServerRun.lists hrun) hexec
      have hhandles : Handles k ⟨s, i, done ++ [⟨c, r⟩], s'⟩ := ⟨gk₀, flow, hreg, hready, heff⟩
      have hobeys' : (sessions k).Obeys (some (views s.clientsContainer.toList))
          (done ++ [⟨c, r⟩]) := by
        rw [Protocol.obeys_append]
        refine ⟨hobeys, ?_, trivial⟩
        rw [← hv]
        exact hr.2
      refine Or.inr ⟨⟨s, i, done ++ [⟨c, r⟩], s'⟩, ?_, hhandles, ?_⟩
      · simp only [hk, SelectLoop.settle_ret]
      · exact heff.finishes hreg hready hobeys' hv.symm
    | stop e =>
      refine Or.inl ?_
      simp only [hk]
      rfl
    | call c' k' =>
      refine Or.inl ?_
      simp only [hk]
      rfl
  · rintro fd buf id m rfl hm h3
    obtain ⟨a, ha⟩ := response_last hreg hready hlead hobeys hv.symm hm h3
    obtain ⟨s', flow⟩ := a
    have hsent : r = true := hr.2 v rfl
    subst hsent
    simp only [ha, SelectLoop.settle_ret]
    exact List.cons_ne_nil _ _

end Server

/-! ## Calls of the server -/

section ServerCalls

variable {strict : Bool} {k : Sockets} {cfg cfg' : Config} {g : Option Views} {v : Views}
  {w : ℕ → Option ClientView} {n : ℕ} {p : Peer} {fd : ℤ}

theorem serverFinish_roomy (s : ServerState) : ((server k).finish s).Calls Roomy :=
  calls_ask trivial fun _ => ⟨trivial, fun _ => trivial⟩

/-- A call that finishes no command is the end of no execution. -/
theorem commandsIn_plain (h : SystemInv strict k cfg (some v) w) {c : Call}
    {next : Answer c → Phase Sys Halt ServerState × List (Handled Sys ServerState)}
    (hask : (server k).ask cfg.server = some ⟨c, next⟩) {r : Answer c}
    (hr : (kernel.prod (sessions k)).Expected (cfg.kernel, some v) c r) (hplain : Plain c)
    (n : ℕ) : cfg.commandsIn n (next r).2 = [] := by
  rcases (server_finishes h.safe h.started hask hr).1 with hnil | ⟨hd, hone, -, hf⟩
  · rw [hnil]
    rfl
  · rw [hone, Config.commandsIn, List.flatMap_singleton, hf.commands, hplain.finished, ite_self]

/-- The commands that a call finishes were executed on the entries of their subscribers. -/
theorem SystemInv.executes (h : SystemInv strict k cfg (some v) w) {c : Call}
    {next : Answer c → Phase Sys Halt ServerState × List (Handled Sys ServerState)}
    (hask : (server k).ask cfg.server = some ⟨c, next⟩) {r : Answer c}
    (hr : (kernel.prod (sessions k)).Expected (cfg.kernel, some v) c r) :
    cfg.Executes (next r).2 := by
  intro hd hmem n p hn hp m hm h3
  rcases (server_finishes h.safe h.started hask hr).1 with hnil | ⟨hd', hone, hhandles, hf⟩
  · rw [hnil] at hmem
    cases hmem
  · rw [hone, List.mem_singleton] at hmem
    subst hmem
    have hm' := hm
    rw [hf.commands] at hm'
    cases c with
    | send site fd buf =>
      cases site with
      | response =>
        obtain ⟨rfl, hview⟩ := hf.response fd buf rfl
        cases hx : v hd.fd with
        | executing id m' =>
          rw [Views.finished, hx] at hm'
          obtain rfl := mem_issued hm'
          obtain ⟨-, hid⟩ := hview id m hx
          obtain ⟨-, hwire⟩ := h.wire_at hn hp
          rw [hx] at hwire
          obtain ⟨rfl, hcommand⟩ := hwire.executing
          refine hhandles.executedOn hid hm ?_
          rcases hcommand with rfl | ⟨exit, hcommand⟩
          · cases hm'
          · cases exit with
            | true => exact absurd hcommand.type h3
            | false => exact hcommand.type
        | _ =>
          rw [Views.finished, hx] at hm'
          cases hm'
      | _ => cases hm'
    | close fd =>
      rcases hf.close fd rfl with hno | ⟨-, htype⟩
      · rw [hno] at hm'
        cases hm'
      · exact absurd (htype m hm') h3
    | _ => cases hm'

/-- The answer to a command other than `exit` is the end of its execution. -/
theorem commandsIn_send (h : SystemInv strict k cfg (some v) w) {site : Site} {buf : List Byte}
    {next : Bool → Phase Sys Halt ServerState × List (Handled Sys ServerState)}
    (hask : (server k).ask cfg.server = some ⟨.send site fd buf, next⟩) (n' : ℕ) :
    cfg.commandsIn n' (next true).2 =
      if cfg.fds fd = some n' then (v fd).answers site else [] := by
  have hexpected : (kernel.prod (sessions k)).Expected (cfg.kernel, some v) (.send site fd buf)
      true := ⟨trivial, fun _ _ => rfl⟩
  obtain ⟨hfin, hlast⟩ := server_finishes h.safe h.started hask hexpected
  have hallowed : v.Allowed (.send site fd buf) := by
    obtain ⟨-, v', hv', hallowed⟩ := (h.safe.ask hask).1
    cases hv'
    exact hallowed
  by_cases hsite : site = .response
  · subst hsite
    obtain ⟨⟨id, m, hm⟩, -⟩ := hallowed
    have hanswers : (v fd).answers .response = if msgType m = 3 then [] else issued m := by
      rw [hm]
      rfl
    have hfinished : v.finished (.send .response fd buf) = issued m := by
      unfold Views.finished
      simp only [hm]
    rw [hanswers]
    rcases hfin with hnil | ⟨hd, hone, -, hf⟩
    · have h3 : msgType m = 3 := by
        by_contra h3
        exact hlast fd buf id m rfl hm h3 hnil
      rw [hnil, if_pos h3, ite_self]
      rfl
    · obtain ⟨rfl, hm'⟩ := hf.response fd buf rfl
      rw [hone, if_neg (hm' id m hm).1, Config.commandsIn, List.flatMap_singleton, hf.commands,
        hfinished]
  · have hplain : Plain (.send site fd buf) := by
      refine ⟨fun fd' buf' heq => hsite ?_, fun fd' heq => ?_⟩
      · cases heq
        rfl
      · cases heq
    have hanswers : (v fd).answers site = [] := by
      unfold ServerView.answers
      split
      · exact absurd rfl hsite
      · rfl
    rw [hanswers, ite_self]
    exact commandsIn_plain h hask hexpected hplain n'

/-- The server sends a message. -/
theorem SystemInv.send (h : SystemInv strict k cfg (some v) w) {site : Site} {buf : List Byte}
    {next : Bool → Phase Sys Halt ServerState × List (Handled Sys ServerState)}
    (hask : (server k).ask cfg.server = some ⟨.send site fd buf, next⟩)
    (hn : cfg.fds fd = some n) (hp : cfg.peers n = some p)
    (hcare : site = .data ∨ site = .queued → (strict = true → msgType buf ≠ 4 ∧ p.toServer = []) ∧
      (msgType buf = 6 → ∀ m ∈ p.toServer, msgType m = 3)) :
    ∃ g, SystemInv strict k
      { cfg.modify n fun p => { p with toClient := p.toClient ++ [buf] } with
        server := (next true).1
        kernel := kernel.next cfg.kernel (.send site fd buf) true
        handled := cfg.handled ++ cfg.tagged (next true).2 } g w := by
  obtain ⟨⟨-, v', hv', hallowed⟩, hsafe⟩ := h.safe.ask hask
  cases hv'
  have hexpected : (kernel.prod (sessions k)).Expected (cfg.kernel, some v) (.send site fd buf)
      true := ⟨trivial, fun _ _ => rfl⟩
  have hsafe := hsafe true hexpected
  have honly := (h.only.ask serverFinish_roomy hask).2 true
  obtain ⟨h1, h2, h3, hlogs, -⟩ := h.peer n p hp
  obtain ⟨hconn, hwire⟩ := h.wire_at hn hp
  have hcommands := commandsIn_send h hask
  have hrefusal : site = .refusal → strict = false := by
    rintro rfl
    obtain ⟨⟨id, fd', hne, hfd, hfd'⟩, -⟩ := hallowed
    by_contra hs
    rw [Bool.not_eq_false] at hs
    have hused : v fd' ≠ .unused := by rw [hfd']; simp
    obtain ⟨n', p', hn', hp'⟩ := h.peer_of hused
    obtain ⟨hconn', hwire'⟩ := h.wire_at hn' hp'
    rw [hfd] at hwire
    rw [hfd'] at hwire'
    obtain ⟨hid, hgone⟩ := hwire.settled_id
    obtain ⟨hid', hgone'⟩ := hwire'.settled_id
    have hnn : n ≠ n' := by
      rintro rfl
      rw [hp] at hp'
      cases hp'
      rw [hconn] at hconn'
      exact hne (Conn.accepted.inj hconn').symm
    rcases h.distinct hs n n' p p' hnn hp hp' (hid.symm.trans hid') with hw | hw
    · exact hgone hs hw
    · exact hgone' hs hw
  obtain ⟨hwire', hlogs'⟩ := hwire.send hallowed hlogs hcare hrefusal
  have hpeers : (cfg.modify n fun p => { p with toClient := p.toClient ++ [buf] }).peers =
      Function.update cfg.peers n (some { p with toClient := p.toClient ++ [buf] }) := by
    show Function.update cfg.peers n _ = _
    rw [hp]
    rfl
  have hopened : (kernel.next cfg.kernel (.send site fd buf) true).opened =
      cfg.kernel.opened := by
    cases site <;> rfl
  refine ⟨some (Function.update v fd ((v fd).sent site)), h.replace hp hpeers rfl rfl rfl rfl
    hopened hsafe honly (h.started.ask hask true) ?_ ?_ (fun _ _ => rfl) (fun hg => hg) ?_ rfl
    (h.executes hask hexpected) ?_⟩
  · rintro v' ⟨⟩
    exact ⟨v, rfl, fun fd' hfd' => Function.update_of_ne (fun he => hfd' (by rw [he, hn])) _ _⟩
  · exact fun hs => ⟨rfl, (h.alive hs).2 n (by rw [hp]; rfl)⟩
  · rw [executed_append rfl, hcommands, if_pos hn]
    refine ⟨h1, h2, h3, hlogs', ?_⟩
    rintro v' ⟨⟩
    rw [hconn, Views.of_update_self]
    exact hwire'
  · intro n' hn'
    rw [hcommands, if_neg]
    rw [hn]
    exact fun he => hn' (Option.some.inj he).symm

/-- The server receives `ret`, and `ts` is left on the way to it. -/
theorem SystemInv.recv (h : SystemInv strict k cfg (some v) w) {site : Site} {len : ℕ}
    {next : Option (List Byte) → Phase Sys Halt ServerState × List (Handled Sys ServerState)}
    (hask : (server k).ask cfg.server = some ⟨.recv site fd len, next⟩)
    (hn : cfg.fds fd = some n) (hp : cfg.peers n = some p) {ret : List Byte}
    {ts : List (List Byte)} (hexp : v.Expected k (.recv site fd len) (some ret))
    (hgot : ∀ x, (v fd).got ret site = some x →
      Wire strict p.key p.sent p.acknowledged (cfg.executed n) x (w n) ts p.toClient)
    (hlost : (v fd).got ret site = none → strict = false) :
    ∃ g, SystemInv strict k
      { cfg with
        server := (next (some ret)).1
        kernel := kernel.next cfg.kernel (.recv site fd len) (some ret)
        peers := Function.update cfg.peers n (some { p with toServer := ts })
        handled := cfg.handled ++ cfg.tagged (next (some ret)).2 } g w := by
  have hexpected : (kernel.prod (sessions k)).Expected (cfg.kernel, some v) (.recv site fd len)
      (some ret) := by
    refine ⟨trivial, fun v' hv' => ?_⟩
    cases hv'
    exact hexp
  have hsafe := (h.safe.ask hask).2 (some ret) hexpected
  have honly := (h.only.ask serverFinish_roomy hask).2 (some ret)
  obtain ⟨h1, h2, h3, hlogs, -⟩ := h.peer n p hp
  obtain ⟨hconn, -⟩ := h.wire_at hn hp
  have hcommands := commandsIn_plain h hask hexpected ⟨by simp, by simp⟩
  have hopened : (kernel.next cfg.kernel (.recv site fd len) (some ret)).opened =
      cfg.kernel.opened := by
    cases site <;> rfl
  refine ⟨((v fd).got ret site).map (Function.update v fd), h.replace hp rfl rfl rfl rfl rfl
    hopened hsafe honly (h.started.ask hask _) ?_ ?_ (fun _ _ => rfl) (fun hg => hg) ?_ rfl
    (executes_of_nil hcommands) fun n' _ => hcommands n'⟩
  · intro v' hv'
    obtain ⟨x, -, rfl⟩ := Option.map_eq_some_iff.mp hv'
    exact ⟨v, rfl, fun fd' hfd' => Function.update_of_ne (fun he => hfd' (by rw [he, hn])) _ _⟩
  · refine fun hs => ⟨?_, (h.alive hs).2 n (by rw [hp]; rfl)⟩
    cases hx : (v fd).got ret site with
    | none =>
      rw [hlost hx] at hs
      cases hs
    | some x => rfl
  · rw [executed_append rfl, hcommands, List.append_nil]
    refine ⟨h1, h2, h3, hlogs, fun v' hv' => ?_⟩
    obtain ⟨x, hx, rfl⟩ := Option.map_eq_some_iff.mp hv'
    rw [hconn, Views.of_update_self]
    exact hgot x hx

/-- The server closes a connection. -/
theorem SystemInv.close (h : SystemInv strict k cfg (some v) w)
    {next : Unit → Phase Sys Halt ServerState × List (Handled Sys ServerState)}
    (hask : (server k).ask cfg.server = some ⟨.close fd, next⟩)
    (hn : cfg.fds fd = some n) (hp : cfg.peers n = some p) :
    ∃ g, SystemInv strict k
      { cfg with
        server := (next ()).1
        kernel := kernel.next cfg.kernel (.close fd) ()
        fds := Function.update cfg.fds fd none
        peers := Function.update cfg.peers n (some { p with conn := .closed })
        handled := cfg.handled ++ cfg.tagged (next ()).2 } g w := by
  obtain ⟨⟨-, v', hv', m, hm⟩, hsafe⟩ := h.safe.ask hask
  cases hv'
  have hexpected : (kernel.prod (sessions k)).Expected (cfg.kernel, some v) (.close fd) () :=
    ⟨trivial, fun _ _ => trivial⟩
  have hsafe := hsafe () hexpected
  have honly := (h.only.ask serverFinish_roomy hask).2 ()
  obtain ⟨h1, h2, h3, hlogs, -⟩ := h.peer n p hp
  obtain ⟨hconn, hwire⟩ := h.wire_at hn hp
  rw [hm] at hwire
  have hfinished : v.finished (.close fd) = issued m := by
    unfold Views.finished
    simp only [hm]
  -- what was executed with the end of the connection
  obtain ⟨fin, hfin, hcommands⟩ : ∃ fin, (fin = [] ∨ fin = issued m) ∧
      ∀ n', cfg.commandsIn n' (next ()).2 = if n' = n then fin else [] := by
    rcases (server_finishes h.safe h.started hask hexpected).1 with hnil | ⟨hd, hone, -, hf⟩
    · refine ⟨[], Or.inl rfl, fun n' => ?_⟩
      rw [hnil, ite_self]
      rfl
    · rw [hone]
      rcases hf.close fd rfl with hno | ⟨rfl, -⟩
      · refine ⟨[], Or.inl rfl, fun n' => ?_⟩
        rw [Config.commandsIn, List.flatMap_singleton, hf.commands, hno, ite_self, ite_self]
      · refine ⟨issued m, Or.inr rfl, fun n' => ?_⟩
        rw [Config.commandsIn, List.flatMap_singleton, hf.commands, hfinished, hn]
        simp only [Option.some.injEq, eq_comm]
  obtain ⟨hshut, hlogs'⟩ := hwire.close hlogs hfin
  have htables : Tables k
      { cfg with
        server := (next ()).1
        kernel := kernel.next cfg.kernel (.close fd) ()
        fds := Function.update cfg.fds fd none
        peers := Function.update cfg.peers n (some { p with conn := .closed })
        handled := cfg.handled ++ cfg.tagged (next ()).2 } (some (Function.update v fd .unused)) :=
    h.toTables.close hp hn rfl rfl rfl rfl
  refine ⟨_, h.change hp rfl htables hsafe honly (h.started.ask hask ()) ?_ ?_ (fun _ _ => rfl)
    (fun hg => hg) ?_ rfl rfl (h.executes hask hexpected) fun n' hne => by rw [hcommands, if_neg hne]⟩
  · rintro v' ⟨⟩
    refine ⟨v, rfl, fun n' fd' hne hfd' => Function.update_of_ne ?_ _ _⟩
    rintro rfl
    exact hne (Option.some.inj (hfd'.symm.trans hn))
  · exact fun hs => ⟨rfl, (h.alive hs).2 n (by rw [hp]; rfl)⟩
  · rw [executed_append rfl, hcommands, if_pos rfl]
    refine ⟨h1, h2, h3, hlogs', ?_⟩
    rintro v' ⟨⟩
    exact hshut

/-- The server accepts a connection. -/
theorem SystemInv.accept (h : SystemInv strict k cfg (some v) w) {sockfd : ℤ}
    {next : ℤ × SockAddrIn → Phase Sys Halt ServerState × List (Handled Sys ServerState)}
    (hask : (server k).ask cfg.server = some ⟨.accept sockfd, next⟩) {conn : ℤ × SockAddrIn}
    (h0 : 0 ≤ conn.1) (hfree : conn.1 ∉ cfg.kernel.opened) {backlog : List ℕ}
    (hb : cfg.backlog = n :: backlog) (hp : cfg.peers n = some p) :
    ∃ g, SystemInv strict k
      { cfg with
        server := (next conn).1
        kernel := kernel.next cfg.kernel (.accept sockfd) conn
        backlog := backlog
        fds := Function.update cfg.fds conn.1 (some n)
        peers := Function.update cfg.peers n (some { p with conn := .accepted conn.1 })
        handled := cfg.handled ++ cfg.tagged (next conn).2 } g w := by
  obtain ⟨hnone, hclient⟩ := h.toTables.free hfree
  have hpend : p.conn = .pending := by
    obtain ⟨q, hq, hpend⟩ := h.backlog n (by rw [hb]; exact List.mem_cons_self)
    rw [hp] at hq
    cases hq
    exact hpend
  have hexpected : (kernel.prod (sessions k)).Expected (cfg.kernel, some v) (.accept sockfd)
      conn := by
    refine ⟨Or.inr ⟨h0, hfree⟩, fun v' hv' => ?_⟩
    cases hv'
    exact ⟨h0, hclient, h.unused v conn.1 rfl hnone⟩
  have hsafe := (h.safe.ask hask).2 conn hexpected
  have honly := (h.only.ask serverFinish_roomy hask).2 conn
  have hcommands := commandsIn_plain h hask hexpected ⟨by simp, by simp⟩
  obtain ⟨h1, h2, h3, hlogs, hwire⟩ := h.peer n p hp
  have hwire := hwire v rfl
  rw [hpend] at hwire
  have hopened : (kernel.next cfg.kernel (.accept sockfd) conn).opened =
      insert conn.1 cfg.kernel.opened := by
    show (if conn.1 = -1 then cfg.kernel else
      { cfg.kernel with opened := insert conn.1 cfg.kernel.opened }).opened = _
    rw [if_neg (by omega)]
  have htables : Tables k
      { cfg with
        server := (next conn).1
        kernel := kernel.next cfg.kernel (.accept sockfd) conn
        backlog := backlog
        fds := Function.update cfg.fds conn.1 (some n)
        peers := Function.update cfg.peers n (some { p with conn := .accepted conn.1 })
        handled := cfg.handled ++ cfg.tagged (next conn).2 }
      (some (Function.update v conn.1 .accepted)) :=
    h.toTables.accept hp hb hfree rfl rfl rfl hopened
  refine ⟨_, h.change hp rfl htables hsafe honly (h.started.ask hask conn) ?_ ?_ (fun _ _ => rfl)
    (fun hg => hg) ?_ rfl rfl (executes_of_nil hcommands) fun n' _ => hcommands n'⟩
  · rintro v' ⟨⟩
    refine ⟨v, rfl, fun n' fd' _ hfd' => Function.update_of_ne ?_ _ _⟩
    rintro rfl
    rw [hnone] at hfd'
    cases hfd'
  · exact fun hs => ⟨rfl, (h.alive hs).2 n (by rw [hp]; rfl)⟩
  · rw [executed_append rfl, hcommands, List.append_nil]
    refine ⟨h1, h2, h3, hlogs, ?_⟩
    rintro v' ⟨⟩
    rw [Views.of_update_self]
    exact hwire.accept

/-- A call of the server that concerns no connection. -/
theorem SystemInv.ordinary (h : SystemInv strict k cfg (some v) w) {c : Call}
    {next : Answer c → Phase Sys Halt ServerState × List (Handled Sys ServerState)}
    (hask : (server k).ask cfg.server = some ⟨c, next⟩) {r : Answer c}
    (hexp : v.Expected k c r) (hkernel : ∀ gk, kernel.Expected gk c r) (hplain : Plain c)
    (hkeep : ∀ gk, kernel.next gk c r = gk) (hnext : v.next c r = some v) :
    SystemInv strict k
      { cfg with
        server := (next r).1
        kernel := kernel.next cfg.kernel c r
        handled := cfg.handled ++ cfg.tagged (next r).2 } (some v) w := by
  have hexpected : (kernel.prod (sessions k)).Expected (cfg.kernel, some v) c r := by
    refine ⟨hkernel _, fun v' hv' => ?_⟩
    cases hv'
    exact hexp
  have hsafe := (h.safe.ask hask).2 r hexpected
  have hstate : (kernel.prod (sessions k)).next (cfg.kernel, some v) c r =
      (kernel.next cfg.kernel c r, some v) := Prod.ext rfl hnext
  rw [hstate] at hsafe
  refine h.quiet rfl rfl rfl ?_ hsafe ((h.only.ask serverFinish_roomy hask).2 r)
    (h.started.ask hask r) rfl (commandsIn_plain h hask hexpected hplain)
  show (kernel.next cfg.kernel c r).opened = cfg.kernel.opened
  rw [hkeep]

/-- The server uses only descriptors with a connection. -/
theorem Views.Allowed.send_used {site : Site} {buf : List Byte}
    (h : v.Allowed (.send site fd buf)) : v fd ≠ .unused := by
  intro hv
  cases site with
  | idRequest =>
    rw [h.1] at hv
    cases hv
  | data =>
    obtain ⟨id, hid⟩ := h
    rw [hid] at hv
    cases hv
  | queued =>
    obtain ⟨id, hid⟩ := h
    rw [hid] at hv
    cases hv
  | response =>
    obtain ⟨⟨id, m, hm⟩, -⟩ := h
    rw [hm] at hv
    cases hv
  | refusal =>
    obtain ⟨⟨id, -, -, hid, -⟩, -⟩ := h
    rw [hid] at hv
    cases hv
  | _ => exact h

theorem Views.Allowed.recv_used {site : Site} {len : ℕ}
    (h : v.Allowed (.recv site fd len)) : v fd ≠ .unused := by
  intro hv
  cases site with
  | idReply =>
    have hasked : v fd = .asked := h
    rw [hasked] at hv
    cases hv
  | dataAck | queuedAck | command =>
    obtain ⟨id, hid⟩ := h
    rw [hid] at hv
    cases hv
  | _ => exact h

theorem Config.modify_eq {f : Peer → Peer} (hp : cfg.peers n = some p) :
    cfg.modify n f = { cfg with peers := Function.update cfg.peers n (some (f p)) } := by
  unfold Config.modify
  rw [hp]
  rfl

/-- Every call of the server keeps the invariant. -/
theorem SystemInv.server_call (h : SystemInv strict k cfg (some v) w)
    {inputs : (c : Call) → Answer c} (hcare : Careful strict k cfg (.server (.call inputs)))
    {c : Call} {next : Answer c → Phase Sys Halt ServerState × List (Handled Sys ServerState)}
    (hask : (server k).ask cfg.server = some ⟨c, next⟩) {r : Answer c}
    (hanswer : cfg.answer inputs c = some (r, cfg')) :
    ∃ g, SystemInv strict k
      { cfg' with
        server := (next r).1
        kernel := kernel.next cfg.kernel c r
        handled := cfg.handled ++ cfg.tagged (next r).2 } g w := by
  obtain ⟨-, v', hv', hallowed⟩ := (h.safe.ask hask).1
  cases hv'
  -- the subscriber on a descriptor that is used
  have hpeer : ∀ {fd}, v fd ≠ .unused → ∃ n p, cfg.fds fd = some n ∧ cfg.peers n = some p :=
    h.peer_of
  cases c with
  | accept sockfd =>
    simp only [Config.answer] at hanswer
    split at hanswer
    · cases hanswer
    · rename_i n backlog hb
      split_ifs at hanswer with hfd
      cases hanswer
      obtain ⟨p, hp, -⟩ := h.backlog n (by rw [hb]; exact List.mem_cons_self)
      rw [Config.modify_eq hp]
      exact h.accept hask hfd.1 hfd.2 hb hp
  | send site fd buf =>
    obtain ⟨n, p, hn, hp⟩ := hpeer hallowed.send_used
    simp only [Config.answer] at hanswer
    rw [hn] at hanswer
    cases hanswer
    have hsends : cfg.sends k = some (site, buf, p) := by
      unfold Config.sends
      rw [hask]
      simp only [hn, Option.bind_some, hp, Option.map_some]
    exact h.send hask hn hp fun hsite => (hcare site buf p hsends hsite).cases
  | recv site fd len =>
    obtain ⟨n, p, hn, hp⟩ := hpeer hallowed.recv_used
    have hlen : clientHdrSize + idLen ≤ len := (h.only.ask serverFinish_roomy hask).1
    obtain ⟨-, hwire⟩ := h.wire_at hn hp
    simp only [Config.answer] at hanswer
    rw [hn] at hanswer
    simp only [hp, Option.bind_some] at hanswer
    split at hanswer
    · rename_i m rest hts
      cases hanswer
      rw [hts] at hwire
      obtain ⟨hexp, hgot, hlost⟩ := hwire.recv (k := k) hallowed hlen
      rw [Config.modify_eq hp]
      exact h.recv hask hn hp hexp hgot hlost
    · rename_i hts
      split_ifs at hanswer with hend
      cases hanswer
      rw [hts] at hwire
      obtain ⟨hexp, hgot, hlost⟩ :=
        hwire.recv_end (k := k) hallowed (subscriber_over (h.peer n p hp) hend)
      have hsame : Function.update cfg.peers n (some { p with toServer := [] }) = cfg.peers := by
        rw [← hts, ← hp, Function.update_eq_self]
      have hrecv := h.recv hask hn hp hexp hgot hlost
      rwa [hsame] at hrecv
  | recvfrom fd len =>
    simp only [Config.answer] at hanswer
    split at hanswer
    · cases hanswer
    · rename_i datagram addr hin
      split_ifs at hanswer with hne
      cases hanswer
      exact ⟨_, h.ordinary hask ⟨datagram, addr, rfl, hne⟩ (fun _ => trivial) ⟨by simp, by simp⟩
        (fun _ => rfl) rfl⟩
  | read fd len => cases hanswer
  | close fd =>
    obtain ⟨m, hm⟩ := hallowed
    have hused : v fd ≠ .unused := by rw [hm]; simp
    obtain ⟨n, p, hn, hp⟩ := hpeer hused
    simp only [Config.answer] at hanswer
    rw [hn] at hanswer
    cases hanswer
    rw [Config.modify_eq hp]
    exact h.close hask hn hp
  | printf line =>
    cases hanswer
    exact ⟨_, h.ordinary hask trivial (fun _ => trivial) ⟨by simp, by simp⟩ (fun _ => rfl) rfl⟩
  | indeterminate m =>
    cases hanswer
    exact ⟨_, h.ordinary hask trivial (fun _ => trivial) ⟨by simp, by simp⟩ (fun _ => rfl) rfl⟩

/-- Every move of the server keeps the invariant. -/
theorem SystemInv.server_step (h : SystemInv strict k cfg g w) {move : Move}
    (hcare : Careful strict k cfg (.server move)) (hstep : cfg.serverStep k move = some cfg') :
    ∃ g, SystemInv strict k cfg' g w := by
  cases g with
  | none =>
    obtain ⟨hask, hadvance, hwake⟩ := server_silent h.safe
    cases move with
    | wake tmp =>
      simp [Config.serverStep, hwake] at hstep
    | advance => simp [Config.serverStep, hadvance] at hstep
    | call inputs => simp [Config.serverStep, hask] at hstep
  | some v =>
    cases move with
    | wake tmp =>
      simp only [Config.serverStep] at hstep
      split_ifs at hstep
      obtain ⟨phase, hphase, rfl⟩ := Option.map_eq_some_iff.mp hstep
      have hnone : cfg.handled = cfg.handled ++ cfg.tagged [] := (List.append_nil _).symm
      exact ⟨_, h.quiet rfl rfl rfl rfl (h.safe.wake hphase) (Phase.Only.wake hphase)
        (Phase.Started.wake hphase) hnone fun _ => rfl⟩
    | advance =>
      obtain ⟨⟨phase, hs⟩, hphase, rfl⟩ := Option.map_eq_some_iff.mp hstep
      refine ⟨_, h.quiet rfl rfl rfl rfl (h.safe.advance hphase)
        (Phase.Only.advance (fun _ i => mainBody_roomy i) serverFinish_roomy hphase)
        (Phase.Started.advance hphase) rfl fun n => ?_⟩
      refine List.flatMap_eq_nil_iff.mpr fun hd hmem => ?_
      rw [Phase.advance_handled hphase hd hmem]
      exact ite_self _
    | call inputs =>
      simp only [Config.serverStep] at hstep
      split at hstep
      · cases hstep
      · rename_i c next hask
        obtain ⟨⟨r, cfg₁⟩, hanswer, rfl⟩ := Option.map_eq_some_iff.mp hstep
        exact h.server_call hcare hask hanswer

end ServerCalls

end TopicServer
