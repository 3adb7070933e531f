import TopicServer.ServerMoves

/-!
# The system under any interleaving

A move of a subscriber and a new connection keep the invariant of the system as well, and so it
holds in every state that the system reaches by steps that meet `Careful` (`SystemRun.inv`).
-/

namespace TopicServer

open Interactive Memory

/-! ## Steps of a subscriber -/

section Subscribers

variable {strict : Bool} {id : List Byte} {sockfd : ℤ} {g : Option Views}
  {w : Option ClientView} {X : List (List Byte)} {p p' : Peer}

theorem leaving_start {rest : Proc SubscriberState} : Leaving w (SelectLoop.start rest) := by
  cases rest <;> trivial

theorem leaving_close {rest : Proc Unit} (h : w = some .left) :
    Leaving w (SelectLoop.close (σ := SubscriberState) rest) := by
  cases rest with
  | stop e => trivial
  | _ => exact h

theorem leaving_settle {s : SubscriberState} {tmp : Finset ℤ} {i : ℤ} {done : List (Event Sys)}
    {rest : Proc (SubscriberState × Flow)}
    (h : Phase.Safe (subscriberContract id sockfd) w (.running s tmp i done rest)) :
    Leaving w ((subscriber sockfd).settle s tmp i done rest).1 := by
  have hw := h.rest
  match rest with
  | .ret (s', .next) => trivial
  | .ret (s', .leave) =>
    have hleft : w = some .left := hw
    exact hleft
  | .stop e => trivial
  | .call c kont => trivial

theorem leaving_advance {phase phase' : Phase Sys Halt SubscriberState}
    {hs : List (Handled Sys SubscriberState)}
    (h : Phase.Safe (subscriberContract id sockfd) w phase)
    (ha : (subscriber sockfd).advance phase = some (phase', hs)) : Leaving w phase' := by
  unfold SelectLoop.advance at ha
  split at ha
  · rename_i s tmp i
    split_ifs at ha with hdone hmem
    · cases ha
      trivial
    · have hrun : Phase.Safe (subscriberContract id sockfd) w
          (.running s tmp i [] ((subscriber sockfd).body s i)) :=
        ⟨w, h, not_lt.mp hdone, hmem, .nil, trivial, rfl⟩
      have hleaving := leaving_settle hrun
      rwa [Option.some.inj ha] at hleaving
    · cases ha
      trivial
  · cases ha

theorem leaving_ask {phase : Phase Sys Halt SubscriberState} {c : Call}
    {next : Answer c → Phase Sys Halt SubscriberState × List (Handled Sys SubscriberState)}
    (h : Phase.Safe (subscriberContract id sockfd) w phase) (hl : Leaving w phase)
    (ha : (subscriber sockfd).ask phase = some ⟨c, next⟩) {r : Answer c}
    (hr : ClientView.Expected c r) :
    Leaving ((dialogue id sockfd).next w c r) (next r).1 := by
  obtain ⟨⟨v, hv, hallowed⟩, -⟩ := h.ask ha
  unfold SelectLoop.ask at ha
  split at ha
  · cases ha
    exact leaving_start
  · rename_i kont
    cases ha
    obtain ⟨g₀, h0, hle, hmem, hlead, ho, rfl⟩ := h
    refine leaving_settle ⟨g₀, h0, hle, hmem, hlead.snoc r, ?_, ?_⟩
    · exact (Protocol.obeys_append _).mpr ⟨ho, hr, trivial⟩
    · rw [Protocol.after_append]
      rfl
  · cases ha
    obtain rfl : w = some .left := hl
    cases hv
    exact leaving_close (ClientView.next_over (Or.inl rfl) hallowed)
  · cases ha

theorem PeerInv.wake (h : PeerInv strict g w X p) {tmp : Finset ℤ}
    {phase : Phase Sys Halt SubscriberState}
    (hwake : (subscriber p.sockfd).wake tmp p.phase = some phase) :
    PeerInv strict g w X { p with phase := phase } := by
  refine ⟨h.safe.wake hwake, Phase.Only.wake hwake, ?_, h.logs, h.wire⟩
  unfold SelectLoop.wake at hwake
  split at hwake
  · split_ifs at hwake
    cases hwake
    trivial
  · cases hwake

theorem PeerInv.advance (h : PeerInv strict g w X p) {phase : Phase Sys Halt SubscriberState}
    {hs : List (Handled Sys SubscriberState)}
    (hadvance : (subscriber p.sockfd).advance p.phase = some (phase, hs)) :
    PeerInv strict g w X { p with phase := phase } :=
  ⟨h.safe.advance hadvance,
    Phase.Only.advance subscriberBody_roomy subscriberFinish_roomy hadvance,
    leaving_advance h.safe hadvance, h.logs, h.wire⟩

theorem ClientView.next_send (u : ClientView) (site : Site) (fd : ℤ) (buf : List Byte) (r : Bool) :
    (u.next (.send site fd buf) r).isSome := by
  cases site <;> rfl

/-- Every call of a subscriber keeps its side of the invariant. -/
theorem PeerInv.call (h : PeerInv strict g w X p) (halive : strict = true → g.isSome)
    {shut : Bool} (hshut : shut = true → p.conn = .closed ∨ g = none)
    {inputs : (c : Call) → Answer c} {c : Call}
    {next : Answer c → Phase Sys Halt SubscriberState × List (Handled Sys SubscriberState)}
    (hask : (subscriber p.sockfd).ask p.phase = some ⟨c, next⟩)
    (hcare : ∀ site fd buf, c = .send site fd buf →
      (site = .putCommand → ∀ b ∈ p.toClient, msgType b ≠ 6) ∧
      (strict = true → site = .putCommand ∨ site = .putExit → p.toClient = []))
    {r : Answer c} (hanswer : p.answer shut inputs c = some (r, p')) :
    ∃ w', PeerInv strict g w' X { p' with phase := (next r).1 } ∧ (strict = true → w'.isSome) ∧
      (w = some .gone → w' = some .gone) ∧ p'.conn = p.conn ∧ p'.key = p.key := by
  obtain ⟨⟨u, hu, hallowed⟩, hsafe⟩ := h.safe.ask hask
  subst hu
  obtain ⟨hroom, honly⟩ := h.only.ask subscriberFinish_roomy hask
  have hleaving := fun r hr => leaving_ask (r := r) h.safe h.leaving hask hr
  have hgone : some u = some ClientView.gone → u.next c r = some .gone := by
    rintro ⟨⟩
    exact ClientView.next_over (Or.inr rfl) hallowed
  cases c with
  | send site fd buf =>
    have hfd : fd = p.sockfd := by
      cases site with
      | putIdReply | putCommand | putExit | putAck => exact hallowed.2.1
      | _ => exact hallowed.elim
    simp only [Peer.answer, if_pos hfd] at hanswer
    cases hanswer
    obtain ⟨htype, htc⟩ := hcare site fd buf rfl
    refine ⟨u.next (.send site fd buf) true, ⟨hsafe true rfl, honly true, hleaving true rfl,
      h.logs.put hallowed htype, fun v hv => ?_⟩, fun _ => u.next_send _ _ _ _, hgone, rfl, rfl⟩
    exact (h.wire v hv).put hallowed h.logs htc
  | recv site fd len =>
    have hfd : fd = p.sockfd := by
      cases site with
      | getIdRequest | getMessage | getCommandAck | getExitAck => exact hallowed.2
      | _ => exact hallowed.elim
    have hlogs := h.logs
    simp only [Peer.answer, if_pos hfd] at hanswer
    split at hanswer
    · rename_i m rest htc
      cases hanswer
      have hwire := h.wire
      rw [htc] at hlogs hwire
      refine ⟨u.next (.recv site fd len) (some (m.take len)), ⟨hsafe (some (m.take len)) rfl,
        honly _, hleaving (some (m.take len)) rfl, hlogs.get hallowed hroom,
        fun v hv => ((hwire v hv).get hallowed hroom hlogs).1⟩, fun hs => ?_, hgone, rfl, rfl⟩
      obtain ⟨v, hv⟩ := Option.isSome_iff_exists.mp (halive hs)
      exact ((hwire v hv).get hallowed hroom hlogs).2 hs
    · rename_i htc
      split_ifs at hanswer with hend
      cases hanswer
      -- the server has closed the connection
      have hloose : ∀ v, g = some v → v.of p.conn = .shut ∧ strict = false := by
        intro v hv
        have hwire := h.wire v hv
        rcases hshut hend with hconn | hnone
        · rw [hconn, htc] at hwire
          refine ⟨by rw [hconn]; rfl, hwire.get_end ?_⟩
          rintro ⟨⟩
          cases site with
          | getIdRequest | getMessage => cases hallowed.1
          | getCommandAck | getExitAck =>
            obtain ⟨⟨m, hm⟩, -⟩ := hallowed
            cases hm
          | _ => exact hallowed
        · rw [hnone] at hv
          cases hv
      refine ⟨u.next (.recv site fd len) (some []), ⟨hsafe (some []) rfl, honly _,
        hleaving (some []) rfl, hlogs.get_end hallowed, fun v hv => ?_⟩, fun hs => ?_, hgone,
        rfl, rfl⟩
      · obtain ⟨hv, hs⟩ := hloose v hv
        show Wire strict _ _ _ X (v.of p.conn) _ _ _
        rw [hv]
        exact .loose hs
      · obtain ⟨v, hv⟩ := Option.isSome_iff_exists.mp (halive hs)
        rw [(hloose v hv).2] at hs
        cases hs
  | read fd len =>
    obtain ⟨line, -, hline⟩ := Option.map_eq_some_iff.mp hanswer
    cases hline
    exact ⟨some u, ⟨hsafe (some line) rfl, honly _, hleaving (some line) rfl, h.logs, h.wire⟩,
      fun _ => rfl, hgone, rfl, rfl⟩
  | close fd =>
    cases hanswer
    exact ⟨some u, ⟨hsafe () trivial, honly _, hleaving () trivial, h.logs, h.wire⟩,
      fun _ => rfl, hgone, rfl, rfl⟩
  | printf line =>
    cases hanswer
    exact ⟨some u, ⟨hsafe () trivial, honly _, hleaving () trivial, h.logs, h.wire⟩,
      fun _ => rfl, hgone, rfl, rfl⟩
  | indeterminate m =>
    cases hanswer
    exact ⟨some u, ⟨hsafe _ trivial, honly _, hleaving _ trivial, h.logs, h.wire⟩,
      fun _ => rfl, hgone, rfl, rfl⟩
  | _ => exact hallowed.elim

end Subscribers

/-! ## Runs -/

section Runs

variable {strict : Bool} {k : Sockets} {cfg cfg' : Config} {g : Option Views}
  {w : ℕ → Option ClientView} {n : ℕ} {p p' : Peer}

theorem SystemInv.subscriber (h : SystemInv strict k cfg g w) (hp : cfg.peers n = some p)
    {x : Option ClientView} (hconn : p'.conn = p.conn) (hkey : p'.key = p.key)
    (hstrict : strict = true → x.isSome) (hgone : w n = some .gone → x = some .gone)
    (hpeer : PeerInv strict g x (cfg.executed n) p') :
    SystemInv strict k { cfg with peers := Function.update cfg.peers n (some p') } g
      (Function.update w n x) := by
  have hnone : cfg.handled = cfg.handled ++ cfg.tagged [] := (List.append_nil _).symm
  refine h.replace hp rfl hconn hkey rfl rfl rfl h.safe h.only h.started ?_ ?_ ?_ ?_ ?_ hnone
    (executes_of_nil fun _ => rfl) fun _ _ => rfl
  · exact fun v hv => ⟨v, hv, fun _ _ => rfl⟩
  · intro hs
    rw [Function.update_self]
    exact ⟨(h.alive hs).1, hstrict hs⟩
  · exact fun n' hn' => Function.update_of_ne hn' _ _
  · rwa [Function.update_self]
  · rwa [Function.update_self]

/-- Every move of a subscriber keeps the invariant. -/
theorem SystemInv.subscriber_step (h : SystemInv strict k cfg g w) {move : Move}
    (hcare : Careful strict k cfg (.subscriber n move)) (hp : cfg.peers n = some p)
    (hstep : p.step (cfg.shut p) move = some p') :
    ∃ w, SystemInv strict k { cfg with peers := Function.update cfg.peers n (some p') } g w := by
  have hpeer := h.peer n p hp
  have hsome : strict = true → (w n).isSome := fun hs => (h.alive hs).2 n (by rw [hp]; rfl)
  cases move with
  | wake tmp =>
    simp only [Peer.step] at hstep
    split_ifs at hstep
    obtain ⟨phase, hphase, rfl⟩ := Option.map_eq_some_iff.mp hstep
    exact ⟨_, h.subscriber hp rfl rfl hsome id (hpeer.wake hphase)⟩
  | advance =>
    obtain ⟨⟨phase, hs⟩, hphase, rfl⟩ := Option.map_eq_some_iff.mp hstep
    exact ⟨_, h.subscriber hp rfl rfl hsome id (hpeer.advance hphase)⟩
  | call inputs =>
    simp only [Peer.step] at hstep
    split at hstep
    · cases hstep
    · rename_i c next hask
      obtain ⟨⟨r, p₁⟩, hanswer, rfl⟩ := Option.map_eq_some_iff.mp hstep
      have hshut : cfg.shut p = true → p.conn = .closed ∨ g = none := by
        unfold Config.shut
        rw [Bool.or_eq_true, beq_iff_eq]
        exact fun hshut => (hshut.symm.imp_right fun hend => server_ended h.safe hend)
      have hsends : ∀ site fd buf, c = .send site fd buf →
          (site = .putCommand → ∀ b ∈ p.toClient, msgType b ≠ 6) ∧
          (strict = true → site = .putCommand ∨ site = .putExit → p.toClient = []) := by
        rintro site fd buf rfl
        have hput : p.sends = some (site, buf) := by
          unfold Peer.sends
          rw [hask]
        exact (hcare p site buf hp hput).cases
      obtain ⟨x, hx, hstrict, hgone, hconn, hkey⟩ :=
        hpeer.call (fun hs => (h.alive hs).1) hshut hask hsends hanswer
      exact ⟨_, h.subscriber hp hconn hkey hstrict hgone hx⟩

/-- A subscriber connects. -/
theorem SystemInv.connect (h : SystemInv strict k cfg g w) {id : List Byte} {sockfd : ℤ}
    (hnone : cfg.peers n = none) (h0 : 0 ∉ id)
    (hcare : Careful strict k cfg (.connect n id sockfd)) :
    SystemInv strict k
      { cfg with
        peers := Function.update cfg.peers n (some (.init id sockfd))
        backlog := cfg.backlog ++ [n] } g (Function.update w n (some .boot)) := by
  have hget : ∀ {n' q}, Function.update cfg.peers n (some (Peer.init id sockfd)) n' = some q →
      n' = n ∧ q = .init id sockfd ∨ n' ≠ n ∧ cfg.peers n' = some q := peers_update rfl
  have hne : ∀ {n' q}, cfg.peers n' = some q → n' ≠ n := by
    rintro n' q hq rfl
    rw [hnone] at hq
    cases hq
  have hold : ∀ {n' q}, cfg.peers n' = some q →
      Function.update cfg.peers n (some (Peer.init id sockfd)) n' = some q :=
    fun hq => (Function.update_of_ne (hne hq) _ _).trans hq
  have hnew : cfg.executed n = [] := h.fresh n hnone
  -- in the strict form an earlier subscriber with the ID is gone
  have hended : strict = true → ∀ n' q, cfg.peers n' = some q → q.key = id.take idLen →
      w n' = some .gone := by
    intro hs n' q hq hkey
    have hpeer := h.peer n' q hq
    have hover := subscriber_over hpeer (hcare hs n' q hq hkey)
    obtain ⟨v, hv⟩ := Option.isSome_iff_exists.mp (h.alive hs).1
    obtain ⟨u, hu⟩ := Option.isSome_iff_exists.mp ((h.alive hs).2 n' (by rw [hq]; rfl))
    have hwire := hpeer.wire v hv
    rw [hu] at hover hwire ⊢
    cases u with
    | gone => rfl
    | left =>
      rw [hwire.left_loose] at hs
      cases hs
    | _ => exact hover.elim
  refine ⟨⟨?_, ?_, ?_, ?_, h.unused, h.own⟩, h.safe, h.only, h.started, ?_, ?_, ?_, ?_, ?_⟩
  · intro n' q fd hq
    rcases hget hq with ⟨rfl, rfl⟩ | ⟨-, hq⟩
    · refine iff_of_false (fun hc => by cases hc) fun hfd => ?_
      have hsome := (h.known n' fd hfd).1
      rw [hnone] at hsome
      cases hsome
    · exact h.fds n' q fd hq
  · intro n' fd hfd
    obtain ⟨hsome, hrest⟩ := h.known n' fd hfd
    obtain ⟨q, hq⟩ := Option.isSome_iff_exists.mp hsome
    exact ⟨Option.isSome_iff_exists.mpr ⟨q, hold hq⟩, hrest⟩
  · intro n' hn'
    rcases List.mem_append.mp hn' with hn' | hn'
    · obtain ⟨q, hq, hpend⟩ := h.backlog n' hn'
      exact ⟨q, hold hq, hpend⟩
    · rw [List.mem_singleton.mp hn']
      exact ⟨_, Function.update_self _ _ _, rfl⟩
  · refine List.nodup_append.mpr ⟨h.nodup, List.nodup_singleton n, fun n₁ h₁ n₂ h₂ => ?_⟩
    obtain ⟨q, hq, -⟩ := h.backlog n₁ h₁
    rw [List.mem_singleton.mp h₂]
    exact hne hq
  · intro n' q hq
    rcases hget hq with ⟨rfl, rfl⟩ | ⟨hn, hq⟩
    · rw [Function.update_self]
      have hsafe : Phase.Safe (subscriberContract (id.take idLen) sockfd) (some .boot)
          (SelectLoop.start (subscriberStart id sockfd)) := Phase.safe_start (subscriberStart_wp h0)
      have hleaving : Leaving (some .boot) (SelectLoop.start (subscriberStart id sockfd)) :=
        leaving_start
      exact ⟨hsafe, Phase.only_start (subscriberStart_roomy id), hleaving, ⟨rfl, hnew⟩,
        fun _ _ => .pending⟩
    · rw [Function.update_of_ne hn]
      exact h.peer n' q hq
  · intro n' q hq hd hmem m hm
    rcases hget hq with ⟨rfl, rfl⟩ | ⟨-, hq⟩
    · have hnil := List.flatMap_eq_nil_iff.mp hnew _ hmem
      rw [if_pos rfl] at hnil
      rw [hnil] at hm
      cases hm
    · exact h.entries n' q hq hd hmem m hm
  · intro n' hn'
    refine h.fresh n' ?_
    by_cases hn : n' = n
    · rw [hn, hnone]
    · have hn' : Function.update cfg.peers n _ n' = none := hn'
      rwa [Function.update_of_ne hn] at hn'
  · refine fun hs => ⟨(h.alive hs).1, fun n' hn' => ?_⟩
    by_cases hn : n' = n
    · rw [hn, Function.update_self]
      rfl
    · have hn' : (Function.update cfg.peers n _ n').isSome := hn'
      rw [Function.update_of_ne hn] at hn' ⊢
      exact (h.alive hs).2 n' hn'
  · intro hs n₁ n₂ p₁ p₂ hdiff h₁ h₂ hkeys
    rcases hget h₁ with ⟨rfl, rfl⟩ | ⟨hn₁, hq₁⟩
    · rcases hget h₂ with ⟨rfl, rfl⟩ | ⟨hn₂, hq₂⟩
      · exact absurd rfl hdiff
      · rw [Function.update_of_ne hn₂]
        exact Or.inr (hended hs n₂ p₂ hq₂ hkeys.symm)
    · rw [Function.update_of_ne hn₁]
      rcases hget h₂ with ⟨rfl, rfl⟩ | ⟨hn₂, hq₂⟩
      · exact Or.inl (hended hs n₁ p₁ hq₁ hkeys)
      · rw [Function.update_of_ne hn₂]
        exact h.distinct hs n₁ n₂ p₁ p₂ hdiff hq₁ hq₂ hkeys

/-- Every step that meets the condition keeps the invariant. -/
theorem SystemInv.step (h : SystemInv strict k cfg g w) {a : Action}
    (hcare : Careful strict k cfg a) (hstep : cfg.step k a = some cfg') :
    ∃ g w, SystemInv strict k cfg' g w := by
  cases a with
  | connect n id sockfd =>
    simp only [Config.step] at hstep
    split_ifs at hstep with hnew
    cases hstep
    exact ⟨_, _, h.connect (Option.isNone_iff_eq_none.mp hnew.1) hnew.2.1 hcare⟩
  | server move =>
    obtain ⟨g, hg⟩ := h.server_step hcare hstep
    exact ⟨g, w, hg⟩
  | subscriber n move =>
    obtain ⟨p, hp, hstep⟩ := Option.bind_eq_some_iff.mp hstep
    obtain ⟨p', hp', rfl⟩ := Option.map_eq_some_iff.mp hstep
    obtain ⟨w, hw⟩ := h.subscriber_step hcare hp hp'
    exact ⟨g, w, hw⟩

/-- Before any subscriber connects. -/
theorem systemInv_init : SystemInv strict k (.init k) (some (views [])) fun _ => none where
  fds _ _ _ hp := by cases hp
  known _ _ hn := by cases hn
  backlog _ hn := by cases hn
  nodup := List.nodup_nil
  unused v fd hv _ := by
    cases hv
    rfl
  own i hi := (Registry.init k).opened i (((Registry.init k).watched i).mpr (Or.inl hi))
  safe := ⟨⟨[], .start⟩, rfl⟩
  only := trivial
  started := trivial
  peer _ _ hp := by cases hp
  entries _ _ hp := by cases hp
  fresh _ _ := rfl
  alive _ := ⟨rfl, fun _ hn => by cases hn⟩
  distinct _ _ _ _ _ _ hp := by cases hp

/-- The invariant holds in every run whose steps meet the condition. -/
theorem SystemRun.inv (h : SystemRun k (Careful strict k) cfg) :
    ∃ g w, SystemInv strict k cfg g w := by
  induction h with
  | init => exact ⟨_, _, systemInv_init⟩
  | step _ hcare hstep ih =>
    obtain ⟨g, w, hinv⟩ := ih
    exact hinv.step hcare hstep

end Runs

end TopicServer
