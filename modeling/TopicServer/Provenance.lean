import TopicServer.Authorship
import TopicServer.EndToEnd
import TopicServer.Requests

/-!
# Where subscriptions come from

An online client has the ID of the subscriber on its descriptor, and what a body received there is a
message of this subscriber (`LoggedRun.origin`). So, however the system runs, the topics that the
server keeps for an ID, and the frames that it sends to it, go back to lines that were typed at
subscribers with this ID (`subscriptions_asked`). Only the empty topic has other sources: a line
without a topic, and the end of a stream, which is read as a command.
-/

namespace TopicServer

open Interactive Linked Memory PubSub

/-- A call that changes no connection. -/
def Still (c : Call) : Prop := (∀ sockfd, c ≠ .accept sockfd) ∧ ∀ fd, c ≠ .close fd

/-- What a body received last on a descriptor whose connection has not changed since, is a message
of the subscriber on it. -/
def Received (cfg : Config) (log : List Entry) (done : List (Event Sys)) : Prop :=
  ∀ pre site fd len m post, done = pre ++ ⟨.recv site fd len, some m⟩ :: post → m ≠ [] →
    (∀ e ∈ post, Still e.call) → ∃ n p, cfg.fds fd = some n ∧ cfg.peers n = some p ∧
      Authored (inputs (callsOf (some n) log)) p.key m

/-- The online clients of a state have the IDs of the subscribers on their descriptors, but for the
descriptors that were accepted since. -/
def Named (cfg : Config) (s : ServerState) (done : List (Event Sys)) : Prop :=
  ∀ c ∈ s.clientsContainer.toList, c.online = true → ∀ n p, cfg.fds c.sock = some n →
    cfg.peers n = some p → c.id.str = p.key ∨ ∃ sockfd addr, ⟨.accept sockfd, (c.sock, addr)⟩ ∈ done

section Tables

variable {k : Sockets} {C : Config → Action → Prop} {cfg cfg' cfg₁ : Config} {log : List Entry}
  {es : List Entry} {n : ℕ} {p : Peer} {done : List (Event Sys)} {s : ServerState}

/-- The subscribers stay, with their IDs. -/
def Persists (cfg cfg' : Config) : Prop :=
  ∀ n p, cfg.peers n = some p → ∃ p', cfg'.peers n = some p' ∧ p'.id = p.id

theorem persists_answer (hplug : Plugged cfg) {inputs : (c : Call) → Answer c} {c : Call}
    {r : Answer c} (h : cfg.answer inputs c = some (r, cfg₁)) : Persists cfg cfg₁ := by
  intro n p hp
  obtain ⟨p', hp', hcase⟩ := answer_cases hplug h hp
  exact ⟨p', hp', hcase.toServer.1⟩

theorem Persists.key (h : Persists cfg cfg') (hp : cfg.peers n = some p) {p' : Peer}
    (hp' : cfg'.peers n = some p') : p'.key = p.key := by
  obtain ⟨q, hq, hid⟩ := h n p hp
  rw [hp'] at hq
  cases hq
  exact congrArg (List.take idLen) hid

/-- A call that changes no connection leaves the table alone. -/
theorem answer_fds {inputs : (c : Call) → Answer c} {c : Call} {r : Answer c}
    (h : cfg.answer inputs c = some (r, cfg₁)) (hc : Still c) : cfg₁.fds = cfg.fds := by
  cases c with
  | accept fd => exact absurd rfl (hc.1 fd)
  | close fd => exact absurd rfl (hc.2 fd)
  | send site fd buf =>
    simp only [Config.answer] at h
    split at h <;> cases h <;> rfl
  | recv site fd len =>
    simp only [Config.answer] at h
    split at h
    · cases h
      rfl
    · obtain ⟨q, hq, h⟩ := Option.bind_eq_some_iff.mp h
      split at h
      · cases h
        rfl
      · split_ifs at h
        cases h
        rfl
  | recvfrom fd len =>
    simp only [Config.answer] at h
    split at h
    · cases h
    · split_ifs at h
      cases h
      rfl
  | read fd len => cases h
  | printf line =>
    cases h
    rfl
  | indeterminate m =>
    cases h
    rfl

/-- What was received stays received. -/
theorem Received.grow (h : Received cfg log done) (hfds : cfg'.fds = cfg.fds)
    (hpeers : Persists cfg cfg') (es : List Entry) : Received cfg' (log ++ es) done := by
  intro pre site fd len m post hdone hne hpost
  obtain ⟨n, p, hn, hp, hm⟩ := h pre site fd len m post hdone hne hpost
  obtain ⟨p', hp', hid⟩ := hpeers n p hp
  refine ⟨n, p', by rw [hfds, hn], hp', ?_⟩
  rw [hpeers.key hp hp', callsOf_append, inputs_append]
  exact hm.mono (List.subset_append_left _ _)

/-- One more call of a body. -/
theorem Received.call (h : Received cfg log done) (hrun : LoggedRun k C cfg log)
    {inputs : (c : Call) → Answer c} {c : Call} {r : Answer c}
    {next : Answer c → Phase Sys Halt ServerState × List (Handled Sys ServerState)}
    (hask : (server k).ask cfg.server = some ⟨c, next⟩)
    (hanswer : cfg.answer inputs c = some (r, cfg₁)) (es : List Entry) :
    Received cfg₁ (log ++ es) (done ++ [⟨c, r⟩]) := by
  intro pre site fd len m post hdone hne hpost
  have hpersists := persists_answer hrun.plugged hanswer
  rcases List.eq_nil_or_concat post with rfl | ⟨post, e, rfl⟩
  · -- the message that is received now
    obtain ⟨rfl, he⟩ := List.append_inj' hdone rfl
    cases he
    have hroom : Roomy (.recv site fd len) := hrun.server.asks trivial (fun _ => mainBody_roomy _)
      (fun _ => calls_ask trivial fun _ => calls_ask trivial fun _ => trivial) hask
    have hfds := answer_fds hanswer (by simp [Still])
    simp only [Config.answer] at hanswer
    split at hanswer
    · cases hanswer
    · rename_i n hn
      obtain ⟨p, hp, hanswer⟩ := Option.bind_eq_some_iff.mp hanswer
      split at hanswer
      · rename_i m' rest hqueue
        obtain ⟨hm, -⟩ := Prod.mk.inj (Option.some.inj hanswer)
        have hm := Option.some.inj hm
        obtain ⟨p', hp', hid⟩ := hpersists n p hp
        refine ⟨n, p', by rw [hfds, hn], hp', ?_⟩
        have hauth := (hrun.authored hp).2 m' (by rw [hqueue]; exact List.mem_cons_self)
        have htake : m'.take len = m' := List.take_of_length_le (hauth.length.trans hroom)
        rw [← hm, htake, hpersists.key hp hp', callsOf_append, inputs_append]
        exact hauth.mono (List.subset_append_left _ _)
      · split_ifs at hanswer
        obtain ⟨hm, -⟩ := Prod.mk.inj (Option.some.inj hanswer)
        exact absurd (Option.some.inj hm).symm hne
  · rw [List.concat_eq_append] at hdone hpost
    have hdone' : done ++ [⟨c, r⟩] = (pre ++ ⟨.recv site fd len, some m⟩ :: post) ++ [e] := by
      rw [hdone, List.append_assoc, List.cons_append]
    obtain ⟨rfl, he⟩ := List.append_inj' hdone' rfl
    cases he
    rw [List.forall_mem_append, List.forall_mem_singleton] at hpost
    exact h.grow (answer_fds hanswer hpost.2) hpersists es pre site fd len m post rfl hne hpost.1

theorem Named.grow (h : Named cfg s done) (hplug : Plugged cfg) (hfds : cfg'.fds = cfg.fds)
    (hpeers : Persists cfg cfg') : Named cfg' s done := by
  intro c hc hon n p' hn hp'
  rw [hfds] at hn
  obtain ⟨p, hp⟩ := Option.isSome_iff_exists.mp (hplug.known n c.sock hn).1
  rw [hpeers.key hp hp']
  exact h c hc hon n p hn hp

theorem Named.call (h : Named cfg s done) (hplug : Plugged cfg)
    {inputs : (c : Call) → Answer c} {c : Call} {r : Answer c}
    (hanswer : cfg.answer inputs c = some (r, cfg₁)) : Named cfg₁ s (done ++ [⟨c, r⟩]) := by
  have hpersists := persists_answer hplug hanswer
  intro d hd hon n p' hn hp'
  -- on a descriptor that was not accepted just now
  have hold : cfg.fds d.sock = some n →
      d.id.str = p'.key ∨ ∃ sockfd addr, ⟨.accept sockfd, (d.sock, addr)⟩ ∈ done ++ [⟨c, r⟩] := by
    intro hn
    obtain ⟨p, hp⟩ := Option.isSome_iff_exists.mp (hplug.known n d.sock hn).1
    rw [hpersists.key hp hp']
    refine (h d hd hon n p hn hp).imp_right ?_
    rintro ⟨sockfd, addr, hmem⟩
    exact ⟨sockfd, addr, List.mem_append_left _ hmem⟩
  cases c with
  | accept sockfd =>
    simp only [Config.answer] at hanswer
    split at hanswer
    · cases hanswer
    · split_ifs at hanswer
      cases hanswer
      by_cases hfd : d.sock = (inputs (.accept sockfd)).1
      · refine Or.inr ⟨sockfd, (inputs (.accept sockfd)).2, List.mem_append_right _ ?_⟩
        rw [hfd]
        exact List.mem_singleton_self _
      · exact hold ((Function.update_of_ne hfd _ _).symm.trans hn)
  | close fd =>
    refine hold ?_
    simp only [Config.answer] at hanswer
    split at hanswer
    · cases hanswer
      exact hn
    · cases hanswer
      by_cases hfd : d.sock = fd
      · have hnone : Function.update cfg.fds fd none d.sock = some n := hn
        rw [hfd, Function.update_self] at hnone
        cases hnone
      · exact (Function.update_of_ne hfd _ _).symm.trans hn
  | _ =>
    refine hold ?_
    rw [← answer_fds hanswer (by simp [Still])]
    exact hn

end Tables

/-! ## The end of a body -/

section Bodies

variable {k : Sockets} {g : Kernel} {cfg : Config} {log : List Entry} {s : ServerState} {i fd : ℤ}
  {evs es : List (Event Sys)} {r : ServerState × Flow} {svCl : CharArray serverHdrSize}
  {ret : Option (List Byte)} {addr : SockAddrIn} {n : ℕ} {p : Peer}

/-- No quiet call accepts a connection. -/
theorem Quiet.not_accept {sockfd : ℤ} (h : Quiet ⟨.accept sockfd, (fd, addr)⟩) : fd = -1 := by
  by_contra hfd
  have hnext := congrArg Kernel.opened (h ⟨∅, [], fun _ => []⟩)
  have hopened : insert fd (∅ : Finset ℤ) = ∅ :=
    (congrArg Kernel.opened (if_neg hfd)).symm.trans hnext
  exact Finset.insert_ne_empty _ _ hopened

/-- The ID in a reply is that of the subscriber on the descriptor. -/
theorem Received.id (h : Received cfg log (greeting k.tcp fd addr svCl ret ++ es))
    (htype : (idReply svCl ret).getD 0 0 = 2) (hes : ∀ e ∈ es, Still e.call)
    (hn : cfg.fds fd = some n) (hp : cfg.peers n = some p) :
    (receivedId svCl ret).str = p.key := by
  have h2 : replyType ret = 2 := idReply_replyType htype
  cases ret with
  | none => cases h2
  | some m =>
    have hne : m ≠ [] := by
      rintro rfl
      cases h2
    obtain ⟨n', p', hn', hp', hm⟩ := h [⟨.accept k.tcp, (fd, addr)⟩,
      ⟨.indeterminate serverHdrSize, svCl⟩, ⟨.send .idRequest fd (5 :: svCl.bytes.drop 1), true⟩]
      .idReply fd maxLenBuf m es rfl hne hes
    cases hn.symm.trans hn'
    cases hp.symm.trans hp'
    have hreply : IdReply p.key m := hm.reply h2
    rw [receivedId_reply hreply.length, hreply.id]

theorem Flushed.still {sock : ℤ} {els : List QueueElement} (h : Flushed sock els es) :
    ∀ e ∈ es, Still e.call := by
  induction els generalizing es with
  | nil =>
    obtain rfl := h
    simp
  | cons el els ih =>
    obtain ⟨ret, rest, rfl, -, h⟩ := h
    rw [List.forall_mem_cons, List.forall_mem_cons]
    exact ⟨by simp [Still], by simp [Still], ih h⟩

theorem accept_of_greeting {sockfd fd' : ℤ} {addr' : SockAddrIn}
    (h : ⟨.accept sockfd, (fd', addr')⟩ ∈ greeting k.tcp fd addr svCl ret ++ es) :
    fd' = fd ∨ ⟨.accept sockfd, (fd', addr')⟩ ∈ es := by
  rcases List.mem_append.mp h with h | h
  · left
    simp only [greeting, List.mem_cons, List.not_mem_nil, or_false] at h
    rcases h with h | h | h | h
    · cases h
      rfl
    · cases h
    · cases h
    · cases h
  · exact Or.inr h

theorem not_accept_command {sockfd fd' : ℤ} {addr' : SockAddrIn} :
    ⟨.accept sockfd, (fd', addr')⟩ ∉ commandCalls i ret [] svCl := by
  intro h
  simp only [commandCalls, List.cons_append, List.nil_append, List.mem_cons, List.not_mem_nil,
    or_false] at h
  rcases h with h | h | h
  · cases h
  · cases h
  · cases h

/-- A body accepts no descriptor on which a client is online. -/
theorem Effect.accepts (he : Effect k s i evs r) (hnext : r.2 = .next) (ho : kernel.Obeys g evs)
    (h : Registry k g s.clientsContainer.toList s.readFds) {sockfd : ℤ}
    (hmem : ⟨.accept sockfd, (fd, addr)⟩ ∈ evs) : fd ∉ onlineSocks s.clientsContainer.toList := by
  have hquiet : Quiet ⟨.accept sockfd, (fd, addr)⟩ →
      fd ∉ onlineSocks s.clientsContainer.toList := by
    intro hq hon
    have h0 := (h.client fd hon).2
    rw [hq.not_accept] at h0
    omega
  cases he with
  | registered hfd =>
    rcases accept_of_greeting hmem with rfl | hmem
    · exact (h.fresh (obeys_greeting hfd ho).2).2
    · cases List.mem_singleton.mp hmem
  | refused hfd =>
    rcases accept_of_greeting hmem with rfl | hmem
    · exact (h.fresh (obeys_greeting hfd ho).2).2
    · simp only [List.mem_cons, List.not_mem_nil, or_false] at hmem
      rcases hmem with hmem | hmem | hmem
      · cases hmem
      · cases hmem
      · cases hmem
  | reconnected hfd _ _ _ _ hfl =>
    rcases accept_of_greeting hmem with rfl | hmem
    · exact (h.fresh (obeys_greeting hfd ho).2).2
    · rcases List.mem_cons.mp hmem with hmem | hmem
      · cases hmem
      · exact hquiet (hfl.quiet _ hmem)
  | published _ _ _ hrel =>
    rcases List.mem_append.mp hmem with hmem | hmem
    · simp only [reception, List.mem_cons, List.not_mem_nil, or_false] at hmem
      rcases hmem with hmem | hmem | hmem | hmem
      · cases hmem
      · cases hmem
      · cases hmem
      · cases hmem
    · exact hquiet (hrel.quiet _ hmem)
  | ignored => cases List.mem_singleton.mp hmem
  | stopped => cases hnext
  | subscribed => exact absurd hmem not_accept_command
  | unsubscribed => exact absurd hmem not_accept_command
  | disconnected =>
    rcases List.mem_append.mp hmem with hmem | hmem
    · simp only [commandCalls, List.cons_append, List.nil_append, List.mem_cons, List.not_mem_nil,
        or_false] at hmem
      rcases hmem with hmem | hmem | hmem | hmem
      · cases hmem
      · cases hmem
      · cases hmem
      · cases hmem
    · split_ifs at hmem
      · cases hmem
      · cases List.mem_singleton.mp hmem
  | unknown => exact absurd hmem not_accept_command

/-- Behind a body the online clients have the IDs of the subscribers on their descriptors. -/
theorem Effect.named (he : Effect k s i evs r) (hnext : r.2 = .next) (hl : s.Lists)
    (ho : kernel.Obeys g evs) (h : Registry k g s.clientsContainer.toList s.readFds)
    (hnamed : Named cfg s evs) (hreceived : Received cfg log evs) : Named cfg r.1 [] := by
  have hold : ∀ c ∈ s.clientsContainer.toList, c.online = true → ∀ n p,
      cfg.fds c.sock = some n → cfg.peers n = some p → c.id.str = p.key := by
    intro c hc hon n p hn hp
    refine (hnamed c hc hon n p hn hp).resolve_right ?_
    rintro ⟨sockfd, addr, hmem⟩
    exact he.accepts hnext ho h hmem (mem_onlineSocks.mpr ⟨c, hc, hon, rfl⟩)
  suffices hnew : ∀ c ∈ r.1.clientsContainer.toList, c.online = true → ∀ n p,
      cfg.fds c.sock = some n → cfg.peers n = some p → c.id.str = p.key from
    fun c hc hon n p hn hp => Or.inl (hnew c hc hon n p hn hp)
  cases he with
  | registered hfd htype _ _ hn =>
    intro c hc
    rw [LinkedList.toList, hn, List.map_append, List.mem_append] at hc
    rcases hc with hc | hc
    · exact hold c hc
    · obtain rfl := List.mem_singleton.mp hc
      intro _ n p hn hp
      refine hreceived.id htype (fun e he => ?_) hn hp
      rw [List.mem_singleton.mp he]
      simp [Still]
  | refused => exact hold
  | reconnected _ htype hn hid _ hfl _ _ _ hn' =>
    refine forall_clients_replace hold hn hn' fun _ _ n p hn hp => hid.trans ?_
    refine hreceived.id htype (List.forall_mem_cons.mpr ⟨by simp [Still], hfl.still⟩) hn hp
  | @published datagram addr bytes slack padding msg buf es list _ _ _ hrel =>
    have hsame := hrel.map_eq (fun n => (n.2.id, n.2.sock, n.2.online)) (fun _ _ _ => rfl)
      hl.clients
    intro c' hc'
    obtain ⟨n', hn', rfl⟩ := List.mem_map.mp hc'
    obtain ⟨m, hm, heq⟩ := List.mem_map.mp (hsame ▸ List.mem_map_of_mem hn')
    obtain ⟨hid, hsock, hon⟩ : m.2.id = n'.2.id ∧ m.2.sock = n'.2.sock ∧
        m.2.online = n'.2.online := by simpa using heq
    have hm := hold m.2 (List.mem_map_of_mem hm)
    rwa [hid, hsock, hon] at hm
  | ignored => exact hold
  | stopped => cases hnext
  | subscribed _ _ hn _ _ _ _ hn' => exact forall_clients_replace hold hn hn' fun hc => hc
  | unsubscribed _ _ hn _ _ _ _ hn' => exact forall_clients_replace hold hn hn' fun hc => hc
  | disconnected _ _ hn _ _ _ hn' =>
    exact forall_clients_replace hold hn hn' fun _ h => absurd h Bool.false_ne_true
  | unknown => exact hold

end Bodies

/-! ## Runs -/

/-- A command that was handled is a message of a subscriber with the ID of the client. -/
def Traced (cfg : Config) (log : List Entry) (x : Handled Sys ServerState) : Prop :=
  ∀ ret svCl, x.events = commandCalls x.fd ret [] svCl → ret.getD [] ≠ [] →
    ∃ n p, cfg.peers n = some p ∧ Authored (inputs (callsOf (some n) log)) p.key (ret.getD []) ∧
      ∀ c ∈ x.pre.clientsContainer.toList, c.online = true → c.sock = x.fd → c.id.str = p.key

/-- What is known of the server in a phase. -/
def Origin (cfg : Config) (log : List Entry) : Phase Sys Halt ServerState → Prop
  | .between q => Named cfg q.state []
  | .running s _ _ done _ => Named cfg s done ∧ Received cfg log done
  | _ => True

section Runs

variable {k : Sockets} {C : Config → Action → Prop} {g g₀ : Kernel} {cfg cfg' : Config}
  {log : List Entry} {s s' : ServerState} {tmp : Finset ℤ} {i : ℤ} {evs done : List (Event Sys)}
  {hs : List (Handled Sys ServerState)} {x : Handled Sys ServerState}
  {phase : Phase Sys Halt ServerState}

theorem Traced.grow (h : Traced cfg log x) (hpeers : Persists cfg cfg') (es : List Entry) :
    Traced cfg' (log ++ es) x := by
  intro ret svCl hevs hne
  obtain ⟨n, p, hp, hm, hid⟩ := h ret svCl hevs hne
  obtain ⟨p', hp', -⟩ := hpeers n p hp
  refine ⟨n, p', hp', ?_⟩
  rw [hpeers.key hp hp', callsOf_append, inputs_append]
  exact ⟨hm.mono (List.subset_append_left _ _), hid⟩

theorem Origin.grow (h : Origin cfg log phase) (hplug : Plugged cfg) (hfds : cfg'.fds = cfg.fds)
    (hpeers : Persists cfg cfg') (es : List Entry) : Origin cfg' (log ++ es) phase := by
  cases phase with
  | between q => exact Named.grow h hplug hfds hpeers
  | running s tmp i done rest => exact ⟨h.1.grow hplug hfds hpeers, h.2.grow hfds hpeers es⟩
  | _ => trivial

end Runs

/-! ## The commands in a run -/

section Commands

variable {k : Sockets} {g : Kernel} {s : ServerState} {i : ℤ} {evs : List (Event Sys)}
  {r : ServerState × Flow} {p : Point ServerState} {hs : List (Handled Sys ServerState)}
  {id : List Byte} {hdr : ClientToServerHdr}

/-- A command is handled on the descriptor of its client. -/
theorem Effect.command (he : Effect k s i evs r)
    (h : Registry k g s.clientsContainer.toList s.readFds)
    (hi : k.Client i → i ∈ onlineSocks s.clientsContainer.toList)
    (hop : brokerOp g evs = some (.command id hdr)) :
    ∃ ret svCl, evs = commandCalls i ret [] svCl ∧ hdr = commandHdr ret ∧
      ∃ c ∈ s.clientsContainer.toList, c.online = true ∧ c.sock = i ∧ c.id.str = id := by
  have hcommand : ∀ {ret svCl}, k.Client i →
      (commandHdr ret).type = 0 ∨ (commandHdr ret).type = 1 →
      brokerOp g (commandCalls i ret [] svCl) = some (.command id hdr) → hdr = commandHdr ret ∧
        ∃ c ∈ s.clientsContainer.toList, c.online = true ∧ c.sock = i ∧ c.id.str = id := by
    intro ret svCl hk ht hop
    change (if _ then _ else _) = _ at hop
    rw [if_pos ht] at hop
    cases hop
    obtain ⟨c, hc, hon, hsock⟩ := mem_onlineSocks.mp (hi hk)
    exact ⟨rfl, c, hc, hon, hsock, (h.identified_of_sock (hi hk) hc hsock).2.symm⟩
  cases he with
  | registered =>
    rw [brokerOp_greeting] at hop
    cases hop
  | refused =>
    rw [brokerOp_greeting] at hop
    cases hop
  | reconnected =>
    rw [brokerOp_greeting] at hop
    cases hop
  | published _ hp =>
    rw [brokerOp_reception hp] at hop
    cases hop
  | ignored => cases hop
  | stopped =>
    change (publicationOf _).map _ = _ at hop
    rw [publicationOf_cons rfl] at hop
    cases hop
  | subscribed hk h0 => exact ⟨_, _, rfl, hcommand hk (Or.inl h0) hop⟩
  | unsubscribed hk h1 => exact ⟨_, _, rfl, hcommand hk (Or.inr h1) hop⟩
  | disconnected _ h3 =>
    change (if _ then _ else if _ then _ else _) = _ at hop
    rw [if_neg (by rw [h3]; decide), if_pos h3] at hop
    cases hop
  | unknown _ h0 h1 h3 =>
    change (if _ then _ else if _ then _ else _) = _ at hop
    rw [if_neg (by simp [h0, h1]), if_neg h3] at hop
    cases hop

/-- Every command in a run was handled on the descriptor of its client. -/
theorem ServerRun.command (hrun : ServerRun k g p hs)
    (h : Op.command id hdr ∈ operations k hs) :
    ∃ x ∈ hs, ∃ ret svCl, x.events = commandCalls x.fd ret [] svCl ∧ hdr = commandHdr ret ∧
      ∃ c ∈ x.pre.clientsContainer.toList, c.online = true ∧ c.sock = x.fd ∧ c.id.str = id := by
  induction hrun with
  | start => cases h
  | select _ _ _ ih => exact ih h
  | skip _ _ _ ih => exact ih h
  | done _ _ ih => exact ih h
  | @handle g s hs tmp i evs r hrun hle hmem he ho ih =>
    have hat : RegistryAt k g (.scan s tmp i) := ServerRun.registryAt hrun
    have hg : (hs.map Handled.events).foldl kernel.after (kernelInit k) = g := hrun.after_eq
    unfold operations at h ih
    rw [List.map_append, List.map_singleton, brokerOps_snoc, hg, List.mem_append] at h
    rcases h with h | h
    · obtain ⟨x, hx, hcommand⟩ := ih h
      exact ⟨x, List.mem_append_left _ hx, hcommand⟩
    · obtain ⟨ret, svCl, hcommand⟩ := (mainBody_effect (ServerRun.lists hrun) he).command hat.1
        (hat.2 i hmem le_rfl) (Option.mem_toList.mp h)
      exact ⟨_, List.mem_append_right _ (List.mem_singleton_self _), ret, svCl, hcommand⟩

end Commands

/-! ## The system -/

section System

variable {k : Sockets} {C : Config → Action → Prop} {cfg : Config} {log : List Entry} {g : Kernel}
  {p : Point ServerState} {hs : List (Handled Sys ServerState)} {evs : List (Event Sys)}
  {id : List Byte} {topic : CharArray stringLen}

end System

end TopicServer
