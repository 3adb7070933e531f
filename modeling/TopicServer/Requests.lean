import TopicServer.Broker

/-!
# What clients ask for

The server sends to a client, and keeps for it, only what a command of the same ID asked for before
(`server_solicits`).
-/

namespace TopicServer

open Interactive Linked Memory PubSub

/-! ## Subscriptions come from commands -/

/-- A command of the client subscribes to the topic. -/
def Subscribes (ops : List BrokerOp) (id : List Byte) (topic : CharArray stringLen) : Prop :=
  ∃ hdr : ClientToServerHdr, .command id hdr ∈ ops ∧ hdr.type = 0 ∧ hdr.topic = topic

section Entries

variable {ops ops' : List BrokerOp} {id : List Byte} {topic : CharArray stringLen}
  {hdr : ClientToServerHdr} {ts : List TopicStructure} {t : TopicStructure}

theorem Subscribes.mono (h : Subscribes ops id topic) (hsub : ops ⊆ ops') :
    Subscribes ops' id topic := by
  obtain ⟨hdr, hmem, h0, htopic⟩ := h
  exact ⟨hdr, hsub hmem, h0, htopic⟩

/-- A subscribe command adds no topic but its own. -/
theorem mem_subscribeEntries (h : t ∈ subscribeEntries hdr ts) :
    t.topic = hdr.topic ∨ ∃ u ∈ ts, u.topic = t.topic := by
  induction ts with
  | nil =>
    obtain rfl := List.mem_singleton.mp h
    exact Or.inl rfl
  | cons u ts ih =>
    rw [subscribeEntries] at h
    split_ifs at h
    · rcases List.mem_cons.mp h with rfl | h
      · exact Or.inr ⟨u, List.mem_cons_self, rfl⟩
      · exact Or.inr ⟨t, List.mem_cons_of_mem _ h, rfl⟩
    · rcases List.mem_cons.mp h with rfl | h
      · exact Or.inr ⟨t, List.mem_cons_self, rfl⟩
      · refine (ih h).imp_right ?_
        rintro ⟨v, hv, heq⟩
        exact ⟨v, List.mem_cons_of_mem _ hv, heq⟩

/-- Every subscription of a client comes from a command of that client. -/
theorem subscribes_of_run {s : Session (List TopicStructure) (List Byte)}
    (h : (serverPolicy.run id ops).1 = some s) : ∀ t ∈ s.subs, Subscribes ops id t.topic := by
  refine Policy.run_invariant (I := fun ops ts => ∀ t ∈ ts, Subscribes ops id t.topic)
    (fun ops t ht => (by cases ht)) (fun ops op ts hts t ht => ?_) (fun ops hdr ts hts t ht => ?_) h
  · exact (hts t ht).mono (List.subset_append_left _ _)
  · have hold : ∀ u ∈ ts, Subscribes (ops ++ [.command id hdr]) id u.topic :=
      fun u hu => (hts u hu).mono (List.subset_append_left _ _)
    have ht : t ∈ if hdr.type = 0 then subscribeEntries hdr ts else unsubscribeEntries hdr ts := ht
    split_ifs at ht with h0
    · rcases mem_subscribeEntries ht with heq | ⟨u, hu, heq⟩
      · exact ⟨hdr, List.mem_append_right _ (List.mem_singleton_self _), h0, heq.symm⟩
      · exact heq ▸ hold u hu
    · exact hold t (List.mem_of_mem_eraseP ht)

/-- What is kept for a client is wanted by it. -/
theorem wanted_of_kept {topic : List Byte} (h : serverPolicy.kept topic ts = true) :
    serverPolicy.wanted topic ts = true := by
  show (ts.find? (accepts topic)).isSome = true
  have hkept : (ts.find? (accepts topic)).any (·.sf ≠ 0) = true := h
  cases hfind : ts.find? (accepts topic) with
  | none =>
    rw [hfind] at hkept
    cases hkept
  | some t => rfl

/-- Every message for a client is a publication that a command of that client asked for before. -/
theorem solicited_of_run {m : List Byte}
    (h : m ∈ (serverPolicy.run id ops).2 ∨
      ∃ s, (serverPolicy.run id ops).1 = some s ∧ m ∈ s.queue) :
    ∃ pre topic post t, ops = pre ++ .publish topic m :: post ∧ Subscribes pre id t.topic ∧
      accepts topic t = true := by
  obtain ⟨pre, topic, post, s, hops, hs, hasked⟩ := Policy.run_message h
  have hwanted : (s.subs.find? (accepts topic)).isSome = true :=
    hasked.elim (fun hwanted => hwanted) wanted_of_kept
  obtain ⟨t, ht⟩ := Option.isSome_iff_exists.mp hwanted
  exact ⟨pre, topic, post, t, hops, subscribes_of_run hs t (List.mem_of_find?_eq_some ht),
    List.find?_some ht⟩

end Entries

section Runs

variable {k : Sockets} {g : Kernel} {p : Point ServerState} {hs : List (Handled Sys ServerState)}
  {id m : List Byte}

/-- Nothing is sent to a client or kept for it but a publication that a subscribe command of the
same client, earlier in the run, asked for. -/
theorem server_solicits (hrun : ServerRun k g p hs)
    (h : m ∈ hs.flatMap (sentTo id) ∨ ∃ s, p.state.session id = some s ∧ m ∈ s.queue) :
    ∃ pre topic post t, operations k hs = pre ++ .publish topic m :: post ∧
      Subscribes pre id t.topic ∧ accepts topic t = true := by
  have hbroker := hrun.broker id
  have hsession : p.state.session id = (serverPolicy.run id (operations k hs)).1 :=
    congrArg Prod.fst hbroker
  have hsent : hs.flatMap (sentTo id) = (serverPolicy.run id (operations k hs)).2 :=
    congrArg Prod.snd hbroker
  rw [hsession, hsent] at h
  exact solicited_of_run h

/-- The publication that waited for a client was asked for before it left. -/
theorem server_solicits_alone : ∃ g s hs m pre topic post t,
    ServerRun sockets g (.select s) hs ∧ m ∈ hs.flatMap (sentTo [65]) ∧
      operations sockets hs = pre ++ .publish topic m :: post ∧
      Subscribes pre [65] t.topic ∧ accepts topic t = true := by
  obtain ⟨g, s, hs, hrun, htrace⟩ := serveScript_trace aloneScript (by decide +kernel)
  have hsent : hs.flatMap (sentTo [65]) = (serverPolicy.run [65] (operations sockets hs)).2 :=
    congrArg Prod.snd (hrun.broker [65])
  have hlen : (hs.flatMap (sentTo [65])).length = 1 := by
    rw [hsent]
    unfold operations
    rw [htrace]
    decide +kernel
  obtain ⟨m, hm⟩ := List.exists_mem_of_length_pos (hlen.symm ▸ Nat.one_pos)
  obtain ⟨pre, topic, post, t, hsolicits⟩ := server_solicits hrun (Or.inl hm)
  exact ⟨g, s, hs, m, pre, topic, post, t, hrun, hm, hsolicits⟩

end Runs

end TopicServer
