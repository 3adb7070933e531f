import TopicServer.Registry

/-!
# Delivery of a publication

`send_data` should give a frame to the clients that are subscribed to exactly the published topic
(`ExactDelivery`). Its comparison leaves out the last byte of the topic, so it accepts the
subscriptions that begin with the rest of it; `exact_delivery_iff` says for which states this
makes no difference.
-/

namespace TopicServer

open Interactive Linked Memory

/-! ## The comparison -/

/-- The topic field of a publication: its string cut to the size of the field. -/
def topicField (topic : List Byte) : List Byte := topic.take stringLen

/-- A subscription begins with the topic without its last byte. -/
def BeginsAlike (topic : List Byte) (t : TopicStructure) : Prop :=
  (topicField topic).dropLast <+: t.topic.str

instance (topic : List Byte) : DecidablePred (BeginsAlike topic) := fun t =>
  inferInstanceAs (Decidable ((topicField topic).dropLast <+: t.topic.str))

/-- A subscription to exactly the topic. -/
def SameTopic (topic : List Byte) (t : TopicStructure) : Prop := t.topic.str = topicField topic

instance (topic : List Byte) : DecidablePred (SameTopic topic) := fun t =>
  inferInstanceAs (Decidable (t.topic.str = topicField topic))

section Comparison

variable {topic : List Byte} {t : TopicStructure} {c : ClientStructure}

theorem SameTopic.beginsAlike (h : SameTopic topic t) : BeginsAlike topic t := by
  unfold BeginsAlike
  rw [h]
  exact List.dropLast_prefix _

/-- The comparison never leaves the two blocks, and accepts what begins alike. -/
theorem topicAccepted_eq (h0 : 0 ∉ topic) (hne : topic ≠ []) (t : TopicStructure) :
    topicAccepted topic t = .ok (decide (BeginsAlike topic t)) := by
  have hpos : 0 < topic.length := List.length_pos_of_ne_nil hne
  have h50 : stringLen = 50 := rfl
  have hlen : (topicField topic).dropLast.length = (topicField topic).length - 1 :=
    List.length_dropLast
  have hfield : (topicField topic).length = min stringLen topic.length := List.length_take
  -- the length that is compared
  have hn : sizeT ((if stringLen < topic.length then (stringLen : ℤ) else topic.length) - 1) =
      (topicField topic).dropLast.length := by
    split_ifs with hlt
    · rw [sizeT_of_nonneg (by omega) (by omega)]
      omega
    · rw [sizeT_of_nonneg (by omega) (by have := not_lt.mp hlt; omega)]
      omega
  have hle : (topicField topic).dropLast.length ≤ t.topic.bytes.length := by
    rw [t.topic.length_eq]
    omega
  have hle' : (topicField topic).dropLast.length ≤ (topic ++ [0]).length := by
    rw [List.length_append]
    omega
  obtain ⟨v, hv, hzero⟩ := memcmp_inside hle hle'
  have htake : (topic ++ [0]).take (topicField topic).dropLast.length =
      (topicField topic).dropLast := by
    have hpre : (topicField topic).dropLast <+: topic ++ [0] :=
      ((List.dropLast_prefix _).trans (List.take_prefix _ _)).trans (List.prefix_append _ _)
    exact (List.prefix_iff_eq_take.mp hpre).symm
  have hno : 0 ∉ (topicField topic).dropLast := fun hm =>
    h0 (List.mem_of_mem_take (List.mem_of_mem_dropLast hm))
  unfold topicAccepted
  simp only [hn, hv]
  rw [Except.ok.injEq, Bool.eq_iff_iff, beq_iff_eq, decide_eq_true_iff, hzero, htake,
    take_eq_iff_cstr hno]
  unfold BeginsAlike
  rw [List.prefix_iff_eq_take, eq_comm]
  rfl

theorem accepts_eq (h0 : 0 ∉ topic) (hne : topic ≠ []) (t : TopicStructure) :
    accepts topic t = decide (BeginsAlike topic t) := by
  unfold accepts
  rw [topicAccepted_eq h0 hne]

theorem firstAccepted_eq (h0 : 0 ∉ topic) (hne : topic ≠ []) (c : ClientStructure) :
    firstAccepted topic c = c.subscribedTopics.toList.find? (BeginsAlike topic ·) := by
  unfold firstAccepted
  congr 1
  funext t
  exact accepts_eq h0 hne t

end Comparison

/-! ## Acknowledged publications -/

/-- An answer to a data frame: it is taken, and acknowledged with a message of type 4. -/
def acked : (c : Call) → Answer c → Bool
  | .send .data _ _, r => r
  | .recv .dataAck _ _, r => replyType r == 4
  | _, _ => true

section Acked

variable {data topic : List Byte} {bytes : ℤ} {evs : List (Event Sys)}

/-- When all frames are acknowledged, no client stops the walk. -/
theorem not_refused {c : ClientStructure} (h0 : 0 ∉ topic) (hne : topic ≠ [])
    (hl : c.Lists) (hack : ∀ e ∈ evs, acked e.call e.answer = true) :
    ¬ Refused data topic bytes c evs := by
  rintro (⟨e, he⟩ | ⟨-, rfl | ⟨ret, rfl, hret⟩⟩)
  · have htotal : ∀ n ∈ c.subscribedTopics.nodes,
        topicAccepted topic n.2 = .ok (decide (BeginsAlike topic n.2)) := fun n _ =>
      topicAccepted_eq h0 hne n.2
    obtain ⟨r, hr⟩ := LinkedList.find_total (q := fun t => decide (BeginsAlike topic t))
      hl.topics.repr htotal
    rw [hr] at he
    cases he
  · have hsent := hack _ List.mem_cons_self
    cases hsent
  · have hreply := hack _ (List.mem_cons_of_mem _ List.mem_cons_self)
    exact hret (beq_iff_eq.mp hreply)

/-- An acknowledged publication reaches the end of the walk. -/
theorem sendData_acked {list : LinkedList ClientStructure}
    {o : Except Halt (LinkedList ClientStructure)} (h : list.WellFormed)
    (hl : ∀ n ∈ list.nodes, n.2.Lists) (h0 : 0 ∉ topic) (hne : topic ≠ [])
    (he : (sendData data topic list bytes).Exec evs o)
    (hack : ∀ e ∈ evs, acked e.call e.answer = true) :
    ∃ list', o = .ok list' ∧ list'.WellFormed ∧
      RelayedAll data topic bytes list.nodes evs list'.nodes := by
  rcases sendData_exec h hl he with hok | ⟨e, n, es, es', hn, -, rfl, href⟩
  · exact hok
  · have hack' : ∀ e ∈ es', acked e.call e.answer = true := fun e he =>
      hack e (List.mem_append_right _ he)
    exact absurd href (not_refused h0 hne (hl n hn) hack')

end Acked

/-! ## Exact delivery -/

/-- What a publication should do: send the frame once to each online client that is subscribed to
the topic, append it once to the queue of each offline client whose subscription to the topic has
the flag, and nothing else. -/
def ExactDelivery (data topic : List Byte) (bytes : ℤ) (s : ServerState) (evs : List (Event Sys))
    (o : Except Halt (LinkedList ClientStructure)) : Prop :=
  ∃ list, o = .ok list ∧
    (∀ x ∈ dataSends evs, ∃ n ∈ s.clientsContainer.nodes,
      n.2.online = true ∧ x = (n.2.sock, data.take bytes.toNat)) ∧
    ∀ n ∈ s.clientsContainer.nodes,
      (dataSends evs).count (n.2.sock, data.take bytes.toNat) =
        (if n.2.online = true ∧ ∃ t ∈ n.2.subscribedTopics.toList, SameTopic topic t
          then 1 else 0) ∧
      ∃ c, (n.1, c) ∈ list.nodes ∧ c.queue.toList = n.2.queue.toList ++
        if n.2.online = false ∧ ∃ t ∈ n.2.subscribedTopics.toList, SameTopic topic t ∧ t.sf ≠ 0
          then [⟨data.take bytes.toNat, bytes⟩] else []

/-- The subscriptions of a client do not mislead the comparison: online, it has the topic if it has
one that begins alike; offline, the first that begins alike has the flag exactly when one with the
topic has it. -/
def ExactFor (topic : List Byte) (c : ClientStructure) : Prop :=
  (c.online = true → (∃ t ∈ c.subscribedTopics.toList, BeginsAlike topic t) →
    ∃ t ∈ c.subscribedTopics.toList, SameTopic topic t) ∧
  (c.online = false →
    ((c.subscribedTopics.toList.find? (BeginsAlike topic ·)).any (·.sf ≠ 0) = true ↔
      ∃ t ∈ c.subscribedTopics.toList, SameTopic topic t ∧ t.sf ≠ 0))

instance (topic : List Byte) : DecidablePred (ExactFor topic) := fun c => by
  unfold ExactFor
  infer_instance

section Exact

variable {data topic : List Byte} {bytes : ℤ} {evs : List (Event Sys)} {c : ClientStructure}

theorem deliveredTo_iff (h0 : 0 ∉ topic) (hne : topic ≠ []) :
    deliveredTo topic c = true ↔
      c.online = true ∧ ∃ t ∈ c.subscribedTopics.toList, BeginsAlike topic t := by
  unfold deliveredTo
  rw [firstAccepted_eq h0 hne, Bool.and_eq_true, List.find?_isSome]
  simp only [decide_eq_true_eq]

theorem queuedFor_iff (h0 : 0 ∉ topic) (hne : topic ≠ []) :
    queuedFor topic c = true ↔ c.online = false ∧
      (c.subscribedTopics.toList.find? (BeginsAlike topic ·)).any (·.sf ≠ 0) = true := by
  unfold queuedFor
  rw [firstAccepted_eq h0 hne, Bool.and_eq_true, Bool.not_eq_true']

/-- A client is exact when the frame goes where it should. -/
theorem exactFor_iff (h0 : 0 ∉ topic) (hne : topic ≠ []) :
    ExactFor topic c ↔
      (deliveredTo topic c = true ↔
        c.online = true ∧ ∃ t ∈ c.subscribedTopics.toList, SameTopic topic t) ∧
      (queuedFor topic c = true ↔
        c.online = false ∧ ∃ t ∈ c.subscribedTopics.toList, SameTopic topic t ∧ t.sf ≠ 0) := by
  have halike : (∃ t ∈ c.subscribedTopics.toList, SameTopic topic t) →
      ∃ t ∈ c.subscribedTopics.toList, BeginsAlike topic t := fun ⟨t, ht, hs⟩ =>
    ⟨t, ht, hs.beginsAlike⟩
  rw [deliveredTo_iff h0 hne, queuedFor_iff h0 hne]
  unfold ExactFor
  cases c.online with
  | true =>
    simp only [true_and, Bool.true_eq_false, false_and]
    exact ⟨fun h => ⟨⟨h.1 trivial, halike⟩, trivial⟩, fun h => ⟨fun _ => h.1.mp, False.elim⟩⟩
  | false =>
    simp only [Bool.false_eq_true, false_and, true_and]
    exact ⟨fun h => h.2 trivial, fun h => ⟨False.elim, fun _ => h⟩⟩

/-- The frames sent to the clients, when the online ones stand on different descriptors. -/
theorem count_sends {ns ns' : List (Addr × ClientStructure)}
    (hnd : (onlineSocks (ns.map Prod.snd)).Nodup)
    (hflag : ∀ n ∈ ns, n.2.online = true ↔ n.2.sock ≠ -1)
    (hr : RelayedAll data topic bytes ns evs ns') {n : Addr × ClientStructure} (hn : n ∈ ns) :
    (dataSends evs).count (n.2.sock, data.take bytes.toNat) =
      if deliveredTo topic n.2 then 1 else 0 := by
  have hsub : ((ns.filter fun n => deliveredTo topic n.2).map fun n => n.2.sock).Sublist
      (onlineSocks (ns.map Prod.snd)) := by
    unfold onlineSocks
    rw [List.filter_map, List.map_map]
    refine List.Sublist.map _ (List.monotone_filter_right _ fun m hm => ?_)
    unfold deliveredTo at hm
    rw [Bool.and_eq_true] at hm
    exact hm.1
  have hnodup : (dataSends evs).Nodup := by
    rw [hr.sends]
    refine List.Nodup.of_map Prod.fst ?_
    rw [List.map_map]
    exact hnd.sublist hsub
  rw [hnodup.count, hr.sends]
  by_cases hdel : deliveredTo topic n.2 = true
  · rw [if_pos hdel, if_pos]
    exact List.mem_map.mpr ⟨n, List.mem_filter.mpr ⟨hn, hdel⟩, rfl⟩
  · rw [if_neg hdel, if_neg]
    intro hmem
    obtain ⟨m, hm, he⟩ := List.mem_map.mp hmem
    rw [List.mem_filter] at hm
    obtain ⟨hm, hmdel⟩ := hm
    have hsock : m.2.sock = n.2.sock := congrArg Prod.fst he
    have hmon : m.2.online = true := by
      unfold deliveredTo at hmdel
      rw [Bool.and_eq_true] at hmdel
      exact hmdel.1
    have hnon : n.2.online = true := by
      rw [hflag n hn, ← hsock]
      exact (hflag m hm).mp hmon
    -- two online entries on one descriptor are the same
    have heq : m.2 = n.2 := by
      unfold onlineSocks at hnd
      have hm' : m.2 ∈ (ns.map Prod.snd).filter (·.online) :=
        List.mem_filter.mpr ⟨List.mem_map_of_mem hm, hmon⟩
      have hn' : n.2 ∈ (ns.map Prod.snd).filter (·.online) :=
        List.mem_filter.mpr ⟨List.mem_map_of_mem hn, hnon⟩
      exact List.inj_on_of_nodup_map hnd hm' hn' hsock
    exact hdel (heq ▸ hmdel)

theorem LinkedList.Repr.node_unique {α : Type} {l : LinkedList α} {ns : List (Addr × α)} {a : Addr}
    {x y : α} (h : l.Repr ns) (hx : (a, x) ∈ ns) (hy : (a, y) ∈ ns) : x = y := by
  obtain ⟨nx, hx⟩ := (show Seg _ _ _ _ from h).live hx
  obtain ⟨ny, hy⟩ := (show Seg _ _ _ _ from h).live hy
  exact congrArg Node.data (Option.some.inj (hx.symm.trans hy))

theorem append_if_cancel {α : Type} {l : List α} {x : α} {p q : Prop} [Decidable p] [Decidable q] :
    (l ++ if p then [x] else []) = (l ++ if q then [x] else []) ↔ (p ↔ q) := by
  rw [List.append_right_inj]
  by_cases hp : p <;> by_cases hq : q <;> simp [hp, hq]

theorem indicator_inj {p q : Prop} [Decidable p] [Decidable q] :
    ((if p then 1 else 0 : ℕ) = if q then 1 else 0) ↔ (p ↔ q) := by
  by_cases hp : p <;> by_cases hq : q <;> simp [hp, hq]

/-- A publication is delivered exactly as it should if and only if no client's subscriptions
mislead the comparison. -/
theorem exact_delivery_iff {k : Sockets} {g : Kernel} {p : Point ServerState}
    {hs : List (Handled Sys ServerState)} {o : Except Halt (LinkedList ClientStructure)}
    (h : ServerRun k g p hs) (h0 : 0 ∉ topic) (hne : topic ≠ [])
    (he : (sendData data topic p.state.clientsContainer bytes).Exec evs o)
    (hack : ∀ e ∈ evs, acked e.call e.answer = true) :
    ExactDelivery data topic bytes p.state evs o ↔
      ∀ c ∈ p.state.clientsContainer.toList, ExactFor topic c := by
  have hl := h.lists
  obtain ⟨_, hreg⟩ := h.registry
  have hsocks := hreg.socks
  have hflag' : ∀ n ∈ p.state.clientsContainer.nodes, n.2.online = true ↔ n.2.sock ≠ -1 :=
    fun n hn => hreg.flag n.2 (List.mem_map_of_mem hn)
  obtain ⟨list, rfl, hw, hr⟩ := sendData_acked hl.registry hl.clients h0 hne he hack
  have hcount := fun n hn => count_sends hsocks hflag' hr (n := n) hn
  have hexact : (∀ c ∈ p.state.clientsContainer.toList, ExactFor topic c) ↔
      ∀ n ∈ p.state.clientsContainer.nodes, ExactFor topic n.2 := by
    unfold LinkedList.toList
    rw [List.forall_mem_map]
  rw [hexact]
  constructor
  · rintro ⟨list', ho, -, hall⟩ n hn
    cases ho
    obtain ⟨hsent, c', hc', hq⟩ := hall n hn
    obtain ⟨c'', es, hc'', hrel⟩ := hr.target hn
    obtain rfl := hw.repr.node_unique hc' hc''
    obtain ⟨queue, rfl, -, hqueue⟩ := hrel.queue (hl.clients n hn).queue
    rw [hcount n hn] at hsent
    rw [exactFor_iff h0 hne, ← indicator_inj, hsent, ← append_if_cancel, ← hqueue, ← hq]
    exact ⟨rfl, rfl⟩
  · intro hall
    refine ⟨list, rfl, ?_, fun n hn => ?_⟩
    · intro x hx
      rw [hr.sends] at hx
      obtain ⟨n, hn, rfl⟩ := List.mem_map.mp hx
      rw [List.mem_filter] at hn
      exact ⟨n, hn.1, ((deliveredTo_iff h0 hne).mp hn.2).1, rfl⟩
    · obtain ⟨hdel, hque⟩ := (exactFor_iff h0 hne).mp (hall n hn)
      obtain ⟨c', es, hc', hrel⟩ := hr.target hn
      obtain ⟨queue, rfl, -, hqueue⟩ := hrel.queue (hl.clients n hn).queue
      refine ⟨?_, _, hc', ?_⟩
      · rw [hcount n hn, indicator_inj]
        exact hdel
      · rw [show ({ n.2 with queue := queue } : ClientStructure).queue = queue from rfl, hqueue,
          append_if_cancel]
        exact hque

end Exact

/-! ## A client that is subscribed to another topic -/

/-- The calls of a publication that is acknowledged by all, and their outcome. -/
def relayAcked (data topic : List Byte) (s : ServerState) :
    List (Event Sys) × Except Halt (LinkedList ClientStructure) :=
  (sendData data topic s.clientsContainer data.length).play (fun _ => scripted 0 [] [4]) 0

theorem relayAcked_exec (data topic : List Byte) (s : ServerState) :
    (sendData data topic s.clientsContainer data.length).Exec (relayAcked data topic s).1
      (relayAcked data topic s).2 :=
  Program.exec_play _ _ _

/-- A client that subscribed to the topic `ab`. -/
def subscribedScript : List (ℤ × ((c : Call) → Answer c)) :=
  [(3, scripted 5 [] (idMessage [65])), (5, scripted 0 [] (commandMessage 0 1 [97, 98]))]

theorem exact_delivery_iff_subscribed :
    ∃ g s hs, ServerRun sockets g (.select s) hs ∧
      ExactDelivery [7, 7] [97, 98] 2 s (relayAcked [7, 7] [97, 98] s).1
        (relayAcked [7, 7] [97, 98] s).2 := by
  obtain ⟨g, s, hs, hrun, hcheck⟩ := serveScript_check subscribedScript
    (fun x => ((relayAcked [7, 7] [97, 98] x.2).1.all fun e => acked e.call e.answer) &&
      x.2.clientsContainer.toList.all fun c => ExactFor [97, 98] c) (by decide +kernel)
  rw [Bool.and_eq_true, List.all_eq_true, List.all_eq_true] at hcheck
  refine ⟨g, s, hs, hrun, ?_⟩
  exact (exact_delivery_iff hrun (by decide) (by decide) (relayAcked_exec _ _ _) hcheck.1).mpr
    fun c hc => of_decide_eq_true (hcheck.2 c hc)

/-- A publication on `ac` is sent to the client, although all frames are acknowledged. -/
theorem exact_delivery_fails :
    ∃ g s hs, ServerRun sockets g (.select s) hs ∧
      (∀ e ∈ (relayAcked [7, 7] [97, 99] s).1, acked e.call e.answer = true) ∧
      ¬ ExactDelivery [7, 7] [97, 99] 2 s (relayAcked [7, 7] [97, 99] s).1
        (relayAcked [7, 7] [97, 99] s).2 := by
  obtain ⟨g, s, hs, hrun, hcheck⟩ := serveScript_check subscribedScript
    (fun x => ((relayAcked [7, 7] [97, 99] x.2).1.all fun e => acked e.call e.answer) &&
      !(dataSends (relayAcked [7, 7] [97, 99] x.2).1).isEmpty &&
      x.2.clientsContainer.toList.all fun c =>
        c.subscribedTopics.toList.all fun t => !decide (SameTopic [97, 99] t)) (by decide +kernel)
  simp only [Bool.and_eq_true, List.all_eq_true, Bool.not_eq_true', List.isEmpty_eq_false_iff,
    decide_eq_false_iff_not] at hcheck
  obtain ⟨⟨hack, hsent⟩, hother⟩ := hcheck
  refine ⟨g, s, hs, hrun, hack, ?_⟩
  rintro ⟨list, -, hsends, hall⟩
  obtain ⟨x, hx⟩ := List.exists_mem_of_ne_nil _ hsent
  obtain ⟨n, hn, -, rfl⟩ := hsends x hx
  have hcount := (hall n hn).1
  rw [if_neg] at hcount
  · exact List.count_eq_zero.mp hcount hx
  · rintro ⟨-, t, ht, hsame⟩
    exact hother n.2 (List.mem_map_of_mem hn) t ht hsame

end TopicServer
