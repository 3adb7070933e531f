import TopicServer.Delivery

/-!
# The length of a comparison

`send_data` compares one byte less than the topic has, as an unsigned size. The length is cut from
above only: for an empty topic it wraps to the largest size, and the first subscription that is
looked at is compared beyond its field (`comparison_inside_iff`).
-/

namespace TopicServer

open Interactive Linked Memory

/-- The number of bytes that `send_data` passes to `memcmp`. -/
def compareLength (topic : List Byte) : ℕ :=
  sizeT ((if stringLen < topic.length then (stringLen : ℤ) else topic.length) - 1)

/-- The walk of `send_data` passes a client: the comparison with its subscriptions comes to an
end. -/
def Passed (topic : List Byte) (c : ClientStructure) : Prop :=
  ∃ r, c.subscribedTopics.find (topicAccepted topic) = .ok r

/-- A subscription that `send_data` looks at: it passes the clients before, and the subscriptions
before it are not accepted. -/
def Examined (s : ServerState) (topic : List Byte) (t : TopicStructure) : Prop :=
  ∃ xs c ys us vs, s.clientsContainer.toList = xs ++ c :: ys ∧ (∀ d ∈ xs, Passed topic d) ∧
    c.subscribedTopics.toList = us ++ t :: vs ∧ ∀ u ∈ us, topicAccepted topic u = .ok false

/-- The length lies inside the topic of the subscription and the block of the published one, and
the comparison has a result. -/
def ComparedInside (topic : List Byte) (t : TopicStructure) : Prop :=
  compareLength topic ≤ stringLen ∧ compareLength topic ≤ (topic ++ [0]).length ∧
    ∃ b, topicAccepted topic t = .ok b

section Comparison

variable {s : ServerState} {datagram topic : List Byte} {t : TopicStructure}

theorem compareLength_nil : compareLength [] = 2 ^ 64 - 1 := sizeT_neg_one

theorem compareLength_le (hne : topic ≠ []) :
    compareLength topic ≤ stringLen ∧ compareLength topic ≤ (topic ++ [0]).length := by
  have hpos : 0 < topic.length := List.length_pos_of_ne_nil hne
  have h50 : stringLen = 50 := rfl
  rw [List.length_append]
  unfold compareLength
  split_ifs with hlt
  · rw [sizeT_of_nonneg (by omega) (by omega)]
    omega
  · rw [sizeT_of_nonneg (by omega) (by omega)]
    omega

theorem comparedInside_of_ne (h0 : 0 ∉ topic) (hne : topic ≠ []) (t : TopicStructure) :
    ComparedInside topic t :=
  ⟨(compareLength_le hne).1, (compareLength_le hne).2, _, topicAccepted_eq h0 hne t⟩

theorem not_comparedInside_nil : ¬ ComparedInside [] t := by
  rintro ⟨hle, -⟩
  rw [compareLength_nil] at hle
  exact absurd hle (by decide)

/-- The first client with subscriptions has its first one looked at. -/
theorem exists_examined (hl : s.Lists) {c : ClientStructure}
    (hc : c ∈ s.clientsContainer.toList) (hsub : c.subscribedTopics.toList ≠ []) :
    ∃ t, Examined s topic t := by
  obtain ⟨d, hfind⟩ : ∃ d, s.clientsContainer.toList.find?
      (fun c => !c.subscribedTopics.toList.isEmpty) = some d := by
    rw [← Option.isSome_iff_exists, List.find?_isSome]
    exact ⟨c, hc, by simpa using hsub⟩
  rw [List.find?_eq_some_iff_append, Bool.not_eq_true', List.isEmpty_eq_false_iff] at hfind
  obtain ⟨hd, xs, ys, hsplit, hxs⟩ := hfind
  obtain ⟨t, ts, hts⟩ := List.exists_cons_of_ne_nil hd
  refine ⟨t, xs, d, ys, [], ts, hsplit, fun e he => ?_, hts, by simp⟩
  have hmem : e ∈ s.clientsContainer.toList := by
    rw [hsplit]
    exact List.mem_append_left _ he
  obtain ⟨n, hn, rfl⟩ := List.mem_map.mp hmem
  have hnil : n.2.subscribedTopics.nodes = [] := by simpa [LinkedList.toList] using hxs n.2 he
  refine ⟨none, ?_⟩
  rw [LinkedList.find_eq (hl.clients n hn).topics.repr, hnil]
  rfl

/-- Where every subscription that is looked at is compared inside its memory, every client is
passed. -/
theorem passed_of_inside (hl : s.Lists) (h : ∀ t, Examined s topic t → ComparedInside topic t) :
    ∀ c ∈ s.clientsContainer.toList, Passed topic c := by
  suffices hpre : ∀ xs ys, s.clientsContainer.toList = xs ++ ys → ∀ c ∈ xs, Passed topic c from
    hpre _ [] (List.append_nil _).symm
  intro xs
  induction xs using List.reverseRecOn with
  | nil => exact fun _ _ c hc => absurd hc List.not_mem_nil
  | append_singleton xs c ih =>
    intro ys hsplit d hd
    rw [List.append_assoc] at hsplit
    have hxs := ih _ hsplit
    rcases List.mem_append.mp hd with hd | hd
    · exact hxs d hd
    · obtain rfl := List.mem_singleton.mp hd
      have hmem : d ∈ s.clientsContainer.toList := by
        rw [hsplit]
        simp
      obtain ⟨n, hn, rfl⟩ := List.mem_map.mp hmem
      cases hr : n.2.subscribedTopics.find (topicAccepted topic) with
      | ok r => exact ⟨r, hr⟩
      | error e =>
        obtain ⟨us, m, vs, hm, hus, he⟩ :=
          LinkedList.find_error (hl.clients n hn).topics.repr hr
        have hex : Examined s topic m.2 := ⟨xs, n.2, ys, us.map Prod.snd, vs.map Prod.snd, hsplit,
          hxs, LinkedList.toList_of_nodes hm, by rwa [List.forall_mem_map]⟩
        obtain ⟨-, -, b, hb⟩ := h _ hex
        rw [hb] at he
        cases he

theorem buildMsg_topic {buf : List Byte} {msg₀ msg : Message} {n : ℤ}
    (h : buildMsg buf msg₀ n = .ok msg) : msg.topic = cstr buf := by
  unfold buildMsg at h
  simp only at h
  split_ifs at h <;> cases h <;> rfl

theorem publication_topic {fromUdpStation : SockAddrIn} {bytes : CharArray 4}
    {slack : CharArray stringLen} {padding : CharArray 3} {msg : Message} {buf : List Byte}
    (h : publication datagram fromUdpStation bytes slack padding = .ok (msg, buf)) :
    msg.topic = cstr (pad maxLenBuf datagram) := by
  obtain ⟨m, hm, hbuf⟩ := bind_ok_iff.mp h
  obtain ⟨b, -, heq⟩ := bind_ok_iff.mp hbuf
  cases heq
  exact buildMsg_topic hm

/-- The topic is empty when the datagram begins with NUL, or not at all. -/
theorem topic_eq_nil_iff : cstr (pad maxLenBuf datagram) = [] ↔ datagram.getD 0 0 = 0 := by
  cases datagram with
  | nil => exact iff_of_true (cstr_zero_cons _) rfl
  | cons b datagram =>
    show cstr (b :: _) = [] ↔ b = 0
    by_cases hb : b = 0
    · rw [hb, cstr_zero_cons]
      simp
    · rw [cstr_cons hb]
      simp [hb]

end Comparison

section Runs

variable {k : Sockets} {g : Kernel} {p : Point ServerState} {hs : List (Handled Sys ServerState)}
  {datagram : List Byte} {fromUdpStation : SockAddrIn} {bytes : CharArray 4}
  {slack : CharArray stringLen} {padding : CharArray 3} {msg : Message} {buf : List Byte}

/-- The comparisons of a publication stay inside their memory exactly when its topic field does not
begin with NUL or nobody has a subscription; then the walk passes every client. -/
theorem comparison_inside_iff (hrun : ServerRun k g p hs)
    (hpub : publication datagram fromUdpStation bytes slack padding = .ok (msg, buf)) :
    ((∀ t, Examined p.state msg.topic t → ComparedInside msg.topic t) ↔
      datagram.getD 0 0 ≠ 0 ∨
        ∀ c ∈ p.state.clientsContainer.toList, c.subscribedTopics.toList = []) ∧
    ((∀ t, Examined p.state msg.topic t → ComparedInside msg.topic t) →
      ∀ c ∈ p.state.clientsContainer.toList, Passed msg.topic c) := by
  refine ⟨?_, passed_of_inside hrun.lists⟩
  rw [publication_topic hpub, ← topic_eq_nil_iff.ne]
  constructor
  · intro h
    by_contra hno
    push Not at hno
    obtain ⟨hnil, c, hc, hsub⟩ := hno
    rw [hnil] at h
    obtain ⟨t, ht⟩ := exists_examined hrun.lists hc hsub
    exact not_comparedInside_nil (h t ht)
  · rintro (hne | hnone) t ht
    · exact comparedInside_of_ne (zero_not_mem_cstr _) hne t
    · obtain ⟨xs, c, ys, us, vs, hsplit, -, hts, -⟩ := ht
      have hnil := hnone c (by rw [hsplit]; simp)
      rw [hnil] at hts
      exact absurd hts (by simp)

end Runs

theorem comparison_inside_iff_subscribed : ∃ g s hs msg buf, ServerRun sockets g (.select s) hs ∧
    publication [97, 98] ⟨0, 0⟩ (.ofList 4 []) (.ofList stringLen []) (.ofList 3 []) =
      .ok (msg, buf) ∧ (∃ t, Examined s msg.topic t) ∧
    ∀ t, Examined s msg.topic t → ComparedInside msg.topic t := by
  obtain ⟨g, s, hs, hrun, hcheck⟩ := serveScript_check subscribedScript
    (fun x => x.2.clientsContainer.toList.any fun c => !c.subscribedTopics.toList.isEmpty)
    (by decide +kernel)
  rw [List.any_eq_true] at hcheck
  obtain ⟨c, hc, hsub⟩ := hcheck
  rw [Bool.not_eq_true', List.isEmpty_eq_false_iff] at hsub
  obtain ⟨⟨msg, buf⟩, hpub⟩ : ∃ r, publication [97, 98] ⟨0, 0⟩ (.ofList 4 []) (.ofList stringLen [])
      (.ofList 3 []) = .ok r := ⟨_, rfl⟩
  exact ⟨g, s, hs, msg, buf, hrun, hpub, exists_examined hrun.lists hc hsub,
    (comparison_inside_iff hrun hpub).1.mpr (Or.inl (by decide))⟩

/-- A datagram of one NUL is compared with a subscription over `2 ^ 64 - 1` bytes. -/
theorem comparison_inside_fails : ∃ g s hs msg buf t, ServerRun sockets g (.select s) hs ∧
    publication [0] ⟨0, 0⟩ (.ofList 4 []) (.ofList stringLen []) (.ofList 3 []) = .ok (msg, buf) ∧
    Examined s msg.topic t ∧ compareLength msg.topic = 2 ^ 64 - 1 ∧
    ¬ ComparedInside msg.topic t := by
  obtain ⟨g, s, hs, hrun, hcheck⟩ := serveScript_check subscribedScript
    (fun x => x.2.clientsContainer.toList.any fun c => !c.subscribedTopics.toList.isEmpty)
    (by decide +kernel)
  rw [List.any_eq_true] at hcheck
  obtain ⟨c, hc, hsub⟩ := hcheck
  rw [Bool.not_eq_true', List.isEmpty_eq_false_iff] at hsub
  obtain ⟨⟨msg, buf⟩, hpub⟩ : ∃ r, publication [0] ⟨0, 0⟩ (.ofList 4 []) (.ofList stringLen [])
      (.ofList 3 []) = .ok r := ⟨_, rfl⟩
  obtain ⟨t, ht⟩ : ∃ t, Examined s msg.topic t := exists_examined hrun.lists hc hsub
  have htopic : msg.topic = [] := by
    rw [publication_topic hpub, topic_eq_nil_iff]
    rfl
  rw [htopic] at ht
  refine ⟨g, s, hs, msg, buf, t, hrun, hpub, ?_, ?_, ?_⟩
  · rw [htopic]
    exact ht
  · rw [htopic, compareLength_nil]
  · rw [htopic]
    exact not_comparedInside_nil

end TopicServer
