import TopicServer.Broker
import TopicServer.Comparison
import TopicServer.FrameBounds

/-!
# The broker of exact topics

The broker that the server should be keeps a map from topics to flags for each client, and gives it
the publications on the topics in the map (`topicPolicy`). The comparisons of the server leave out
the last byte of a topic and take longer ones for it. Where no topic of a run begins like another
one without its last byte (`Apart`), they decide equality, and the server is that broker
(`server_refines_topics`).
-/

namespace TopicServer

open Interactive Linked Memory PubSub Entries

/-! ## The broker -/

/-- The subscriptions of a client are a map from topics to flags. -/
def topicPolicy : Policy (List Byte → Option Byte) ClientToServerHdr (List Byte) where
  init _ := none
  exec hdr m := execTopic m hdr
  wanted topic m := (m (topicField topic)).isSome
  kept topic m := (m (topicField topic)).any (· ≠ 0)

/-- The topic that an operation names. -/
def topicOf : BrokerOp → Option (List Byte)
  | .connect _ => none
  | .leave _ => none
  | .command _ hdr => some hdr.topic.str
  | .publish topic _ => some (topicField topic)

/-- No topic that is named is empty, or is taken for another one. -/
def Apart (ops : List BrokerOp) : Prop :=
  ∀ t ∈ ops.filterMap topicOf, t ≠ [] ∧ ∀ u ∈ ops.filterMap topicOf, t.dropLast <+: u → u = t

instance : DecidablePred Apart := fun ops => inferInstanceAs (Decidable
  (∀ t ∈ ops.filterMap topicOf,
    t ≠ [] ∧ ∀ u ∈ ops.filterMap topicOf, t.dropLast <+: u → u = t))

/-- The entries of a client are the graph of the map, and their topics are among those named. -/
structure Mapped (ops : List BrokerOp) (ts : List TopicStructure) (m : List Byte → Option Byte) :
    Prop where
  graph : Represents (fun t : TopicStructure => t.topic.str) TopicStructure.sf ts m
  keys : (ts.map fun t => t.topic.str).Nodup
  named : ∀ t ∈ ts, t.topic.str ∈ ops.filterMap topicOf

section Entries

variable {ops : List BrokerOp} {id : List Byte} {hdr : ClientToServerHdr} {topic frame : List Byte}
  {ts xs ys : List TopicStructure} {t : TopicStructure} {m : List Byte → Option Byte}

theorem Apart.matches_iff (h : Apart ops) (hop : .command id hdr ∈ ops)
    (ht : t.topic.str ∈ ops.filterMap topicOf) :
    SubscribeMatches hdr.topic.str t.topic.str ↔ t.topic.str = hdr.topic.str := by
  have hmem : hdr.topic.str ∈ ops.filterMap topicOf := List.mem_filterMap.mpr ⟨_, hop, rfl⟩
  obtain ⟨hne, hall⟩ := h _ hmem
  constructor
  · intro hm
    unfold SubscribeMatches at hm
    rw [if_neg hne] at hm
    exact hall _ ht hm
  · intro he
    rw [he]
    exact subscribeMatches_self _

theorem Apart.accepts_iff (h : Apart ops) (hop : .publish topic frame ∈ ops) (h0 : 0 ∉ topic)
    (ht : t.topic.str ∈ ops.filterMap topicOf) :
    accepts topic t = decide (t.topic.str = topicField topic) := by
  have hmem : topicField topic ∈ ops.filterMap topicOf := List.mem_filterMap.mpr ⟨_, hop, rfl⟩
  obtain ⟨hne, hall⟩ := h _ hmem
  have hne' : topic ≠ [] := by
    rintro rfl
    exact hne rfl
  rw [accepts_eq h0 hne', decide_eq_decide]
  exact ⟨hall _ ht, SameTopic.beginsAlike⟩

/-- The topics of the other entries differ. -/
theorem ne_of_keys (h : ((xs ++ t :: ys).map fun t => t.topic.str).Nodup) :
    ∀ u ∈ xs ++ ys, u.topic.str ≠ t.topic.str := by
  rw [List.map_append, List.map_cons, List.nodup_middle, List.nodup_cons, ← List.map_append] at h
  intro u hu he
  exact h.1 (List.mem_map.mpr ⟨u, hu, he⟩)

/-- The first entry with a property, and those before it. -/
theorem split_first {p : TopicStructure → Prop} [DecidablePred p] (ts : List TopicStructure) :
    (∀ t ∈ ts, ¬ p t) ∨ ∃ xs t ys, ts = xs ++ t :: ys ∧ (∀ u ∈ xs, ¬ p u) ∧ p t := by
  cases hfind : ts.find? (p ·) with
  | none => exact Or.inl (by simpa using hfind)
  | some t =>
    obtain ⟨ht, xs, ys, hsplit, hxs⟩ := List.find?_eq_some_iff_append.mp hfind
    exact Or.inr ⟨xs, t, ys, hsplit, by simpa using hxs, by simpa using ht⟩

/-- A subscribe command does to the entries what it does to the map. -/
theorem Mapped.subscribe (h : Mapped ops ts m) (ha : Apart ops) (hop : .command id hdr ∈ ops) :
    Mapped ops (subscribeEntries hdr ts) (Function.update m hdr.topic.str (some hdr.sf)) := by
  have hmem : hdr.topic.str ∈ ops.filterMap topicOf := List.mem_filterMap.mpr ⟨_, hop, rfl⟩
  rcases split_first (p := fun t => SubscribeMatches hdr.topic.str t.topic.str) ts with
    hall | ⟨xs, t, ys, rfl, hxs, ht⟩
  · have hno : ∀ t ∈ ts, t.topic.str ≠ hdr.topic.str := fun t ht => not_matches_of_eq (hall t ht)
    rw [subscribeEntries_missing hall]
    refine ⟨h.graph.append (e := ⟨hdr.topic, hdr.sf⟩) hno, ?_, fun t ht => ?_⟩
    · rw [List.map_append, List.map_singleton, List.nodup_append]
      refine ⟨h.keys, List.nodup_singleton _, fun x hx y hy => ?_⟩
      obtain ⟨t, ht, rfl⟩ := List.mem_map.mp hx
      rw [List.mem_singleton.mp hy]
      exact hno t ht
    · rcases List.mem_append.mp ht with ht | ht
      · exact h.named t ht
      · rw [List.mem_singleton.mp ht]
        exact hmem
  · have heq := (ha.matches_iff hop (h.named t (by simp))).mp ht
    rw [subscribeEntries_found hxs ht, ← heq]
    refine ⟨h.graph.set rfl (ne_of_keys h.keys), ?_, fun u hu => ?_⟩
    · simpa using h.keys
    · rw [List.mem_append, List.mem_cons] at hu
      rcases hu with hu | rfl | hu
      · exact h.named u (by simp [hu])
      · exact h.named t (by simp)
      · exact h.named u (by simp [hu])

/-- So does an unsubscribe command. -/
theorem Mapped.unsubscribe (h : Mapped ops ts m) :
    Mapped ops (unsubscribeEntries hdr ts) (Function.update m hdr.topic.str none) := by
  unfold unsubscribeEntries
  rcases split_first (p := fun t => t.topic.str = hdr.topic.str) ts with
    hall | ⟨xs, t, ys, rfl, hxs, ht⟩
  · rw [List.eraseP_of_forall_not (by simpa using hall)]
    exact ⟨h.graph.remove_absent hall, h.keys, h.named⟩
  · rw [List.eraseP_append_right _ (by simpa using hxs),
      List.eraseP_cons_of_pos (by simpa using ht), ← ht]
    have hsub : (xs ++ ys).Sublist (xs ++ t :: ys) :=
      (List.sublist_cons_self _ _).append_left _
    exact ⟨h.graph.remove (ne_of_keys h.keys), h.keys.sublist (hsub.map _),
      fun u hu => h.named u (hsub.subset hu)⟩

/-- The first entry that a publication accepts is the one of its topic in the map. -/
theorem Mapped.find_eq (h : Mapped ops ts m) (ha : Apart ops) (hop : .publish topic frame ∈ ops)
    (h0 : 0 ∉ topic) : (ts.find? (accepts topic)).map TopicStructure.sf = m (topicField topic) := by
  cases hfind : ts.find? (accepts topic) with
  | none =>
    rw [List.find?_eq_none] at hfind
    rw [Option.map_none, eq_comm, ← Option.not_isSome_iff_eq_none, h.graph.isSome_iff]
    rintro ⟨t, ht, htopic⟩
    apply hfind t ht
    rw [ha.accepts_iff hop h0 (h.named t ht)]
    exact decide_eq_true htopic
  | some t =>
    have ht := List.mem_of_find?_eq_some hfind
    have hacc := List.find?_some hfind
    rw [ha.accepts_iff hop h0 (h.named t ht), decide_eq_true_iff] at hacc
    exact ((h.graph _ _).mp ⟨t, ht, hacc, rfl⟩).symm

end Entries

/-! ## The server -/

section Runs

variable {k : Sockets} {g : Kernel} {p : Point ServerState} {hs : List (Handled Sys ServerState)}
  {id topic frame : List Byte} {evs : List (Event Sys)} {op : BrokerOp}

/-- The topic of a publication is a string. -/
theorem brokerOp_publish (h : brokerOp g evs = some (.publish topic frame)) : 0 ∉ topic := by
  unfold brokerOp at h
  split at h
  · cases h
  · split_ifs at h with h0 h3
    · cases h
    · cases h
  · obtain ⟨⟨msg, buf⟩, hpub, hop⟩ := Option.map_eq_some_iff.mp h
    obtain ⟨e, -, d, bytes, slack, padding, -, hpub⟩ := publicationOf_datagram hpub
    cases hop
    rw [publication_topic hpub]
    exact zero_not_mem_cstr _

theorem brokerOps_publish {evss : List (List (Event Sys))}
    (h : .publish topic frame ∈ brokerOps g evss) : 0 ∉ topic := by
  induction evss generalizing g with
  | nil => cases h
  | cons evs evss ih =>
    rcases List.mem_append.mp h with h | h
    · exact brokerOp_publish (Option.mem_toList.mp h)
    · exact ih h

/-- Where no topic is taken for another one, the server is the broker of exact topics: the entries
of a client are the graph of its map, its queue is the one of the broker, and it was sent the same
frames in the same order. -/
theorem server_refines_topics (hrun : ServerRun k g p hs) (ha : Apart (operations k hs))
    (id : List Byte) :
    Policy.Related (Represents (fun t : TopicStructure => t.topic.str) TopicStructure.sf)
      (p.state.session id) (topicPolicy.run id (operations k hs)).1 ∧
    hs.flatMap (sentTo id) = (topicPolicy.run id (operations k hs)).2 := by
  have hserver := hrun.broker id
  have hsim : Policy.Related (Mapped (operations k hs)) (serverPolicy.run id (operations k hs)).1
      (topicPolicy.run id (operations k hs)).1 ∧
      (serverPolicy.run id (operations k hs)).2 = (topicPolicy.run id (operations k hs)).2 := by
    refine Policy.run_simulates ⟨represents_nil, List.nodup_nil, fun t ht => by cases ht⟩ ?_ ?_
    · intro id' hdr ts m hop hm
      show Mapped _ (if hdr.type = 0 then _ else _) (execTopic m hdr)
      unfold execTopic
      split_ifs with h0
      · exact hm.subscribe ha hop
      · exact hm.unsubscribe
    · intro topic frame ts m hop hm
      have hfind := hm.find_eq ha hop (brokerOps_publish hop)
      show (ts.find? (accepts topic)).isSome = (m (topicField topic)).isSome ∧
        (ts.find? (accepts topic)).any (·.sf ≠ 0) = (m (topicField topic)).any (· ≠ 0)
      rw [← hfind, Option.isSome_map, Option.any_map]
      exact ⟨rfl, rfl⟩
  rw [← hserver] at hsim
  exact ⟨hsim.1.mono fun ts m hm => hm.graph, hsim.2⟩

end Runs

/-- A client subscribes to two topics, and both are published. -/
def topicsScript : List (ℤ × ((c : Call) → Answer c)) :=
  [(3, returning 5 [65]), (5, scripted 0 [] (commandMessage 0 1 [97, 98])),
    (5, scripted 0 [] (commandMessage 0 0 [99, 100])),
    (4, scripted 0 (99 :: 100 :: List.replicate 48 0 ++ [3, 120]) [4]),
    (5, scripted 0 [] (commandMessage 3 0 [])),
    (4, scripted 0 (97 :: 98 :: List.replicate 48 0 ++ [3, 121]) []), (3, returning 5 [65])]

theorem server_refines_topics_two :
    ∃ g s hs, ServerRun sockets g (.select s) hs ∧ (operations sockets hs).length = 7 ∧
      hs.flatMap (sentTo [65]) = (topicPolicy.run [65] (operations sockets hs)).2 := by
  obtain ⟨g, s, hs, hrun, htrace⟩ := serveScript_trace topicsScript (by decide +kernel)
  have hops : (operations sockets hs).length = 7 ∧ Apart (operations sockets hs) := by
    unfold operations
    rw [htrace]
    decide +kernel
  exact ⟨g, s, hs, hrun, hops.1, (server_refines_topics hrun hops.2 [65]).2⟩

end TopicServer
