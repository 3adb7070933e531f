import TopicServer.Server

/-!
# The lists of the server

What the lookups and the two branches of a command do to well-formed lists, in terms of the nodes
from the head. `ServerState.Lists` is the part of the representation invariant that every run of
the server keeps: the registry and the queues are well formed, the subscriptions can be walked.
-/

namespace TopicServer

open Interactive Linked Memory

namespace LinkedList

variable {α : Type} {l : LinkedList α} {ns : List (Addr × α)} {a : Addr} {x : α}

theorem Repr.deref_mem (h : l.Repr ns) (hm : (a, x) ∈ ns) :
    ∃ nx, deref l.heap (some a) = .ok (a, ⟨x, nx⟩) := by
  obtain ⟨nx, hn⟩ := (show Seg _ _ _ _ from h).live hm
  exact ⟨nx, by rw [deref, hn]⟩

end LinkedList

/-! ## Looking up clients -/

section Lookup

variable {list : LinkedList ClientStructure}

theorem id_test_iff (c : ClientStructure) (id : CharArray idLen) :
    (strncmp c.id.bytes id.bytes idLen == 0) = true ↔ c.id.str = id.str := by
  rw [beq_iff_eq, strncmp_array _ _ le_rfl]

theorem id_test_false {c : ClientStructure} {id : CharArray idLen}
    (h : (strncmp c.id.bytes id.bytes idLen == 0) = false) : c.id.str ≠ id.str := fun he => by
  rw [(id_test_iff c id).mpr he] at h
  cases h

theorem getClientById_spec (h : list.WellFormed) (id : CharArray idLen) :
    (getClientById list id = .ok none ∧ ∀ n ∈ list.nodes, n.2.id.str ≠ id.str) ∨
    ∃ xs a c ys, list.nodes = xs ++ (a, c) :: ys ∧ c.id.str = id.str ∧
      getClientById list id = .ok (some a) := by
  unfold getClientById
  rcases LinkedList.find_pure (b := fun c => strncmp c.id.bytes id.bytes idLen == 0) h.repr with
    ⟨hf, hall⟩ | ⟨xs, ⟨a, c⟩, ys, hn, -, hc, hf⟩
  · exact Or.inl ⟨by rw [hf]; rfl, fun n hn => id_test_false (hall n hn)⟩
  · exact Or.inr ⟨xs, a, c, ys, hn, (id_test_iff c id).mp hc, by rw [hf]; rfl⟩

theorem getClientBySock_spec (h : list.WellFormed) (sock : ℤ) :
    (getClientBySock list sock = .ok none ∧ ∀ n ∈ list.nodes, n.2.sock ≠ sock) ∨
    ∃ xs a c ys, list.nodes = xs ++ (a, c) :: ys ∧ (∀ n ∈ xs, n.2.sock ≠ sock) ∧
      c.sock = sock ∧ getClientBySock list sock = .ok (some a) := by
  unfold getClientBySock
  rcases LinkedList.find_pure (b := fun c => c.sock == sock) h.repr with
    ⟨hf, hall⟩ | ⟨xs, ⟨a, c⟩, ys, hn, hxs, hc, hf⟩
  · exact Or.inl ⟨by rw [hf]; rfl, fun n hn => by simpa using hall n hn⟩
  · exact Or.inr ⟨xs, a, c, ys, hn, fun n hn => by simpa using hxs n hn, by simpa using hc,
      by rw [hf]; rfl⟩

theorem getClientBySock_eq {xs ys : List (Addr × ClientStructure)} {a : Addr} {c : ClientStructure}
    {sock : ℤ} (h : list.WellFormed) (hn : list.nodes = xs ++ (a, c) :: ys)
    (hxs : ∀ n ∈ xs, n.2.sock ≠ sock) (hc : c.sock = sock) :
    getClientBySock list sock = .ok (some a) := by
  unfold getClientBySock
  rw [LinkedList.find_first (hn ▸ h.repr) (fun n hn => by simpa using hxs n hn) (by simp [hc])]
  rfl

/-- `remove_by_id` unlinks the first client with the ID, and leaves the size as it was. -/
theorem removeById_spec (h : list.WellFormed) (id : CharArray idLen) :
    (removeById list id = .ok list ∧ ∀ n ∈ list.nodes, n.2.id.str ≠ id.str) ∨
    ∃ xs a c ys list', list.nodes = xs ++ (a, c) :: ys ∧ c.id.str = id.str ∧
      removeById list id = .ok list' ∧ list'.Walkable ∧ list'.nodes = xs ++ ys ∧
      list'.size = list.size := by
  unfold removeById
  rcases LinkedList.find_pure (b := fun c => strncmp c.id.bytes id.bytes idLen == 0) h.repr with
    ⟨hf, hall⟩ | ⟨xs, ⟨a, c⟩, ys, hn, -, hc, hf⟩
  · exact Or.inl ⟨by rw [hf]; rfl, fun n hn => id_test_false (hall n hn)⟩
  · obtain ⟨list', he, hw, hn', hs, -⟩ := h.walkable.unlink hn
    exact Or.inr ⟨xs, a, c, ys, list', hn, (id_test_iff c id).mp hc, by rw [hf]; exact he, hw,
      hn', hs⟩

end Lookup

/-! ## Subscribing and unsubscribing -/

/-- The comparison of `subscribe` with an entry, on the two strings: the topic without its last
byte is a prefix of the entry. -/
def SubscribeMatches (topic entry : List Byte) : Prop :=
  if topic = [] then entry = [] else topic.dropLast <+: entry

instance (topic entry : List Byte) : Decidable (SubscribeMatches topic entry) := by
  unfold SubscribeMatches
  infer_instance

theorem subscribeMatches_self (topic : List Byte) : SubscribeMatches topic topic := by
  unfold SubscribeMatches
  split_ifs with h
  · exact h
  · exact List.dropLast_prefix topic

theorem subscribeMatches_iff (topic entry : CharArray stringLen) :
    strncmp entry.bytes topic.bytes (sizeT ((topic.str.length : ℤ) - 1)) = 0 ↔
      SubscribeMatches topic.str entry.str := by
  rw [strncmp_eq_zero_iff (entry.length_eq.trans topic.length_eq.symm)]
  show entry.str.take _ = topic.str.take _ ↔ _
  have hle := topic.length_str_le
  have hle' := entry.length_str_le
  have h50 : stringLen = 50 := rfl
  unfold SubscribeMatches
  split_ifs with h
  · rw [h, List.length_nil, List.take_nil, Nat.cast_zero, zero_sub, sizeT_neg_one,
      List.take_of_length_le (by omega)]
  · have hpos : 0 < topic.str.length := List.length_pos_of_ne_nil h
    have hn : sizeT ((topic.str.length : ℤ) - 1) = topic.str.length - 1 := by
      rw [sizeT_of_nonneg (by omega) (by omega)]
      omega
    rw [hn, ← List.dropLast_eq_take, List.prefix_iff_eq_take, List.length_dropLast, eq_comm]

section Commands

variable {l : LinkedList TopicStructure}

/-- What a subscribe command does: it changes the first entry that its comparison accepts, or
appends one, or writes through a stale tail. -/
theorem subscribeBranch_spec (h : l.Walkable) (hdr : ClientToServerHdr) :
    (∃ xs a t ys l', l.nodes = xs ++ (a, t) :: ys ∧
      (∀ n ∈ xs, ¬ SubscribeMatches hdr.topic.str n.2.topic.str) ∧
      SubscribeMatches hdr.topic.str t.topic.str ∧ subscribeBranch l hdr = .ok l' ∧
      l'.Walkable ∧ l'.nodes = xs ++ (a, { t with sf := hdr.sf }) :: ys ∧ l'.size = l.size ∧
      (l.TailAt l.nodes → l'.TailAt l'.nodes)) ∨
    (∀ n ∈ l.nodes, ¬ SubscribeMatches hdr.topic.str n.2.topic.str) ∧
      (l.TailAt l.nodes ∧ (∃ l', subscribeBranch l hdr = .ok l' ∧ l'.Walkable ∧
        l'.nodes = l.nodes ++ [(l.heap.size, ⟨hdr.topic, hdr.sf⟩)] ∧ l'.size = l.size + 1 ∧
        l'.TailAt l'.nodes) ∨
      l.nodes ≠ [] ∧ l.TailFreed ∧ subscribeBranch l hdr = .error .useAfterFree) := by
  have hno : ∀ t : TopicStructure, (strncmp t.topic.bytes hdr.topic.bytes
      (sizeT ((hdr.topic.str.length : ℤ) - 1)) == 0) = false →
      ¬ SubscribeMatches hdr.topic.str t.topic.str := fun t ht hm => by
    rw [← subscribeMatches_iff, ← beq_iff_eq] at hm
    rw [hm] at ht
    cases ht
  unfold subscribeBranch
  rcases LinkedList.find_pure (b := fun t => strncmp t.topic.bytes hdr.topic.bytes
      (sizeT ((hdr.topic.str.length : ℤ) - 1)) == 0) h.repr with
    ⟨hf, hall⟩ | ⟨xs, ⟨a, t⟩, ys, hn, hxs, hc, hf⟩
  · refine Or.inr ⟨fun n hn => hno _ (hall n hn), ?_⟩
    simp only [hf, bind, Except.bind]
    by_cases htail : l.TailAt l.nodes
    · obtain ⟨l', he, hr, ht', hs⟩ := LinkedList.addLastImproved_spec h.repr htail
        ⟨hdr.topic, hdr.sf⟩
      have hnodes := hr.nodes_eq
      exact Or.inl ⟨htail, l', he, hr.walkable (Or.inl ht'), hnodes, hs, hnodes ▸ ht'⟩
    · have hst := h.tail.resolve_left htail
      have hne : l.nodes ≠ [] := fun hnil => htail (hnil ▸ LinkedList.tailAt_nil)
      exact Or.inr ⟨hne, hst, LinkedList.addLastImproved_freed h.repr hne hst _⟩
  · obtain ⟨l', he, hw, hn', hs, htl, -⟩ := h.modifyData hn fun t => { t with sf := hdr.sf }
    refine Or.inl ⟨xs, a, t, ys, l', hn, fun n hn => hno _ (hxs n hn),
      (subscribeMatches_iff _ _).mp (beq_iff_eq.mp hc), by simp only [hf]; exact he, hw, hn', hs,
      fun htail => ?_⟩
    rw [hn] at htail
    rw [hn']
    exact htail.modify htl

/-- What an unsubscribe command does: it unlinks the first entry with its topic. -/
theorem unsubscribeBranch_spec (h : l.Walkable) (hdr : ClientToServerHdr) :
    (unsubscribeBranch l hdr = .ok l ∧ ∀ n ∈ l.nodes, n.2.topic.str ≠ hdr.topic.str) ∨
    ∃ xs a t ys l', l.nodes = xs ++ (a, t) :: ys ∧ (∀ n ∈ xs, n.2.topic.str ≠ hdr.topic.str) ∧
      t.topic.str = hdr.topic.str ∧ unsubscribeBranch l hdr = .ok l' ∧ l'.Walkable ∧
      l'.nodes = xs ++ ys ∧ l'.size = l.size := by
  have hno : ∀ t : TopicStructure,
      (strncmp t.topic.bytes hdr.topic.bytes stringLen == 0) = false →
      t.topic.str ≠ hdr.topic.str := fun t ht hm => by
    rw [← strncmp_array _ _ le_rfl, ← beq_iff_eq] at hm
    rw [hm] at ht
    cases ht
  unfold unsubscribeBranch
  rcases LinkedList.find_pure
      (b := fun t => strncmp t.topic.bytes hdr.topic.bytes stringLen == 0) h.repr with
    ⟨hf, hall⟩ | ⟨xs, ⟨a, t⟩, ys, hn, hxs, hc, hf⟩
  · exact Or.inl ⟨by rw [hf]; rfl, fun n hn => hno _ (hall n hn)⟩
  · obtain ⟨l₁, he₁, hw₁, hn₁, hs₁, -⟩ := h.modifyData hn fun t => { t with sf := hdr.sf }
    obtain ⟨l', he, hw, hn', hs, -⟩ := hw₁.unlink hn₁
    refine Or.inr ⟨xs, a, t, ys, l', hn, fun n hn => hno _ (hxs n hn),
      (strncmp_array _ _ le_rfl).mp (beq_iff_eq.mp hc), ?_, hw, hn', hs.trans hs₁⟩
    simp only [hf, bind, Except.bind, he₁]
    exact he

end Commands

/-! ## What every run keeps -/

/-- The lists of a client in any run: only the tail of the subscriptions may be stale. -/
structure ClientStructure.Lists (c : ClientStructure) : Prop where
  topics : c.subscribedTopics.Walkable
  queue : c.queue.WellFormed

/-- The lists of the server in any run. -/
structure ServerState.Lists (s : ServerState) : Prop where
  registry : s.clientsContainer.WellFormed
  clients : ∀ n ∈ s.clientsContainer.nodes, n.2.Lists

end TopicServer
