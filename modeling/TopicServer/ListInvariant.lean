import TopicServer.Kernel

/-!
# The representation invariant of the lists

`ServerState.WellFormed` says of every list of the server that `next` leads from the head through
`size` live nodes and that the tail is the last of them. All operations keep it but the two that
unlink a node inline, which restore neither the size nor the tail. So a run keeps it as long as
no command unsubscribes from a topic that its client has (`list_invariant`).
-/

namespace TopicServer

open Interactive Linked Memory

/-- The representation invariant of a client's lists. -/
structure ClientStructure.WellFormed (c : ClientStructure) : Prop where
  topics : c.subscribedTopics.WellFormed
  queue : c.queue.WellFormed

/-- The representation invariant of all lists of the server. -/
structure ServerState.WellFormed (s : ServerState) : Prop where
  registry : s.clientsContainer.WellFormed
  clients : ∀ n ∈ s.clientsContainer.nodes, n.2.WellFormed

theorem ServerState.WellFormed.lists {s : ServerState} (h : s.WellFormed) : s.Lists :=
  ⟨h.registry, fun n hn => ⟨(h.clients n hn).topics.walkable, (h.clients n hn).queue⟩⟩

theorem wellFormed_serverInit (k : Sockets) : (serverInit k).WellFormed :=
  ⟨LinkedList.wellFormed_initList, fun _ hn => by cases hn⟩

/-- A step unlinks a node: an unsubscribe command names a topic of its client. -/
def Unlinks (k : Sockets) (h : Handled Sys ServerState) : Prop :=
  k.Client h.fd ∧ ∃ ret rest c, h.events = ⟨.recv .command h.fd maxLenBuf, ret⟩ :: rest ∧
    (commandHdr ret).type = 1 ∧ h.pre.clientOn h.fd = some c ∧
    ∃ t ∈ c.subscribedTopics.toList, t.topic.str = (commandHdr ret).topic.str

/-! ## The operations -/

section Operations

theorem toList_ne_iff {α β : Type} {l : LinkedList α} (f : α → β) (y : β) :
    (∀ n ∈ l.nodes, f n.2 ≠ y) ↔ ∀ x ∈ l.toList, f x ≠ y := by
  unfold LinkedList.toList
  rw [List.forall_mem_map]

theorem not_wellFormed_of_shorter {α : Type} {l : LinkedList α} {xs ys : List (Addr × α)}
    {n : Addr × α} (hn : l.nodes = xs ++ ys) (hs : l.size = (xs ++ n :: ys).length) :
    ¬ l.WellFormed := fun h => by
  have hsize := h.size
  rw [hs, hn, List.length_append, List.length_append, List.length_cons] at hsize
  omega

/-- Unsubscribing keeps the invariant exactly when it finds nothing. -/
theorem unsubscribeBranch_wellFormed {l : LinkedList TopicStructure} (h : l.WellFormed)
    (hdr : ClientToServerHdr) :
    ∃ l', unsubscribeBranch l hdr = .ok l' ∧
      (l'.WellFormed ↔ ∀ t ∈ l.toList, t.topic.str ≠ hdr.topic.str) := by
  rw [← toList_ne_iff fun t : TopicStructure => t.topic.str]
  rcases unsubscribeBranch_spec h.walkable hdr with
    ⟨he, hall⟩ | ⟨xs, a, t, ys, l', hn, -, ht, he, -, hn', hs⟩
  · exact ⟨l, he, iff_of_true h hall⟩
  · have hsize : l'.size = (xs ++ (a, t) :: ys).length := by rw [hs, h.size, hn]
    refine ⟨l', he, iff_of_false (not_wellFormed_of_shorter hn' hsize) fun hall => ?_⟩
    exact hall (a, t) (by rw [hn]; simp) ht

/-- Removing a client by its ID keeps the invariant exactly when it finds nothing. -/
theorem removeById_wellFormed {list : LinkedList ClientStructure} (h : list.WellFormed)
    (id : CharArray idLen) :
    ∃ list', removeById list id = .ok list' ∧
      (list'.WellFormed ↔ ∀ c ∈ list.toList, c.id.str ≠ id.str) := by
  rw [← toList_ne_iff fun c : ClientStructure => c.id.str]
  rcases removeById_spec h id with ⟨he, hall⟩ | ⟨xs, a, c, ys, list', hn, hc, he, -, hn', hs⟩
  · exact ⟨list, he, iff_of_true h hall⟩
  · have hsize : list'.size = (xs ++ (a, c) :: ys).length := by rw [hs, h.size, hn]
    refine ⟨list', he, iff_of_false (not_wellFormed_of_shorter hn' hsize) fun hall => ?_⟩
    exact hall (a, c) (by rw [hn]; simp) hc

/-- Subscribing keeps the invariant, and does not fail on a list that has it. -/
theorem subscribeBranch_wellFormed {l : LinkedList TopicStructure} (h : l.WellFormed)
    (hdr : ClientToServerHdr) :
    ∃ l', subscribeBranch l hdr = .ok l' ∧ l'.WellFormed := by
  rcases subscribeBranch_spec h.walkable hdr with
    ⟨xs, a, t, ys, l', hn, -, -, he, hw, hn', hs, htl⟩ |
    ⟨-, ⟨-, l', he, hw, hn', hs, htl⟩ | ⟨hne, hst, -⟩⟩
  · refine ⟨l', he, hw.repr, htl h.tail, ?_⟩
    rw [hs, h.size, hn, hn']
    simp
  · refine ⟨l', he, hw.repr, htl, ?_⟩
    rw [hs, h.size, hn', List.length_append]
    rfl
  · exact absurd hst (h.tail.not_freed h.repr hne)

/-- `remove_first` keeps the invariant. -/
theorem removeFirst_wellFormed {α : Type} {l : LinkedList α} (h : l.WellFormed) :
    ∃ r l', l.removeFirst = .ok (r, l') ∧ l'.WellFormed ∧ l'.toList = l.toList.tail := by
  cases hn : l.nodes with
  | nil =>
    refine ⟨none, l, LinkedList.removeFirst_nil (hn ▸ h.repr), h, ?_⟩
    rw [LinkedList.toList, hn]
    rfl
  | cons n ns =>
    obtain ⟨l', he, hw, hn', -⟩ := h.removeFirst hn
    exact ⟨some n.1, l', he, hw, by rw [LinkedList.toList, LinkedList.toList, hn, hn']; rfl⟩

/-- `add_last_improved` keeps the invariant, and its node is reached from the head. -/
theorem addLastImproved_wellFormed {α : Type} {l : LinkedList α} (h : l.WellFormed) (x : α) :
    ∃ l', l.addLastImproved x = .ok l' ∧ l'.WellFormed ∧ l'.toList = l.toList ++ [x] := by
  obtain ⟨l', he, hw, hn⟩ := h.addLastImproved x
  refine ⟨l', he, hw, ?_⟩
  rw [LinkedList.toList, LinkedList.toList, hn, List.map_append]
  rfl

end Operations

/-! ## The runs -/

section Runs

variable {k : Sockets} {s : ServerState} {i : ℤ} {evs : List (Event Sys)} {r : ServerState × Flow}

theorem not_unlinks_of_type {ret : Option (List Byte)} {x : CharArray serverHdrSize}
    {es es' : List (Event Sys)} {s' : ServerState} (h1 : (commandHdr ret).type ≠ 1) :
    ¬ Unlinks k ⟨s, i, commandCalls i ret es x ++ es', s'⟩ := by
  rintro ⟨-, ret', rest, c, hev, ht, -⟩
  cases hev
  exact h1 ht

/-- A step keeps the invariant exactly when it does not unlink. -/
theorem Effect.wellFormed_iff (he : Effect k s i evs r) (h : s.WellFormed) :
    r.1.WellFormed ↔ ¬ Unlinks k ⟨s, i, evs, r.1⟩ := by
  cases he with
  | registered _ _ _ hw hn =>
    refine iff_of_true ⟨hw, fun n hn' => ?_⟩ fun hu => hu.1.1 rfl
    rw [hn, List.mem_append, List.mem_singleton] at hn'
    rcases hn' with hn' | rfl
    · exact h.clients n hn'
    · exact ⟨LinkedList.wellFormed_initList, LinkedList.wellFormed_initList⟩
  | refused => exact iff_of_true h fun hu => hu.1.1 rfl
  | reconnected _ _ hn _ _ _ hq _ hw hn' =>
    refine iff_of_true ⟨hw, ?_⟩ fun hu => hu.1.1 rfl
    exact forall_nodes_replace h.clients hn hn' fun hold => ⟨hold.topics, hq⟩
  | published _ _ hw hrel =>
    refine iff_of_true ⟨hw, fun n' hn' => ?_⟩ fun hu => hu.1.2.1 rfl
    obtain ⟨n, hn, -, es, hr⟩ := hrel.source hn'
    obtain ⟨queue, hc, hq, -⟩ := hr.queue (h.clients n hn).queue
    rw [hc]
    exact ⟨(h.clients n hn).topics, hq⟩
  | ignored => exact iff_of_true h fun hu => hu.1.2.2 rfl
  | stopped => exact iff_of_true h fun hu => hu.1.2.2 rfl
  | subscribed _ h0 hn _ _ ht hw hn' =>
    refine iff_of_true ⟨hw, forall_nodes_replace h.clients hn hn' fun hold => ?_⟩ ?_
    · obtain ⟨topics, ht', htw⟩ := subscribeBranch_wellFormed hold.topics _
      obtain rfl := Except.ok.inj (ht'.symm.trans ht)
      exact ⟨htw, hold.queue⟩
    · rw [← List.append_nil (commandCalls _ _ _ _)]
      exact not_unlinks_of_type (by rw [h0]; decide)
  | @unsubscribed _ ret x xs a c ys topics list hi h1 hn hxs hc ht hw hn' =>
    have hold := h.clients (a, c) (by rw [hn]; simp)
    obtain ⟨topics', ht', htw⟩ := unsubscribeBranch_wellFormed hold.topics (commandHdr ret)
    obtain rfl := Except.ok.inj (ht'.symm.trans ht)
    have hon := clientOn_eq hn hxs hc
    constructor
    · rintro hpost ⟨-, ret', rest, c', hev, -, hc', t, htm, hteq⟩
      cases hev
      obtain rfl := Option.some.inj (hon.symm.trans hc')
      have hall := hpost.clients
      rw [hn'] at hall
      have hnew := hall _ (List.mem_append_right _ List.mem_cons_self)
      exact htw.mp hnew.topics t htm hteq
    · intro hno
      refine ⟨hw, forall_nodes_replace h.clients hn hn' fun _ => ?_⟩
      refine ⟨htw.mpr fun t htm hteq => hno ?_, hold.queue⟩
      exact ⟨hi, ret, _, c, rfl, h1, hon, t, htm, hteq⟩
  | disconnected _ h3 hn _ _ hw hn' =>
    refine iff_of_true ⟨hw, ?_⟩ (not_unlinks_of_type (by rw [h3]; decide))
    exact forall_nodes_replace h.clients hn hn' fun hold => ⟨hold.topics, hold.queue⟩
  | unknown _ _ h1 =>
    refine iff_of_true h ?_
    rw [← List.append_nil (commandCalls _ _ _ _)]
    exact not_unlinks_of_type h1

/-- The states of a run, in order. -/
def visited (k : Sockets) (hs : List (Handled Sys ServerState)) : List ServerState :=
  serverInit k :: hs.map Handled.post

theorem visited_append (k : Sockets) (hs : List (Handled Sys ServerState))
    (x : Handled Sys ServerState) : visited k (hs ++ [x]) = visited k hs ++ [x.post] := by
  unfold visited
  rw [List.map_append, List.cons_append]
  rfl

theorem ServerRun.state_visited {g : Kernel} {p : Point ServerState}
    {hs : List (Handled Sys ServerState)} (h : ServerRun k g p hs) : p.state ∈ visited k hs := by
  unfold visited
  induction h with
  | start => exact List.mem_cons_self
  | select _ _ _ ih => exact ih
  | skip _ _ _ ih => exact ih
  | done _ _ ih => exact ih
  | handle =>
    rw [Point.state_following, List.map_append, List.mem_cons, List.mem_append]
    exact Or.inr (Or.inr (List.mem_singleton_self _))

theorem ServerRun.wellFormed_iff {g : Kernel} {p : Point ServerState}
    {hs : List (Handled Sys ServerState)} (h : ServerRun k g p hs) :
    (∀ s ∈ visited k hs, s.WellFormed) ↔ ∀ x ∈ hs, ¬ Unlinks k x := by
  induction h with
  | start => simpa [visited] using wellFormed_serverInit k
  | select _ _ _ ih => exact ih
  | skip _ _ _ ih => exact ih
  | done _ _ ih => exact ih
  | @handle g s hs tmp i evs r hrun hle hmem he ho ih =>
    have hl : s.Lists := ServerRun.lists hrun
    have heff := mainBody_effect hl he
    rw [visited_append, List.forall_mem_append, List.forall_mem_append,
      List.forall_mem_singleton, List.forall_mem_singleton, ih]
    refine and_congr_right fun hno => heff.wellFormed_iff ?_
    exact ih.mpr hno s (ServerRun.state_visited hrun)

/-- A client whose list is not as long as its size says. -/
def missesNode (s : ServerState) : Bool :=
  s.clientsContainer.toList.any fun c =>
    c.subscribedTopics.size != c.subscribedTopics.toList.length

theorem not_wellFormed_of_missesNode (hm : missesNode s = true) : ¬ s.WellFormed := by
  intro h
  rw [missesNode, List.any_eq_true] at hm
  obtain ⟨c, hc, hsize⟩ := hm
  obtain ⟨n, hn, rfl⟩ := List.mem_map.mp hc
  rw [bne_iff_ne] at hsize
  apply hsize
  rw [(h.clients n hn).topics.size, LinkedList.toList, List.length_map]

/-- A client subscribes to a topic and unsubscribes again. -/
theorem unsubscribed_run :
    ∃ g s hs, ServerRun sockets g (.select s) hs ∧ missesNode s = true :=
  serveScript_check
    [(3, scripted 5 [] (idMessage [65])),
      (5, scripted 0 [] (commandMessage 0 1 [97])),
      (5, scripted 0 [] (commandMessage 1 0 [97]))]
    (fun x => missesNode x.2) (by decide +kernel)

/-- The representation invariant: `add_last_improved`, `remove_first` and subscribing keep it, the
two inline removals keep it exactly when they remove nothing, and it holds in all states of a run
exactly when no step unlinks. -/
theorem list_invariant (k : Sockets) :
    (∀ (α : Type) (l : LinkedList α) (x : α), l.WellFormed →
      ∃ l', l.addLastImproved x = .ok l' ∧ l'.WellFormed ∧ l'.toList = l.toList ++ [x]) ∧
    (∀ (α : Type) (l : LinkedList α), l.WellFormed →
      ∃ r l', l.removeFirst = .ok (r, l') ∧ l'.WellFormed ∧ l'.toList = l.toList.tail) ∧
    (∀ l hdr, l.WellFormed → ∃ l', subscribeBranch l hdr = .ok l' ∧ l'.WellFormed) ∧
    (∀ l hdr, l.WellFormed → ∃ l', unsubscribeBranch l hdr = .ok l' ∧
      (l'.WellFormed ↔ ∀ t ∈ l.toList, t.topic.str ≠ hdr.topic.str)) ∧
    (∀ list id, list.WellFormed → ∃ list', removeById list id = .ok list' ∧
      (list'.WellFormed ↔ ∀ c ∈ list.toList, c.id.str ≠ id.str)) ∧
    ∀ g p hs, ServerRun k g p hs →
      ((∀ s ∈ visited k hs, s.WellFormed) ↔ ∀ x ∈ hs, ¬ Unlinks k x) :=
  ⟨fun _ _ x h => addLastImproved_wellFormed h x, fun _ _ h => removeFirst_wellFormed h,
    fun _ hdr h => subscribeBranch_wellFormed h hdr,
    fun _ hdr h => unsubscribeBranch_wellFormed h hdr,
    fun _ id h => removeById_wellFormed h id, fun _ _ _ h => h.wellFormed_iff⟩

theorem list_invariant_unsubscribed :
    ∃ g s hs, ServerRun sockets g (.select s) hs ∧ ∃ x ∈ hs, Unlinks sockets x := by
  obtain ⟨g, s, hs, hrun, hm⟩ := unsubscribed_run
  refine ⟨g, s, hs, hrun, ?_⟩
  by_contra hno
  push Not at hno
  have hall := ((list_invariant sockets).2.2.2.2.2 g _ hs hrun).mpr hno
  exact not_wellFormed_of_missesNode hm (hall s hrun.state_visited)

/-- The inline removal does not keep the invariant, and so not every reachable state has it. -/
theorem list_invariant_fails :
    ¬ (∀ k g p hs, ServerRun k g p hs → ∀ s ∈ visited k hs, s.WellFormed) ∧
    ¬ (∀ l hdr, l.WellFormed → ∃ l', unsubscribeBranch l hdr = .ok l' ∧ l'.WellFormed) := by
  constructor
  · intro hall
    obtain ⟨g, s, hs, hrun, hm⟩ := unsubscribed_run
    exact not_wellFormed_of_missesNode hm (hall sockets g _ hs hrun s hrun.state_visited)
  · intro hall
    obtain ⟨l, -, hw, hl⟩ := LinkedList.wellFormed_initList.addLastImproved
      (⟨.ofList stringLen [97], 1⟩ : TopicStructure)
    obtain ⟨l', he, hw'⟩ := hall l ⟨1, 0, .ofList stringLen [97]⟩ hw
    obtain ⟨l'', he', hiff⟩ := unsubscribeBranch_wellFormed hw ⟨1, 0, .ofList stringLen [97]⟩
    obtain rfl := Except.ok.inj (he'.symm.trans he)
    refine hiff.mp hw' ⟨.ofList stringLen [97], 1⟩ ?_ rfl
    rw [LinkedList.toList, hl]
    simp

end Runs

end TopicServer
