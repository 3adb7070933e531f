import TopicServer.LinkedList

/-!
# The functions of the list

All of `LinkedList.c` that adds, removes and frees, with the data behind the pointers of the nodes:
a `DataList` is a list of pointers and the memory for the copies that the `_improved` functions
make. The two functions with an index trust the size where they walk, and `remove_nth_node` leaves
the tail of an emptied list at the removed node; both keep `LinkedList.WellFormed`, which says
nothing of the tail of an empty list.
-/

namespace TopicServer

open Linked

/-! ## The functions -/

/-- The check of an index against the last one: none if the function returns at once. -/
def checkIndex (last n : ℤ) : Option ℤ := if last < n then some last else if n < 0 then none else some n

namespace LinkedList

variable {α : Type}

/-- The loop `while (n > 0)`, which keeps the node before. -/
def advance (h : Heap α) :
    ℕ → Option Addr → Option Addr → Except Fault (Option Addr × Option Addr)
  | 0, prev, curr => .ok (prev, curr)
  | n + 1, _, curr => do
    let (a, node) ← deref h curr
    advance h n (some a) node.next

/-- The common end of the two functions that add at an index. -/
def insertAt (l : LinkedList α) (n : ℤ) (x : α) : Except Fault (LinkedList α) := do
  let (prev, curr) ← advance l.heap n.toNat none l.head
  let new := l.heap.size
  let heap := l.heap.alloc ⟨x, curr⟩
  let tail := if curr.isNone then some new else l.tail
  match prev with
  | none => .ok { head := some new, tail := tail, size := l.size + 1, heap := heap }
  | some p => do
    let (p, before) ← deref heap (some p)
    .ok { l with
      tail := tail
      size := l.size + 1
      heap := heap.set p { before with next := some new } }

/-- Unlink the node at an index and return it; it stays allocated. -/
def removeNthNode (l : LinkedList α) (n : ℤ) : Except Fault (Option Addr × LinkedList α) :=
  match l.head, checkIndex (l.size - 1) n with
  | none, _ => .ok (none, l)
  | some _, none => .ok (none, l)
  | some _, some n => do
    let (prev, curr) ← advance l.heap n.toNat none l.head
    let (curr, node) ← deref l.heap curr
    match prev with
    | none => .ok (some curr, { l with head := node.next, size := l.size - 1 })
    | some p => do
      let (p, before) ← deref l.heap (some p)
      .ok (some curr, { l with
        tail := if node.next.isNone then some p else l.tail
        size := l.size - 1
        heap := l.heap.set p { before with next := node.next } })

def getSize (l : LinkedList α) : ℤ := l.size

end LinkedList

/-- `free` of a pointer: a null pointer is ignored, one that was freed is a fault. -/
def free {α : Type} (h : Heap α) : Option Addr → Except Fault (Heap α)
  | none => .ok h
  | some a => do
    let (a, _) ← deref h (some a)
    .ok (h.free a)

/-- A list of pointers to data, and the copies in memory, which are cells without a successor. -/
structure DataList (β : Type) where
  list : LinkedList (Option Addr)
  blocks : Heap β

namespace DataList

variable {β : Type}

def initList (s : DataList β) : DataList β :=
  { s with list := { s.list with head := none, tail := none, size := 0 } }

def addNthNode (s : DataList β) (n : ℤ) (newData : Option Addr) : Except Fault (DataList β) :=
  match checkIndex s.list.size n with
  | none => .ok s
  | some n => do
    let list ← s.list.insertAt n newData
    .ok { s with list := list }

def addNthNodeImproved (s : DataList β) (n : ℤ) (newData : β) : Except Fault (DataList β) :=
  match checkIndex s.list.size n with
  | none => .ok s
  | some n => do
    let list ← s.list.insertAt n (some s.blocks.size)
    .ok { list := list, blocks := s.blocks.alloc ⟨newData, none⟩ }

/-- `add_last` links a node as `add_last_improved` does, with the pointer that it is given. -/
def addLast (s : DataList β) (newData : Option Addr) : Except Fault (DataList β) := do
  let list ← s.list.addLastImproved newData
  .ok { s with list := list }

def addLastImproved (s : DataList β) (newData : β) : Except Fault (DataList β) := do
  let list ← s.list.addLastImproved (some s.blocks.size)
  .ok { list := list, blocks := s.blocks.alloc ⟨newData, none⟩ }

/-- The loop of `free_list_improved`; every round takes one of the `fuel` elements off the list. -/
def freeLoop : ℕ → DataList β → Except Fault (DataList β)
  | fuel, s =>
    if s.list.getSize ≤ 0 then .ok s else
    match fuel with
    | 0 => .error .endless
    | fuel + 1 => do
      let (currNode, list) ← s.list.removeFirst
      let (currNode, node) ← deref list.heap currNode
      let blocks ← free s.blocks node.data
      let heap ← free list.heap (some currNode)
      freeLoop fuel { list := { list with heap := heap }, blocks := blocks }

/-- The nodes and the copies that are left in memory; the list itself is freed. -/
def freeListImproved (s : DataList β) : Except Fault (Heap (Option Addr) × Heap β) := do
  let s ← freeLoop s.list.size.toNat s
  .ok (s.list.heap, s.blocks)

end DataList

/-! ## Indices -/

section Index

variable {last n : ℤ}

theorem checkIndex_neg (h : 0 ≤ last) (hn : n < 0) : checkIndex last n = none := by
  unfold checkIndex
  rw [if_neg (by omega), if_pos hn]

theorem checkIndex_of_nonneg (h : 0 ≤ last) (hn : 0 ≤ n) :
    checkIndex last n = some ((min n.toNat last.toNat : ℕ) : ℤ) := by
  unfold checkIndex
  split_ifs with h1 h2
  · rw [Nat.min_eq_right (by omega), Int.toNat_of_nonneg h]
  · omega
  · rw [Nat.min_eq_left (by omega), Int.toNat_of_nonneg hn]

theorem insertIdx_eq_take_drop {α : Type} {xs : List α} {i : ℕ} (x : α) (h : i ≤ xs.length) :
    xs.insertIdx i x = xs.take i ++ x :: xs.drop i := by
  induction xs generalizing i with
  | nil =>
    obtain rfl : i = 0 := Nat.le_zero.mp h
    rfl
  | cons y xs ih =>
    cases i with
    | zero => rfl
    | succ i =>
      rw [List.insertIdx_succ_cons, ih (Nat.le_of_succ_le_succ h)]
      rfl

end Index

/-! ## Inserting and removing at an index -/

namespace LinkedList

variable {α : Type} {l l' : LinkedList α} {h : Heap α} {xs ys : List (Addr × α)}
  {p q prev : Option Addr} {a b : Addr} {x : α}

/-- The loop arrives behind the nodes that it passes. -/
theorem advance_eq (hs : Seg h p xs q) :
    advance h xs.length prev p = .ok (((xs.map Prod.fst).getLast?).or prev, q) := by
  induction xs generalizing p prev with
  | nil =>
    obtain rfl := hs
    rfl
  | cons n xs ih =>
    obtain ⟨a, x⟩ := n
    obtain ⟨rfl, nx, hn, hs⟩ := hs
    rw [List.length_cons, advance, deref, hn]
    show advance h xs.length (some a) nx = _
    rw [ih hs, List.map_cons, List.getLast?_cons]
    cases (xs.map Prod.fst).getLast? <;> rfl

/-- A new node becomes the tail when nothing is behind it. -/
theorem TailAt.insert (ht : l.TailAt (xs ++ ys)) (hs : Seg h q ys none)
    (hl : l'.tail = if q.isNone then some b else l.tail) : l'.TailAt (xs ++ (b, x) :: ys) := by
  intro n hn
  cases ys with
  | nil =>
    obtain rfl := hs
    rw [List.getLast?_concat, Option.some.injEq] at hn
    rw [hl, ← hn]
    rfl
  | cons m ys =>
    obtain ⟨rfl, -⟩ := hs
    rw [hl]
    apply ht
    rw [← hn, List.getLast?_append, List.getLast?_append, List.getLast?_cons_cons]

/-- `add_nth_node` puts a node behind the first ones. -/
theorem WellFormed.insertAt (hw : l.WellFormed) (hn : l.nodes = xs ++ ys) (x : α) :
    ∃ l', l.insertAt xs.length x = .ok l' ∧ l'.WellFormed ∧
      l'.nodes = xs ++ (l.heap.size, x) :: ys := by
  have hr : Seg l.heap l.head (xs ++ ys) none := hn ▸ hw.repr
  have ht : l.TailAt (xs ++ ys) := hn ▸ hw.tail
  have hsize : l.size + 1 = ((xs ++ (l.heap.size, x) :: ys).length : ℤ) := by
    rw [hw.size, hn, List.length_append, List.length_append, List.length_cons]
    omega
  obtain ⟨q, hxs, hys⟩ := Seg.append_iff.mp hr
  have hadv : advance l.heap ((xs.length : ℤ)).toNat none l.head =
      .ok (((xs.map Prod.fst).getLast?).or none, q) := advance_eq hxs
  unfold LinkedList.insertAt
  rw [hadv]
  rcases List.eq_nil_or_concat xs with rfl | ⟨xs, ⟨a, y⟩, rfl⟩
  · obtain rfl := hxs
    have hnew : Seg (l.heap.alloc ⟨x, l.head⟩) (some l.heap.size) ((l.heap.size, x) :: ys) none :=
      ⟨rfl, l.head, by rw [Heap.get?_alloc, if_pos rfl], hys.alloc_out⟩
    refine ⟨_, rfl, Repr.wellFormed hnew (ht.insert hys rfl) hsize, ?_⟩
    exact Repr.nodes_eq hnew
  · rw [List.concat_eq_append] at *
    obtain ⟨m, -, rfl, nx, hg, hnx⟩ := Seg.append_iff.mp hxs
    obtain rfl : nx = q := hnx
    have hd : deref (l.heap.alloc ⟨x, nx⟩) (some a) = .ok (a, ⟨y, nx⟩) := by
      rw [deref, Heap.get?_alloc, if_neg (Nat.ne_of_lt (Heap.lt_size hg)), hg]
    have hnew : Seg ((l.heap.alloc ⟨x, nx⟩).set a ⟨y, some l.heap.size⟩) l.head
        ((xs ++ [(a, y)]) ++ (l.heap.size, x) :: ys) none := by
      rw [List.append_assoc] at hr ⊢
      exact hr.insert hg
    have hprev : ((List.map Prod.fst (xs ++ [(a, y)])).getLast?).or none = some a := by simp
    rw [hprev]
    simp only [bind, Except.bind, hd]
    exact ⟨_, rfl, Repr.wellFormed hnew (ht.insert hys rfl) hsize, Repr.nodes_eq hnew⟩

/-- When the last node goes, its predecessor becomes the tail. -/
theorem TailAt.remove (ht : l.TailAt (xs ++ (a, x) :: ys)) (hs : Seg h q ys none)
    (hl : l'.tail = if q.isNone then (xs.map Prod.fst).getLast? else l.tail) :
    l'.TailAt (xs ++ ys) := by
  intro n hn
  cases ys with
  | nil =>
    obtain rfl := hs
    rw [List.append_nil] at hn
    rw [hl, List.getLast?_map, hn]
    rfl
  | cons m ys =>
    obtain ⟨rfl, -⟩ := hs
    rw [hl]
    apply ht
    rw [← hn, List.getLast?_append, List.getLast?_append, List.getLast?_cons_cons]

/-- The tail of a list that is emptied does not matter. -/
theorem TailAt.remove_first (ht : l.TailAt ((a, x) :: ys)) (hl : l'.tail = l.tail) :
    l'.TailAt ys := by
  intro n hn
  cases ys with
  | nil => cases hn
  | cons m ys =>
    rw [hl]
    apply ht
    rw [← hn, List.getLast?_cons_cons]

/-- `remove_nth_node` unlinks a node and leaves it in memory. -/
theorem WellFormed.removeNthNode (hw : l.WellFormed) (hn : l.nodes = xs ++ (a, x) :: ys) {n : ℤ}
    (hi : checkIndex (l.size - 1) n = some (xs.length : ℤ)) :
    ∃ l', l.removeNthNode n = .ok (some a, l') ∧ l'.WellFormed ∧ l'.nodes = xs ++ ys ∧
      ∃ m, l'.heap.get? a = some m := by
  have hr : Seg l.heap l.head (xs ++ (a, x) :: ys) none := hn ▸ hw.repr
  have ht : l.TailAt (xs ++ (a, x) :: ys) := hn ▸ hw.tail
  have hsize : l.size - 1 = ((xs ++ ys).length : ℤ) := by
    rw [hw.size, hn, List.length_append, List.length_append, List.length_cons]
    omega
  have hnd := hr.not_mem_of_middle
  obtain ⟨q, hxs, rfl, nx, hg, hys⟩ := Seg.append_iff.mp hr
  have hadv : advance l.heap ((xs.length : ℤ)).toNat none l.head =
      .ok (((xs.map Prod.fst).getLast?).or none, some a) := advance_eq hxs
  have hd : deref l.heap (some a) = .ok (a, ⟨x, nx⟩) := by rw [deref, hg]
  have hne : l.nodes ≠ [] := by
    rw [hn]
    simp
  obtain ⟨c, hc⟩ := hw.repr.head_eq_some hne
  unfold LinkedList.removeNthNode
  rw [hc] at hadv ⊢
  rw [hi]
  simp only [hadv, bind, Except.bind, hd]
  rcases List.eq_nil_or_concat xs with rfl | ⟨xs, ⟨b, y⟩, rfl⟩
  · exact ⟨_, rfl, Repr.wellFormed hys (ht.remove_first rfl) hsize, Repr.nodes_eq hys, _, hg⟩
  · rw [List.concat_eq_append] at *
    rw [List.append_assoc] at hr
    obtain ⟨m, -, rfl, nx', hg', -⟩ := Seg.append_iff.mp hxs
    have hd' : deref l.heap (some b) = .ok (b, ⟨y, nx'⟩) := by rw [deref, hg']
    have hnew : Seg (l.heap.set b ⟨y, nx⟩) (some c) ((xs ++ [(b, y)]) ++ ys) none := by
      rw [List.append_assoc, ← hc]
      exact hr.bypass hg
    have hprev : ((List.map Prod.fst (xs ++ [(b, y)])).getLast?).or none = some b := by simp
    have hab : a ≠ b := by
      rintro rfl
      simp at hnd
    rw [hprev]
    simp only [hd']
    refine ⟨_, rfl, Repr.wellFormed hnew (ht.remove hys ?_) hsize, Repr.nodes_eq hnew, ⟨x, nx⟩, ?_⟩
    · simp
    · rw [Heap.get?_set hg', if_neg hab, hg]

/-- Freeing an unlinked node leaves the list as it is. -/
theorem WellFormed.free_out (hw : l.WellFormed) (ha : a ∉ l.nodes.map Prod.fst) :
    ({ l with heap := l.heap.free a } : LinkedList α).WellFormed ∧
      ({ l with heap := l.heap.free a } : LinkedList α).nodes = l.nodes := by
  have hr : Seg (l.heap.free a) l.head l.nodes none := Seg.free_out hw.repr ha
  exact ⟨Repr.wellFormed hr hw.tail hw.size, Repr.nodes_eq hr⟩

end LinkedList

end TopicServer
