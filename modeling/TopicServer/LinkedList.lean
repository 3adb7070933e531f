import TopicServer.Lib.Cells

/-!
# The linked list of the server

`LinkedList` follows `LinkedList.c`: a head, a tail and a size over heap cells. Every access goes
through a pointer and fails on a null or freed one, so a stale pointer is seen when it is used.
`add_last_improved` trusts the tail; `remove_first` keeps it; `unlink` is the removal that two
functions of the server write inline, which restores neither the tail nor the size.

`Repr l ns` says that the cells from the head are `ns`, and `TailAt`, `TailFreed` what the tail
points at. The lemmas say what each operation does to them.
-/

namespace TopicServer

open Linked

/-- Memory errors, after which C gives the program no meaning, and loops that do not end. -/
inductive Fault
  | nullPointer
  | useAfterFree
  | outOfBounds
  | endless
  deriving DecidableEq

/-- Read the cell behind a pointer. -/
def deref {α : Type} (h : Heap α) : Option Addr → Except Fault (Addr × Node α)
  | none => .error .nullPointer
  | some a =>
    match h.get? a with
    | none => .error .useAfterFree
    | some n => .ok (a, n)

structure LinkedList (α : Type) where
  head : Option Addr
  tail : Option Addr
  size : ℤ
  heap : Heap α
  deriving DecidableEq

namespace LinkedList

variable {α : Type}

/-! ## The operations -/

def initList : LinkedList α := { head := none, tail := none, size := 0, heap := .empty }

/-- Append a copy of `x`: behind the tail, unless the head is null. -/
def addLastImproved (l : LinkedList α) (x : α) : Except Fault (LinkedList α) :=
  let new := l.heap.size
  let heap := l.heap.alloc ⟨x, none⟩
  match l.head with
  | none => .ok { head := some new, tail := some new, size := l.size + 1, heap := heap }
  | some _ => do
    let (t, node) ← deref heap l.tail
    .ok { l with
      tail := some new
      size := l.size + 1
      heap := heap.set t { node with next := some new } }

/-- Unlink the first node and return it; it stays allocated. -/
def removeFirst (l : LinkedList α) : Except Fault (Option Addr × LinkedList α) :=
  match l.head with
  | none => .ok (none, l)
  | some _ => do
    let (first, node) ← deref l.heap l.head
    .ok (some first, { l with
      head := node.next
      tail := if node.next.isNone then none else l.tail
      size := l.size - 1 })

/-- The inline removal of `curr`, whose predecessor in the list is `prev`. -/
def unlink (l : LinkedList α) (prev : Option Addr) (curr : Addr) :
    Except Fault (LinkedList α) :=
  match prev with
  | none => do
    let (temp, node) ← deref l.heap l.head
    .ok { l with head := node.next, heap := l.heap.free temp }
  | some p => do
    let (temp, node) ← deref l.heap (some curr)
    let (p, before) ← deref l.heap (some p)
    .ok { l with heap := (l.heap.set p { before with next := node.next }).free temp }

/-- The walk `curr = head; curr; prev = curr, curr = curr->next` up to the first node whose data
passes the test: that node with its predecessor. -/
def findFrom (h : Heap α) (test : α → Except Fault Bool) :
    ℕ → Option Addr → Option Addr → Except Fault (Option (Option Addr × Addr))
  | _, _, none => .ok none
  | 0, _, some _ => .error .endless
  | fuel + 1, prev, some a => do
    let (_, node) ← deref h (some a)
    if ← test node.data then .ok (some (prev, a)) else findFrom h test fuel (some a) node.next

/-- The first node that passes the test. A list that does not close up has at most as many nodes
as there are cells. -/
def find (l : LinkedList α) (test : α → Except Fault Bool) :
    Except Fault (Option (Option Addr × Addr)) :=
  findFrom l.heap test l.heap.size none l.head

/-- Write through a pointer to the data of a node. -/
def modifyData (l : LinkedList α) (a : Addr) (f : α → α) : Except Fault (LinkedList α) := do
  let (a, node) ← deref l.heap (some a)
  .ok { l with heap := l.heap.set a { node with data := f node.data } }

/-! ## The nodes of a list -/

/-- The nodes reached from the head. -/
def nodes (l : LinkedList α) : List (Addr × α) := l.heap.walk l.heap.size l.head

/-- The data of the nodes reached from the head. -/
def toList (l : LinkedList α) : List α := l.nodes.map Prod.snd

/-- Following `next` from the head visits the live nodes `ns` and ends. -/
def Repr (l : LinkedList α) (ns : List (Addr × α)) : Prop := Seg l.heap l.head ns none

/-- The tail is the last of the nodes. -/
def TailAt (l : LinkedList α) (ns : List (Addr × α)) : Prop :=
  ∀ n, ns.getLast? = some n → l.tail = some n.1

/-- The tail points at a freed cell. -/
def TailFreed (l : LinkedList α) : Prop :=
  ∃ t, l.tail = some t ∧ t < l.heap.size ∧ l.heap.get? t = none

variable {l : LinkedList α} {ns ms : List (Addr × α)} {a b : Addr} {x y : α}

theorem Repr.nodes_eq (h : l.Repr ns) : l.nodes = ns := h.walk_eq h.length_le

theorem Repr.toList_eq (h : l.Repr ns) : l.toList = ns.map Prod.snd := by
  rw [toList, h.nodes_eq]

theorem Repr.head_eq_none (h : l.Repr ns) : l.head = none ↔ ns = [] := by
  cases ns with
  | nil => exact iff_of_true h rfl
  | cons n ns => obtain ⟨hh, -⟩ := h; simp [hh]

@[simp] theorem repr_initList : (initList : LinkedList α).Repr [] := rfl

@[simp] theorem tailAt_nil : l.TailAt [] := fun _ hn => by cases hn

@[simp] theorem toList_initList : (initList : LinkedList α).toList = [] := rfl

/-- A list whose tail is its last node is not stale. -/
theorem TailAt.not_freed (ht : l.TailAt ns) (h : l.Repr ns) (hne : ns ≠ []) :
    ¬ l.TailFreed := by
  rintro ⟨t, htl, -, hfree⟩
  have hlast := List.getLast?_eq_some_getLast hne
  rw [ht _ hlast, Option.some.injEq] at htl
  obtain ⟨n, hn⟩ := h.live_of_mem (List.mem_map_of_mem (List.mem_of_getLast? hlast))
  rw [← htl, hn] at hfree
  cases hfree

/-! ## What the operations do -/

/-- `add_last_improved` appends to a list whose tail is its last node. -/
theorem addLastImproved_spec (h : l.Repr ns) (ht : l.TailAt ns) (x : α) :
    ∃ l', l.addLastImproved x = .ok l' ∧ l'.Repr (ns ++ [(l.heap.size, x)]) ∧
      l'.TailAt (ns ++ [(l.heap.size, x)]) ∧ l'.size = l.size + 1 := by
  rcases List.eq_nil_or_concat ns with rfl | ⟨ns, ⟨t, y⟩, rfl⟩
  · have hh : l.head = none := h
    refine ⟨_, by rw [addLastImproved, hh], ?_, ?_, rfl⟩
    · refine ⟨rfl, none, ?_, rfl⟩
      rw [Heap.get?_alloc, if_pos rfl]
    · intro n hn
      simp only [List.nil_append, List.getLast?_singleton, Option.some.injEq] at hn
      rw [← hn]
  · rw [List.concat_eq_append] at h ht ⊢
    have htl : l.tail = some t := ht (t, y) (by simp)
    obtain ⟨m, -, rfl, nx, hn, rfl⟩ := Seg.append_iff.mp h
    obtain ⟨c, hc⟩ : ∃ c, l.head = some c := by
      by_contra hno
      rw [not_exists, ← Option.eq_none_iff_forall_ne_some] at hno
      simpa using h.head_eq_none.mp hno
    have hd : deref (l.heap.alloc ⟨x, none⟩) l.tail = .ok (t, ⟨y, none⟩) := by
      rw [htl, deref, Heap.get?_alloc, if_neg (Nat.ne_of_lt (Heap.lt_size hn)), hn]
    refine ⟨_, by rw [addLastImproved, hc]; simp only [hd]; rfl, ?_, ?_, rfl⟩
    · rw [List.append_assoc]
      exact hc ▸ Seg.snoc (y := x) h
    · intro n hn
      simp only [List.getLast?_append, List.getLast?_singleton, Option.some_or,
        Option.some.injEq] at hn
      rw [← hn]

theorem Repr.head_eq_some (h : l.Repr ns) (hne : ns ≠ []) : ∃ c, l.head = some c :=
  Option.ne_none_iff_exists'.mp (mt h.head_eq_none.mp hne)

/-- `add_last_improved` writes through a stale tail. -/
theorem addLastImproved_freed (h : l.Repr ns) (hne : ns ≠ []) (ht : l.TailFreed) (x : α) :
    l.addLastImproved x = .error .useAfterFree := by
  obtain ⟨t, htl, hlt, hfree⟩ := ht
  obtain ⟨c, hc⟩ := h.head_eq_some hne
  have hd : deref (l.heap.alloc ⟨x, none⟩) l.tail = .error .useAfterFree := by
    rw [htl, deref, Heap.get?_alloc, if_neg (Nat.ne_of_lt hlt), hfree]
  rw [addLastImproved, hc]
  simp only [hd]
  rfl

/-- `remove_first` drops the first node, and keeps the tail on the last one. -/
theorem removeFirst_spec (h : l.Repr ((a, x) :: ns)) (ht : l.TailAt ((a, x) :: ns)) :
    ∃ l', l.removeFirst = .ok (some a, l') ∧ l'.Repr ns ∧ l'.TailAt ns ∧
      l'.size = l.size - 1 ∧ l'.heap = l.heap := by
  obtain ⟨hh, nx, hn, hs⟩ := h
  have hd : deref l.heap (some a) = .ok (a, ⟨x, nx⟩) := by rw [deref, hn]
  have he : l.removeFirst = .ok (some a, { l with
      head := nx, tail := if nx.isNone then none else l.tail, size := l.size - 1 }) := by
    rw [removeFirst, hh]
    simp only [hd]
    rfl
  refine ⟨_, he, hs, ?_, rfl, rfl⟩
  cases ns with
  | nil => exact tailAt_nil
  | cons n ns =>
    obtain ⟨rfl, -⟩ := hs
    intro m hm
    exact ht m (by rw [List.getLast?_cons_cons, hm])

theorem removeFirst_nil (h : l.Repr []) : l.removeFirst = .ok (none, l) := by
  rw [removeFirst, show l.head = none from h]

/-- The inline removal of the first node. -/
theorem unlink_first (h : l.Repr ((a, x) :: ns)) :
    ∃ l', l.unlink none a = .ok l' ∧ l'.Repr ns ∧ l'.size = l.size ∧ l'.tail = l.tail ∧
      l'.heap = l.heap.free a := by
  have hnd := (show Seg _ _ _ _ from h).nodup
  obtain ⟨hh, nx, hn, hs⟩ := h
  have hd : deref l.heap (some a) = .ok (a, ⟨x, nx⟩) := by rw [deref, hn]
  have he : l.unlink none a = .ok { l with head := nx, heap := l.heap.free a } := by
    rw [unlink, hh]
    simp only [hd]
    rfl
  refine ⟨_, he, ?_, rfl, rfl, rfl⟩
  exact hs.free_out (List.nodup_cons.mp hnd).1

/-- The inline removal of a node behind another. -/
theorem unlink_mid (h : l.Repr (ns ++ (a, x) :: (b, y) :: ms)) :
    ∃ l', l.unlink (some a) b = .ok l' ∧ l'.Repr (ns ++ (a, x) :: ms) ∧ l'.size = l.size ∧
      l'.tail = l.tail ∧ l'.heap.size = l.heap.size ∧
      ∀ c, l'.heap.get? c = none ↔ c = b ∨ l.heap.get? c = none := by
  obtain ⟨nxb, hb⟩ := (show Seg _ _ _ _ from h).live (a := b) (x := y) (by simp)
  obtain ⟨nxa, ha⟩ := (show Seg _ _ _ _ from h).live (a := a) (x := x) (by simp)
  have hdb : deref l.heap (some b) = .ok (b, ⟨y, nxb⟩) := by rw [deref, hb]
  have hda : deref l.heap (some a) = .ok (a, ⟨x, nxa⟩) := by rw [deref, ha]
  have he : l.unlink (some a) b =
      .ok { l with heap := (l.heap.set a ⟨x, nxb⟩).free b } := by
    rw [unlink]
    simp only [hdb, hda]
    rfl
  refine ⟨_, he, Seg.unlink h hb, rfl, rfl, by simp, fun c => ?_⟩
  rw [Heap.get?_free, Heap.get?_set ha]
  split_ifs with h1 h2 <;> simp_all

/-- The inline removal of a node, given the last node before it. -/
theorem unlink_spec (h : l.Repr (ns ++ (b, y) :: ms)) :
    ∃ l', l.unlink (ns.map Prod.fst).getLast? b = .ok l' ∧ l'.Repr (ns ++ ms) ∧
      l'.size = l.size ∧ l'.tail = l.tail ∧ l'.heap.size = l.heap.size ∧
      ∀ c, l'.heap.get? c = none ↔ c = b ∨ l.heap.get? c = none := by
  rcases List.eq_nil_or_concat ns with rfl | ⟨ns, ⟨a, x⟩, rfl⟩
  · obtain ⟨l', he, hr, hs, ht, hh⟩ := unlink_first h
    refine ⟨l', he, hr, hs, ht, by rw [hh]; simp, fun c => ?_⟩
    rw [hh, Heap.get?_free]
    split_ifs with hc <;> simp [hc]
  · rw [List.concat_eq_append, List.append_assoc] at h ⊢
    simpa using unlink_mid h

/-- The search along given nodes. -/
def findNodes (test : α → Except Fault Bool) :
    Option Addr → List (Addr × α) → Except Fault (Option (Option Addr × Addr))
  | _, [] => .ok none
  | prev, (a, x) :: ns => do
    if ← test x then .ok (some (prev, a)) else findNodes test (some a) ns

theorem findFrom_eq {h : Heap α} {test : α → Except Fault Bool} {p : Option Addr} {fuel : ℕ}
    (prev : Option Addr) (hs : Seg h p ns none) (hf : ns.length ≤ fuel) :
    findFrom h test fuel prev p = findNodes test prev ns := by
  induction ns generalizing p prev fuel with
  | nil =>
    obtain rfl := hs
    cases fuel <;> rfl
  | cons n ns ih =>
    obtain ⟨a, x⟩ := n
    obtain ⟨rfl, nx, hn, hs⟩ := hs
    obtain ⟨f, rfl⟩ : ∃ f, fuel = f + 1 := ⟨fuel - 1, by simp at hf; omega⟩
    have hrec := ih (some a) hs (by simpa using hf)
    rw [findFrom, deref, hn]
    simp only [bind, Except.bind, findNodes, hrec]

theorem find_eq {test : α → Except Fault Bool} (h : l.Repr ns) :
    l.find test = findNodes test none ns :=
  findFrom_eq none h (show Seg _ _ _ _ from h).length_le

/-- What a search tells that comes to an end. -/
theorem findNodes_ok {test : α → Except Fault Bool} {prev : Option Addr}
    {r : Option (Option Addr × Addr)} (hr : findNodes test prev ns = .ok r) :
    (r = none ∧ ∀ n ∈ ns, test n.2 = .ok false) ∨
    ∃ xs n ys, ns = xs ++ n :: ys ∧ (∀ m ∈ xs, test m.2 = .ok false) ∧ test n.2 = .ok true ∧
      r = some (((xs.map Prod.fst).getLast?).or prev, n.1) := by
  induction ns generalizing prev with
  | nil =>
    cases hr
    exact Or.inl ⟨rfl, by simp⟩
  | cons n ns ih =>
    obtain ⟨a, x⟩ := n
    unfold findNodes at hr
    cases hx : test x with
    | error e =>
      rw [hx] at hr
      cases hr
    | ok b =>
      rw [hx] at hr
      cases b with
      | true =>
        cases hr
        exact Or.inr ⟨[], (a, x), ns, rfl, by simp, hx, rfl⟩
      | false =>
        rcases ih (show findNodes test (some a) ns = .ok r from hr) with
          ⟨h1, h2⟩ | ⟨xs, n, ys, rfl, h1, h2, h3⟩
        · exact Or.inl ⟨h1, by simpa [hx] using h2⟩
        · refine Or.inr ⟨(a, x) :: xs, n, ys, rfl, by simpa [hx] using h1, h2, ?_⟩
          rw [h3, List.map_cons, List.getLast?_cons]
          cases (List.map Prod.fst xs).getLast? <;> rfl

theorem find_ok {test : α → Except Fault Bool} {r : Option (Option Addr × Addr)}
    (h : l.Repr ns) (hr : l.find test = .ok r) :
    (r = none ∧ ∀ n ∈ ns, test n.2 = .ok false) ∨
    ∃ xs n ys, ns = xs ++ n :: ys ∧ (∀ m ∈ xs, test m.2 = .ok false) ∧ test n.2 = .ok true ∧
      r = some ((xs.map Prod.fst).getLast?, n.1) := by
  rw [find_eq h] at hr
  simpa only [Option.or_none] using findNodes_ok hr

/-- A search fails at a node for which its test does. -/
theorem findNodes_error {test : α → Except Fault Bool} {prev : Option Addr} {e : Fault}
    (hr : findNodes test prev ns = .error e) :
    ∃ xs n ys, ns = xs ++ n :: ys ∧ (∀ m ∈ xs, test m.2 = .ok false) ∧ test n.2 = .error e := by
  induction ns generalizing prev with
  | nil => cases hr
  | cons n ns ih =>
    obtain ⟨a, x⟩ := n
    unfold findNodes at hr
    cases hx : test x with
    | error e' =>
      rw [hx] at hr
      cases hr
      exact ⟨[], (a, x), ns, rfl, by simp, hx⟩
    | ok b =>
      rw [hx] at hr
      cases b with
      | true => cases hr
      | false =>
        obtain ⟨xs, n, ys, rfl, hxs, hn⟩ := ih hr
        refine ⟨(a, x) :: xs, n, ys, rfl, fun m hm => ?_, hn⟩
        rcases List.mem_cons.mp hm with rfl | hm
        · exact hx
        · exact hxs m hm

theorem find_error {test : α → Except Fault Bool} {e : Fault} (h : l.Repr ns)
    (hr : l.find test = .error e) :
    ∃ xs n ys, ns = xs ++ n :: ys ∧ (∀ m ∈ xs, test m.2 = .ok false) ∧ test n.2 = .error e :=
  findNodes_error ((find_eq h).symm.trans hr)

/-- The search stops at the first node that passes. -/
theorem find_first {test : α → Except Fault Bool} (h : l.Repr (ns ++ (a, x) :: ms))
    (hns : ∀ n ∈ ns, test n.2 = .ok false) (hx : test x = .ok true) :
    l.find test = .ok (some ((ns.map Prod.fst).getLast?, a)) := by
  have hall : ∀ prev, findNodes test prev (ns ++ (a, x) :: ms) =
      .ok (some (((ns.map Prod.fst).getLast?).or prev, a)) := by
    clear h
    induction ns with
    | nil =>
      intro prev
      rw [List.nil_append, findNodes, hx]
      rfl
    | cons n ns ih =>
      intro prev
      obtain ⟨b, y⟩ := n
      have hy : test y = .ok false := hns (b, y) List.mem_cons_self
      have hrec := ih (fun n hn => hns n (List.mem_cons_of_mem _ hn)) (some b)
      rw [List.cons_append, findNodes, hy]
      show findNodes test (some b) (ns ++ (a, x) :: ms) = _
      rw [hrec, List.map_cons, List.getLast?_cons]
      cases (List.map Prod.fst ns).getLast? <;> rfl
  rw [find_eq h, hall none, Option.or_none]

/-- A search with a test that never fails comes to an end. -/
theorem find_total {test : α → Except Fault Bool} {q : α → Bool} (h : l.Repr ns)
    (ht : ∀ n ∈ ns, test n.2 = .ok (q n.2)) : ∃ r, l.find test = .ok r := by
  rw [find_eq h]
  generalize (none : Option Addr) = prev
  clear h
  induction ns generalizing prev with
  | nil => exact ⟨none, rfl⟩
  | cons n ns ih =>
    obtain ⟨a, x⟩ := n
    have hx : test x = .ok (q x) := ht (a, x) List.mem_cons_self
    unfold findNodes
    rw [hx]
    cases q x with
    | true => exact ⟨_, rfl⟩
    | false => exact ih (fun n hn => ht n (List.mem_cons_of_mem _ hn)) (some a)

/-- The search with a test that never fails finds the first node that passes. -/
theorem find_spec {test : α → Except Fault Bool} {q : α → Bool} (h : l.Repr ns)
    (ht : ∀ n ∈ ns, test n.2 = .ok (q n.2)) :
    (l.find test = .ok none ∧ ∀ n ∈ ns, q n.2 = false) ∨
    ∃ xs n ys, ns = xs ++ n :: ys ∧ (∀ m ∈ xs, q m.2 = false) ∧ q n.2 = true ∧
      l.find test = .ok (some ((xs.map Prod.fst).getLast?, n.1)) := by
  have hq : ∀ n ∈ ns, ∀ b, test n.2 = .ok b → q n.2 = b := fun n hn b hb =>
    Except.ok.inj ((ht n hn).symm.trans hb)
  obtain ⟨r, hr⟩ := find_total h ht
  rcases find_ok h hr with ⟨rfl, h1⟩ | ⟨xs, n, ys, rfl, h1, h2, rfl⟩
  · exact Or.inl ⟨hr, fun n hn => hq n hn _ (h1 n hn)⟩
  · exact Or.inr ⟨xs, n, ys, rfl, fun m hm => hq m (by simp [hm]) _ (h1 m hm),
      hq n (by simp) _ h2, hr⟩

/-- The search with a test that is a comparison. -/
theorem find_pure {b : α → Bool} (h : l.Repr ns) :
    (l.find (fun x => .ok (b x)) = .ok none ∧ ∀ n ∈ ns, b n.2 = false) ∨
    ∃ xs n ys, ns = xs ++ n :: ys ∧ (∀ m ∈ xs, b m.2 = false) ∧ b n.2 = true ∧
      l.find (fun x => .ok (b x)) = .ok (some ((xs.map Prod.fst).getLast?, n.1)) :=
  find_spec h fun _ _ => rfl

/-- Writing to the data of a node changes that node only. -/
theorem modifyData_spec (h : l.Repr (ns ++ (a, x) :: ms)) (f : α → α) :
    ∃ l', l.modifyData a f = .ok l' ∧ l'.Repr (ns ++ (a, f x) :: ms) ∧ l'.size = l.size ∧
      l'.tail = l.tail ∧ l'.heap.size = l.heap.size ∧
      ∀ c, l'.heap.get? c = none ↔ l.heap.get? c = none := by
  obtain ⟨nx, hn⟩ := (show Seg _ _ _ _ from h).live (a := a) (x := x) (by simp)
  have hd : deref l.heap (some a) = .ok (a, ⟨x, nx⟩) := by rw [deref, hn]
  have he : l.modifyData a f = .ok { l with heap := l.heap.set a ⟨f x, nx⟩ } := by
    rw [modifyData]
    simp only [hd]
    rfl
  refine ⟨_, he, Seg.set_data h hn, rfl, rfl, by simp, fun c => ?_⟩
  rw [Heap.get?_set hn]
  split_ifs with h1 <;> simp_all

/-! ## The invariants of a list -/

/-- The representation invariant: `next` leads from the head through `size` live nodes, and the
tail is the last of them. -/
structure WellFormed (l : LinkedList α) : Prop where
  repr : l.Repr l.nodes
  tail : l.TailAt l.nodes
  size : l.size = l.nodes.length

/-- What is left of the invariant when nodes are unlinked inline: the tail may be freed. -/
structure Walkable (l : LinkedList α) : Prop where
  repr : l.Repr l.nodes
  tail : l.TailAt l.nodes ∨ l.TailFreed

theorem WellFormed.walkable (h : l.WellFormed) : l.Walkable := ⟨h.repr, Or.inl h.tail⟩

theorem Repr.wellFormed (h : l.Repr ns) (ht : l.TailAt ns) (hs : l.size = ns.length) :
    l.WellFormed := by
  obtain rfl := h.nodes_eq
  exact ⟨h, ht, hs⟩

theorem Repr.walkable (h : l.Repr ns) (ht : l.TailAt ns ∨ l.TailFreed) : l.Walkable := by
  obtain rfl := h.nodes_eq
  exact ⟨h, ht⟩

theorem wellFormed_initList : (initList : LinkedList α).WellFormed :=
  repr_initList.wellFormed tailAt_nil rfl

theorem toList_of_nodes (h : l.nodes = ns ++ (a, x) :: ms) :
    l.toList = ns.map Prod.snd ++ x :: ms.map Prod.snd := by
  rw [toList, h, List.map_append, List.map_cons]

@[simp] theorem nodes_initList : (initList : LinkedList α).nodes = [] := rfl

theorem WellFormed.addLastImproved (h : l.WellFormed) (x : α) :
    ∃ l', l.addLastImproved x = .ok l' ∧ l'.WellFormed ∧
      l'.nodes = l.nodes ++ [(l.heap.size, x)] := by
  obtain ⟨l', he, hr, ht, hs⟩ := addLastImproved_spec h.repr h.tail x
  refine ⟨l', he, hr.wellFormed ht ?_, hr.nodes_eq⟩
  rw [hs, h.size, List.length_append]
  rfl

theorem WellFormed.removeFirst (h : l.WellFormed) (hn : l.nodes = (a, x) :: ns) :
    ∃ l', l.removeFirst = .ok (some a, l') ∧ l'.WellFormed ∧ l'.nodes = ns ∧
      l'.heap = l.heap := by
  obtain ⟨l', he, hr, ht, hs, hh⟩ := removeFirst_spec (hn ▸ h.repr) (hn ▸ h.tail)
  refine ⟨l', he, hr.wellFormed ht ?_, hr.nodes_eq, hh⟩
  rw [hs, h.size, hn, List.length_cons]
  omega

theorem TailAt.modify {l' : LinkedList α} (hl : l'.tail = l.tail)
    (ht : l.TailAt (ns ++ (a, x) :: ms)) : l'.TailAt (ns ++ (a, y) :: ms) := by
  intro n hn
  rw [hl]
  rcases List.eq_nil_or_concat ms with rfl | ⟨ms, m, rfl⟩
  · simp only [List.getLast?_append, List.getLast?_singleton, Option.some_or,
      Option.some.injEq] at hn
    rw [ht (a, x) (by simp), ← hn]
  · rw [List.concat_eq_append, ← List.cons_append, ← List.append_assoc] at hn ht
    rw [List.getLast?_concat] at hn
    exact ht n (by rw [List.getLast?_concat, hn])

theorem WellFormed.modifyData (h : l.WellFormed) (hn : l.nodes = ns ++ (a, x) :: ms) (f : α → α) :
    ∃ l', l.modifyData a f = .ok l' ∧ l'.WellFormed ∧ l'.nodes = ns ++ (a, f x) :: ms := by
  obtain ⟨l', he, hr, hs, ht, -⟩ := modifyData_spec (hn ▸ h.repr) f
  refine ⟨l', he, hr.wellFormed ((hn ▸ h.tail).modify ht) ?_, hr.nodes_eq⟩
  rw [hs, h.size, hn, List.length_append, List.length_append]
  rfl

/-- A walk comes to a node, and after the node's data has changed it goes on with the nodes that
were behind it. -/
theorem WellFormed.visit {p : Option Addr} (h : l.WellFormed) (hn : l.nodes = ns ++ (a, x) :: ms)
    (hs : Seg l.heap p ((a, x) :: ms) none) :
    ∃ next, p = some a ∧ deref l.heap (some a) = .ok (a, ⟨x, next⟩) ∧
      ∀ f l', l.modifyData a f = .ok l' → l'.WellFormed ∧
        l'.nodes = (ns ++ [(a, f x)]) ++ ms ∧ Seg l'.heap next ms none := by
  have hnd := (show Seg _ _ _ _ from h.repr).nodup
  obtain ⟨rfl, next, hg, hs⟩ := hs
  have hd : deref l.heap (some a) = .ok (a, ⟨x, next⟩) := by rw [deref, hg]
  refine ⟨next, rfl, hd, fun f l' hl' => ?_⟩
  obtain ⟨l₁, hm, hw₁, hn₁⟩ := h.modifyData hn f
  obtain rfl := Except.ok.inj (hm.symm.trans hl')
  have hheap : l₁ = { l with heap := l.heap.set a ⟨f x, next⟩ } := by
    rw [LinkedList.modifyData, hd] at hm
    exact (Except.ok.inj hm).symm
  refine ⟨hw₁, by rw [hn₁]; simp, ?_⟩
  rw [hn, List.map_append, List.map_cons, List.nodup_middle, List.nodup_cons, List.mem_append,
    not_or] at hnd
  rw [hheap]
  exact hs.set_out hnd.1.2 ⟨_, hg⟩

theorem Walkable.modifyData (h : l.Walkable) (hn : l.nodes = ns ++ (a, x) :: ms) (f : α → α) :
    ∃ l', l.modifyData a f = .ok l' ∧ l'.Walkable ∧ l'.nodes = ns ++ (a, f x) :: ms ∧
      l'.size = l.size ∧ l'.tail = l.tail ∧ l'.heap.size = l.heap.size ∧
      ∀ c, l'.heap.get? c = none ↔ l.heap.get? c = none := by
  obtain ⟨l', he, hr, hs, ht, hsz, hfree⟩ := modifyData_spec (hn ▸ h.repr) f
  refine ⟨l', he, hr.walkable ?_, hr.nodes_eq, hs, ht, hsz, hfree⟩
  rcases h.tail with htail | ⟨t, h1, h2, h3⟩
  · exact Or.inl ((hn ▸ htail).modify ht)
  · exact Or.inr ⟨t, ht.trans h1, hsz ▸ h2, (hfree t).mpr h3⟩

/-- The inline removal leaves a list that can be walked; its size counts the removed node. -/
theorem Walkable.unlink (h : l.Walkable) (hn : l.nodes = ns ++ (b, y) :: ms) :
    ∃ l', l.unlink (ns.map Prod.fst).getLast? b = .ok l' ∧ l'.Walkable ∧ l'.nodes = ns ++ ms ∧
      l'.size = l.size ∧ (l'.TailFreed ↔ ms = [] ∨ l.TailFreed) := by
  obtain ⟨l', he, hr, hs, ht, hsz, hfree⟩ := unlink_spec (hn ▸ h.repr)
  have hstale : l.TailFreed → l'.TailFreed := fun ⟨t, h1, h2, h3⟩ =>
    ⟨t, ht.trans h1, hsz ▸ h2, (hfree t).mpr (Or.inr h3)⟩
  have hb : b < l.heap.size := by
    obtain ⟨nx, hbx⟩ := (show Seg _ _ _ _ from h.repr).live (a := b) (x := y) (by rw [hn]; simp)
    exact Heap.lt_size hbx
  rcases List.eq_nil_or_concat ms with rfl | ⟨ms, ⟨c, z⟩, rfl⟩
  · have hfreed : l'.TailFreed := by
      rcases h.tail with htail | hst
      · refine ⟨b, ?_, hsz ▸ hb, (hfree b).mpr (Or.inl rfl)⟩
        rw [ht, htail (b, y) (by rw [hn]; simp)]
      · exact hstale hst
    exact ⟨l', he, hr.walkable (Or.inr hfreed), hr.nodes_eq, hs, by simp [hfreed]⟩
  · rw [List.concat_eq_append] at *
    have hlast : l.TailAt l.nodes → l'.TailAt (ns ++ (ms ++ [(c, z)])) := by
      intro htail n hn'
      rw [← List.append_assoc, List.getLast?_concat] at hn'
      rw [ht, htail n]
      rw [hn, ← hn', ← List.cons_append, ← List.append_assoc, List.getLast?_concat]
    refine ⟨l', he, hr.walkable (h.tail.imp hlast hstale), hr.nodes_eq, hs, ?_⟩
    simp only [List.append_eq_nil_iff, List.cons_ne_self, and_false, false_or]
    refine ⟨fun hst => ?_, hstale⟩
    rcases h.tail with htail | hst'
    · exact absurd hst ((hlast htail).not_freed hr (by simp))
    · exact hst'

end LinkedList

end TopicServer
