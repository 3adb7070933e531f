import TopicServer.ListApi

/-!
# The list as a sequence

A caller may run the functions of the list in any order and frees what it removes
(`DataList.run`). Each does to the data what its description says of a sequence (`ListOp.apply`):
first on the pointers (`CallSpec`), from there on what they lead to (`Refines`), and as long as
only copies are added no two pointers lead to the same one (`Owned`), so that the list can be freed.
-/

namespace TopicServer

open Linked

/-! ## Runs -/

/-- The calls of a client of the list. -/
inductive ListOp (β : Type)
  | initList
  | addNthNode (n : ℤ) (newData : Option Addr)
  | addNthNodeImproved (n : ℤ) (newData : β)
  | addLast (newData : Option Addr)
  | addLastImproved (newData : β)
  | removeFirst
  | removeNthNode (n : ℤ)

namespace DataList

variable {β : Type}

/-- One call with the node that it returns, null for the functions that return nothing. -/
def call (s : DataList β) : ListOp β → Except Fault (Option Addr × DataList β)
  | .initList => .ok (none, s.initList)
  | .addNthNode n newData => do .ok (none, ← s.addNthNode n newData)
  | .addNthNodeImproved n newData => do .ok (none, ← s.addNthNodeImproved n newData)
  | .addLast newData => do .ok (none, ← s.addLast newData)
  | .addLastImproved newData => do .ok (none, ← s.addLastImproved newData)
  | .removeFirst => do
    let (r, list) ← s.list.removeFirst
    .ok (r, { s with list := list })
  | .removeNthNode n => do
    let (r, list) ← s.list.removeNthNode n
    .ok (r, { s with list := list })

/-- One call, after which the caller frees what was removed. -/
def step (s : DataList β) (op : ListOp β) : Except Fault (DataList β) := do
  let (r, s) ← s.call op
  let heap ← free s.list.heap r
  .ok { s with list := { s.list with heap := heap } }

def run (s : DataList β) (ops : List (ListOp β)) : Except Fault (DataList β) := ops.foldlM step s

end DataList

/-! ## Sequences -/

/-- An element: the pointer that was given, or what was copied. -/
inductive Datum (β : Type)
  | pointer (p : Option Addr)
  | copy (x : β)

/-- What a node's pointer stands for. -/
def Datum.At {β : Type} (blocks : Heap β) (p : Option Addr) : Datum β → Prop
  | .pointer q => p = q
  | .copy x => ∃ a, p = some a ∧ blocks.get? a = some ⟨x, none⟩

/-- Inserting at an index, behind the last element if it is too large. -/
def insertNth {α : Type} (xs : List α) (n : ℤ) (x : α) : List α :=
  if n < 0 then xs else xs.insertIdx (min n.toNat xs.length) x

/-- Removing at an index, the last element if it is too large. -/
def removeNth {α : Type} (xs : List α) (n : ℤ) : List α :=
  if n < 0 then xs else xs.eraseIdx (min n.toNat (xs.length - 1))

/-- The element at an index, the last one if it is too large. -/
def nth? {α : Type} (xs : List α) (n : ℤ) : Option α :=
  if n < 0 then none else xs[min n.toNat (xs.length - 1)]?

/-- What a call does to a sequence that holds `given p` for a pointer and `copied x` for a copy. -/
def ListOp.apply {β γ : Type} (given : Option Addr → γ) (copied : β → γ) (xs : List γ) :
    ListOp β → List γ
  | .initList => []
  | .addNthNode n newData => insertNth xs n (given newData)
  | .addNthNodeImproved n newData => insertNth xs n (copied newData)
  | .addLast newData => xs ++ [given newData]
  | .addLastImproved newData => xs ++ [copied newData]
  | .removeFirst => xs.tail
  | .removeNthNode n => removeNth xs n

/-- The element of a sequence that a call returns. -/
def ListOp.returned {β γ : Type} (xs : List γ) : ListOp β → Option γ
  | .removeFirst => xs.head?
  | .removeNthNode n => nth? xs n
  | _ => none

/-- The sequence after the calls. -/
def sequence {β : Type} (ops : List (ListOp β)) : List (Datum β) :=
  ops.foldl (fun xs op => op.apply Datum.pointer Datum.copy xs) []

/-- The calls of a client that adds with the `_improved` functions only. -/
def ListOp.Improved {β : Type} : ListOp β → Prop
  | .addNthNode .. => False
  | .addLast _ => False
  | _ => True

/-! ## What a call does to the pointers -/

namespace ListOp

variable {β γ δ : Type} {op : ListOp β} {given : Option Addr → γ} {copied : β → γ} {xs : List γ}

/-- What a call copies into memory. -/
def copied? : ListOp β → Option β
  | .addNthNodeImproved n newData => if n < 0 then none else some newData
  | .addLastImproved newData => some newData
  | _ => none

theorem insertNth_eq {n : ℤ} (hn : 0 ≤ n) (x : γ) : insertNth xs n x =
    xs.take (min n.toNat xs.length) ++ x :: xs.drop (min n.toNat xs.length) := by
  unfold insertNth
  rw [if_neg (by omega), insertIdx_eq_take_drop _ (Nat.min_le_right _ _)]

theorem removeNth_eq {n : ℤ} (hn : 0 ≤ n) : removeNth xs n =
    xs.take (min n.toNat (xs.length - 1)) ++ xs.drop (min n.toNat (xs.length - 1) + 1) := by
  unfold removeNth
  rw [if_neg (by omega), List.eraseIdx_eq_take_drop_succ]

theorem forall₂_insertNth {R : γ → δ → Prop} {ys : List δ} {n : ℤ} {x : γ} {y : δ}
    (h : List.Forall₂ R xs ys) (hx : 0 ≤ n → R x y) :
    List.Forall₂ R (insertNth xs n x) (insertNth ys n y) := by
  rcases lt_or_ge n 0 with hn | hn
  · simpa only [insertNth, if_pos hn] using h
  · rw [insertNth_eq hn, insertNth_eq hn, h.length_eq]
    exact List.rel_append (List.forall₂_take _ h) (.cons (hx hn) (List.forall₂_drop _ h))

/-- Calls on two sequences that are related element by element leave them related. -/
theorem forall₂_apply {R : γ → δ → Prop} {given' : Option Addr → δ} {copied' : β → δ} {ys : List δ}
    (h : List.Forall₂ R xs ys) (hgiven : ∀ p, R (given p) (given' p))
    (hcopied : ∀ x, op.copied? = some x → R (copied x) (copied' x)) :
    List.Forall₂ R (op.apply given copied xs) (op.apply given' copied' ys) := by
  cases op with
  | initList => exact .nil
  | addNthNode n p => exact forall₂_insertNth h fun _ => hgiven p
  | addNthNodeImproved n x =>
    apply forall₂_insertNth h
    intro hn
    exact hcopied x (if_neg (by omega))
  | addLast p => exact List.rel_append h (.cons (hgiven p) .nil)
  | addLastImproved x => exact List.rel_append h (.cons (hcopied x rfl) .nil)
  | removeFirst =>
    cases h with
    | nil => exact .nil
    | cons _ h => exact h
  | removeNthNode n =>
    show List.Forall₂ R (removeNth xs n) (removeNth ys n)
    rcases lt_or_ge n 0 with hn | hn
    · simpa only [removeNth, if_pos hn] using h
    · rw [removeNth_eq hn, removeNth_eq hn, h.length_eq]
      exact List.rel_append (List.forall₂_take _ h) (List.forall₂_drop _ h)

/-- With the `_improved` functions a sequence gets nothing but copies. -/
theorem apply_improved (hop : op.Improved) : (op.apply given copied xs).Sublist xs ∨
    ∃ x, op.copied? = some x ∧ (op.apply given copied xs).Perm (copied x :: xs) := by
  cases op with
  | initList => exact Or.inl (List.nil_sublist _)
  | addNthNode n p => exact absurd hop id
  | addNthNodeImproved n x =>
    have happly : (addNthNodeImproved n x).apply given copied xs = insertNth xs n (copied x) := rfl
    rw [happly, insertNth]
    split_ifs with hn
    · exact Or.inl (List.Sublist.refl _)
    · exact Or.inr ⟨x, if_neg hn, List.perm_insertIdx _ _ (Nat.min_le_right _ _)⟩
  | addLast p => exact absurd hop id
  | addLastImproved x => exact Or.inr ⟨x, rfl, List.perm_append_comm⟩
  | removeFirst => exact Or.inl (List.tail_sublist _)
  | removeNthNode n =>
    have happly : (removeNthNode n : ListOp β).apply given copied xs = removeNth xs n := rfl
    rw [happly, removeNth]
    split_ifs with hn
    · exact Or.inl (List.Sublist.refl _)
    · exact Or.inl (List.eraseIdx_sublist _ _)

end ListOp

namespace DataList

variable {β : Type} {s : DataList β} {n : ℤ} {op : ListOp β}

theorem checkIndex_size (hw : s.list.WellFormed) (hn : 0 ≤ n) :
    checkIndex s.list.size n = some ((min n.toNat s.list.nodes.length : ℕ) : ℤ) := by
  rw [hw.size, checkIndex_of_nonneg (by omega) hn, Int.toNat_natCast]

/-- Adding at an index. -/
theorem insertAt_spec (hw : s.list.WellFormed) (hn : 0 ≤ n) (p : Option Addr) :
    ∃ list, s.list.insertAt ((min n.toNat s.list.nodes.length : ℕ) : ℤ) p = .ok list ∧
      list.WellFormed ∧ list.toList = insertNth s.list.toList n p := by
  obtain ⟨i, hi⟩ : ∃ i, i = min n.toNat s.list.nodes.length := ⟨_, rfl⟩
  have hlen : (s.list.nodes.take i).length = i := by
    rw [List.length_take, hi]
    omega
  obtain ⟨list, he, hlw, hnodes⟩ := hw.insertAt (List.take_append_drop i s.list.nodes).symm p
  rw [hlen] at he
  refine ⟨list, hi ▸ he, hlw, ?_⟩
  rw [ListOp.insertNth_eq hn, LinkedList.toList, hnodes, LinkedList.toList, List.length_map, ← hi,
    List.map_append, List.map_cons, List.map_take, List.map_drop]

/-- What a call does to the list and the copies. -/
structure CallSpec (s : DataList β) (op : ListOp β) (r : Option Addr) (s' : DataList β) : Prop where
  list : s'.list.WellFormed
  pointers : s'.list.toList = op.apply id (fun _ => some s.blocks.size) s.list.toList
  blocks : s'.blocks = (op.copied?.map fun x => s.blocks.alloc ⟨x, none⟩).getD s.blocks
  returned : r = op.returned (s.list.nodes.map Prod.fst)
  removed : ∀ a, r = some a → a ∉ s'.list.nodes.map Prod.fst ∧ ∃ m, s'.list.heap.get? a = some m

theorem call_initList : ∃ r s', s.call .initList = .ok (r, s') ∧ CallSpec s .initList r s' := by
  have hr : s.initList.list.Repr [] := (rfl : (none : Option Addr) = none)
  exact ⟨none, s.initList, rfl, hr.wellFormed LinkedList.tailAt_nil rfl, hr.toList_eq, rfl, rfl,
    fun a ha => by cases ha⟩

theorem call_addNthNode (hw : s.list.WellFormed) (n : ℤ) (p : Option Addr) :
    ∃ r s', s.call (.addNthNode n p) = .ok (r, s') ∧ CallSpec s (.addNthNode n p) r s' := by
  rcases lt_or_ge n 0 with hn | hn
  · have he : s.addNthNode n p = .ok s := by
      rw [addNthNode, checkIndex_neg (by rw [hw.size]; omega) hn]
    exact ⟨none, s, by rw [call, he]; rfl, hw, (if_pos hn).symm, rfl, rfl, fun a ha => by cases ha⟩
  · obtain ⟨list, hadd, hlw, hlist⟩ := insertAt_spec hw hn p
    have he : s.addNthNode n p = .ok { s with list := list } := by
      rw [addNthNode, checkIndex_size hw hn]
      simp only [hadd, bind, Except.bind]
    exact ⟨none, { s with list := list }, by rw [call, he]; rfl, hlw, hlist, rfl, rfl,
      fun a ha => by cases ha⟩

theorem call_addNthNodeImproved (hw : s.list.WellFormed) (n : ℤ) (x : β) :
    ∃ r s', s.call (.addNthNodeImproved n x) = .ok (r, s') ∧
      CallSpec s (.addNthNodeImproved n x) r s' := by
  rcases lt_or_ge n 0 with hn | hn
  · have he : s.addNthNodeImproved n x = .ok s := by
      rw [addNthNodeImproved, checkIndex_neg (by rw [hw.size]; omega) hn]
    have hcopied : (ListOp.addNthNodeImproved n x).copied? = none := if_pos hn
    exact ⟨none, s, by rw [call, he]; rfl, hw, (if_pos hn).symm, by rw [hcopied]; rfl, rfl,
      fun a ha => by cases ha⟩
  · obtain ⟨list, hadd, hlw, hlist⟩ := insertAt_spec hw hn (some s.blocks.size)
    have he : s.addNthNodeImproved n x =
        .ok { list := list, blocks := s.blocks.alloc ⟨x, none⟩ } := by
      rw [addNthNodeImproved, checkIndex_size hw hn]
      simp only [hadd, bind, Except.bind]
    have hcopied : (ListOp.addNthNodeImproved n x).copied? = some x := if_neg (by omega)
    exact ⟨none, _, by rw [call, he]; rfl, hlw, hlist, by rw [hcopied]; rfl, rfl,
      fun a ha => by cases ha⟩

theorem addLast_toList {list list' : LinkedList (Option Addr)} {a : Addr} {p : Option Addr}
    (hn : list'.nodes = list.nodes ++ [(a, p)]) : list'.toList = list.toList ++ [p] := by
  rw [LinkedList.toList, hn, List.map_append]
  rfl

theorem call_addLast (hw : s.list.WellFormed) (p : Option Addr) :
    ∃ r s', s.call (.addLast p) = .ok (r, s') ∧ CallSpec s (.addLast p) r s' := by
  obtain ⟨list, hadd, hlw, hnodes⟩ := hw.addLastImproved p
  have he : s.addLast p = .ok { s with list := list } := by rw [addLast, hadd]; rfl
  exact ⟨none, { s with list := list }, by rw [call, he]; rfl, hlw, addLast_toList hnodes, rfl, rfl,
    fun a ha => by cases ha⟩

theorem call_addLastImproved (hw : s.list.WellFormed) (x : β) :
    ∃ r s', s.call (.addLastImproved x) = .ok (r, s') ∧ CallSpec s (.addLastImproved x) r s' := by
  obtain ⟨list, hadd, hlw, hnodes⟩ := hw.addLastImproved (some s.blocks.size)
  have he : s.addLastImproved x = .ok { list := list, blocks := s.blocks.alloc ⟨x, none⟩ } := by
    rw [addLastImproved, hadd]
    rfl
  exact ⟨none, _, by rw [call, he]; rfl, hlw, addLast_toList hnodes, rfl, rfl,
    fun a ha => by cases ha⟩

theorem call_removeFirst (hw : s.list.WellFormed) :
    ∃ r s', s.call .removeFirst = .ok (r, s') ∧ CallSpec s .removeFirst r s' := by
  have hr := hw.repr
  cases hn : s.list.nodes with
  | nil =>
    rw [hn] at hr
    refine ⟨none, s, by rw [call, LinkedList.removeFirst_nil hr]; rfl, hw, ?_, rfl, ?_,
      fun a ha => by cases ha⟩
    · rw [LinkedList.toList, hn]
      rfl
    · rw [hn]
      rfl
  | cons m ns =>
    obtain ⟨a, p⟩ := m
    rw [hn] at hr
    obtain ⟨list, he, hlw, hnodes, hheap⟩ := hw.removeFirst hn
    refine ⟨some a, { s with list := list }, by rw [call, he]; rfl, hlw, ?_, rfl, ?_, ?_⟩
    · show list.toList = s.list.toList.tail
      rw [LinkedList.toList, LinkedList.toList, hn, hnodes]
      rfl
    · rw [hn]
      rfl
    · intro b hb
      cases hb
      show a ∉ list.nodes.map Prod.fst ∧ ∃ m, list.heap.get? a = some m
      rw [hnodes, hheap]
      exact ⟨(List.nodup_cons.mp (Seg.nodup hr)).1, Seg.live_of_mem hr List.mem_cons_self⟩

theorem call_removeNthNode (hw : s.list.WellFormed) (n : ℤ) :
    ∃ r s', s.call (.removeNthNode n) = .ok (r, s') ∧ CallSpec s (.removeNthNode n) r s' := by
  have hr := hw.repr
  have hnone (he : s.list.removeNthNode n = .ok (none, s.list))
      (hsame : removeNth s.list.toList n = s.list.toList)
      (hret : nth? (s.list.nodes.map Prod.fst) n = none) :
      ∃ r s', s.call (.removeNthNode n) = .ok (r, s') ∧ CallSpec s (.removeNthNode n) r s' :=
    ⟨none, s, by rw [call, he]; rfl, hw, hsame.symm, rfl, hret.symm, fun a ha => by cases ha⟩
  rcases eq_or_ne s.list.nodes [] with hnil | hne
  · have hhead : s.list.head = none := hr.head_eq_none.mpr hnil
    apply hnone
    · rw [LinkedList.removeNthNode, hhead]
    · rw [LinkedList.toList, hnil, removeNth]
      split_ifs <;> rfl
    · rw [hnil, nth?]
      split_ifs <;> rfl
  obtain ⟨c, hc⟩ := hr.head_eq_some hne
  have hpos := List.length_pos_of_ne_nil hne
  have hlast : 0 ≤ s.list.size - 1 := by
    rw [hw.size]
    omega
  rcases lt_or_ge n 0 with hn | hn
  · exact hnone (by rw [LinkedList.removeNthNode, hc, checkIndex_neg hlast hn]) (if_pos hn)
      (if_pos hn)
  obtain ⟨i, hi⟩ : ∃ i, i = min n.toNat (s.list.nodes.length - 1) := ⟨_, rfl⟩
  have hlt : i < s.list.nodes.length := by omega
  have hsplit : s.list.nodes =
      s.list.nodes.take i ++ s.list.nodes[i] :: s.list.nodes.drop (i + 1) := by
    rw [← List.drop_eq_getElem_cons hlt, List.take_append_drop]
  have hlen : (s.list.nodes.take i).length = i := by
    rw [List.length_take]
    omega
  have hindex : checkIndex (s.list.size - 1) n = some ((s.list.nodes.take i).length : ℤ) := by
    rw [hlen, checkIndex_of_nonneg hlast hn, hw.size, hi]
    congr 3
    omega
  obtain ⟨list, he, hlw, hnodes, hlive⟩ := hw.removeNthNode hsplit hindex
  refine ⟨_, { s with list := list }, by rw [call, he]; rfl, hlw, ?_, rfl, ?_, ?_⟩
  · show list.toList = removeNth s.list.toList n
    rw [ListOp.removeNth_eq hn, LinkedList.toList, hnodes, LinkedList.toList, List.length_map, ← hi,
      List.map_append, List.map_take, List.map_drop]
  · show _ = nth? (s.list.nodes.map Prod.fst) n
    rw [nth?, if_neg (by omega), List.length_map, ← hi, List.getElem?_map,
      List.getElem?_eq_getElem hlt]
    rfl
  · intro a ha
    cases ha
    refine ⟨?_, hlive⟩
    show _ ∉ list.nodes.map Prod.fst
    rw [hnodes]
    rw [hsplit] at hr
    exact Seg.not_mem_of_middle hr

theorem call_spec (hw : s.list.WellFormed) (op : ListOp β) :
    ∃ r s', s.call op = .ok (r, s') ∧ CallSpec s op r s' := by
  cases op with
  | initList => exact call_initList
  | addNthNode n p => exact call_addNthNode hw n p
  | addNthNodeImproved n x => exact call_addNthNodeImproved hw n x
  | addLast p => exact call_addLast hw p
  | addLastImproved x => exact call_addLastImproved hw x
  | removeFirst => exact call_removeFirst hw
  | removeNthNode n => exact call_removeNthNode hw n

/-! ## Runs of calls -/

/-- The nodes from the head hold the sequence. -/
structure Refines (s : DataList β) (xs : List (Datum β)) : Prop where
  list : s.list.WellFormed
  data : List.Forall₂ (Datum.At s.blocks) s.list.toList xs

/-- Every pointer of the list leads to a copy, and no other one to the same. -/
structure Owned (s : DataList β) : Prop where
  nodup : s.list.toList.Nodup
  copies : ∀ p ∈ s.list.toList, ∃ a x, p = some a ∧ s.blocks.get? a = some x

variable {r : Option Addr} {s' : DataList β} {xs : List (Datum β)}

theorem refines_initList (s : DataList β) : s.initList.Refines [] := by
  have hr : s.initList.list.Repr [] := (rfl : (none : Option Addr) = none)
  refine ⟨hr.wellFormed LinkedList.tailAt_nil rfl, ?_⟩
  rw [hr.toList_eq]
  exact .nil

theorem owned_initList (s : DataList β) : s.initList.Owned := by
  have hr : s.initList.list.Repr [] := (rfl : (none : Option Addr) = none)
  have hnil : s.initList.list.toList = [] := hr.toList_eq
  constructor
  · rw [hnil]
    exact List.nodup_nil
  · rw [hnil]
    exact fun p hp => by cases hp

/-- What is in memory stays there. -/
theorem CallSpec.get_blocks (h : CallSpec s op r s') {a : Addr} {m : Node β}
    (ha : s.blocks.get? a = some m) : s'.blocks.get? a = some m := by
  rw [h.blocks]
  cases op.copied? with
  | none => exact ha
  | some x =>
    show (s.blocks.alloc ⟨x, none⟩).get? a = some m
    rw [Heap.get?_alloc, if_neg (Nat.ne_of_lt (Heap.lt_size ha)), ha]

theorem CallSpec.get_copied (h : CallSpec s op r s') {x : β} (hx : op.copied? = some x) :
    s'.blocks.get? s.blocks.size = some ⟨x, none⟩ := by
  rw [h.blocks, hx]
  show (s.blocks.alloc ⟨x, none⟩).get? s.blocks.size = some ⟨x, none⟩
  rw [Heap.get?_alloc, if_pos rfl]

theorem CallSpec.refines (h : CallSpec s op r s') (hs : s.Refines xs) :
    s'.Refines (op.apply Datum.pointer Datum.copy xs) := by
  refine ⟨h.list, ?_⟩
  rw [h.pointers]
  apply ListOp.forall₂_apply
  · refine hs.data.imp fun p d hd => ?_
    cases d with
    | pointer q => exact hd
    | copy x =>
      obtain ⟨a, rfl, ha⟩ := hd
      exact ⟨a, rfl, h.get_blocks ha⟩
  · exact fun p => rfl
  · exact fun x hx => ⟨_, rfl, h.get_copied hx⟩

theorem CallSpec.owned (h : CallSpec s op r s') (hop : op.Improved) (hs : s.Owned) : s'.Owned := by
  have hold : ∀ p ∈ s.list.toList, ∃ a x, p = some a ∧ s'.blocks.get? a = some x := by
    intro p hp
    obtain ⟨a, x, rfl, ha⟩ := hs.copies p hp
    exact ⟨a, x, rfl, h.get_blocks ha⟩
  have hfresh : some s.blocks.size ∉ s.list.toList := by
    intro hmem
    obtain ⟨a, x, ha, hx⟩ := hs.copies _ hmem
    obtain rfl := Option.some.inj ha
    rw [Heap.get?_size] at hx
    cases hx
  have hp := h.pointers
  have happly : (op.apply id (fun _ => some s.blocks.size) s.list.toList).Sublist s.list.toList ∨
      ∃ x, op.copied? = some x ∧ (op.apply id (fun _ => some s.blocks.size) s.list.toList).Perm
        (some s.blocks.size :: s.list.toList) := ListOp.apply_improved hop
  rcases happly with hsub | ⟨x, hx, hperm⟩
  · rw [← hp] at hsub
    exact ⟨hsub.nodup hs.nodup, fun p hp => hold p (hsub.mem hp)⟩
  · rw [← hp] at hperm
    refine ⟨hperm.nodup_iff.mpr (List.nodup_cons.mpr ⟨hfresh, hs.nodup⟩), fun p hp => ?_⟩
    rcases List.mem_cons.mp (hperm.mem_iff.mp hp) with rfl | hp
    · exact ⟨_, _, rfl, h.get_copied hx⟩
    · exact hold p hp

/-- A call and the caller's `free`. -/
theorem step_spec (hw : s.list.WellFormed) (op : ListOp β) :
    ∃ r s₁ s', s.step op = .ok s' ∧ CallSpec s op r s₁ ∧ s'.list.WellFormed ∧
      s'.list.toList = s₁.list.toList ∧ s'.blocks = s₁.blocks := by
  obtain ⟨r, s₁, he, hc⟩ := call_spec hw op
  unfold step
  rw [he]
  cases r with
  | none => exact ⟨none, s₁, s₁, rfl, hc, hc.list, rfl, rfl⟩
  | some a =>
    obtain ⟨hout, m, hm⟩ := hc.removed a rfl
    obtain ⟨hlw, hnodes⟩ := hc.list.free_out hout
    have hfree : free s₁.list.heap (some a) = .ok (s₁.list.heap.free a) := by
      rw [free, deref, hm]
      rfl
    simp only [bind, Except.bind, hfree]
    refine ⟨some a, s₁, _, rfl, hc, hlw, ?_, rfl⟩
    rw [LinkedList.toList, LinkedList.toList, hnodes]

theorem step_refines (hs : s.Refines xs) (op : ListOp β) :
    ∃ s', s.step op = .ok s' ∧ s'.Refines (op.apply Datum.pointer Datum.copy xs) ∧
      (op.Improved → s.Owned → s'.Owned) := by
  obtain ⟨r, s₁, s', he, hc, hlw, hlist, hblocks⟩ := step_spec hs.list op
  refine ⟨s', he, ⟨hlw, ?_⟩, fun hop ho => ⟨?_, ?_⟩⟩
  · rw [hlist, hblocks]
    exact (hc.refines hs).data
  · rw [hlist]
    exact (hc.owned hop ho).nodup
  · rw [hlist, hblocks]
    exact (hc.owned hop ho).copies

theorem run_refines (hs : s.Refines xs) (ops : List (ListOp β)) :
    ∃ s', s.run ops = .ok s' ∧
      s'.Refines (ops.foldl (fun xs op => op.apply Datum.pointer Datum.copy xs) xs) ∧
      ((∀ op ∈ ops, op.Improved) → s.Owned → s'.Owned) := by
  induction ops generalizing s xs with
  | nil => exact ⟨s, rfl, hs, fun _ ho => ho⟩
  | cons op ops ih =>
    obtain ⟨s₁, he, hs₁, ho₁⟩ := step_refines hs op
    obtain ⟨s', hrun, hs', ho'⟩ := ih hs₁
    refine ⟨s', ?_, hs', fun hops ho => ?_⟩
    · rw [run, List.foldlM_cons, he]
      exact hrun
    · exact ho' (fun op hop => hops op (List.mem_cons_of_mem _ hop))
        (ho₁ (hops op List.mem_cons_self) ho)

/-! ## Freeing a list -/

/-- The cells of `h` without those at the addresses. -/
def Released {α : Type} (h h' : Heap α) (addrs : List Addr) : Prop :=
  ∀ a, h'.get? a = if a ∈ addrs then none else h.get? a

theorem Released.cons {α : Type} {h h' : Heap α} {a : Addr} {addrs : List Addr}
    (hr : Released (h.free a) h' addrs) : Released h h' (a :: addrs) := by
  intro b
  rw [hr b, Heap.get?_free]
  by_cases hb : b = a
  · simp [hb]
  · simp [hb]

/-- Every round releases the first node and its copy. -/
theorem freeLoop_spec {fuel : ℕ} (hw : s.list.WellFormed) (ho : s.Owned)
    (hfuel : fuel = s.list.nodes.length) :
    ∃ s', freeLoop fuel s = .ok s' ∧
      Released s.list.heap s'.list.heap (s.list.nodes.map Prod.fst) ∧
      Released s.blocks s'.blocks (s.list.toList.filterMap id) := by
  induction fuel generalizing s with
  | zero =>
    have hnil : s.list.nodes = [] := List.length_eq_zero_iff.mp hfuel.symm
    have hsize : s.list.getSize ≤ 0 := by
      rw [LinkedList.getSize, hw.size, hnil]
      exact le_rfl
    refine ⟨s, ?_, fun a => ?_, fun a => ?_⟩
    · rw [freeLoop, if_pos hsize]
    · rw [hnil]
      rfl
    · rw [LinkedList.toList, hnil]
      rfl
  | succ fuel ih =>
    obtain ⟨⟨a, p⟩, ns, hn⟩ : ∃ n ns, s.list.nodes = n :: ns :=
      List.exists_cons_of_ne_nil (List.ne_nil_of_length_pos (by omega))
    have hr : Seg s.list.heap s.list.head s.list.nodes none := hw.repr
    rw [hn] at hr hfuel
    have hlist : s.list.toList = p :: ns.map Prod.snd := by
      rw [LinkedList.toList, hn, List.map_cons]
    have hnd := ho.nodup
    rw [hlist, List.nodup_cons] at hnd
    obtain ⟨b, m, rfl, hb⟩ := ho.copies p (by rw [hlist]; exact List.mem_cons_self)
    obtain ⟨nx, ha⟩ := hr.live List.mem_cons_self
    obtain ⟨list, hrem, hlw, hnodes, hheap⟩ := hw.removeFirst hn
    have hout : a ∉ list.nodes.map Prod.fst := by
      rw [hnodes]
      exact (List.nodup_cons.mp hr.nodup).1
    obtain ⟨hlw', hnodes'⟩ := hlw.free_out hout
    have hsize : ¬ s.list.getSize ≤ 0 := by
      rw [LinkedList.getSize, hw.size, hn, List.length_cons]
      omega
    have hround : freeLoop (fuel + 1) s = freeLoop fuel
        ⟨{ list with heap := list.heap.free a }, s.blocks.free b⟩ := by
      rw [freeLoop, if_neg hsize, hrem]
      simp only [bind, Except.bind, deref, hheap, ha, free, hb]
    have hrest : ({ list with heap := list.heap.free a } : LinkedList (Option Addr)).toList =
        ns.map Prod.snd := by
      rw [LinkedList.toList, hnodes', hnodes]
    have howned : Owned ⟨{ list with heap := list.heap.free a }, s.blocks.free b⟩ := by
      refine ⟨hrest ▸ hnd.2, fun q hq => ?_⟩
      rw [hrest] at hq
      obtain ⟨c, x, rfl, hc⟩ := ho.copies q (by rw [hlist]; exact List.mem_cons_of_mem _ hq)
      have hne : c ≠ b := by
        rintro rfl
        exact hnd.1 hq
      exact ⟨c, x, rfl, by rw [Heap.get?_free, if_neg hne, hc]⟩
    obtain ⟨s', he, hcells, hblocks⟩ := ih hlw' howned (by
      rw [hnodes', hnodes]
      exact Nat.succ.inj hfuel)
    rw [hnodes', hnodes, hheap] at hcells
    rw [hrest] at hblocks
    refine ⟨s', hround.trans he, ?_, ?_⟩
    · rw [hn]
      exact hcells.cons
    · rw [hlist]
      exact hblocks.cons

theorem freeListImproved_spec (hw : s.list.WellFormed) (ho : s.Owned) :
    ∃ cells blocks, s.freeListImproved = .ok (cells, blocks) ∧
      Released s.list.heap cells (s.list.nodes.map Prod.fst) ∧
      Released s.blocks blocks (s.list.toList.filterMap id) := by
  have hfuel : s.list.size.toNat = s.list.nodes.length := by
    rw [hw.size, Int.toNat_natCast]
  obtain ⟨s', he, hcells, hblocks⟩ := freeLoop_spec hw ho hfuel
  exact ⟨_, _, by rw [freeListImproved, he]; rfl, hcells, hblocks⟩

/-- Whatever calls follow `init_list`, in whatever memory: none of them faults, the list holds the
sequence of its description, a removal returns its node, and after the `_improved` functions alone
`free_list_improved` releases the nodes and their copies, each once, since `free` of a released
cell is a fault. -/
theorem list_refines_sequence (s₀ : DataList β) (ops : List (ListOp β)) :
    ∃ s, s₀.run (.initList :: ops) = .ok s ∧ s.Refines (sequence ops) ∧
      s.list.getSize = (sequence ops).length ∧
      (∀ op : ListOp β, ∃ r s', s.call op = .ok (r, s') ∧
        r = op.returned (s.list.nodes.map Prod.fst)) ∧
      ((∀ op ∈ ops, op.Improved) → ∃ cells blocks, s.freeListImproved = .ok (cells, blocks) ∧
        Released s.list.heap cells (s.list.nodes.map Prod.fst) ∧
        Released s.blocks blocks (s.list.toList.filterMap id)) := by
  obtain ⟨s, hrun, hs, hown⟩ := run_refines (refines_initList s₀) ops
  refine ⟨s, hrun, hs, ?_, fun op => ?_, fun hops => ?_⟩
  · have hlen : s.list.toList.length = (sequence ops).length := hs.data.length_eq
    rw [LinkedList.getSize, hs.list.size, ← hlen, LinkedList.toList, List.length_map]
  · obtain ⟨r, s', he, hc⟩ := call_spec hs.list op
    exact ⟨r, s', he, hc.returned⟩
  · exact freeListImproved_spec hs.list (hown hops (owned_initList s₀))

/-- An append behind the freed tail of an emptied list. -/
example : ((⟨.initList, .empty⟩ : DataList ℕ).run
    [.addLastImproved 7, .removeNthNode 3, .addLastImproved 8]).toOption.map
      (fun s => (s.list.toList, s.list.size)) = some ([some 1], 1) := by
  decide

end DataList

end TopicServer
