import Mathlib.Tactic

/-!
# Singly linked cells

A `Heap` of cells that are allocated at fresh addresses and may be freed. `Seg h p ns q` says
that following `next` from `p` visits the live cells `ns`, given with their data, and arrives at
`q`; a complete list is `Seg h p ns none`. The lemmas say what the heap operations do to
segments: a segment depends only on its own cells (`Seg.congr`), a complete one has no repeated
cell (`Seg.nodup`) and is the only one from its head (`Seg.unique`).
-/

namespace Linked

/-- The address of a cell. -/
abbrev Addr := ℕ

/-- A cell: its data and the address of the next cell, `none` for a null pointer. -/
structure Node (α : Type) where
  data : α
  next : Option Addr
  deriving DecidableEq

/-- The cells allocated so far, by address; a freed cell is `none`. -/
structure Heap (α : Type) where
  cells : List (Option (Node α))
  deriving DecidableEq

namespace Heap

variable {α : Type}

/-- The empty heap. -/
def empty : Heap α := ⟨[]⟩

/-- The number of addresses used so far, and the next address. -/
def size (h : Heap α) : ℕ := h.cells.length

/-- The live cell at `a`. -/
def get? (h : Heap α) (a : Addr) : Option (Node α) := h.cells.getD a none

/-- Allocate a cell at the fresh address `h.size`. -/
def alloc (h : Heap α) (n : Node α) : Heap α := ⟨h.cells ++ [some n]⟩

/-- Overwrite the cell at `a`. -/
def set (h : Heap α) (a : Addr) (n : Node α) : Heap α := ⟨h.cells.set a (some n)⟩

/-- Free the cell at `a`. -/
def free (h : Heap α) (a : Addr) : Heap α := ⟨h.cells.set a none⟩

variable {h : Heap α} {a b : Addr} {n m : Node α}

@[simp] theorem size_alloc : (h.alloc n).size = h.size + 1 := by simp [size, alloc]

@[simp] theorem size_set : (h.set a n).size = h.size := by simp [size, set]

@[simp] theorem size_free : (h.free a).size = h.size := by simp [size, free]

theorem lt_size (hn : h.get? a = some n) : a < h.size := by
  by_contra hlt
  have hlen : h.cells.length ≤ a := not_lt.mp hlt
  rw [get?, List.getD_eq_getElem?_getD, List.getElem?_eq_none hlen] at hn
  cases hn

theorem get?_size : h.get? h.size = none := by
  unfold get? size
  rw [List.getD_eq_getElem?_getD, List.getElem?_eq_none le_rfl]
  rfl

theorem get?_alloc : (h.alloc n).get? b = if b = h.size then some n else h.get? b := by
  unfold get? alloc size
  simp only [List.getD_eq_getElem?_getD]
  by_cases hb : b = h.cells.length
  · subst hb
    simp
  · rw [if_neg hb, List.getElem?_append]
    split_ifs with hlt
    · rfl
    · have hgt : h.cells.length < b := lt_of_le_of_ne (not_lt.mp hlt) (Ne.symm hb)
      rw [List.getElem?_eq_none (Nat.sub_pos_of_lt hgt), List.getElem?_eq_none hgt.le]

theorem get?_set (hm : h.get? a = some m) :
    (h.set a n).get? b = if b = a then some n else h.get? b := by
  have ha : a < h.cells.length := lt_size hm
  unfold get? set
  simp only [List.getD_eq_getElem?_getD, List.getElem?_set]
  by_cases hb : b = a
  · simp [hb, ha]
  · rw [if_neg hb, if_neg (Ne.symm hb)]

/-- Writing back what a cell holds changes nothing. -/
theorem set_self (hn : h.get? a = some n) : h.set a n = h := by
  have ha : a < h.cells.length := lt_size hn
  obtain ⟨cells⟩ := h
  unfold set
  congr 1
  apply List.ext_getElem?
  intro b
  rw [List.getElem?_set]
  by_cases hb : a = b
  · subst hb
    rw [if_pos rfl, if_pos ha]
    unfold get? at hn
    rw [List.getD_eq_getElem?_getD, List.getElem?_eq_getElem ha, Option.getD_some] at hn
    rw [List.getElem?_eq_getElem ha, hn]
  · rw [if_neg hb]

theorem get?_free : (h.free a).get? b = if b = a then none else h.get? b := by
  unfold get? free
  simp only [List.getD_eq_getElem?_getD, List.getElem?_set]
  by_cases hb : b = a
  · subst hb
    split_ifs <;> rfl
  · rw [if_neg hb, if_neg (Ne.symm hb)]

@[simp] theorem free_set : (h.set a n).free a = h.free a := by simp [free, set]

end Heap

variable {α : Type}

/-- Following `next` from `p` visits the cells `ns` and arrives at `q`. -/
def Seg (h : Heap α) : Option Addr → List (Addr × α) → Option Addr → Prop
  | p, [], q => p = q
  | p, (a, x) :: ns, q => p = some a ∧ ∃ nx, h.get? a = some ⟨x, nx⟩ ∧ Seg h nx ns q

namespace Seg

variable {h h' : Heap α} {p q : Option Addr} {ns ms : List (Addr × α)} {a : Addr} {x : α}

@[simp] theorem nil_iff : Seg h p [] q ↔ p = q := Iff.rfl

theorem cons_iff : Seg h p ((a, x) :: ns) q ↔
    p = some a ∧ ∃ nx, h.get? a = some ⟨x, nx⟩ ∧ Seg h nx ns q := Iff.rfl

theorem append_iff : Seg h p (ns ++ ms) q ↔ ∃ m, Seg h p ns m ∧ Seg h m ms q := by
  induction ns generalizing p with
  | nil => simp
  | cons n ns ih =>
    obtain ⟨a, x⟩ := n
    simp only [List.cons_append, cons_iff, ih]
    constructor
    · rintro ⟨rfl, nx, hn, m, h1, h2⟩
      exact ⟨m, ⟨rfl, nx, hn, h1⟩, h2⟩
    · rintro ⟨m, ⟨rfl, nx, hn, h1⟩, h2⟩
      exact ⟨rfl, nx, hn, m, h1, h2⟩

/-- The cells of a segment are live and hold their data. -/
theorem live (hs : Seg h p ns q) (hm : (a, x) ∈ ns) : ∃ nx, h.get? a = some ⟨x, nx⟩ := by
  induction ns generalizing p with
  | nil => cases hm
  | cons n ns ih =>
    obtain ⟨b, y⟩ := n
    obtain ⟨-, nx, hn, hs⟩ := hs
    rcases List.mem_cons.mp hm with he | hm
    · obtain ⟨rfl, rfl⟩ := Prod.mk.injEq _ _ _ _ ▸ he
      exact ⟨nx, hn⟩
    · exact ih hs hm

theorem live_of_mem (hs : Seg h p ns q) (hm : a ∈ ns.map Prod.fst) :
    ∃ n, h.get? a = some n := by
  obtain ⟨⟨b, x⟩, hb, rfl⟩ := List.mem_map.mp hm
  obtain ⟨nx, hn⟩ := hs.live hb
  exact ⟨_, hn⟩

/-- A segment depends only on its own cells. -/
theorem congr (hs : Seg h p ns q) (hc : ∀ b ∈ ns.map Prod.fst, h'.get? b = h.get? b) :
    Seg h' p ns q := by
  induction ns generalizing p with
  | nil => exact hs
  | cons n ns ih =>
    obtain ⟨b, y⟩ := n
    obtain ⟨rfl, nx, hn, hs⟩ := hs
    refine ⟨rfl, nx, ?_, ih hs fun c hcm => hc c (List.mem_cons_of_mem _ hcm)⟩
    rw [hc b List.mem_cons_self, hn]

theorem set_out {n : Node α} (hs : Seg h p ns q) (ha : a ∉ ns.map Prod.fst)
    (hl : ∃ m, h.get? a = some m) : Seg (h.set a n) p ns q := by
  obtain ⟨m, hl⟩ := hl
  refine hs.congr fun b hb => ?_
  rw [Heap.get?_set hl, if_neg (ne_of_mem_of_not_mem hb ha)]

theorem free_out (hs : Seg h p ns q) (ha : a ∉ ns.map Prod.fst) : Seg (h.free a) p ns q := by
  refine hs.congr fun b hb => ?_
  rw [Heap.get?_free, if_neg (ne_of_mem_of_not_mem hb ha)]

theorem alloc_out {n : Node α} (hs : Seg h p ns q) : Seg (h.alloc n) p ns q := by
  refine hs.congr fun b hb => ?_
  obtain ⟨m, hm⟩ := hs.live_of_mem hb
  rw [Heap.get?_alloc, if_neg (Nat.ne_of_lt (Heap.lt_size hm))]

/-- Two complete lists from one pointer are equal. -/
theorem unique (hs : Seg h p ns none) (hs' : Seg h p ms none) : ns = ms := by
  induction ns generalizing p ms with
  | nil =>
    cases ms with
    | nil => rfl
    | cons m ms =>
      obtain ⟨rfl, -⟩ := hs'
      cases hs
  | cons n ns ih =>
    obtain ⟨a, x⟩ := n
    obtain ⟨rfl, nx, hn, hs⟩ := hs
    cases ms with
    | nil => cases hs'
    | cons m ms =>
      obtain ⟨b, y⟩ := m
      obtain ⟨he, nx', hn', hs'⟩ := hs'
      obtain rfl := Option.some.inj he
      obtain ⟨rfl, rfl⟩ := (Node.mk.injEq ..).mp (Option.some.inj (hn.symm.trans hn'))
      rw [ih hs hs']

/-- A complete list visits no cell twice. -/
theorem nodup (hs : Seg h p ns none) : (ns.map Prod.fst).Nodup := by
  induction ns generalizing p with
  | nil => exact List.nodup_nil
  | cons n ns ih =>
    obtain ⟨a, x⟩ := n
    obtain ⟨rfl, nx, hn, hs⟩ := hs
    rw [List.map_cons, List.nodup_cons]
    refine ⟨fun hm => ?_, ih hs⟩
    obtain ⟨⟨b, y⟩, hb, rfl⟩ := List.mem_map.mp hm
    -- a second visit to the head would make the list longer than itself
    obtain ⟨l₁, l₂, rfl⟩ := List.append_of_mem hb
    obtain ⟨m, -, h2⟩ := append_iff.mp hs
    obtain ⟨rfl, nx', hn', h3⟩ := h2
    obtain ⟨rfl, rfl⟩ := (Node.mk.injEq ..).mp (Option.some.inj (hn.symm.trans hn'))
    have hlen := congrArg List.length (hs.unique h3)
    simp only [List.length_append, List.length_cons] at hlen
    omega

theorem length_le (hs : Seg h p ns none) : ns.length ≤ h.size := by
  have hsub : ns.map Prod.fst ⊆ List.range h.size := fun b hb => by
    obtain ⟨n, hn⟩ := hs.live_of_mem hb
    exact List.mem_range.mpr (Heap.lt_size hn)
  have hle := (List.subperm_of_subset hs.nodup hsub).length_le
  rwa [List.length_map, List.length_range] at hle

/-- Overwriting the data of one cell of a complete list. -/
theorem set_data {y : α} {nx : Option Addr} (hs : Seg h p (ns ++ (a, x) :: ms) none)
    (hn : h.get? a = some ⟨x, nx⟩) : Seg (h.set a ⟨y, nx⟩) p (ns ++ (a, y) :: ms) none := by
  have hnd := hs.nodup
  rw [List.map_append, List.map_cons, List.nodup_middle, List.nodup_cons, List.mem_append,
    not_or] at hnd
  obtain ⟨m, h1, rfl, nx', hn', h2⟩ := append_iff.mp hs
  obtain rfl : nx = nx' := by
    have := Option.some.inj (hn.symm.trans hn')
    exact congrArg Node.next this
  refine append_iff.mpr ⟨some a, h1.set_out hnd.1.1 ⟨_, hn⟩, rfl, nx, ?_,
    h2.set_out hnd.1.2 ⟨_, hn⟩⟩
  rw [Heap.get?_set hn, if_pos rfl]

/-- Linking a fresh cell between a cell and its successor. -/
theorem insert {y : α} {nx : Option Addr} (hs : Seg h p (ns ++ (a, x) :: ms) none)
    (hn : h.get? a = some ⟨x, nx⟩) :
    Seg ((h.alloc ⟨y, nx⟩).set a ⟨x, some h.size⟩) p (ns ++ (a, x) :: (h.size, y) :: ms) none := by
  have hnd := hs.nodup
  rw [List.map_append, List.map_cons, List.nodup_middle, List.nodup_cons, List.mem_append,
    not_or] at hnd
  obtain ⟨m, h1, rfl, nx', hn', h2⟩ := append_iff.mp hs
  obtain rfl : nx = nx' := congrArg Node.next (Option.some.inj (hn.symm.trans hn'))
  have hsz : a ≠ h.size := Nat.ne_of_lt (Heap.lt_size hn)
  have ha : (h.alloc ⟨y, nx⟩).get? a = some ⟨x, nx⟩ := by
    rw [Heap.get?_alloc, if_neg hsz, hn]
  refine append_iff.mpr ⟨some a, h1.alloc_out.set_out hnd.1.1 ⟨_, ha⟩, rfl, some h.size, ?_,
    rfl, nx, ?_, h2.alloc_out.set_out hnd.1.2 ⟨_, ha⟩⟩
  · rw [Heap.get?_set ha, if_pos rfl]
  · rw [Heap.get?_set ha, if_neg hsz.symm, Heap.get?_alloc, if_pos rfl]

/-- Linking a fresh cell behind the last one. -/
theorem snoc {y : α} (hs : Seg h p (ns ++ [(a, x)]) none) :
    Seg ((h.alloc ⟨y, none⟩).set a ⟨x, some h.size⟩) p (ns ++ [(a, x), (h.size, y)]) none := by
  obtain ⟨m, -, -, nx, hn, hnx⟩ := append_iff.mp hs
  obtain rfl := hnx
  exact hs.insert hn

/-- Linking a cell to what is behind its successor. -/
theorem bypass {b : Addr} {y : α} {nx : Option Addr}
    (hs : Seg h p (ns ++ (a, x) :: (b, y) :: ms) none) (hb : h.get? b = some ⟨y, nx⟩) :
    Seg (h.set a ⟨x, nx⟩) p (ns ++ (a, x) :: ms) none := by
  have hnd := hs.nodup
  rw [List.map_append, List.map_cons, List.nodup_middle, List.nodup_cons, List.mem_append,
    not_or, List.map_cons, List.mem_cons, not_or] at hnd
  obtain ⟨m, h1, rfl, nx', hn, rfl, nx'', hb', h2⟩ := append_iff.mp hs
  obtain rfl : nx = nx'' := congrArg Node.next (Option.some.inj (hb.symm.trans hb'))
  refine append_iff.mpr ⟨some a, h1.set_out hnd.1.1 ⟨_, hn⟩, rfl, nx, ?_,
    h2.set_out hnd.1.2.2 ⟨_, hn⟩⟩
  rw [Heap.get?_set hn, if_pos rfl]

/-- A cell of a complete list is not among the others. -/
theorem not_mem_of_middle (hs : Seg h p (ns ++ (a, x) :: ms) none) :
    a ∉ (ns ++ ms).map Prod.fst := by
  have hnd := hs.nodup
  rw [List.map_append, List.map_cons, List.nodup_middle, List.nodup_cons, ← List.map_append] at hnd
  exact hnd.1

/-- Unlinking a cell behind its predecessor, and freeing it. -/
theorem unlink {b : Addr} {y : α} {nx : Option Addr}
    (hs : Seg h p (ns ++ (a, x) :: (b, y) :: ms) none) (hb : h.get? b = some ⟨y, nx⟩) :
    Seg ((h.set a ⟨x, nx⟩).free b) p (ns ++ (a, x) :: ms) none := by
  have hcut : ns ++ (a, x) :: (b, y) :: ms = (ns ++ [(a, x)]) ++ (b, y) :: ms := by simp
  have hout := not_mem_of_middle (hcut ▸ hs)
  rw [List.append_assoc] at hout
  exact (hs.bypass hb).free_out hout

end Seg

/-! ## Reading a list from its head -/

/-- The cells visited from `p`, at most `fuel` of them. -/
def Heap.walk (h : Heap α) : ℕ → Option Addr → List (Addr × α)
  | 0, _ => []
  | _, none => []
  | fuel + 1, some a =>
    match h.get? a with
    | none => []
    | some n => (a, n.data) :: h.walk fuel n.next

theorem Seg.walk_eq {h : Heap α} {p : Option Addr} {ns : List (Addr × α)} {fuel : ℕ}
    (hs : Seg h p ns none) (hf : ns.length ≤ fuel) : h.walk fuel p = ns := by
  induction ns generalizing p fuel with
  | nil =>
    obtain rfl := hs
    cases fuel <;> rfl
  | cons n ns ih =>
    obtain ⟨a, x⟩ := n
    obtain ⟨rfl, nx, hn, hs⟩ := hs
    obtain ⟨f, rfl⟩ : ∃ f, fuel = f + 1 := ⟨fuel - 1, by simp at hf; omega⟩
    simp only [Heap.walk, hn, ih hs (by simpa using hf)]

end Linked
