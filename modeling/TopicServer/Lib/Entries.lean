import Mathlib.Tactic

/-!
# Lists of entries as finite maps

A list of entries with keys and values represents the partial map that sends the key of each entry
to its value. The lemmas say how changing, appending and removing an entry act on the map, for
lists without repeated keys.
-/

namespace Entries

variable {α K V : Type} {key : α → K} {val : α → V} {es xs ys : List α} {e e' : α}
  {m : K → Option V} {k : K}

/-- The entries of the list are the graph of `m`. -/
def Represents (key : α → K) (val : α → V) (es : List α) (m : K → Option V) : Prop :=
  ∀ k v, (∃ e ∈ es, key e = k ∧ val e = v) ↔ m k = some v

theorem represents_nil : Represents key val [] fun _ => none := by
  intro k v
  simp

/-- A key is mapped exactly when an entry has it. -/
theorem Represents.isSome_iff (h : Represents key val es m) :
    (m k).isSome ↔ ∃ e ∈ es, key e = k := by
  rw [Option.isSome_iff_exists]
  constructor
  · rintro ⟨v, hv⟩
    obtain ⟨e, he, hk, -⟩ := (h k v).mpr hv
    exact ⟨e, he, hk⟩
  · rintro ⟨e, he, hk⟩
    exact ⟨val e, (h k _).mp ⟨e, he, hk, rfl⟩⟩

variable [DecidableEq K]

/-- Changing the value of the only entry with its key. -/
theorem Represents.set (h : Represents key val (xs ++ e :: ys) m) (hk : key e' = key e)
    (hno : ∀ d ∈ xs ++ ys, key d ≠ key e) :
    Represents key val (xs ++ e' :: ys) (Function.update m (key e) (some (val e'))) := by
  intro k v
  by_cases hke : k = key e
  · subst hke
    rw [Function.update_self, Option.some.injEq]
    constructor
    · rintro ⟨d, hd, hdk, hdv⟩
      rw [List.mem_append, List.mem_cons] at hd
      rcases hd with hd | rfl | hd
      · exact absurd hdk (hno d (List.mem_append_left _ hd))
      · exact hdv
      · exact absurd hdk (hno d (List.mem_append_right _ hd))
    · intro hv
      exact ⟨e', by simp, hk, hv⟩
  · rw [Function.update_of_ne hke, ← h k v]
    have hne : key e ≠ k := Ne.symm hke
    simp only [List.mem_append, List.mem_cons, or_and_right, exists_or, exists_eq_left, hk, hne,
      false_and, false_or]

/-- Appending an entry with a new key. -/
theorem Represents.append (h : Represents key val es m) (hno : ∀ d ∈ es, key d ≠ key e) :
    Represents key val (es ++ [e]) (Function.update m (key e) (some (val e))) := by
  intro k v
  by_cases hke : k = key e
  · subst hke
    rw [Function.update_self, Option.some.injEq]
    constructor
    · rintro ⟨d, hd, hdk, hdv⟩
      rcases List.mem_append.mp hd with hd | hd
      · exact absurd hdk (hno d hd)
      · rw [List.mem_singleton.mp hd] at hdv
        exact hdv
    · intro hv
      exact ⟨e, by simp, rfl, hv⟩
  · rw [Function.update_of_ne hke, ← h k v]
    have hne : key e ≠ k := Ne.symm hke
    simp only [List.mem_append, List.mem_singleton, or_and_right, exists_or, exists_eq_left, hne,
      false_and, or_false]

/-- Removing the only entry with its key. -/
theorem Represents.remove (h : Represents key val (xs ++ e :: ys) m)
    (hno : ∀ d ∈ xs ++ ys, key d ≠ key e) :
    Represents key val (xs ++ ys) (Function.update m (key e) none) := by
  intro k v
  by_cases hke : k = key e
  · subst hke
    rw [Function.update_self]
    refine iff_of_false ?_ (by simp)
    rintro ⟨d, hd, hdk, -⟩
    exact hno d hd hdk
  · rw [Function.update_of_ne hke, ← h k v]
    have hne : key e ≠ k := Ne.symm hke
    simp only [List.mem_append, List.mem_cons, or_and_right, exists_or, exists_eq_left, hne,
      false_and, false_or]

/-- Removing a key that no entry has. -/
theorem Represents.remove_absent (h : Represents key val es m) (hno : ∀ d ∈ es, key d ≠ k) :
    Represents key val es (Function.update m k none) := by
  have hnone : m k = none := by
    rw [← Option.not_isSome_iff_eq_none, h.isSome_iff]
    rintro ⟨d, hd, hdk⟩
    exact hno d hd hdk
  rwa [Function.update_eq_self_iff.mpr hnone.symm]

/-- Removing the only entry with its key leaves the entries with other keys. -/
theorem filter_remove (hno : ∀ d ∈ xs ++ ys, key d ≠ key e) :
    (xs ++ e :: ys).filter (fun d => key d ≠ key e) = xs ++ ys := by
  rw [List.filter_append, List.filter_cons_of_neg (by simp), ← List.filter_append,
    List.filter_eq_self]
  intro d hd
  exact decide_eq_true (hno d hd)

end Entries
