import Mathlib.Data.List.GetD
import Mathlib.Tactic

/-!
# Bytes, arrays and C strings

Blocks of memory are lists of bytes, fixed arrays carry their length (`CharArray`). A C string is
read up to its first NUL (`cstr`); `strncmp` and `memcmp` compare two blocks as their C namesakes
do, and the lemmas say which prefixes they compare. Integers of 16 and 32 bits are stored with the
low byte first, and the network order is the other one.
-/

namespace Memory

abbrev Byte := UInt8

/-- The value of an `int` expression as a `size_t`. -/
def sizeT (i : ℤ) : ℕ := (i % 2 ^ 64).toNat

theorem sizeT_of_nonneg {i : ℤ} (h0 : 0 ≤ i) (h1 : i < 2 ^ 64) : sizeT i = i.toNat := by
  unfold sizeT
  rw [Int.emod_eq_of_lt h0 h1]

theorem sizeT_neg_one : sizeT (-1) = 2 ^ 64 - 1 := by decide

/-! ## Blocks and arrays -/

/-- A block of `n` bytes that was zeroed before `b` was written at its start. -/
def pad (n : ℕ) (b : List Byte) : List Byte := (b ++ List.replicate (n - b.length) 0).take n

@[simp] theorem length_pad (n : ℕ) (b : List Byte) : (pad n b).length = n := by
  simp only [pad, List.length_take, List.length_append, List.length_replicate]
  omega

theorem pad_of_length {n : ℕ} {b : List Byte} (h : b.length = n) : pad n b = b := by
  simp [pad, h]

theorem pad_of_le {n : ℕ} {b : List Byte} (h : b.length ≤ n) :
    pad n b = b ++ List.replicate (n - b.length) 0 := by
  refine List.take_of_length_le ?_
  rw [List.length_append, List.length_replicate]
  omega

theorem getD_pad {n k : ℕ} {b : List Byte} (hb : b.length ≤ n) :
    (pad n b).getD k 0 = b.getD k 0 := by
  rw [pad_of_le hb]
  by_cases hk : k < b.length
  · rw [List.getD_append _ _ _ _ hk]
  · rw [List.getD_append_right _ _ _ _ (by omega), List.getD_eq_default b _ (by omega)]
    by_cases hr : k - b.length < n - b.length
    · exact List.getD_replicate _ hr
    · exact List.getD_eq_default _ _ (by rw [List.length_replicate]; omega)

/-- A block whose first bytes are overwritten with `b`. -/
def overlay (b old : List Byte) : List Byte := b.take old.length ++ old.drop b.length

/-- An array of `n` bytes. -/
structure CharArray (n : ℕ) where
  bytes : List Byte
  length_eq : bytes.length = n
  deriving DecidableEq

namespace CharArray

variable {n : ℕ}

/-- The array zeroed and then filled from `b`. -/
def ofList (n : ℕ) (b : List Byte) : CharArray n := ⟨pad n b, length_pad n b⟩

theorem ext {f g : CharArray n} (h : f.bytes = g.bytes) : f = g := by
  cases f; cases g; cases h; rfl

@[simp] theorem ofList_bytes (f : CharArray n) : ofList n f.bytes = f :=
  ext (pad_of_length f.length_eq)

instance : Inhabited (CharArray n) := ⟨ofList n []⟩

end CharArray

/-! ## C strings -/

/-- The string at the start of a block: the bytes before its first NUL. -/
def cstr (b : List Byte) : List Byte := b.takeWhile (· ≠ 0)

@[simp] theorem cstr_nil : cstr [] = [] := rfl

theorem cstr_zero_cons (b : List Byte) : cstr (0 :: b) = [] := by simp [cstr]

theorem cstr_cons {x : Byte} (hx : x ≠ 0) (b : List Byte) : cstr (x :: b) = x :: cstr b := by
  simp [cstr, hx]

theorem zero_not_mem_cstr (b : List Byte) : 0 ∉ cstr b := by
  induction b with
  | nil => simp
  | cons x b ih =>
    by_cases hx : x = 0
    · simp [hx, cstr_zero_cons]
    · simp [cstr_cons hx, ih, Ne.symm hx]

theorem length_cstr_le (b : List Byte) : (cstr b).length ≤ b.length :=
  (List.takeWhile_prefix _).length_le

theorem cstr_of_zero_not_mem {b : List Byte} (h : 0 ∉ b) : cstr b = b := by
  induction b with
  | nil => rfl
  | cons x b ih =>
    rw [List.mem_cons, not_or] at h
    rw [cstr_cons (Ne.symm h.1), ih h.2]

/-- A string that does not end in a block goes on behind it. -/
theorem cstr_append_of_not_mem {b : List Byte} (h : 0 ∉ b) (c : List Byte) :
    cstr (b ++ c) = b ++ cstr c := by
  induction b with
  | nil => rfl
  | cons x b ih =>
    rw [List.mem_cons, not_or] at h
    rw [List.cons_append, cstr_cons (Ne.symm h.1), ih h.2, List.cons_append]

theorem cstr_append_zero {b : List Byte} (h : 0 ∉ b) (c : List Byte) :
    cstr (b ++ 0 :: c) = b := by
  rw [cstr_append_of_not_mem h, cstr_zero_cons, List.append_nil]

/-- A string that ends in a block does not see what is behind it. -/
theorem cstr_append_of_mem {b : List Byte} (h : 0 ∈ b) (c : List Byte) : cstr (b ++ c) = cstr b := by
  induction b with
  | nil => cases h
  | cons x b ih =>
    by_cases hx : x = 0
    · subst hx
      rw [List.cons_append, cstr_zero_cons, cstr_zero_cons]
    · have hb : 0 ∈ b := (List.mem_cons.mp h).resolve_left (Ne.symm hx)
      rw [List.cons_append, cstr_cons hx, cstr_cons hx, ih hb]

theorem cstr_append_drop {b : List Byte} (h : 0 ∈ b) :
    cstr b ++ 0 :: b.drop ((cstr b).length + 1) = b := by
  induction b with
  | nil => cases h
  | cons x b ih =>
    by_cases hx : x = 0
    · subst hx
      rw [cstr_zero_cons]
      rfl
    · have hb : 0 ∈ b := (List.mem_cons.mp h).resolve_left (Ne.symm hx)
      rw [cstr_cons hx, List.length_cons, List.drop_succ_cons, List.cons_append, ih hb]

theorem cstr_take (b : List Byte) (n : ℕ) : cstr (b.take n) = (cstr b).take n := by
  induction b generalizing n with
  | nil => simp
  | cons x b ih =>
    cases n with
    | zero => rfl
    | succ n =>
      by_cases hx : x = 0
      · subst hx
        simp [cstr_zero_cons]
      · rw [List.take_succ_cons, cstr_cons hx, cstr_cons hx, List.take_succ_cons, ih]

/-- The string in an array. -/
def CharArray.str {n : ℕ} (f : CharArray n) : List Byte := cstr f.bytes

theorem CharArray.length_str_le {n : ℕ} (f : CharArray n) : f.str.length ≤ n :=
  (length_cstr_le _).trans_eq f.length_eq

theorem CharArray.str_ofList {n : ℕ} {b : List Byte} (h0 : 0 ∉ b) (hn : b.length ≤ n) :
    (CharArray.ofList n b).str = b := by
  unfold str ofList pad
  rw [cstr_take]
  rcases Nat.eq_zero_or_pos (n - b.length) with hz | hz
  · rw [hz, List.replicate_zero, List.append_nil, cstr_of_zero_not_mem h0, List.take_of_length_le hn]
  · obtain ⟨k, hk⟩ : ∃ k, n - b.length = k + 1 := ⟨n - b.length - 1, by omega⟩
    rw [hk, List.replicate_succ, cstr_append_zero h0, List.take_of_length_le hn]

/-- `strncmp`, which stops at a NUL, a difference, or after `n` bytes. -/
def strncmp : List Byte → List Byte → ℕ → ℤ
  | a :: as, b :: bs, n + 1 =>
    if a = b then if a = 0 then 0 else strncmp as bs n else (a.toNat : ℤ) - b.toNat
  | _, _, _ => 0

/-- `memcmp`, which stops at a difference or after `n` bytes; without a value when it leaves one
of the blocks first. -/
def memcmp : List Byte → List Byte → ℕ → Option ℤ
  | _, _, 0 => some 0
  | a :: as, b :: bs, n + 1 => if a = b then memcmp as bs n else some ((a.toNat : ℤ) - b.toNat)
  | _, _, _ + 1 => none

theorem toNat_sub_ne_zero {a b : Byte} (h : a ≠ b) : (a.toNat : ℤ) - b.toNat ≠ 0 := fun he =>
  h (UInt8.toNat_inj.mp (by omega))

/-- `strncmp` compares the strings cut off after `n` bytes. -/
theorem strncmp_eq_zero_iff {a b : List Byte} (h : a.length = b.length) (n : ℕ) :
    strncmp a b n = 0 ↔ (cstr a).take n = (cstr b).take n := by
  induction a generalizing b n with
  | nil =>
    obtain rfl := List.length_eq_zero_iff.mp h.symm
    simp [strncmp]
  | cons x a ih =>
    cases b with
    | nil => cases h
    | cons y b =>
      cases n with
      | zero => simp [strncmp]
      | succ n =>
        unfold strncmp
        by_cases hxy : x = y
        · subst hxy
          rw [if_pos rfl]
          by_cases hx : x = 0
          · subst hx
            simp [cstr_zero_cons]
          · rw [if_neg hx, cstr_cons hx, cstr_cons hx, List.take_succ_cons, List.take_succ_cons,
              ih (Nat.succ.inj h)]
            simp
        · rw [if_neg hxy]
          refine ⟨fun he => absurd he (toNat_sub_ne_zero hxy), fun he => absurd ?_ hxy⟩
          by_cases hx : x = 0 <;> by_cases hy : y = 0
          · rw [hx, hy]
          · subst hx
            rw [cstr_zero_cons, cstr_cons hy] at he
            simp at he
          · subst hy
            rw [cstr_zero_cons, cstr_cons hx] at he
            simp at he
          · rw [cstr_cons hx, cstr_cons hy] at he
            exact (List.cons.inj he).1

/-- A block that begins with a word compares equal to it. -/
theorem strncmp_prefix {w b : List Byte} (h : w <+: b) : strncmp b w w.length = 0 := by
  obtain ⟨t, rfl⟩ := h
  induction w with
  | nil => cases t <;> rfl
  | cons a w ih =>
    rw [List.cons_append, List.length_cons, strncmp, if_pos rfl, ih, ite_self]

/-- Over the whole of two arrays `strncmp` compares their strings. -/
theorem strncmp_array {n m : ℕ} (f g : CharArray n) (h : n ≤ m) :
    strncmp f.bytes g.bytes m = 0 ↔ f.str = g.str := by
  rw [strncmp_eq_zero_iff (f.length_eq.trans g.length_eq.symm)]
  show f.str.take m = g.str.take m ↔ _
  rw [List.take_of_length_le (f.length_str_le.trans h),
    List.take_of_length_le (g.length_str_le.trans h)]

/-- Inside both blocks `memcmp` has a value and compares their first `n` bytes. -/
theorem memcmp_inside {a b : List Byte} {n : ℕ} (ha : n ≤ a.length) (hb : n ≤ b.length) :
    ∃ v, memcmp a b n = some v ∧ (v = 0 ↔ a.take n = b.take n) := by
  induction n generalizing a b with
  | zero => exact ⟨0, by simp [memcmp], by simp⟩
  | succ n ih =>
    obtain ⟨x, a, rfl⟩ := List.exists_cons_of_length_pos (Nat.lt_of_lt_of_le n.succ_pos ha)
    obtain ⟨y, b, rfl⟩ := List.exists_cons_of_length_pos (Nat.lt_of_lt_of_le n.succ_pos hb)
    by_cases hxy : x = y
    · subst hxy
      obtain ⟨v, hv, hiff⟩ := ih (Nat.le_of_succ_le_succ ha) (Nat.le_of_succ_le_succ hb)
      exact ⟨v, by rw [memcmp, if_pos rfl, hv], by simpa using hiff⟩
    · refine ⟨_, by rw [memcmp, if_neg hxy], ?_⟩
      exact ⟨fun he => absurd he (toNat_sub_ne_zero hxy), fun he => absurd (by simp_all) hxy⟩

/-- A prefix without NUL of a block is one of its string. -/
theorem take_eq_iff_cstr {b p : List Byte} (hp : 0 ∉ p) :
    b.take p.length = p ↔ (cstr b).take p.length = p := by
  rw [← cstr_take]
  constructor
  · intro h
    rw [h, cstr_of_zero_not_mem hp]
  · intro h
    have hpre : cstr (b.take p.length) <+: b.take p.length := List.takeWhile_prefix _
    rw [h] at hpre
    exact (hpre.eq_of_length_le (List.length_take_le _ _)).symm

/-! ## Integers in memory -/

/-- The bytes of a 16-bit integer, low byte first. -/
def store16 (x : UInt16) : List Byte :=
  [UInt8.ofNat (x.toNat % 256), UInt8.ofNat (x.toNat / 256)]

/-- The bytes of a 32-bit integer, low byte first. -/
def store32 (x : UInt32) : List Byte :=
  [UInt8.ofNat (x.toNat % 256), UInt8.ofNat (x.toNat / 256 % 256),
    UInt8.ofNat (x.toNat / 65536 % 256), UInt8.ofNat (x.toNat / 16777216)]

/-- The 16-bit integer at the start of a block. -/
def load16 (b : List Byte) : UInt16 :=
  UInt16.ofNat ((b.getD 0 0).toNat + 256 * (b.getD 1 0).toNat)

/-- The 32-bit integer at the start of a block. -/
def load32 (b : List Byte) : UInt32 :=
  UInt32.ofNat ((b.getD 0 0).toNat + 256 * (b.getD 1 0).toNat + 65536 * (b.getD 2 0).toNat +
    16777216 * (b.getD 3 0).toNat)

/-- The value of a 32-bit integer read as an `int`. -/
def toInt (x : UInt32) : ℤ := if x.toNat < 2 ^ 31 then x.toNat else x.toNat - 2 ^ 32

/-- A value of type `int`. -/
def FitsInt (v : ℤ) : Prop := -2 ^ 31 ≤ v ∧ v < 2 ^ 31

instance (v : ℤ) : Decidable (FitsInt v) := inferInstanceAs (Decidable (_ ∧ _))

/-- `ntohs` and `htons`: the bytes in the other order. -/
def swap16 (x : UInt16) : UInt16 := load16 (store16 x).reverse

/-- `ntohl` and `htonl`: the bytes in the other order. -/
def swap32 (x : UInt32) : UInt32 := load32 (store32 x).reverse

@[simp] theorem length_store16 (x : UInt16) : (store16 x).length = 2 := rfl

@[simp] theorem length_store32 (x : UInt32) : (store32 x).length = 4 := rfl

theorem load16_store16 (x : UInt16) : load16 (store16 x) = x := by
  have hx := x.toNat_lt
  apply UInt16.toNat_inj.mp
  simp only [load16, store16, List.getD_cons_zero, List.getD_cons_succ, UInt8.toNat_ofNat',
    UInt16.toNat_ofNat']
  omega

theorem load32_store32 (x : UInt32) : load32 (store32 x) = x := by
  have hx := x.toNat_lt
  apply UInt32.toNat_inj.mp
  simp only [load32, store32, List.getD_cons_zero, List.getD_cons_succ, UInt8.toNat_ofNat',
    UInt32.toNat_ofNat']
  omega

theorem store16_load16 (b₀ b₁ : Byte) (b : List Byte) : store16 (load16 (b₀ :: b₁ :: b)) = [b₀, b₁] := by
  have h0 := b₀.toNat_lt
  have h1 := b₁.toNat_lt
  simp only [load16, store16, List.getD_cons_zero, List.getD_cons_succ, UInt16.toNat_ofNat']
  rw [Nat.mod_eq_of_lt (by omega : b₀.toNat + 256 * b₁.toNat < 2 ^ 16),
    show (b₀.toNat + 256 * b₁.toNat) % 256 = b₀.toNat by omega,
    show (b₀.toNat + 256 * b₁.toNat) / 256 = b₁.toNat by omega,
    UInt8.ofNat_toNat, UInt8.ofNat_toNat]

theorem store32_load32 (b₀ b₁ b₂ b₃ : Byte) (b : List Byte) :
    store32 (load32 (b₀ :: b₁ :: b₂ :: b₃ :: b)) = [b₀, b₁, b₂, b₃] := by
  have h0 := b₀.toNat_lt
  have h1 := b₁.toNat_lt
  have h2 := b₂.toNat_lt
  have h3 := b₃.toNat_lt
  simp only [load32, store32, List.getD_cons_zero, List.getD_cons_succ, UInt32.toNat_ofNat']
  generalize hn : b₀.toNat + 256 * b₁.toNat + 65536 * b₂.toNat + 16777216 * b₃.toNat = n
  rw [Nat.mod_eq_of_lt (by omega : n < 2 ^ 32), show n % 256 = b₀.toNat by omega,
    show n / 256 % 256 = b₁.toNat by omega, show n / 65536 % 256 = b₂.toNat by omega,
    show n / 16777216 = b₃.toNat by omega, UInt8.ofNat_toNat, UInt8.ofNat_toNat,
    UInt8.ofNat_toNat, UInt8.ofNat_toNat]

theorem swap16_swap16 (x : UInt16) : swap16 (swap16 x) = x := by
  have hx := x.toNat_lt
  unfold swap16
  show load16 (store16 (load16 [_, _])).reverse = x
  rw [store16_load16]
  exact load16_store16 x

theorem swap32_swap32 (x : UInt32) : swap32 (swap32 x) = x := by
  unfold swap32
  show load32 (store32 (load32 [_, _, _, _])).reverse = x
  rw [store32_load32]
  exact load32_store32 x

/-! ## Network order -/

/-- The number whose digits to the base 256 are the bytes of a block, the highest first. -/
def bigEndian (b : List Byte) : ℕ := b.foldl (fun n x => 256 * n + x.toNat) 0

/-- The bytes of a 32-bit integer in network order. -/
def network32 (x : UInt32) : List Byte := (store32 x).reverse

@[simp] theorem length_network32 (x : UInt32) : (network32 x).length = 4 := rfl

theorem store32_swap32 (x : UInt32) : store32 (swap32 x) = network32 x :=
  store32_load32 _ _ _ _ []

theorem swap32_load32_network32 (x : UInt32) (b : List Byte) :
    swap32 (load32 (network32 x ++ b)) = x := by
  have hb : load32 (network32 x ++ b) = swap32 x := rfl
  rw [hb, swap32_swap32]

theorem toNat_swap32_load32 (b₀ b₁ b₂ b₃ : Byte) (b : List Byte) :
    (swap32 (load32 (b₀ :: b₁ :: b₂ :: b₃ :: b))).toNat = bigEndian [b₀, b₁, b₂, b₃] := by
  have h0 := b₀.toNat_lt
  have h1 := b₁.toNat_lt
  have h2 := b₂.toNat_lt
  have h3 := b₃.toNat_lt
  unfold swap32
  rw [store32_load32]
  simp only [List.reverse_cons, List.reverse_nil, List.nil_append, List.cons_append, load32,
    List.getD_cons_zero, List.getD_cons_succ, UInt32.toNat_ofNat', bigEndian, List.foldl_cons,
    List.foldl_nil]
  omega

theorem toNat_swap16_load16 (b₀ b₁ : Byte) (b : List Byte) :
    (swap16 (load16 (b₀ :: b₁ :: b))).toNat = bigEndian [b₀, b₁] := by
  have h0 := b₀.toNat_lt
  have h1 := b₁.toNat_lt
  unfold swap16
  rw [store16_load16]
  simp only [List.reverse_cons, List.reverse_nil, List.nil_append, List.cons_append, load16,
    List.getD_cons_zero, List.getD_cons_succ, UInt16.toNat_ofNat', bigEndian, List.foldl_cons,
    List.foldl_nil]
  omega

theorem swap16_eq_bigEndian (x : UInt16) : (swap16 x).toNat = bigEndian (store16 x) := by
  conv_lhs => rw [← load16_store16 x]
  exact toNat_swap16_load16 _ _ []

/-- An `int` is the representative of its bits closest to zero. -/
theorem toInt_eq_bmod (x : UInt32) : toInt x = Int.bmod x.toNat (2 ^ 32) := by
  have hx := x.toNat_lt
  unfold toInt
  rw [Int.bmod_def]
  split_ifs <;> omega

/-- The wrapped result of an operation is the exact one where that is an `int`. -/
theorem bmod_eq_iff_fitsInt {v : ℤ} : Int.bmod v (2 ^ 32) = v ↔ FitsInt v := by
  unfold FitsInt
  rw [Int.bmod_def]
  split_ifs <;> omega

theorem fitsInt_bmod (v : ℤ) : FitsInt (Int.bmod v (2 ^ 32)) := by
  unfold FitsInt
  rw [Int.bmod_def]
  split_ifs <;> omega

theorem toInt_neg (x : UInt32) : toInt (-x) = Int.bmod (-x.toNat) (2 ^ 32) := by
  have hx := x.toNat_lt
  have hsize : UInt32.size = 2 ^ 32 := rfl
  rw [toInt_eq_bmod, UInt32.toNat_neg, hsize, Int.bmod_def, Int.bmod_def]
  split_ifs <;> omega

end Memory
