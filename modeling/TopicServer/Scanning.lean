import Mathlib.Data.List.TakeWhile
import TopicServer.ServerUtil
import TopicServer.Subscriber

/-!
# The words of a typed line

What the subscriber does with a block of its standard input depends on its first word, on the word
that stands as many bytes from the start as the first word has, and on the number behind that.
`lineCommand` is what a block is taken for, and `lineBranch_exec` says that the program does it.
-/

namespace TopicServer

open Interactive Memory

/-! ## Input and commands -/

/-- Every command is acknowledged. -/
def acknowledging : Protocol Sys Unit where
  Allowed _ _ := True
  Expected _
    | .recv .getCommandAck _ _, ret => replyType ret = 6
    | _, _ => True
  next _ _ _ := ()

/-- The chunks read from the standard input among the calls. -/
def inputs (evs : List (Event Sys)) : List (List Byte) :=
  evs.filterMap fun e => match e with
    | ⟨.read _ _, some chunk⟩ => some chunk
    | _ => none

/-- The commands sent among the calls. -/
def commandsSent (evs : List (Event Sys)) : List (List Byte) :=
  evs.filterMap fun e => match e.call with
    | .send .putCommand _ buf => some buf
    | _ => none

section Commands

variable {evs es es' : List (Event Sys)}

@[simp] theorem inputs_append : inputs (es ++ es') = inputs es ++ inputs es' :=
  List.filterMap_append

@[simp] theorem commandsSent_append :
    commandsSent (es ++ es') = commandsSent es ++ commandsSent es' :=
  List.filterMap_append

end Commands

/-! ## Scanning -/

section Scan

variable {n k : ℕ} {token rest chunk : List Byte} {w : Byte}

/-- What ends a word: the end of the text or a space. -/
def EndsWord (rest : List Byte) : Prop := ∀ w ∈ rest.head?, isSpace w = true

theorem takeWhile_token (ht : ∀ b ∈ token, isSpace b = false) (hr : EndsWord rest) :
    (token ++ rest).takeWhile (fun b => !isSpace b) = token := by
  rw [List.takeWhile_append_of_pos fun b hb => by rw [ht b hb]; rfl]
  cases rest with
  | nil => rw [List.takeWhile_nil, List.append_nil]
  | cons w rest =>
    have hw : isSpace w = true := hr w rfl
    rw [List.takeWhile_cons_of_neg (by rw [hw]; decide), List.append_nil]

theorem scanString_token (hne : token ≠ []) (ht : ∀ b ∈ token, isSpace b = false)
    (hr : EndsWord rest) : scanString (token ++ rest) = some token := by
  have hdrop : (token ++ rest).dropWhile isSpace = token ++ rest := by
    obtain ⟨b, token, rfl⟩ := List.exists_cons_of_ne_nil hne
    rw [List.cons_append, List.dropWhile_cons_of_neg]
    rw [ht b List.mem_cons_self]
    decide
  unfold scanString
  simp only [hdrop, takeWhile_token ht hr]
  rw [if_neg hne]

theorem scanString_space (hw : isSpace w = true) (rest : List Byte) :
    scanString (w :: rest) = scanString rest := by
  unfold scanString
  rw [List.dropWhile_cons_of_pos hw]

theorem scanInt_space (hw : isSpace w = true) (rest : List Byte) :
    scanInt (w :: rest) = scanInt rest := by
  unfold scanInt
  rw [List.dropWhile_cons_of_pos hw]

theorem isDigit_not_space (h : isDigit w = true) : isSpace w = false := by
  unfold isDigit at h
  unfold isSpace
  rw [Bool.and_eq_true, decide_eq_true_iff, decide_eq_true_iff, UInt8.le_iff_toNat_le,
    UInt8.le_iff_toNat_le] at h
  have h48 : (48 : UInt8).toNat = 48 := rfl
  have h32 : (32 : UInt8).toNat = 32 := rfl
  have h13 : (13 : UInt8).toNat = 13 := rfl
  rw [Bool.or_eq_false_iff, Bool.and_eq_false_iff]
  refine ⟨?_, Or.inr ?_⟩
  · rw [beq_eq_false_iff_ne]
    rintro rfl
    omega
  · rw [decide_eq_false_iff_not, UInt8.le_iff_toNat_le]
    omega

theorem isDigit_ne_zero (h : isDigit w = true) : w ≠ 0 := by
  rintro rfl
  cases h

theorem takeWhile_digits {digits : List Byte} (hd : ∀ b ∈ digits, isDigit b = true)
    (hr : EndsWord rest) : (digits ++ rest).takeWhile isDigit = digits := by
  rw [List.takeWhile_append_of_pos hd]
  cases rest with
  | nil => rw [List.takeWhile_nil, List.append_nil]
  | cons w rest =>
    have hw : isSpace w = true := hr w rfl
    rw [List.takeWhile_cons_of_neg, List.append_nil]
    intro hdw
    rw [isDigit_not_space hdw] at hw
    cases hw

/-- A number that starts with a digit and ends with its digits. -/
theorem scanInt_digits {digits : List Byte} (hne : digits ≠ [])
    (hd : ∀ b ∈ digits, isDigit b = true) (hr : EndsWord rest) :
    scanInt (digits ++ rest) = (scanDigits digits).map fun n =>
      Int.bmod (max (-2 ^ 63) (min n (2 ^ 63 - 1))) (2 ^ 32) := by
  have hscan : scanDigits (digits ++ rest) = scanDigits digits := by
    have hend : EndsWord [] := fun w hw => by cases hw
    have hself := takeWhile_digits hd hend
    rw [List.append_nil] at hself
    unfold scanDigits
    rw [takeWhile_digits hd hr, hself]
  rw [← hscan]
  obtain ⟨b, digits, rfl⟩ := List.exists_cons_of_ne_nil hne
  have hb : isDigit b = true := hd b List.mem_cons_self
  unfold scanInt
  rw [List.cons_append, List.dropWhile_cons_of_neg (by rw [isDigit_not_space hb]; decide)]
  split
  · rename_i heq
    cases heq
    cases hb
  · rename_i heq
    cases heq
    cases hb
  · rfl

/-- A short string over an array leaves room for what stood behind it. -/
theorem pad_overlay (old : CharArray n) (hn : token.length < n) :
    pad n (overlay (token ++ [0]) old.bytes) =
      token ++ 0 :: old.bytes.drop (token.length + 1) := by
  have hsplit : overlay (token ++ [0]) old.bytes =
      token ++ 0 :: old.bytes.drop (token.length + 1) := by
    rw [overlay, List.take_of_length_le
      (by rw [List.length_append, List.length_singleton, old.length_eq]; omega),
      List.append_assoc, List.length_append]
    rfl
  rw [hsplit]
  refine pad_of_length ?_
  simp only [List.length_append, List.length_cons, List.length_drop, old.length_eq]
  omega

theorem str_overlay (old : CharArray n) (h0 : 0 ∉ token) (hn : token.length < n) :
    (CharArray.ofList n (overlay (token ++ [0]) old.bytes)).str = token := by
  show cstr (pad n _) = token
  rw [pad_overlay old hn]
  exact cstr_append_zero h0 _

/-- The string of an array over itself changes nothing. -/
theorem overlay_str {c : CharArray n} (hn : c.str.length < n) :
    CharArray.ofList n (overlay (c.str ++ [0]) c.bytes) = c := by
  have h0 : 0 ∈ c.bytes := by
    by_contra hnone
    rw [CharArray.str, cstr_of_zero_not_mem hnone, c.length_eq] at hn
    exact lt_irrefl n hn
  exact CharArray.ext ((pad_overlay c hn).trans (cstr_append_drop h0))

/-- `%s` into an array leaves the token as its string. -/
theorem sscanfString_token (old : CharArray n) (h : scanString rest = some token)
    (h0 : 0 ∉ token) (hn : token.length < n) :
    ∃ c, sscanfString rest old = .ok c ∧ c = .ofList n (overlay (token ++ [0]) old.bytes) ∧
      c.str = token := by
  refine ⟨_, ?_, rfl, str_overlay old h0 hn⟩
  unfold sscanfString
  rw [h]
  exact if_neg (Nat.not_le.mpr hn)

/-- The string in the buffer behind the first `k` bytes of a chunk. -/
theorem cstr_drop_pad (h0 : 0 ∉ chunk) (hn : chunk.length < n) (k : ℕ) :
    cstr ((pad n chunk).drop k) = chunk.drop k := by
  have hzeros : ∀ m, cstr (List.replicate m 0) = [] := by
    intro m
    cases m with
    | zero => rfl
    | succ m => exact cstr_zero_cons _
  rw [pad_of_le hn.le, List.drop_append, List.drop_replicate,
    cstr_append_of_not_mem fun h => h0 (List.mem_of_mem_drop h), hzeros, List.append_nil]

/-- A short string over zeros leaves zeros behind it. -/
theorem overlay_zeros {n : ℕ} {b : List Byte} (hb : b.length < n) :
    CharArray.ofList n (overlay (b ++ [0]) (CharArray.ofList n []).bytes) = .ofList n b := by
  have hzeros : (CharArray.ofList n []).bytes = List.replicate n 0 := pad_of_le (Nat.zero_le n)
  have hsplit : n - b.length = 1 + (n - (b.length + 1)) := by omega
  refine CharArray.ext ?_
  show pad n (overlay _ _) = pad n b
  rw [hzeros, pad_of_le hb.le, overlay, List.length_replicate, List.take_of_length_le
    (by rw [List.length_append, List.length_singleton]; omega), List.drop_replicate,
    List.length_append, List.length_singleton, hsplit, List.replicate_add, List.append_assoc]
  refine pad_of_length ?_
  simp only [List.length_append, List.length_replicate, List.length_singleton]
  omega

end Scan

/-! ## Words -/

/-- The first word of a text, behind its spaces. -/
def FirstWord (text word : List Byte) : Prop :=
  ∃ lead rest, text = lead ++ (word ++ rest) ∧ (∀ b ∈ lead, isSpace b = true) ∧ word ≠ [] ∧
    (∀ b ∈ word, isSpace b = false) ∧ EndsWord rest

section Words

variable {text word lead rest : List Byte}

theorem scanString_lead (hlead : ∀ b ∈ lead, isSpace b = true) (rest : List Byte) :
    scanString (lead ++ rest) = scanString rest := by
  induction lead with
  | nil => rfl
  | cons b lead ih =>
    rw [List.forall_mem_cons] at hlead
    rw [List.cons_append, scanString_space hlead.1, ih hlead.2]

theorem scanInt_lead (hlead : ∀ b ∈ lead, isSpace b = true) (rest : List Byte) :
    scanInt (lead ++ rest) = scanInt rest := by
  induction lead with
  | nil => rfl
  | cons b lead ih =>
    rw [List.forall_mem_cons] at hlead
    rw [List.cons_append, scanInt_space hlead.1, ih hlead.2]

/-- `%s` converts the first word. -/
theorem scanString_eq_some : scanString text = some word ↔ FirstWord text word := by
  constructor
  · intro h
    unfold scanString at h
    simp only at h
    split_ifs at h with hne
    cases h
    refine ⟨text.takeWhile isSpace,
      (text.dropWhile isSpace).dropWhile fun b => !isSpace b, ?_, fun b hb => ?_, hne,
      fun b hb => ?_, fun w hw => ?_⟩
    · rw [List.takeWhile_append_dropWhile, List.takeWhile_append_dropWhile]
    · exact List.mem_takeWhile_imp hb
    · have hb' := List.mem_takeWhile_imp hb
      rwa [Bool.not_eq_true'] at hb'
    · have hw' := List.head?_dropWhile_not (fun b => !isSpace b) (text.dropWhile isSpace)
      rw [hw] at hw'
      simpa using hw'
  · rintro ⟨lead, rest, rfl, hlead, hne, hword, hend⟩
    rw [scanString_lead hlead, scanString_token hne hword hend]

theorem FirstWord.length_le (h : FirstWord text word) : word.length ≤ text.length := by
  obtain ⟨lead, rest, rfl, -⟩ := h
  simp only [List.length_append]
  omega

theorem FirstWord.subset (h : FirstWord text word) : word ⊆ text := by
  obtain ⟨lead, rest, rfl, -⟩ := h
  intro b hb
  simp [hb]

theorem FirstWord.ne_nil (h : FirstWord text word) : word ≠ [] := by
  obtain ⟨lead, rest, -, -, hne, -⟩ := h
  exact hne

theorem FirstWord.append {tail : List Byte} (h : FirstWord text word) (htail : EndsWord tail) :
    FirstWord (text ++ tail) word := by
  obtain ⟨lead, rest, rfl, hlead, hne, hword, hend⟩ := h
  refine ⟨lead, rest ++ tail, ?_, hlead, hne, hword, fun w hw => ?_⟩
  · simp only [List.append_assoc]
  · cases rest with
    | nil => exact htail w hw
    | cons b rest => exact hend w hw

theorem FirstWord.behind_spaces (h : FirstWord text word) (hlead : ∀ b ∈ lead, isSpace b = true) :
    FirstWord (lead ++ text) word :=
  scanString_eq_some.mp ((scanString_lead hlead text).trans (scanString_eq_some.mpr h))

/-- Inside its first word a text begins with an end of it. -/
theorem FirstWord.drop {n : ℕ} (h : FirstWord text word) (hn : n < word.length) :
    ∃ last, last <:+ word ∧ FirstWord (text.drop n) last := by
  obtain ⟨lead, rest, rfl, hlead, -, hword, hend⟩ := h
  refine ⟨word.drop (n - lead.length), List.drop_suffix _ _, lead.drop n, rest, ?_,
    fun b hb => hlead b (List.mem_of_mem_drop hb), fun hnil => ?_,
    fun b hb => hword b (List.mem_of_mem_drop hb), hend⟩
  · rw [List.drop_append, List.drop_append_of_le_length (by omega)]
  · have hlen := congrArg List.length hnil
    rw [List.length_drop, List.length_nil] at hlen
    omega

theorem FirstWord.unique {word' : List Byte} (h : FirstWord text word)
    (h' : FirstWord text word') : word = word' :=
  Option.some.inj ((scanString_eq_some.mpr h).symm.trans (scanString_eq_some.mpr h'))

/-- A block compares equal to a word over the length of the word if its string begins with it. -/
theorem strncmp_word {b : List Byte} (h0 : 0 ∉ word) (hlen : word.length ≤ b.length) :
    strncmp b word word.length = 0 ↔ word <+: cstr b := by
  induction word generalizing b with
  | nil => exact iff_of_true (by cases b <;> rfl) List.nil_prefix
  | cons x word ih =>
    obtain ⟨y, b, rfl⟩ := List.exists_cons_of_length_pos (Nat.lt_of_lt_of_le (Nat.succ_pos _) hlen)
    rw [List.mem_cons, not_or] at h0
    rw [List.length_cons, strncmp]
    by_cases hyx : y = x
    · subst hyx
      have hy : y ≠ 0 := fun he => h0.1 he.symm
      rw [if_pos rfl, if_neg hy, cstr_cons hy, List.cons_prefix_cons, and_iff_right rfl]
      exact ih h0.2 (Nat.le_of_succ_le_succ hlen)
    · rw [if_neg hyx]
      refine iff_of_false (toNat_sub_ne_zero hyx) fun hpre => ?_
      by_cases hy : y = 0
      · rw [hy, cstr_zero_cons] at hpre
        exact absurd (List.prefix_nil.mp hpre) (List.cons_ne_nil _ _)
      · rw [cstr_cons hy, List.cons_prefix_cons] at hpre
        exact hyx hpre.1.symm

/-- The string that starts inside a string. -/
theorem cstr_drop {b : List Byte} {k : ℕ} (hk : k ≤ (cstr b).length) :
    cstr (b.drop k) = (cstr b).drop k := by
  induction k generalizing b with
  | zero => rfl
  | succ k ih =>
    cases b with
    | nil => rfl
    | cons x b =>
      by_cases hx : x = 0
      · rw [hx, cstr_zero_cons] at hk
        exact absurd hk (Nat.not_succ_le_zero k)
      · rw [cstr_cons hx] at hk ⊢
        rw [List.drop_succ_cons, List.drop_succ_cons, ih (Nat.le_of_succ_le_succ hk)]

end Words

/-! ## Spaces behind a text -/

section Tail

variable {word rest tail : List Byte} {b : Byte}

theorem endsWord_blank {gap : List Byte} (hne : gap ≠ []) (hgap : ∀ b ∈ gap, isSpace b = true)
    (rest : List Byte) : EndsWord (gap ++ rest) := by
  obtain ⟨b, gap, rfl⟩ := List.exists_cons_of_ne_nil hne
  intro w hw
  cases hw
  exact hgap b List.mem_cons_self

/-- What stands behind the end of a word does not go into its number. -/
theorem scanDigits_append (hend : EndsWord rest) (word : List Byte) :
    scanDigits (word ++ rest) = scanDigits word := by
  have htake : (word ++ rest).takeWhile isDigit = word.takeWhile isDigit := by
    induction word with
    | nil =>
      have hnone : ∀ b ∈ ([] : List Byte), isDigit b = true := by simp
      exact takeWhile_digits hnone hend
    | cons b word ih =>
      rw [List.cons_append, List.takeWhile_cons, List.takeWhile_cons, ih]
  unfold scanDigits
  rw [htake]

/-- A number begins with a sign or a digit. -/
theorem scanInt_cons (hb : isSpace b = false) (rest : List Byte) :
    scanInt (b :: rest) = (if b = 45 then (scanDigits rest).map (- ·)
      else if b = 43 then scanDigits rest else scanDigits (b :: rest)).map
        fun n => Int.bmod (max (-2 ^ 63) (min n (2 ^ 63 - 1))) (2 ^ 32) := by
  unfold scanInt
  rw [List.dropWhile_cons_of_neg (by rw [hb]; decide)]
  split
  · rename_i heq
    cases heq
    rfl
  · rename_i heq
    cases heq
    rfl
  · rename_i h45 h43
    rw [if_neg fun he => h45 _ (by rw [he]), if_neg fun he => h43 _ (by rw [he])]

theorem blank_or_word (text : List Byte) : (∀ b ∈ text, isSpace b = true) ∨
    ∃ lead b rest, text = lead ++ b :: rest ∧ (∀ b ∈ lead, isSpace b = true) ∧
      isSpace b = false := by
  induction text with
  | nil => exact Or.inl fun b hb => by cases hb
  | cons x text ih =>
    cases hx : isSpace x with
    | false => exact Or.inr ⟨[], x, text, rfl, fun b hb => (by cases hb), hx⟩
    | true =>
      rcases ih with hblank | ⟨lead, b, rest, rfl, hlead, hb⟩
      · exact Or.inl (List.forall_mem_cons.mpr ⟨hx, hblank⟩)
      · exact Or.inr ⟨x :: lead, b, rest, rfl, List.forall_mem_cons.mpr ⟨hx, hlead⟩, hb⟩

theorem scanString_blank (h : ∀ b ∈ tail, isSpace b = true) : scanString tail = none := by
  rw [← List.append_nil tail, scanString_lead h]
  rfl

theorem scanInt_blank (h : ∀ b ∈ tail, isSpace b = true) : scanInt tail = none := by
  rw [← List.append_nil tail, scanInt_lead h]
  rfl

/-- Spaces behind a text are not read. -/
theorem scanString_tail (htail : ∀ b ∈ tail, isSpace b = true) (text : List Byte) :
    scanString (text ++ tail) = scanString text := by
  cases hscan : scanString text with
  | some word =>
    have hend : EndsWord tail := fun w hw => htail w (List.mem_of_mem_head? hw)
    exact scanString_eq_some.mpr ((scanString_eq_some.mp hscan).append hend)
  | none =>
    rcases blank_or_word text with hblank | ⟨lead, b, rest, rfl, hlead, hb⟩
    · exact scanString_blank (List.forall_mem_append.mpr ⟨hblank, htail⟩)
    · rw [scanString_lead hlead] at hscan
      unfold scanString at hscan
      simp only [List.dropWhile_cons_of_neg (show ¬ isSpace b = true by rw [hb]; decide)] at hscan
      rw [List.takeWhile_cons_of_pos (p := fun b => !isSpace b) (by simp [hb]),
        if_neg (List.cons_ne_nil _ _)] at hscan
      cases hscan

theorem scanInt_tail (htail : ∀ b ∈ tail, isSpace b = true) (text : List Byte) :
    scanInt (text ++ tail) = scanInt text := by
  have hend : EndsWord tail := fun w hw => htail w (List.mem_of_mem_head? hw)
  rcases blank_or_word text with hblank | ⟨lead, b, rest, rfl, hlead, hb⟩
  · rw [scanInt_blank hblank, scanInt_blank (List.forall_mem_append.mpr ⟨hblank, htail⟩)]
  · rw [List.append_assoc, scanInt_lead hlead, scanInt_lead hlead, List.cons_append,
      scanInt_cons hb, scanInt_cons hb, scanDigits_append hend, ← List.cons_append,
      scanDigits_append hend]

end Tail

/-! ## The command in a block -/

/-- The byte that is sent for an SF. -/
def sfByte (sf : ℤ) : Byte := UInt8.ofNat (sf % 256).toNat

/-- The text of a block. -/
def blockText (block : List Byte) : List Byte := cstr (pad buflen block)

/-- The first word of a block, empty if there is none. -/
def commandWord (block : List Byte) : List Byte := (scanString (blockText block)).getD []

/-- What stands in a block behind as many bytes as its first word has. -/
def behindCommand (block : List Byte) : List Byte :=
  (blockText block).drop (commandWord block).length

/-- The number that is read for an SF, behind a topic of `n` bytes. -/
def sfIn (block : List Byte) (n : ℕ) : Option ℤ :=
  scanInt (cstr ((pad buflen block).drop ((commandWord block).length + (n + 2))))

/-- The variables behind the command in a block, if it is one to subscribe or to unsubscribe. -/
def lineCommand (s : SubscriberState) (block : List Byte) :
    Except Fault (Option SubscriberState) :=
  let word := commandWord block
  let rest := cstr ((pad buflen block).drop word.length)
  if 0 ∉ pad buflen block ∨ commandLen ≤ word.length then .error .outOfBounds
  else if subscribeWord <+: word then
    (sscanfString rest (.ofList stringLen [])).map fun topic =>
      let sf := (sfIn block topic.str.length).getD s.sf
      some ⟨⟨0, sfByte sf, topic⟩, sf⟩
  else if unsubscribeWord <+: word then
    (sscanfString rest s.clsHdr.topic).map fun topic =>
      some { s with clsHdr := { s.clsHdr with type := 1, topic := topic } }
  else .ok none

/-- The end of the branch of a line: a fault stops it before it calls anything; a command is sent
once, and if it is acknowledged the branch ends with its variables; and what is neither a command
nor the word `exit` leaves the variables as they were. -/
def Carried (s : SubscriberState) (block : List Byte) (r : Except Fault (Option SubscriberState))
    (evs : List (Event Sys)) (o : Except Halt SubscriberState) : Prop :=
  match r with
  | .error f => evs = [] ∧ o = .error (.fault f)
  | .ok (some s') => commandsSent evs = [s'.clsHdr.encode] ∧ (∀ f, o ≠ .error (.fault f)) ∧
      (acknowledging.Obeys () evs → o = .ok s')
  | .ok none => commandsSent evs = [] ∧ (∀ f, o ≠ .error (.fault f)) ∧
      (exitWord <+: commandWord block ∨ o = .ok s)

section Line

variable {sockfd : ℤ} {s : SubscriberState} {block : List Byte} {evs : List (Event Sys)}
  {o : Except Halt SubscriberState}

/-- A command is sent whatever comes back, and ends with its variables if it is acknowledged. -/
theorem exchange_sent {m : List Byte} {x : SubscriberState} {line : Output}
    (he : ((do
        let _ ← send .putCommand sockfd m
        let ret ← recv .getCommandAck sockfd (serverHdrSize + 1)
        dieType ((ret.getD []).getD 0 0 != 6) lackAck
        pure x : Proc SubscriberState) >>= fun s => do
          printf line
          pure s).Exec evs o) :
    commandsSent evs = [m] ∧ (∀ f, o ≠ .error (.fault f)) ∧
      (acknowledging.Obeys () evs → o = .ok x) := by
  rw [LawfulMonad.bind_assoc, exec_send] at he
  obtain ⟨sent, rest, rfl, he⟩ := he
  rw [LawfulMonad.bind_assoc, exec_recv] at he
  obtain ⟨ret, rest', rfl, he⟩ := he
  rw [LawfulMonad.bind_assoc, exec_dieType] at he
  rcases he with ⟨hne, rfl, rfl⟩ | ⟨-, he⟩
  · refine ⟨rfl, fun f hf => (by cases hf), fun ho => ?_⟩
    have h6 : (ret.getD []).getD 0 0 = 6 := ho.2.1
    rw [h6] at hne
    cases hne
  · obtain ⟨r, rest'', rfl, rfl, rfl⟩ := he
    exact ⟨rfl, fun f hf => (by cases hf), fun _ => rfl⟩

theorem exitBranch_sent (he : (exitBranch sockfd : Proc SubscriberState).Exec evs o) :
    commandsSent evs = [] ∧ ∀ f, o ≠ .error (.fault f) := by
  unfold exitBranch at he
  rw [exec_indeterminate] at he
  obtain ⟨clSv, rest, rfl, he⟩ := he
  rw [exec_send] at he
  obtain ⟨sent, rest, rfl, he⟩ := he
  rw [exec_dieCall] at he
  rcases he with ⟨-, rfl, rfl⟩ | ⟨-, he⟩
  · exact ⟨rfl, fun f hf => by cases hf⟩
  rw [exec_recv] at he
  obtain ⟨ret, rest, rfl, he⟩ := he
  rw [exec_dieCall] at he
  rcases he with ⟨-, rfl, rfl⟩ | ⟨-, he⟩
  · exact ⟨rfl, fun f hf => by cases hf⟩
  rw [exec_dieType] at he
  rcases he with ⟨-, rfl, rfl⟩ | ⟨-, he⟩
  · exact ⟨rfl, fun f hf => by cases hf⟩
  · obtain ⟨u, rest, rfl, rfl, rfl⟩ := he
    exact ⟨rfl, fun f hf => by cases hf⟩

theorem commandWord_eq {word : List Byte} (h : FirstWord (blockText block) word) :
    commandWord block = word := by
  rw [commandWord, scanString_eq_some.mpr h, Option.getD_some]

theorem firstWord_commandWord (hne : commandWord block ≠ []) :
    FirstWord (blockText block) (commandWord block) := by
  unfold commandWord at hne ⊢
  cases hscan : scanString (blockText block) with
  | none =>
    rw [hscan] at hne
    exact absurd rfl hne
  | some word => exact scanString_eq_some.mp hscan

theorem cstr_behindCommand :
    cstr ((pad buflen block).drop (commandWord block).length) = behindCommand block := by
  refine cstr_drop ?_
  show (commandWord block).length ≤ (blockText block).length
  cases hscan : scanString (blockText block) with
  | none =>
    rw [commandWord, hscan]
    exact Nat.zero_le _
  | some word =>
    have hword := scanString_eq_some.mp hscan
    rw [commandWord_eq hword]
    exact hword.length_le

/-- The array with the first word. -/
theorem sscanf_command (hfit : (commandWord block).length < commandLen) :
    sscanfString (blockText block) (.ofList commandLen []) =
      .ok (.ofList commandLen (commandWord block)) := by
  unfold commandWord at hfit ⊢
  cases hscan : scanString (blockText block) with
  | none =>
    unfold sscanfString
    rw [hscan]
    rfl
  | some word =>
    rw [hscan, Option.getD_some] at hfit
    have h0 : 0 ∉ word := fun h => zero_not_mem_cstr _ ((scanString_eq_some.mp hscan).subset h)
    obtain ⟨c, hc, rfl, -⟩ := sscanfString_token (.ofList commandLen []) hscan h0 hfit
    rw [hc, overlay_zeros hfit]
    rfl

theorem zero_not_mem_commandWord : 0 ∉ commandWord block := by
  unfold commandWord
  cases hscan : scanString (blockText block) with
  | none => exact List.not_mem_nil
  | some word =>
    exact fun h => zero_not_mem_cstr _ ((scanString_eq_some.mp hscan).subset h)

/-- Whether a block is for a command is seen at its first word. -/
theorem strncmp_command (hfit : (commandWord block).length < commandLen) {w : List Byte}
    (h0 : 0 ∉ w) (hw : w.length ≤ commandLen) :
    strncmp (CharArray.ofList commandLen (commandWord block)).bytes w w.length = 0 ↔
      w <+: commandWord block := by
  have hstr := CharArray.str_ofList zero_not_mem_commandWord hfit.le
  rw [strncmp_word h0 (hw.trans (CharArray.ofList commandLen _).length_eq.ge)]
  show w <+: (CharArray.ofList commandLen (commandWord block)).str ↔ _
  rw [hstr]

/-- Behind the `read` of a block its words decide. -/
theorem lineBranch_exec
    (he : (lineBranch sockfd s).Exec (⟨.read 0 buflen, some block⟩ :: evs) o) :
    Carried s block (lineCommand s block) evs o := by
  unfold lineBranch readFirstParameter at he
  rw [LawfulMonad.bind_assoc, exec_read] at he
  obtain ⟨ret, rest, heq, he⟩ := he
  cases heq
  rw [LawfulMonad.bind_assoc, exec_dieCall] at he
  rcases he with ⟨hret, -⟩ | ⟨-, he⟩
  · cases hret
  simp only [Option.getD_some] at he
  unfold lineCommand
  simp only
  by_cases hnul : 0 ∈ pad buflen block
  swap
  · rw [if_neg hnul] at he
    rw [if_pos (Or.inl hnul)]
    obtain ⟨rfl, rfl⟩ := he
    exact ⟨rfl, rfl⟩
  rw [if_pos hnul] at he
  by_cases hfit : commandLen ≤ (commandWord block).length
  · rw [if_pos (Or.inr hfit)]
    have hscan : sscanfString (blockText block) (.ofList commandLen []) = .error .outOfBounds := by
      unfold commandWord at hfit
      unfold sscanfString
      cases hscan : scanString (blockText block) with
      | none =>
        rw [hscan] at hfit
        exact absurd hfit (by decide)
      | some word =>
        rw [hscan] at hfit
        exact if_pos hfit
    rw [show cstr (pad buflen block) = blockText block from rfl, hscan] at he
    obtain ⟨rfl, rfl⟩ := he
    exact ⟨rfl, rfl⟩
  have hfit := Nat.lt_of_not_le hfit
  have hstr := CharArray.str_ofList zero_not_mem_commandWord hfit.le
  rw [if_neg (not_or_intro (not_not_intro hnul) (Nat.not_le.mpr hfit))]
  rw [show cstr (pad buflen block) = blockText block from rfl, sscanf_command hfit] at he
  have he' : (if strncmp (CharArray.ofList commandLen (commandWord block)).bytes subscribeWord
        subscribeWord.length = 0 then do
        let s ← processSubscribe sockfd (pad buflen block) (.ofList commandLen (commandWord block)) s
        printf .subSucc
        pure s
      else if strncmp (CharArray.ofList commandLen (commandWord block)).bytes unsubscribeWord
        unsubscribeWord.length = 0 then do
        let s ← processUnsubscribe sockfd (pad buflen block)
          (.ofList commandLen (commandWord block)) s
        printf .unsubSucc
        pure s
      else if strncmp (CharArray.ofList commandLen (commandWord block)).bytes exitWord
        exitWord.length = 0 then exitBranch sockfd
      else do
        printf .wrongCom
        pure s : Proc SubscriberState).Exec evs o := he
  rw [ite_cond_congr (propext (strncmp_command hfit (by decide) (by decide))),
    ite_cond_congr (propext (strncmp_command (w := unsubscribeWord) hfit (by decide) (by decide))),
    ite_cond_congr (propext (strncmp_command (w := exitWord) hfit (by decide) (by decide)))] at he'
  split_ifs at he' ⊢ with hsub hunsub hexit
  · unfold processSubscribe at he'
    rw [hstr] at he'
    simp only at he'
    cases htopic : sscanfString (cstr ((pad buflen block).drop (commandWord block).length))
        (.ofList stringLen []) with
    | error f =>
      rw [htopic] at he'
      obtain ⟨rfl, rfl⟩ := he'
      exact ⟨rfl, rfl⟩
    | ok topic =>
      rw [htopic] at he'
      simp only [mem_ok, Program.ret_bind, List.drop_drop] at he'
      exact exchange_sent he'
  · unfold processUnsubscribe at he'
    rw [hstr] at he'
    cases htopic : sscanfString (cstr ((pad buflen block).drop (commandWord block).length))
        s.clsHdr.topic with
    | error f =>
      rw [htopic] at he'
      obtain ⟨rfl, rfl⟩ := he'
      exact ⟨rfl, rfl⟩
    | ok topic =>
      rw [htopic] at he'
      simp only [mem_ok, Program.ret_bind] at he'
      exact exchange_sent he'
  · obtain ⟨hsent, hfault⟩ := exitBranch_sent he'
    exact ⟨hsent, hfault, Or.inl hexit⟩
  · rw [exec_printf] at he'
    obtain ⟨u, rest, rfl, rfl, rfl⟩ := he'
    exact ⟨rfl, fun f hf => (by cases hf), Or.inr rfl⟩

/-! ### Lines without NUL -/

variable {chunk topic word : List Byte}

theorem blockText_eq (h0 : 0 ∉ chunk) (hlt : chunk.length < buflen) : blockText chunk = chunk :=
  cstr_drop_pad h0 hlt 0

theorem zero_mem_pad (hlt : chunk.length < buflen) : (0 : Byte) ∈ pad buflen chunk := by
  rw [pad_of_le hlt.le]
  exact List.mem_append_right _ (List.mem_replicate.mpr ⟨by omega, rfl⟩)

theorem lineCommand_subscribe (h0 : 0 ∉ chunk) (hlt : chunk.length < buflen)
    (hword : scanString chunk = some subscribeWord)
    (htopic : scanString (chunk.drop subscribeWord.length) = some topic)
    (hshort : topic.length < stringLen) :
    lineCommand s chunk = .ok (some
      ⟨⟨0, sfByte ((scanInt (chunk.drop (subscribeWord.length + (topic.length + 2)))).getD s.sf),
        .ofList stringLen topic⟩,
      (scanInt (chunk.drop (subscribeWord.length + (topic.length + 2)))).getD s.sf⟩) := by
  have hcommand : commandWord chunk = subscribeWord :=
    commandWord_eq (scanString_eq_some.mp (by rw [blockText_eq h0 hlt, hword]))
  have hnul : 0 ∉ topic := fun h =>
    h0 (List.mem_of_mem_drop ((scanString_eq_some.mp htopic).subset h))
  obtain ⟨c, hc, rfl, hstr⟩ := sscanfString_token (.ofList stringLen []) htopic hnul hshort
  rw [overlay_zeros hshort] at hc hstr
  have hrest : cstr ((pad buflen chunk).drop subscribeWord.length) =
      chunk.drop subscribeWord.length := cstr_drop_pad h0 hlt _
  have hsf : sfIn chunk topic.length =
      scanInt (chunk.drop (subscribeWord.length + (topic.length + 2))) := by
    rw [sfIn, hcommand, cstr_drop_pad h0 hlt]
  unfold lineCommand
  simp only [hcommand, hrest, hc]
  rw [if_neg (not_or_intro (not_not_intro (zero_mem_pad hlt)) (by decide)), if_pos List.prefix_rfl]
  show Except.ok (some _) = _
  rw [hstr, hsf]

/-- A line that fills the buffer has no end. -/
theorem lineCommand_full (h0 : 0 ∉ chunk) (hge : buflen ≤ chunk.length) :
    lineCommand s chunk = .error .outOfBounds := by
  refine if_pos (Or.inl fun h => h0 ?_)
  unfold pad at h
  rw [Nat.sub_eq_zero_of_le hge, List.replicate_zero, List.append_nil] at h
  exact List.mem_of_mem_take h

/-! ### What is sent -/

/-- The commands that are sent for a block. -/
def lineSent (s : SubscriberState) (block : List Byte) : List (List Byte) :=
  match lineCommand s block with
  | .ok (some s') => [s'.clsHdr.encode]
  | _ => []

theorem lineBranch_sent
    (he : (lineBranch sockfd s).Exec (⟨.read 0 buflen, some block⟩ :: evs) o) :
    commandsSent evs = lineSent s block := by
  have hcarried := lineBranch_exec he
  unfold lineSent
  cases hline : lineCommand s block with
  | error f =>
    rw [hline] at hcarried
    obtain ⟨rfl, -⟩ := hcarried
    rfl
  | ok r =>
    rw [hline] at hcarried
    cases r with
    | none => exact hcarried.1
    | some s' => exact hcarried.1

/-- A block can be read in every state. -/
theorem lineBranch_reads (sockfd : ℤ) (s : SubscriberState) (block : List Byte) :
    ∃ evs o, (lineBranch sockfd s).Exec (⟨.read 0 buflen, some block⟩ :: evs) o := by
  obtain ⟨rest, hrest, -⟩ : ∃ rest, lineBranch sockfd s = .call (.read 0 buflen) rest ∧
      ∀ ret, (rest ret).Calls LineCall := lineBranch_calls
  have hexec := Program.exec_play (fun _ => scripted 0 [] block) (lineBranch sockfd s) 0
  rw [hrest] at hexec
  exact ⟨_, _, hrest ▸ hexec⟩

end Line

end TopicServer
