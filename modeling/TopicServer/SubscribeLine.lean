import Mathlib.Data.List.DropRight
import TopicServer.Parsing

/-!
# Where a subscribe line is read

`process_subscribe` finds the topic behind as many bytes as the command has, and the SF behind as
many as the two words have and two more. That is right for one space between the words: leading
spaces move the topic into the command, and a wide gap moves the SF into the topic. A line is read
right exactly when it is aligned, or when what is found in these places happens to be the same
(`subscribe_line_iff`).
-/

namespace TopicServer

open Interactive Memory

/-- A line that subscribes: its words, and the spaces before, between and behind them. -/
structure SubscribeLine where
  lead : List Byte
  gap : List Byte
  topic : List Byte
  space : List Byte
  digits : List Byte
  tail : List Byte
  flag : Byte
  lead_blank : ∀ b ∈ lead, isSpace b = true
  gap_ne : gap ≠ []
  gap_blank : ∀ b ∈ gap, isSpace b = true
  topic_ne : topic ≠ []
  topic_plain : ∀ b ∈ topic, b ≠ 0 ∧ isSpace b = false
  topic_short : topic.length < stringLen
  space_ne : space ≠ []
  space_blank : ∀ b ∈ space, isSpace b = true
  digits_ne : digits ≠ []
  digits_plain : ∀ b ∈ digits, isDigit b = true
  digits_flag : scanDigits digits = some (flag.toNat : ℤ)
  flag_le : flag ≤ 1
  tail_blank : ∀ b ∈ tail, isSpace b = true

namespace SubscribeLine

/-- What stands behind the topic. -/
def rest (l : SubscribeLine) : List Byte := l.space ++ (l.digits ++ l.tail)

def text (l : SubscribeLine) : List Byte :=
  l.lead ++ (subscribeWord ++ (l.gap ++ (l.topic ++ l.rest)))

/-- The header for a line. -/
def header (l : SubscribeLine) : ClientToServerHdr := ⟨0, l.flag, .ofList stringLen l.topic⟩

/-- The line is read in one `read`, and its header is sent. -/
def Sent (l : SubscribeLine) (sockfd : ℤ) (s : SubscriberState) : Prop :=
  ∀ evs o, (lineBranch sockfd s).Exec (⟨.read 0 buflen, some (l.text.take buflen)⟩ :: evs) o →
    commandsSent evs = [l.header.encode]

/-- The word that is found for the topic: the end of the command behind leading spaces. -/
def token (l : SubscribeLine) : List Byte :=
  if l.lead = [] then l.topic else subscribeWord.drop (subscribeWord.length - l.lead.length)

/-- The SF is found: behind leading spaces only if there is one, the topic has one letter and the gap
one space; else behind a gap of at most two spaces. Otherwise the number at the end of the topic is
taken for it, or what the variable holds if there is none. -/
def ReadsFlag (l : SubscribeLine) (s : SubscriberState) : Prop :=
  if l.lead = [] then
    l.gap.length ≤ 2 ∨ sfByte ((scanInt (l.topic.rtake (l.gap.length - 2))).getD s.sf) = l.flag
  else l.lead.length = 1 ∧ l.gap.length = 1 ∨ sfByte s.sf = l.flag

end SubscribeLine

/-! ## Numbers in words -/

section Numbers

variable {word rest : List Byte} {b : Byte}

theorem scanInt_word (hne : word ≠ []) (hword : ∀ b ∈ word, isSpace b = false)
    (hend : EndsWord rest) : scanInt (word ++ rest) = scanInt word := by
  obtain ⟨b, word, rfl⟩ := List.exists_cons_of_ne_nil hne
  have hb := hword b List.mem_cons_self
  rw [List.cons_append, scanInt_cons hb, scanInt_cons hb, scanDigits_append hend,
    ← List.cons_append, scanDigits_append hend]

/-- A letter of the command begins no number. -/
theorem scanInt_letter (hb : b ∈ subscribeWord) (rest : List Byte) : scanInt (b :: rest) = none := by
  have hletter : ∀ b ∈ subscribeWord, isSpace b = false ∧ isDigit b = false ∧ b ≠ 45 ∧ b ≠ 43 := by
    decide +kernel
  obtain ⟨hspace, hdigit, h45, h43⟩ := hletter b hb
  rw [scanInt_cons hspace, if_neg h45, if_neg h43]
  unfold scanDigits
  rw [List.takeWhile_cons_of_neg (by rw [hdigit]; decide)]
  rfl

end Numbers

/-! ## The places -/

namespace SubscribeLine

variable {l : SubscribeLine} {s : SubscriberState}

theorem zero_not_mem_text (l : SubscribeLine) : 0 ∉ l.text := by
  have hblank : ∀ {g : List Byte}, (∀ b ∈ g, isSpace b = true) → 0 ∉ g := fun hg h => by
    have hz := hg 0 h
    cases hz
  have htopic : 0 ∉ l.topic := fun h => (l.topic_plain 0 h).1 rfl
  have hdigits : 0 ∉ l.digits := fun h => isDigit_ne_zero (l.digits_plain 0 h) rfl
  have hword : (0 : Byte) ∉ subscribeWord := by decide
  unfold text rest
  simp only [List.mem_append, not_or]
  exact ⟨hblank l.lead_blank, hword, hblank l.gap_blank, htopic, hblank l.space_blank, hdigits,
    hblank l.tail_blank⟩

theorem topic_space (l : SubscribeLine) : ∀ b ∈ l.topic, isSpace b = false :=
  fun b hb => (l.topic_plain b hb).2

theorem endsWord_rest (l : SubscribeLine) : EndsWord l.rest :=
  endsWord_blank l.space_ne l.space_blank _

theorem firstWord_text (l : SubscribeLine) : FirstWord l.text subscribeWord :=
  ⟨l.lead, _, rfl, l.lead_blank, by decide, by decide +kernel,
    endsWord_blank l.gap_ne l.gap_blank _⟩

/-- What stands from a place on. -/
theorem drop_text (l : SubscribeLine) (n : ℕ) : l.text.drop n = l.lead.drop n ++
    (subscribeWord.drop (n - l.lead.length) ++
      (l.gap ++ (l.topic ++ l.rest)).drop (n - l.lead.length - subscribeWord.length)) := by
  rw [text, List.drop_append, List.drop_append]

theorem drop_behind (l : SubscribeLine) (n : ℕ) : (l.gap ++ (l.topic ++ l.rest)).drop n =
    l.gap.drop n ++ (l.topic.drop (n - l.gap.length) ++
      l.rest.drop (n - l.gap.length - l.topic.length)) := by
  rw [List.drop_append, List.drop_append]

theorem token_cons (h : l.lead ≠ []) :
    l.token = subscribeWord.drop (subscribeWord.length - l.lead.length) := if_neg h

theorem length_token (h : l.lead ≠ []) : l.token.length = min l.lead.length 9 := by
  have h9 : subscribeWord.length = 9 := rfl
  rw [token_cons h, List.length_drop]
  omega

theorem token_subset (h : l.lead ≠ []) : l.token ⊆ subscribeWord := by
  rw [token_cons h]
  exact List.drop_subset _ _

/-- The token is the word that is found. -/
theorem firstWord_token (l : SubscribeLine) :
    FirstWord (l.text.drop subscribeWord.length) l.token := by
  by_cases h : l.lead = []
  · refine ⟨l.gap, l.rest, ?_, l.gap_blank, ?_, ?_, l.endsWord_rest⟩
    · rw [drop_text, token, if_pos h, h]
      rfl
    · rw [token, if_pos h]
      exact l.topic_ne
    · rw [token, if_pos h]
      exact l.topic_space
  · have hpos : 0 < l.lead.length := List.length_pos_of_ne_nil h
    refine ⟨l.lead.drop subscribeWord.length, l.gap ++ (l.topic ++ l.rest), ?_,
      fun b hb => l.lead_blank b (List.mem_of_mem_drop hb), fun hnil => ?_, fun b hb => ?_,
      endsWord_blank l.gap_ne l.gap_blank _⟩
    · have hzero : subscribeWord.length - l.lead.length - subscribeWord.length = 0 := by omega
      rw [drop_text, token_cons h, hzero, List.drop_zero]
    · have hlen := length_token h
      rw [hnil, List.length_nil] at hlen
      omega
    · have hplain : ∀ b ∈ subscribeWord, isSpace b = false := by decide +kernel
      exact hplain b (token_subset h hb)

theorem token_plain (l : SubscribeLine) : 0 ∉ l.token ∧ l.token.length < stringLen := by
  by_cases h : l.lead = []
  · rw [token, if_pos h]
    exact ⟨fun h0 => (l.topic_plain 0 h0).1 rfl, l.topic_short⟩
  · have h0 : (0 : Byte) ∉ subscribeWord := by decide
    have h50 : stringLen = 50 := rfl
    refine ⟨fun hm => h0 (token_subset h hm), ?_⟩
    rw [length_token h]
    omega

/-! ## The number -/

/-- The number that is found for the SF. -/
def number (l : SubscribeLine) : Option ℤ :=
  scanInt (l.text.drop (subscribeWord.length + (l.token.length + 2)))

theorem flag_cases (l : SubscribeLine) : l.flag = 0 ∨ l.flag = 1 := by
  have hle := UInt8.le_iff_toNat_le.mp l.flag_le
  have h1 : (1 : UInt8).toNat = 1 := rfl
  rcases Nat.le_one_iff_eq_zero_or_eq_one.mp (hle.trans h1.le) with h | h
  · exact Or.inl (UInt8.toNat_inj.mp h)
  · exact Or.inr (UInt8.toNat_inj.mp h)

theorem sfByte_flag (l : SubscribeLine) : sfByte (l.flag.toNat : ℤ) = l.flag := by
  rcases l.flag_cases with h | h <;> rw [h] <;> decide

/-- The SF is found from every place in the spaces before it. -/
theorem scanInt_rest (l : SubscribeLine) {n : ℕ} (hn : n ≤ l.space.length) :
    scanInt (l.rest.drop n) = some (l.flag.toNat : ℤ) := by
  have hend : EndsWord l.tail := fun w hw => l.tail_blank w (List.mem_of_mem_head? hw)
  rw [rest, List.drop_append_of_le_length hn,
    scanInt_lead fun b hb => l.space_blank b (List.mem_of_mem_drop hb),
    scanInt_digits l.digits_ne l.digits_plain hend, l.digits_flag]
  rcases l.flag_cases with h | h <;> rw [h] <;> decide

/-- Without leading spaces the place of the SF is right behind the topic, as far as the gap is not
wider than two spaces. -/
theorem number_aligned (h : l.lead = []) : l.number =
    if l.gap.length ≤ 2 then some (l.flag.toNat : ℤ)
    else scanInt (l.topic.rtake (l.gap.length - 2)) := by
  have hgap : 0 < l.gap.length := List.length_pos_of_ne_nil l.gap_ne
  have hspace : 0 < l.space.length := List.length_pos_of_ne_nil l.space_ne
  have hplace : l.text.drop (subscribeWord.length + (l.token.length + 2)) =
      (l.gap ++ (l.topic ++ l.rest)).drop (l.topic.length + 2) := by
    have hsub : subscribeWord.length + (l.topic.length + 2) - ([] : List Byte).length -
        subscribeWord.length = l.topic.length + 2 := by
      rw [List.length_nil]
      omega
    rw [drop_text, token, if_pos h, h, hsub, List.drop_nil, List.nil_append,
      List.drop_eq_nil_of_le (by rw [List.length_nil]; omega), List.nil_append]
  rw [number, hplace, drop_behind,
    scanInt_lead fun b hb => l.gap_blank b (List.mem_of_mem_drop hb)]
  split_ifs with hle
  · rw [List.drop_eq_nil_of_le (by omega), List.nil_append]
    exact l.scanInt_rest (by omega)
  · have hsub : l.topic.length - (l.gap.length - 2) = l.topic.length + 2 - l.gap.length := by omega
    have hlen := List.length_pos_of_ne_nil l.topic_ne
    have hzero : l.topic.length + 2 - l.gap.length - l.topic.length = 0 := by omega
    rw [hzero, List.drop_zero, List.rtake, hsub]
    refine scanInt_word (fun hnil => ?_)
      (fun b hb => l.topic_space b (List.mem_of_mem_drop hb)) l.endsWord_rest
    have hdrop := congrArg List.length hnil
    rw [List.length_drop, List.length_nil] at hdrop
    omega

/-- Behind leading spaces the place of the SF is right behind a topic of one letter and a gap of one
space, else a letter comes first. -/
theorem number_moved (h : l.lead ≠ []) (ht : l.token = l.topic) : l.number =
    if l.lead.length = 1 ∧ l.gap.length = 1 then some (l.flag.toNat : ℤ) else none := by
  have h9 : subscribeWord.length = 9 := rfl
  have hlead : 0 < l.lead.length := List.length_pos_of_ne_nil h
  have hgap : 0 < l.gap.length := List.length_pos_of_ne_nil l.gap_ne
  have hlen := length_token h
  have htopic : l.topic.length = min l.lead.length 9 := by rw [← ht, hlen]
  have hletters : ∀ {w : List Byte} (rest : List Byte), w ≠ [] → w ⊆ subscribeWord →
      scanInt (w ++ rest) = none := by
    intro w rest hne hw
    obtain ⟨b, w, rfl⟩ := List.exists_cons_of_ne_nil hne
    exact scanInt_letter (hw List.mem_cons_self) _
  rw [number, drop_text, scanInt_lead fun b hb => l.lead_blank b (List.mem_of_mem_drop hb)]
  by_cases hin : subscribeWord.length + (l.token.length + 2) - l.lead.length < subscribeWord.length
  · -- the place is in the command
    rw [if_neg (by omega)]
    refine hletters _ (fun hnil => ?_) (List.drop_subset _ _)
    have hdrop := congrArg List.length hnil
    rw [List.length_drop, List.length_nil] at hdrop
    omega
  rw [List.drop_eq_nil_of_le (Nat.le_of_not_lt hin), List.nil_append, drop_behind,
    scanInt_lead fun b hb => l.gap_blank b (List.mem_of_mem_drop hb)]
  split_ifs with hone
  · have hspace : 0 < l.space.length := List.length_pos_of_ne_nil l.space_ne
    rw [List.drop_eq_nil_of_le (by omega), List.nil_append]
    exact l.scanInt_rest (by omega)
  · -- the place is in the gap or in the topic
    refine hletters _ (fun hnil => ?_) fun b hb => ?_
    · have hdrop := congrArg List.length hnil
      rw [List.length_drop, List.length_nil] at hdrop
      omega
    · exact token_subset h (ht ▸ List.mem_of_mem_drop hb)

/-- The byte that is sent is right exactly when the SF is found. -/
theorem readsFlag_iff (ht : l.token = l.topic) :
    sfByte (l.number.getD s.sf) = l.flag ↔ l.ReadsFlag s := by
  unfold ReadsFlag
  by_cases h : l.lead = []
  · rw [number_aligned h, if_pos h]
    split_ifs with hle
    · exact iff_of_true l.sfByte_flag (Or.inl hle)
    · exact (or_iff_right hle).symm
  · rw [number_moved h ht, if_neg h]
    split_ifs with hone
    · exact iff_of_true l.sfByte_flag (Or.inl hone)
    · exact (or_iff_right hone).symm

/-! ## The line -/

/-- A line that fits in the buffer is taken for a command with the token and the number. -/
theorem lineCommand_text (hlt : l.text.length < buflen) : lineCommand s l.text =
    .ok (some ⟨⟨0, sfByte (l.number.getD s.sf), .ofList stringLen l.token⟩, l.number.getD s.sf⟩) :=
  lineCommand_subscribe l.zero_not_mem_text hlt (scanString_eq_some.mpr l.firstWord_text)
    (scanString_eq_some.mpr l.firstWord_token) l.token_plain.2

theorem header_eq_iff {sf : ℤ} : (⟨0, sfByte sf, .ofList stringLen l.token⟩ : ClientToServerHdr) =
    l.header ↔ l.token = l.topic ∧ sfByte sf = l.flag := by
  rw [header, ClientToServerHdr.mk.injEq, and_iff_right rfl, and_comm]
  refine and_congr_left fun _ => ⟨fun h => ?_, congrArg _⟩
  obtain ⟨h0, hlen⟩ := l.token_plain
  rw [← CharArray.str_ofList h0 hlen.le, h,
    CharArray.str_ofList (fun h0 => (l.topic_plain 0 h0).1 rfl) l.topic_short.le]

end SubscribeLine

/-- The header of a line is sent exactly when the line fits in the buffer, the topic is found and
the SF is. -/
theorem subscribe_line_iff (l : SubscribeLine) (sockfd : ℤ) (s : SubscriberState) :
    l.Sent sockfd s ↔ l.text.length < buflen ∧ l.token = l.topic ∧ l.ReadsFlag s := by
  have hsent : l.Sent sockfd s ↔ lineSent s (l.text.take buflen) = [l.header.encode] := by
    constructor
    · intro h
      obtain ⟨evs, o, he⟩ := lineBranch_reads sockfd s (l.text.take buflen)
      rw [← lineBranch_sent he, h evs o he]
    · intro h evs o he
      rw [lineBranch_sent he, h]
  rw [hsent]
  unfold lineSent
  by_cases hlt : l.text.length < buflen
  · rw [List.take_of_length_le hlt.le, l.lineCommand_text hlt, and_iff_right hlt,
      List.singleton_inj, ClientToServerHdr.encode_inj, SubscribeLine.header_eq_iff]
    exact and_congr_right fun ht => l.readsFlag_iff ht
  · have h0 : 0 ∉ l.text.take buflen := fun h => l.zero_not_mem_text (List.mem_of_mem_take h)
    rw [lineCommand_full h0 (by rw [List.length_take]; omega)]
    exact iff_of_false (List.cons_ne_nil _ _).symm fun h => hlt h.1

/-- The line `subscribe   a1 0`, with three spaces behind the command. -/
def spacedLine : SubscribeLine where
  lead := []
  gap := [32, 32, 32]
  topic := ascii "a1"
  space := [32]
  digits := ascii "0"
  tail := [10]
  flag := 0
  lead_blank := by simp
  gap_ne := by decide
  gap_blank := by decide +kernel
  topic_ne := by decide
  topic_plain := by decide +kernel
  topic_short := by decide
  space_ne := by decide
  space_blank := by decide +kernel
  digits_ne := by decide
  digits_plain := by decide +kernel
  digits_flag := by decide +kernel
  flag_le := by decide
  tail_blank := by decide +kernel

/-- The last character of the topic is taken for the SF. -/
theorem subscribe_line_fails : ¬ spacedLine.Sent 3 subscriberIdle := by
  rw [subscribe_line_iff]
  rintro ⟨-, -, hflag⟩
  rw [SubscribeLine.ReadsFlag, if_pos (show spacedLine.lead = [] from rfl)] at hflag
  rcases hflag with hgap | hsf
  · exact absurd hgap (by decide)
  · exact absurd hsf (by decide +kernel)

end TopicServer
