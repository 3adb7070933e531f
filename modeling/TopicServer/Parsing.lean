import TopicServer.Framing
import TopicServer.Scanning

/-!
# Room for the words of a line

The subscriber writes the words of a line into arrays without looking at their lengths: the arrays
have room exactly for words shorter than they are (`tokens_fit_iff`). A line whose words fit sets
the variables by what is found in it (`lineCommand_fits`).
-/

namespace TopicServer

open Interactive Memory

/-- The text of a block ends in the buffer, its first word leaves room for a NUL in the array of the
command, and if it is a command, the word that is looked for behind it leaves room in the array of
the topic. -/
def TokensFit (block : List Byte) : Prop :=
  0 ∈ pad buflen block ∧ ∀ word, FirstWord (blockText block) word →
    word.length < commandLen ∧ (subscribeWord <+: word ∨ unsubscribeWord <+: word →
      ∀ topic, FirstWord ((blockText block).drop word.length) topic → topic.length < stringLen)

/-- The word and the number that are found for the topic and for the SF, if there are any. -/
structure Reading where
  topic : Option (List Byte)
  sf : Option ℤ

namespace Reading

/-- The variables behind a line to subscribe: without a number the SF is the one from before. -/
def subscribe (r : Reading) (s : SubscriberState) : SubscriberState :=
  let sf := r.sf.getD s.sf
  ⟨⟨0, sfByte sf, .ofList stringLen (r.topic.getD [])⟩, sf⟩

/-- The variables behind a line to unsubscribe: without a word the topic is the one from before. -/
def unsubscribe (r : Reading) (s : SubscriberState) : SubscriberState :=
  { s with clsHdr := { s.clsHdr with
    type := 1
    topic := match r.topic with
      | some topic => .ofList stringLen (overlay (topic ++ [0]) s.clsHdr.topic.bytes)
      | none => s.clsHdr.topic } }

/-- The topic leaves room for a NUL in its array. -/
def Fits (r : Reading) : Prop := ∀ topic ∈ r.topic, 0 ∉ topic ∧ topic.length < stringLen

variable {r r' : Reading} {s s' : SubscriberState}

theorem subscribe_str (h : r.Fits) : (r.subscribe s).clsHdr.topic.str = r.topic.getD [] := by
  have hfits : 0 ∉ r.topic.getD [] ∧ (r.topic.getD []).length ≤ stringLen := by
    cases htopic : r.topic with
    | none => exact ⟨List.not_mem_nil, Nat.zero_le _⟩
    | some topic => exact ⟨(h topic htopic).1, (h topic htopic).2.le⟩
  exact CharArray.str_ofList hfits.1 hfits.2

theorem unsubscribe_str (h : r.Fits) :
    (r.unsubscribe s).clsHdr.topic.str = r.topic.getD s.clsHdr.topic.str := by
  cases htopic : r.topic with
  | none =>
    rw [unsubscribe, htopic]
    rfl
  | some topic =>
    obtain ⟨h0, hlt⟩ := h topic htopic
    rw [unsubscribe, htopic]
    exact str_overlay s.clsHdr.topic h0 hlt

/-- The headers of two lines to subscribe. -/
theorem subscribe_eq_iff (h : r.Fits) (h' : r'.Fits) :
    (r.subscribe s).clsHdr = (r'.subscribe s').clsHdr ↔
      r.topic.getD [] = r'.topic.getD [] ∧ sfByte (r.sf.getD s.sf) = sfByte (r'.sf.getD s'.sf) := by
  constructor
  · intro heq
    rw [← subscribe_str (s := s) h, ← subscribe_str (s := s') h', heq]
    exact ⟨rfl, congrArg ClientToServerHdr.sf heq⟩
  · rintro ⟨htopic, hsf⟩
    simp only [subscribe, htopic, hsf]

/-- The headers of two lines to unsubscribe. -/
theorem unsubscribe_eq_iff (h : r.Fits) (h' : r'.Fits) :
    (r.unsubscribe s).clsHdr = (r'.unsubscribe s).clsHdr ↔
      r.topic.getD s.clsHdr.topic.str = r'.topic.getD s.clsHdr.topic.str := by
  constructor
  · intro heq
    rw [← unsubscribe_str (s := s) h, ← unsubscribe_str (s := s) h', heq]
  · intro htopic
    unfold unsubscribe
    cases ht : r.topic with
    | none =>
      cases ht' : r'.topic with
      | none => rfl
      | some topic' =>
        rw [ht, ht', Option.getD_none, Option.getD_some] at htopic
        subst htopic
        simp only [overlay_str (h' _ ht').2]
    | some topic =>
      cases ht' : r'.topic with
      | none =>
        rw [ht, ht', Option.getD_none, Option.getD_some] at htopic
        subst htopic
        simp only [overlay_str (h _ ht).2]
      | some topic' =>
        rw [ht, ht', Option.getD_some, Option.getD_some] at htopic
        rw [htopic]

end Reading

/-- What is found in a block. -/
def reading (block : List Byte) : Reading :=
  let topic := scanString (behindCommand block)
  ⟨topic, sfIn block (topic.getD []).length⟩

/-- The variables behind the command in a block whose words fit. -/
def obeyed (s : SubscriberState) (block : List Byte) : Option SubscriberState :=
  if subscribeWord <+: commandWord block then some ((reading block).subscribe s)
  else if unsubscribeWord <+: commandWord block then some ((reading block).unsubscribe s)
  else none

section Room

variable {s : SubscriberState} {block word text : List Byte}

/-- `%s` into an array goes right when the first word leaves room for a NUL. -/
theorem sscanfString_ok_iff {n : ℕ} {old : CharArray n} :
    (∃ c, sscanfString text old = .ok c) ↔ ∀ w, FirstWord text w → w.length < n := by
  simp only [← scanString_eq_some]
  unfold sscanfString
  cases scanString text with
  | none => exact iff_of_true ⟨old, rfl⟩ fun w hw => by cases hw
  | some token =>
    simp only [Option.some.injEq, forall_eq']
    split_ifs with hn
    · refine iff_of_false ?_ (Nat.not_lt.mpr hn)
      rintro ⟨c, hc⟩
      cases hc
    · exact iff_of_true ⟨_, rfl⟩ (Nat.lt_of_not_le hn)

theorem map_ok_iff {α β : Type} {f : α → β} {r : Except Fault α} :
    (∃ b, r.map f = .ok b) ↔ ∃ a, r = .ok a := by
  cases r with
  | error e =>
    refine iff_of_false ?_ ?_
    · rintro ⟨b, hb⟩
      cases hb
    · rintro ⟨a, ha⟩
      cases ha
  | ok a => exact iff_of_true ⟨_, rfl⟩ ⟨a, rfl⟩

/-- Whether a block goes right does not depend on the variables. -/
theorem lineCommand_ok_iff : (∃ r, lineCommand s block = .ok r) ↔ TokensFit block := by
  -- the words that the two conditions of the arrays are about
  have hword : ∀ {p : List Byte → Prop}, p [] →
      ((∀ word, FirstWord (blockText block) word → p word) ↔ p (commandWord block)) := by
    intro p hnil
    cases hscan : scanString (blockText block) with
    | none =>
      rw [commandWord, hscan]
      refine iff_of_true (fun word h => ?_) hnil
      rw [scanString_eq_some.mpr h] at hscan
      cases hscan
    | some w =>
      have hw := scanString_eq_some.mp hscan
      rw [commandWord_eq hw]
      exact ⟨fun h => h w hw, fun h word hword => hw.unique hword ▸ h⟩
  unfold lineCommand TokensFit
  simp only [cstr_behindCommand, behindCommand]
  rw [hword ⟨by decide, fun h => by rcases h with h | h <;> exact absurd h (by decide)⟩]
  split_ifs with hbad hsub hunsub
  · refine iff_of_false ?_ ?_
    · rintro ⟨r, hr⟩
      cases hr
    · rintro ⟨hnul, hlt, -⟩
      rcases hbad with hbad | hbad
      · exact hbad hnul
      · exact Nat.not_le.mpr hlt hbad
  all_goals
    rw [not_or, not_not, Nat.not_le] at hbad
    rw [and_iff_right hbad.1, and_iff_right hbad.2]
  · rw [map_ok_iff, sscanfString_ok_iff]
    exact ⟨fun h _ => h, fun h => h (Or.inl hsub)⟩
  · rw [map_ok_iff, sscanfString_ok_iff]
    exact ⟨fun h _ => h, fun h => h (Or.inr hunsub)⟩
  · exact iff_of_true ⟨none, rfl⟩ fun h => absurd h (not_or_intro hsub hunsub)

theorem isOk_lineCommand_iff : (lineCommand s block).isOk = true ↔ TokensFit block := by
  rw [← lineCommand_ok_iff (s := s)]
  cases lineCommand s block with
  | error f =>
    refine iff_of_false Bool.false_ne_true ?_
    rintro ⟨r, hr⟩
    cases hr
  | ok r => exact iff_of_true rfl ⟨r, rfl⟩

instance : DecidablePred TokensFit := fun _ =>
  decidable_of_iff _ (isOk_lineCommand_iff (s := subscriberIdle))

theorem zero_not_mem_behindCommand : 0 ∉ behindCommand block := fun h =>
  zero_not_mem_cstr _ (List.mem_of_mem_drop h)

/-- The array behind `%s`, which is left as it was where there is no word. -/
theorem sscanfString_fits {n : ℕ} {old c : CharArray n} (hnul : 0 ∉ text)
    (h : sscanfString text old = .ok c) :
    (c = match scanString text with
      | some word => .ofList n (overlay (word ++ [0]) old.bytes)
      | none => old) ∧ c.str = (scanString text).getD old.str := by
  cases hscan : scanString text with
  | none =>
    unfold sscanfString at h
    rw [hscan] at h
    cases h
    exact ⟨rfl, rfl⟩
  | some token =>
    have hword := scanString_eq_some.mp hscan
    obtain ⟨c', hc', hbytes, hstr⟩ := sscanfString_token old hscan
      (fun h0 => hnul (hword.subset h0)) (sscanfString_ok_iff.mp ⟨c, h⟩ token hword)
    obtain rfl := Except.ok.inj (h.symm.trans hc')
    exact ⟨hbytes, hstr⟩

theorem lineCommand_fits (h : TokensFit block) : lineCommand s block = .ok (obeyed s block) := by
  obtain ⟨r, hr⟩ := lineCommand_ok_iff (s := s).mpr h
  have hempty : (CharArray.ofList stringLen []).str = [] := by decide +kernel
  unfold lineCommand at hr ⊢
  unfold obeyed reading
  simp only [cstr_behindCommand] at hr ⊢
  split_ifs at hr ⊢ with hbad hsub hunsub
  · obtain ⟨topic, htopic⟩ := map_ok_iff.mp ⟨r, hr⟩
    obtain ⟨hbytes, hstr⟩ := sscanfString_fits zero_not_mem_behindCommand htopic
    rw [hempty] at hstr
    have hword : topic = .ofList stringLen ((scanString (behindCommand block)).getD []) := by
      rw [hbytes]
      cases hscan : scanString (behindCommand block) with
      | none => rfl
      | some word =>
        have hlt := sscanfString_ok_iff.mp ⟨topic, htopic⟩ word (scanString_eq_some.mp hscan)
        exact overlay_zeros hlt
    rw [← hstr] at hword
    rw [htopic, Reading.subscribe, ← hstr, ← hword]
    rfl
  · obtain ⟨topic, htopic⟩ := map_ok_iff.mp ⟨r, hr⟩
    obtain ⟨hbytes, -⟩ := sscanfString_fits zero_not_mem_behindCommand htopic
    rw [htopic, hbytes]
    rfl
  · rfl

theorem reading_fits (h : TokensFit block)
    (hcommand : subscribeWord <+: commandWord block ∨ unsubscribeWord <+: commandWord block) :
    (reading block).Fits := by
  intro topic htopic
  have hword : FirstWord (behindCommand block) topic := scanString_eq_some.mp htopic
  refine ⟨fun h0 => zero_not_mem_behindCommand (hword.subset h0), ?_⟩
  cases hscan : scanString (blockText block) with
  | none =>
    rw [commandWord, hscan] at hcommand
    exact absurd hcommand (by decide)
  | some word =>
    have hfirst := scanString_eq_some.mp hscan
    rw [behindCommand, commandWord_eq hfirst] at hword
    rw [commandWord_eq hfirst] at hcommand
    exact (h.2 word hfirst).2 hcommand topic hword

variable {sockfd : ℤ} {evs : List (Event Sys)} {o : Except Halt SubscriberState}

theorem lineBranch_fits (h : TokensFit block)
    (he : (lineBranch sockfd s).Exec (⟨.read 0 buflen, some block⟩ :: evs) o) (f : Fault) :
    o ≠ .error (.fault f) := by
  obtain ⟨r, hr⟩ := lineCommand_ok_iff (s := s).mpr h
  have hcarried := lineBranch_exec he
  rw [hr] at hcarried
  cases r with
  | none => exact hcarried.2.1 f
  | some s' => exact hcarried.2.1 f

theorem lineBranch_unfit (h : ¬ TokensFit block)
    (he : (lineBranch sockfd s).Exec (⟨.read 0 buflen, some block⟩ :: evs) o) :
    ∃ f, o = .error (.fault f) := by
  cases hline : lineCommand s block with
  | error f =>
    have hcarried := lineBranch_exec he
    rw [hline] at hcarried
    exact ⟨f, hcarried.2⟩
  | ok r => exact absurd (lineCommand_ok_iff.mp ⟨r, hline⟩) h

/-- A line whose words do not fit sends nothing. -/
theorem lineSent_unfit (h : ¬ TokensFit block) : lineSent s block = [] := by
  cases hline : lineCommand s block with
  | ok r => exact absurd (lineCommand_ok_iff.mp ⟨r, hline⟩) h
  | error f =>
    unfold lineSent
    rw [hline]

/-- A line that leads to a fault is read, and nothing behind it. -/
theorem lineBranch_fault {f : Fault}
    (he : (lineBranch sockfd s).Exec evs (.error (.fault f))) :
    ∃ block, evs = [⟨.read 0 buflen, some block⟩] ∧ ¬ TokensFit block := by
  obtain ⟨rest, hline, -⟩ : ∃ rest, lineBranch sockfd s = .call (.read 0 buflen) rest ∧
      ∀ ret, (rest ret).Calls LineCall := lineBranch_calls
  have hread := he
  rw [hline] at hread
  obtain ⟨ret, es, rfl, -⟩ := hread
  cases ret with
  | none =>
    unfold lineBranch readFirstParameter at he
    rw [LawfulMonad.bind_assoc, exec_read] at he
    obtain ⟨ret, es', heq, he⟩ := he
    cases heq
    rw [LawfulMonad.bind_assoc, exec_dieCall_fault] at he
    cases he.1
  | some block =>
    have hcarried := lineBranch_exec he
    cases hcommand : lineCommand s block with
    | error f' =>
      rw [hcommand] at hcarried
      refine ⟨block, by rw [hcarried.1], fun hfit => ?_⟩
      exact lineBranch_fits hfit he f rfl
    | ok r => exact absurd rfl (lineBranch_fits (lineCommand_ok_iff.mp ⟨r, hcommand⟩) he f)

/-- Reading a block stays inside the arrays exactly when its words fit. -/
theorem tokens_fit_iff (sockfd : ℤ) (s : SubscriberState) (block : List Byte) :
    (∀ evs o f, (lineBranch sockfd s).Exec (⟨.read 0 buflen, some block⟩ :: evs) o →
      o ≠ .error (.fault f)) ↔ TokensFit block := by
  refine ⟨fun h => ?_, fun hfit evs o f he => lineBranch_fits hfit he f⟩
  by_contra hfit
  obtain ⟨evs, o, he⟩ := lineBranch_reads sockfd s block
  obtain ⟨f, ho⟩ := lineBranch_unfit hfit he
  exact h evs o f he ho

end Room

/-- The line that subscribes to a topic of 50 characters. -/
def longTopicLine : List Byte := ascii "subscribe " ++ List.replicate 50 97 ++ ascii " 1" ++ [10]

/-- The NUL of a topic of 50 characters is written behind the header. -/
theorem tokens_fit_fails : ¬ ∀ evs o f, (lineBranch 3 subscriberIdle).Exec
    (⟨.read 0 buflen, some longTopicLine⟩ :: evs) o → o ≠ .error (.fault f) := by
  rw [tokens_fit_iff]
  decide +kernel

end TopicServer
