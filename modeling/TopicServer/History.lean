import TopicServer.Parsing
import TopicServer.Typing
import TopicServer.Steps

/-!
# What earlier lines leave behind

The header of the last command and the SF outlive a line. A subscribe line without a number is sent
with the SF from before, an unsubscribe line without a topic with the topic from before. Two
histories lead to the same command for a line exactly when the line needs none of them, or they
left the same (`history_iff`).
-/

namespace TopicServer

open Interactive Memory

/-- What the server reads of a command: its type, its topic, and the SF of one to subscribe. -/
def seenCommand (m : List Byte) : Byte × List Byte × Option Byte :=
  let hdr := commandHdr (some m)
  (hdr.type, hdr.topic.str, if hdr.type = 0 then some hdr.sf else none)

/-- Two subscribers read a block without a fault, and their commands for it are the same for the
server. -/
def SameCommands (sockfd : ℤ) (s₁ s₂ : SubscriberState) (block : List Byte) : Prop :=
  ∀ evs₁ o₁ evs₂ o₂,
    (lineBranch sockfd s₁).Exec (⟨.read 0 buflen, some block⟩ :: evs₁) o₁ →
    (lineBranch sockfd s₂).Exec (⟨.read 0 buflen, some block⟩ :: evs₂) o₂ →
    (∀ f, o₁ ≠ .error (.fault f)) ∧ (∀ f, o₂ ≠ .error (.fault f)) ∧
      (commandsSent evs₁).map seenCommand = (commandsSent evs₂).map seenCommand

/-- A line to unsubscribe without a topic. -/
def LacksTopic (block : List Byte) : Prop :=
  unsubscribeWord <+: commandWord block ∧ ∀ topic, ¬ FirstWord (behindCommand block) topic

/-- A line to subscribe without a number in the place of the SF. -/
def LacksSf (block : List Byte) : Prop :=
  subscribeWord <+: commandWord block ∧
    sfIn block ((scanString (behindCommand block)).getD []).length = none

section Lines

variable {s s₁ s₂ : SubscriberState} {block text : List Byte} {n : ℕ}

theorem seenCommand_encode (hdr : ClientToServerHdr) : seenCommand hdr.encode =
    (hdr.type, hdr.topic.str, if hdr.type = 0 then some hdr.sf else none) := by
  have hdec : commandHdr (some hdr.encode) = hdr := hdr.decode_encode _ (by decide)
  unfold seenCommand
  rw [hdec]

theorem lacksTopic_iff : LacksTopic block ↔
    unsubscribeWord <+: commandWord block ∧ scanString (behindCommand block) = none := by
  simp only [LacksTopic, ← scanString_eq_some, Option.eq_none_iff_forall_ne_some, ne_eq]

/-- What the server sees of a line whose words fit. -/
theorem lineSent_seen (h : TokensFit block) : (lineSent s block).map seenCommand =
    if subscribeWord <+: commandWord block then
      let topic := (scanString (behindCommand block)).getD []
      [(0, topic, some (sfByte ((sfIn block topic.length).getD s.sf)))]
    else if unsubscribeWord <+: commandWord block then
      [(1, (scanString (behindCommand block)).getD s.clsHdr.topic.str, none)]
    else [] := by
  unfold lineSent
  rw [lineCommand_fits h]
  unfold obeyed
  split_ifs with hsub hunsub
  · show [seenCommand _] = _
    rw [seenCommand_encode, Reading.subscribe_str (reading_fits h (Or.inl hsub))]
    rfl
  · show [seenCommand _] = _
    rw [seenCommand_encode, Reading.unsubscribe_str (reading_fits h (Or.inr hunsub))]
    rfl
  · rfl

theorem sameCommands_iff (sockfd : ℤ) : SameCommands sockfd s₁ s₂ block ↔ TokensFit block ∧
    (lineSent s₁ block).map seenCommand = (lineSent s₂ block).map seenCommand := by
  constructor
  · intro h
    obtain ⟨evs₁, o₁, he₁⟩ := lineBranch_reads sockfd s₁ block
    obtain ⟨evs₂, o₂, he₂⟩ := lineBranch_reads sockfd s₂ block
    obtain ⟨hfine, -, hsame⟩ := h evs₁ o₁ evs₂ o₂ he₁ he₂
    rw [lineBranch_sent he₁, lineBranch_sent he₂] at hsame
    refine ⟨?_, hsame⟩
    by_contra hfit
    obtain ⟨f, ho⟩ := lineBranch_unfit hfit he₁
    exact hfine f ho
  · rintro ⟨hfit, h⟩ evs₁ o₁ evs₂ o₂ he₁ he₂
    refine ⟨lineBranch_fits hfit he₁, lineBranch_fits hfit he₂, ?_⟩
    rw [lineBranch_sent he₁, lineBranch_sent he₂, h]

end Lines

/-- The same line leads to the same command behind two histories exactly when its words fit, one
that lacks its SF finds the same byte in both, and one that lacks its topic the same string. -/
theorem history_iff (sockfd : ℤ) (s₁ s₂ : SubscriberState) (block : List Byte) :
    SameCommands sockfd s₁ s₂ block ↔ TokensFit block ∧
      (LacksSf block → sfByte s₁.sf = sfByte s₂.sf) ∧
      (LacksTopic block → s₁.clsHdr.topic.str = s₂.clsHdr.topic.str) := by
  have hdiffer : subscribeWord <+: commandWord block → ¬ unsubscribeWord <+: commandWord block := by
    intro hsub hunsub
    have hboth := List.prefix_of_prefix_length_le hsub hunsub (by decide)
    exact absurd hboth (by decide)
  rw [sameCommands_iff]
  refine and_congr_right fun hfit => ?_
  rw [lineSent_seen hfit, lineSent_seen hfit, lacksTopic_iff]
  unfold LacksSf
  split_ifs with hsub hunsub
  · simp only [and_iff_right hsub, hdiffer hsub, false_and, false_implies, and_true]
    cases sfIn block ((scanString (behindCommand block)).getD []).length with
    | none => simp
    | some n => simp
  · simp only [hsub, and_iff_right hunsub, false_and, false_implies, true_and]
    cases scanString (behindCommand block) with
    | none => simp
    | some topic => simp
  · simp only [hsub, hunsub, false_and, false_implies, and_true]

/-! ## Two histories -/

/-- The variables behind a line that the subscriber is given and the server acknowledges. -/
theorem run_line {sockfd : ℤ} (hsock : 0 ≤ sockfd) (s : SubscriberState) (chunk : List Byte)
    (check : SubscriberState → Bool)
    (h : (match ((subscriberBody sockfd s 0).play (fun _ => typist chunk) 0).2 with
      | .ok (s', .next) => check s'
      | _ => false) = true) :
    ∃ s' hs, (subscriber sockfd).Run acknowledging () (.select s) () (.select s') hs ∧
      inputs (hs.flatMap (·.events)) = [chunk] ∧ check s' = true := by
  have he := Program.exec_play (fun _ => typist chunk) (subscriberBody sockfd s 0) 0
  split at h
  · rename_i s' ho
    rw [ho] at he
    have hwatched : (0 : ℤ) ∈ ({0, sockfd} : Finset ℤ) := Finset.mem_insert_self 0 _
    refine ⟨s', _, SelectLoop.Run.start.round hwatched le_rfl hsock he
      (obeys_typist fun e he => Program.mem_play he), ?_, h⟩
    rw [List.nil_append, List.flatMap_singleton]
    exact inputs_typist he fun e he => Program.mem_play he
  · cases h

/-- The line `unsubscribe` unsubscribes from the topic of the line before. -/
theorem history_fails : ∃ s₁ s₂ hs₁ hs₂,
    (subscriber 3).Run acknowledging () (.select subscriberIdle) () (.select s₁) hs₁ ∧
    inputs (hs₁.flatMap (·.events)) = [ascii "subscribe a 1"] ∧
    (subscriber 3).Run acknowledging () (.select subscriberIdle) () (.select s₂) hs₂ ∧
    inputs (hs₂.flatMap (·.events)) = [ascii "subscribe b 1"] ∧
    TokensFit (ascii "unsubscribe") ∧ ¬ SameCommands 3 s₁ s₂ (ascii "unsubscribe") := by
  obtain ⟨s₁, hs₁, hr₁, hin₁, h₁⟩ := run_line (show (0 : ℤ) ≤ 3 by decide) subscriberIdle
    (ascii "subscribe a 1") (fun s => s.clsHdr.topic.str == [97]) (by decide +kernel)
  obtain ⟨s₂, hs₂, hr₂, hin₂, h₂⟩ := run_line (show (0 : ℤ) ≤ 3 by decide) subscriberIdle
    (ascii "subscribe b 1") (fun s => s.clsHdr.topic.str == [98]) (by decide +kernel)
  refine ⟨s₁, s₂, hs₁, hs₂, hr₁, hin₁, hr₂, hin₂, by decide +kernel, fun hsame => ?_⟩
  have hlacks : LacksTopic (ascii "unsubscribe") := lacksTopic_iff.mpr (by decide +kernel)
  have htopics := ((history_iff 3 s₁ s₂ _).mp hsame).2.2 hlacks
  rw [beq_iff_eq.mp h₁, beq_iff_eq.mp h₂] at htopics
  exact absurd htopics (by decide)

end TopicServer
