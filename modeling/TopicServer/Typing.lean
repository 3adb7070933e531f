import TopicServer.EndOfStream
import TopicServer.Parsing

/-!
# Typed commands

The subscriber takes one `read` of its standard input for one line: it scans the first words of
what it is given and zeroes the rest away. So the commands that it sends depend on how the input is
cut into chunks (`typed_iff`). A newline in front of a line moves the places of its topic and of its
SF by one byte (`CommandLine.found_early`).
-/

namespace TopicServer

open Interactive Memory

/-! ## Lines -/

/-- A line with a command that the subscriber has room for. Spaces may stand anywhere in it, and its
topic and its SF may be missing. -/
structure CommandLine where
  text : List Byte
  plain : ∀ b ∈ text, b ≠ 0 ∧ b ≠ 10
  command : subscribeWord <+: commandWord text ∨ unsubscribeWord <+: commandWord text
  words_fit : TokensFit text
  fits : text.length + 1 < buflen

namespace CommandLine

def bytes (l : CommandLine) : List Byte := l.text ++ [10]

/-- The word that begins with the command. -/
def word (l : CommandLine) : List Byte := commandWord l.text

/-- What is found in a line behind as many bytes as its first word has, or one byte earlier, which
is the place behind a leading newline. -/
def found (l : CommandLine) (lead : Bool) : Reading :=
  let rest := l.text.drop (if lead then l.word.length - 1 else l.word.length)
  let topic := scanString rest
  ⟨topic, scanInt (rest.drop ((topic.getD []).length + 2))⟩

/-- The variables behind a line that is read in one of the two places. -/
def after (l : CommandLine) (lead : Bool) (s : SubscriberState) : SubscriberState :=
  if subscribeWord <+: l.word then (l.found lead).subscribe s else (l.found lead).unsubscribe s

/-- The topic and the SF that are found one byte earlier are those of the line: what is not found
is what the variables hold, or the empty topic of a line to subscribe. -/
def Steady (l : CommandLine) (s : SubscriberState) : Prop :=
  if subscribeWord <+: l.word then
    (l.found true).topic.getD [] = (l.found false).topic.getD [] ∧
      sfByte ((l.found true).sf.getD s.sf) = sfByte ((l.found false).sf.getD s.sf)
  else
    (l.found true).topic.getD s.clsHdr.topic.str = (l.found false).topic.getD s.clsHdr.topic.str

end CommandLine

/-! ## Chunks -/

/-- A way in which `read` returns the bytes of some lines. -/
structure Chunking (lines : List CommandLine) where
  chunks : List (List Byte)
  size : ∀ c ∈ chunks, c ≠ [] ∧ c.length ≤ buflen
  stream : chunks.flatten = lines.flatMap CommandLine.bytes

/-- A chunk that starts and ends at the end of a line, before or behind its newline: it may start
with the newline that is left of the line before, and the last newline may be missing. -/
structure Piece where
  lead : Bool
  lines : List CommandLine
  closed : Bool

namespace Piece

def bytes (p : Piece) : List Byte :=
  (if p.lead then [10] else []) ++
    if p.closed then p.lines.flatMap CommandLine.bytes
    else (p.lines.flatMap CommandLine.bytes).dropLast

/-- A piece that is read like its line: it has no second one, leaves room for the NUL, and if it
starts with a newline, which moves the places of the topic and of the SF, then what is found there
is right. -/
def Simple (p : Piece) (s : SubscriberState) : Prop :=
  p.lines.length ≤ 1 ∧ p.bytes.length < buflen ∧ (p.lead = true → ∀ l ∈ p.lines, l.Steady s)

end Piece

/-- The chunks start and end at the ends of lines. -/
def CutAtLineEnds (lines : List CommandLine) (chunks : List (List Byte)) : Prop :=
  ∃ pieces : List Piece, chunks = pieces.map Piece.bytes ∧ lines = pieces.flatMap Piece.lines

/-- Every piece is read like its line, with the variables that the lines before it leave. -/
def Readable : SubscriberState → List Piece → Prop
  | _, [] => True
  | s, p :: pieces => p.Simple s ∧ Readable (p.lines.foldl (fun s l => l.after false s) s) pieces

/-- Moreover each of them is read like the line that it has. -/
def OneLineEach (s : SubscriberState) (lines : List CommandLine) (chunks : List (List Byte)) :
    Prop :=
  ∃ pieces : List Piece, chunks = pieces.map Piece.bytes ∧ lines = pieces.flatMap Piece.lines ∧
    Readable s pieces

/-! ## Input and commands -/

/-- The commands that a subscriber sends when its standard input comes in the given chunks: it goes
through all of them, or stops at one. -/
inductive Typed (sockfd : ℤ) (s₀ : SubscriberState) : List (List Byte) → List (List Byte) → Prop
  | through {p hs} : (subscriber sockfd).Run acknowledging () (.select s₀) () p hs →
      Typed sockfd s₀ (inputs (hs.flatMap (·.events))) (commandsSent (hs.flatMap (·.events)))
  | stops {s tmp hs chunk evs e chunks} :
      (subscriber sockfd).Run acknowledging () (.select s₀) () (.scan s tmp 0) hs → 0 ∈ tmp →
      (subscriberBody sockfd s 0).Exec (⟨.read 0 buflen, some chunk⟩ :: evs) (.error e) →
      acknowledging.Obeys () evs →
      Typed sockfd s₀ (inputs (hs.flatMap (·.events)) ++ chunk :: chunks)
        (commandsSent (hs.flatMap (·.events)) ++ commandsSent evs)

/-! ## The commands of some chunks -/

/-- The commands that are sent for some chunks, up to one whose words do not fit. -/
def sentFor : SubscriberState → List (List Byte) → List (List Byte)
  | _, [] => []
  | s, chunk :: chunks =>
    if TokensFit chunk then match obeyed s chunk with
      | some s' => s'.clsHdr.encode :: sentFor s' chunks
      | none => sentFor s chunks
    else []

/-- Two states of the variables that the commands are the same in: the type of the last header is
overwritten, and of the SF the low byte is sent. -/
def Alike (s s' : SubscriberState) : Prop :=
  s.clsHdr.sf = s'.clsHdr.sf ∧ s.clsHdr.topic = s'.clsHdr.topic ∧ sfByte s.sf = sfByte s'.sf

section Sent

variable {s s' t : SubscriberState} {chunk : List Byte} {chunks : List (List Byte)}

theorem sentFor_some (hfit : TokensFit chunk) (h : obeyed s chunk = some s') :
    sentFor s (chunk :: chunks) = s'.clsHdr.encode :: sentFor s' chunks := by
  rw [sentFor, if_pos hfit, h]

theorem sentFor_none (hfit : TokensFit chunk) (h : obeyed s chunk = none) :
    sentFor s (chunk :: chunks) = sentFor s chunks := by
  rw [sentFor, if_pos hfit, h]

theorem sentFor_unfit (hfit : ¬ TokensFit chunk) : sentFor s (chunk :: chunks) = [] := by
  rw [sentFor, if_neg hfit]

theorem Alike.obeyed (ha : Alike s s') (h : obeyed s chunk = some t) :
    ∃ t', TopicServer.obeyed s' chunk = some t' ∧ t.clsHdr = t'.clsHdr ∧ Alike t t' := by
  obtain ⟨hsf, htopic, hbyte⟩ := ha
  unfold TopicServer.obeyed at h ⊢
  split_ifs at h ⊢ with hsub hunsub
  · cases h
    have hbyte' : sfByte ((reading chunk).sf.getD s.sf) =
        sfByte ((reading chunk).sf.getD s'.sf) := by
      cases (reading chunk).sf with
      | none => exact hbyte
      | some sf => rfl
    have hhdr : ((reading chunk).subscribe s).clsHdr = ((reading chunk).subscribe s').clsHdr := by
      simp only [Reading.subscribe, hbyte']
    exact ⟨_, rfl, hhdr, congrArg _ hhdr, congrArg _ hhdr, hbyte'⟩
  · cases h
    have hhdr : ((reading chunk).unsubscribe s).clsHdr =
        ((reading chunk).unsubscribe s').clsHdr := by
      simp only [Reading.unsubscribe, hsf, htopic]
    exact ⟨_, rfl, hhdr, congrArg _ hhdr, congrArg _ hhdr, hbyte⟩

theorem obeyed_eq_none : obeyed s chunk = none ↔
    ¬ (subscribeWord <+: commandWord chunk ∨ unsubscribeWord <+: commandWord chunk) := by
  unfold obeyed
  split_ifs with hsub hunsub
  · simp [hsub]
  · simp [hunsub]
  · simp [hsub, hunsub]

theorem sentFor_alike (ha : Alike s s') : sentFor s chunks = sentFor s' chunks := by
  induction chunks generalizing s s' with
  | nil => rfl
  | cons chunk chunks ih =>
    by_cases hfit : TokensFit chunk
    · cases h : obeyed s chunk with
      | none =>
        have h' : obeyed s' chunk = none := obeyed_eq_none.mpr (obeyed_eq_none.mp h)
        rw [sentFor_none hfit h, sentFor_none hfit h', ih ha]
      | some t =>
        obtain ⟨t', h', hhdr, ha'⟩ := ha.obeyed h
        rw [sentFor_some hfit h, sentFor_some hfit h', hhdr, ih ha']
    · rw [sentFor_unfit hfit, sentFor_unfit hfit]

variable {sockfd : ℤ} {evs : List (Event Sys)}

/-- What the branch of a line does where it goes on. -/
theorem lineBranch_goes
    (he : (lineBranch sockfd s).Exec (⟨.read 0 buflen, some chunk⟩ :: evs) (.ok s'))
    (ho : acknowledging.Obeys () evs) (hexit : TokensFit chunk → ¬ exitWord <+: commandWord chunk) :
    sentFor s (chunk :: chunks) = commandsSent evs ++ sentFor s' chunks := by
  have hfit : TokensFit chunk := by
    by_contra hfit
    obtain ⟨f, hf⟩ := lineBranch_unfit hfit he
    cases hf
  have hcarried := lineBranch_exec he
  rw [lineCommand_fits hfit] at hcarried
  cases h : obeyed s chunk with
  | none =>
    rw [h] at hcarried
    obtain ⟨hsent, -, hend⟩ := hcarried
    obtain rfl := Except.ok.inj (hend.resolve_left (hexit hfit))
    rw [sentFor_none hfit h, hsent, List.nil_append]
  | some t =>
    rw [h] at hcarried
    obtain ⟨hsent, -, hend⟩ := hcarried
    obtain rfl := Except.ok.inj (hend ho)
    rw [sentFor_some hfit h, hsent]
    rfl

/-- What it does where it stops. -/
theorem lineBranch_stops {e : Halt}
    (he : (lineBranch sockfd s).Exec (⟨.read 0 buflen, some chunk⟩ :: evs) (.error e))
    (ho : acknowledging.Obeys () evs) (hexit : TokensFit chunk → ¬ exitWord <+: commandWord chunk) :
    sentFor s (chunk :: chunks) = commandsSent evs := by
  have hcarried := lineBranch_exec he
  by_cases hfit : TokensFit chunk
  · rw [lineCommand_fits hfit] at hcarried
    cases h : obeyed s chunk with
    | none =>
      rw [h] at hcarried
      cases hcarried.2.2.resolve_left (hexit hfit)
    | some t =>
      rw [h] at hcarried
      cases hcarried.2.2 ho
  · rw [sentFor_unfit hfit, lineBranch_sent he, lineSent_unfit hfit]

theorem length_lineSent : (lineSent s chunk).length ≤ 1 := by
  unfold lineSent
  split
  · exact le_rfl
  · exact Nat.zero_le 1

end Sent

/-! ## One body -/

def noRead : Call → Bool
  | .read .. => false
  | _ => true

/-- A call that neither reads the standard input nor sends a command. -/
def quiet : Call → Bool
  | .send .putCommand .. => false
  | c => noRead c

section Body

variable {sockfd : ℤ} {s s' : SubscriberState} {evs : List (Event Sys)}

theorem inputs_nil (h : ∀ e ∈ evs, noRead e.call = true) : inputs evs = [] := by
  refine List.filterMap_eq_nil_iff.mpr fun e he => ?_
  have hc := h e he
  obtain ⟨c, ret⟩ := e
  cases c with
  | read fd len => cases hc
  | _ => rfl

theorem commandsSent_nil (h : ∀ e ∈ evs, quiet e.call = true) : commandsSent evs = [] := by
  refine List.filterMap_eq_nil_iff.mpr fun e he => ?_
  have hc := h e he
  obtain ⟨c, ret⟩ := e
  cases c with
  | send site fd buf =>
    cases site with
    | putCommand => cases hc
    | _ => rfl
  | _ => rfl

theorem inputs_quiet (h : ∀ e ∈ evs, quiet e.call = true) : inputs evs = [] := by
  refine inputs_nil fun e he => ?_
  have hc := h e he
  cases hcall : e.call with
  | read fd len =>
    rw [hcall] at hc
    cases hc
  | _ => rfl

/-- A message is received without commands, and of the variables it changes the type in the header
of the last command only. -/
theorem messageBranch_quiet {r : SubscriberState × Flow}
    (he : (messageBranch sockfd s).Exec evs (.ok r)) :
    inputs evs = [] ∧ commandsSent evs = [] ∧ Alike r.1 s := by
  have hcalls : (messageBranch sockfd s).Calls fun c => quiet c = true :=
    messageBranch_calls rfl rfl (fun _ => rfl) fun _ => rfl
  have hquiet := Program.Calls.exec (A := fun c => quiet c = true) hcalls he
  refine ⟨inputs_quiet hquiet, commandsSent_nil hquiet, ?_⟩
  obtain ⟨ret, rest, rfl, hcases⟩ := messageBranch_cases he
  rcases hcases with ⟨-, -, ho⟩ | ⟨m, -, ⟨e, -, ho⟩ | ⟨es, es', -, -, ⟨e, -, ho⟩ | ⟨s', hack, ho⟩⟩⟩
  · cases ho
  · cases ho
  · cases ho
  cases ho
  unfold ackMessage at hack
  simp only at hack
  rw [exec_send] at hack
  obtain ⟨ret', rest', rfl, hack⟩ := hack
  rw [exec_dieCall_ok] at hack
  obtain ⟨-, rfl, hs'⟩ := hack
  cases hs'
  exact ⟨rfl, rfl, rfl⟩

/-- A line is read by one `read`. -/
theorem lineBranch_input {o : Except Halt SubscriberState} (he : (lineBranch sockfd s).Exec evs o) :
    ∃ ret rest, evs = ⟨.read 0 buflen, ret⟩ :: rest ∧ inputs rest = [] ∧
      ∀ s', o = .ok s' → ∃ chunk, ret = some chunk := by
  obtain ⟨kont, hline, hcalls⟩ := lineBranch_calls
  have he' := he
  rw [hline] at he'
  obtain ⟨ret, rest, rfl, hrest⟩ := he'
  refine ⟨ret, rest, rfl, inputs_nil ?_, fun s' ho => ?_⟩
  · refine Program.Calls.exec (A := fun c => noRead c = true) ((hcalls ret).mono ?_) hrest
    intro c hc
    cases c with
    | read fd len => exact hc.elim
    | _ => rfl
  · subst ho
    unfold lineBranch readFirstParameter at he
    rw [LawfulMonad.bind_assoc, exec_read] at he
    obtain ⟨ret', rest', heq, he⟩ := he
    cases heq
    rw [LawfulMonad.bind_assoc, exec_dieCall_ok] at he
    exact Option.ne_none_iff_exists'.mp fun hnone => by rw [hnone] at he; cases he.1

/-- What the body of a ready descriptor does: it reads one chunk, or it reads and sends nothing. -/
theorem subscriberBody_cases {i : ℤ} {r : SubscriberState × Flow}
    (he : (subscriberBody sockfd s i).Exec evs (.ok r)) :
    (i = 0 ∧ ∃ chunk rest, evs = ⟨.read 0 buflen, some chunk⟩ :: rest ∧ inputs evs = [chunk] ∧
      (lineBranch sockfd s).Exec evs (.ok r.1)) ∨
    (inputs evs = [] ∧ commandsSent evs = [] ∧ Alike r.1 s) := by
  unfold subscriberBody at he
  split_ifs at he with h0 hsock
  · rw [Program.exec_bind_ok] at he
    obtain ⟨es, es', s', rfl, hline, rfl, hr⟩ := he
    cases hr
    rw [List.append_nil]
    obtain ⟨ret, rest, rfl, hinputs, hsome⟩ := lineBranch_input hline
    obtain ⟨chunk, rfl⟩ := hsome _ rfl
    refine Or.inl ⟨h0, chunk, rest, rfl, ?_, hline⟩
    show chunk :: inputs rest = [chunk]
    rw [hinputs]
  · exact Or.inr (messageBranch_quiet he)
  · obtain ⟨rfl, hr⟩ := he
    cases hr
    exact Or.inr ⟨rfl, rfl, rfl, rfl, rfl⟩

end Body

/-! ## Runs -/

section Runs

variable {sockfd : ℤ} {s₀ : SubscriberState} {chunks sent : List (List Byte)}

/-- What holds of the variables, the chunks read and the commands sent, if every chunk keeps it. -/
theorem run_typed (I : SubscriberState → List (List Byte) → List (List Byte) → Prop)
    (h0 : I s₀ [] [])
    (hquiet : ∀ s s' cs ms, I s cs ms → Alike s' s → I s' cs ms)
    (hline : ∀ s s' cs ms chunk evs, I s cs ms →
      (lineBranch sockfd s).Exec (⟨.read 0 buflen, some chunk⟩ :: evs) (.ok s') →
      acknowledging.Obeys () evs → I s' (cs ++ [chunk]) (ms ++ commandsSent evs))
    {g : Unit} {p : Point SubscriberState} {hs : List (Handled Sys SubscriberState)}
    (h : (subscriber sockfd).Run acknowledging () (.select s₀) g p hs) :
    I p.state (inputs (hs.flatMap (·.events))) (commandsSent (hs.flatMap (·.events))) := by
  induction h with
  | start => exact h0
  | select _ _ _ ih => exact ih
  | skip _ _ _ ih => exact ih
  | done _ _ ih => exact ih
  | handle _ _ _ he ho ih =>
    rw [List.flatMap_append, List.flatMap_singleton, inputs_append, commandsSent_append,
      Point.state_following]
    rcases subscriberBody_cases he with ⟨-, chunk, rest, rfl, hinputs, hexec⟩ | ⟨h1, h2, ha⟩
    · rw [hinputs]
      exact hline _ _ _ _ chunk rest ih hexec ho.2
    · rw [h1, h2, List.append_nil, List.append_nil]
      exact hquiet _ _ _ _ ih ha

theorem subscriberBody_error {s : SubscriberState} {evs : List (Event Sys)} {e : Halt}
    (he : (subscriberBody sockfd s 0).Exec evs (.error e)) :
    (lineBranch sockfd s).Exec evs (.error e) := by
  unfold subscriberBody at he
  rw [if_pos rfl, Program.exec_bind] at he
  rcases he with ⟨e', hline, heq⟩ | ⟨es, es', s', rfl, -, rfl, hr⟩
  · cases heq
    exact hline
  · cases hr

/-- There are no more commands than chunks. -/
theorem Typed.length_le (h : Typed sockfd s₀ chunks sent) : sent.length ≤ chunks.length := by
  have hrun : ∀ {g : Unit} {p : Point SubscriberState} {hs : List (Handled Sys SubscriberState)},
      (subscriber sockfd).Run acknowledging () (.select s₀) g p hs →
      (commandsSent (hs.flatMap (·.events))).length ≤ (inputs (hs.flatMap (·.events))).length := by
    intro g p hs h
    refine run_typed (fun _ cs ms => ms.length ≤ cs.length) le_rfl (fun _ _ _ _ h _ => h) ?_ h
    intro s s' cs ms chunk evs ih he _
    rw [lineBranch_sent he, List.length_append, List.length_append, List.length_singleton]
    exact Nat.add_le_add ih length_lineSent
  cases h with
  | through h => exact hrun h
  | @stops s tmp hs chunk evs e later h _ he _ =>
    have hle := hrun h
    have hone : (lineSent s chunk).length ≤ 1 := length_lineSent
    rw [lineBranch_sent (subscriberBody_error he), List.length_append, List.length_append,
      List.length_cons]
    omega

/-- The commands sent are those of the chunks, where none of these is `exit`. -/
theorem Typed.sent_eq (h : Typed sockfd s₀ chunks sent)
    (hexit : ∀ c ∈ chunks, TokensFit c → ¬ exitWord <+: commandWord c) :
    sent = sentFor s₀ chunks := by
  have hrun : ∀ {g : Unit} {p : Point SubscriberState} {hs : List (Handled Sys SubscriberState)},
      (subscriber sockfd).Run acknowledging () (.select s₀) g p hs →
      (∀ c ∈ inputs (hs.flatMap (·.events)), TokensFit c → ¬ exitWord <+: commandWord c) →
      ∀ later, sentFor s₀ (inputs (hs.flatMap (·.events)) ++ later) =
        commandsSent (hs.flatMap (·.events)) ++ sentFor p.state later := by
    intro g p hs h
    refine run_typed (fun s cs ms => (∀ c ∈ cs, TokensFit c → ¬ exitWord <+: commandWord c) →
      ∀ later, sentFor s₀ (cs ++ later) = ms ++ sentFor s later) (fun _ _ => rfl) ?_ ?_ h
    · intro s s' cs ms ih ha hcs later
      rw [ih hcs, sentFor_alike ha]
    · intro s s' cs ms chunk evs ih he ho hcs later
      obtain ⟨hcs, hchunk⟩ := List.forall_mem_append.mp hcs
      rw [List.append_assoc, List.append_assoc, ih hcs, List.singleton_append,
        lineBranch_goes he ho (List.forall_mem_singleton.mp hchunk)]
  cases h with
  | through h =>
    have heq := hrun h hexit []
    rw [List.append_nil] at heq
    rw [heq]
    exact (List.append_nil _).symm
  | stops h _ he ho =>
    obtain ⟨hbefore, hchunk, -⟩ := List.forall_mem_append.mp hexit |>.imp_right
      List.forall_mem_cons.mp
    rw [hrun h hbefore]
    exact congrArg _ (lineBranch_stops (subscriberBody_error he) ho hchunk).symm

end Runs

/-! ## One piece -/

section Pieces

variable {l : CommandLine} {lines : List CommandLine} {p : Piece} {s : SubscriberState}
  {rest : List Byte}

theorem CommandLine.zero_not_mem_text (l : CommandLine) : 0 ∉ l.text := fun h => (l.plain 0 h).1 rfl

theorem CommandLine.blockText_text (l : CommandLine) : blockText l.text = l.text :=
  blockText_eq l.zero_not_mem_text ((Nat.lt_succ_self _).trans l.fits)

theorem CommandLine.firstWord (l : CommandLine) : FirstWord l.text l.word := by
  have hne : commandWord l.text ≠ [] := by
    intro hnil
    have hcommand := l.command
    rw [hnil] at hcommand
    exact absurd hcommand (by decide)
  have hword := firstWord_commandWord hne
  rwa [l.blockText_text] at hword

theorem CommandLine.word_pos (l : CommandLine) : 0 < l.word.length :=
  List.length_pos_of_ne_nil l.firstWord.ne_nil

/-- The topic that is found one byte earlier is an end of the first word. -/
theorem CommandLine.found_fits (l : CommandLine) (lead : Bool) : (l.found lead).Fits := by
  have hfits := l.words_fit.2 l.word (l.blockText_text.symm ▸ l.firstWord)
  intro topic htopic
  have hword : FirstWord (l.text.drop (if lead then l.word.length - 1 else l.word.length)) topic :=
    scanString_eq_some.mp htopic
  refine ⟨fun h0 => l.zero_not_mem_text (List.mem_of_mem_drop (hword.subset h0)), ?_⟩
  cases lead with
  | false =>
    rw [if_neg Bool.false_ne_true] at hword
    refine hfits.2 l.command topic ?_
    rwa [l.blockText_text]
  | true =>
    rw [if_pos rfl] at hword
    have hpos := l.word_pos
    obtain ⟨last, hlast, hword'⟩ := l.firstWord.drop (n := l.word.length - 1) (by omega)
    rw [hword.unique hword']
    exact (hlast.length_le.trans_lt hfits.1).trans (by decide)

/-- In a line that begins with its command, the topic that is found one byte earlier is the last
letter of the first word. -/
theorem CommandLine.found_early (l : CommandLine) (h : l.word <+: l.text) :
    ∃ b, l.word.getLast? = some b ∧ (l.found true).topic = some [b] := by
  obtain ⟨lead, rest, htext, hlead, hne, hword, hend⟩ := l.firstWord
  obtain ⟨w, b, hw⟩ : ∃ w b, l.word = w ++ [b] := by
    rcases List.eq_nil_or_concat l.word with hnil | ⟨w, b, hw⟩
    · exact absurd hnil hne
    · exact ⟨w, b, by rw [hw, List.concat_eq_append]⟩
  -- spaces before the first word would be its beginning
  obtain rfl : lead = [] := by
    obtain ⟨behind, hbehind⟩ := h
    cases lead with
    | nil => rfl
    | cons x lead =>
      obtain ⟨y, word, hy⟩ := List.exists_cons_of_ne_nil hne
      rw [htext, hy] at hbehind
      have hspace := hword y (by rw [hy]; exact List.mem_cons_self)
      rw [(List.cons.inj hbehind).1, hlead x List.mem_cons_self] at hspace
      cases hspace
  refine ⟨b, by rw [hw, List.getLast?_concat], ?_⟩
  have hdrop : l.text.drop (l.word.length - 1) = [b] ++ rest := by
    rw [htext, List.nil_append, hw, List.append_assoc]
    exact List.drop_left' (by simp)
  show scanString (l.text.drop (l.word.length - 1)) = some [b]
  rw [hdrop]
  refine scanString_token (List.cons_ne_nil _ _) (fun c hc => hword c ?_) hend
  rw [hw]
  exact List.mem_append_right _ hc

theorem Piece.zero_not_mem (p : Piece) : 0 ∉ p.bytes := by
  have hlines : 0 ∉ p.lines.flatMap CommandLine.bytes := by
    intro h
    obtain ⟨l, -, hl⟩ := List.mem_flatMap.mp h
    rcases List.mem_append.mp hl with hl | hl
    · exact l.zero_not_mem_text hl
    · simp at hl
  unfold Piece.bytes
  rw [List.mem_append, not_or]
  constructor
  · cases p.lead <;> simp
  · cases p.closed with
    | true => exact hlines
    | false => exact fun h => hlines (List.mem_of_mem_dropLast h)

/-- The first line of a piece comes behind its leading newline, and ends with a newline or with the
piece. -/
theorem Piece.bytes_cons (hp : p.lines = l :: lines) :
    ∃ rest, EndsWord rest ∧ (lines = [] → ∀ b ∈ rest, isSpace b = true) ∧
      p.bytes = (if p.lead then [10] else []) ++ (l.text ++ rest) := by
  have hflat : p.lines.flatMap CommandLine.bytes =
      l.text ++ 10 :: lines.flatMap CommandLine.bytes := by
    rw [hp, List.flatMap_cons, CommandLine.bytes, List.append_assoc, List.singleton_append]
  unfold Piece.bytes
  rw [hflat]
  cases p.closed with
  | true =>
    refine ⟨_, fun w hw => by cases hw; decide, fun hnil b hb => ?_, rfl⟩
    rw [hnil] at hb
    rw [List.mem_singleton.mp hb]
    decide
  | false =>
    refine ⟨(10 :: lines.flatMap CommandLine.bytes).dropLast, fun w hw => ?_,
      fun hnil b hb => ?_, ?_⟩
    · cases hrest : lines.flatMap CommandLine.bytes with
      | nil =>
        rw [hrest] at hw
        cases hw
      | cons b bs =>
        rw [hrest, List.dropLast_cons_cons] at hw
        cases hw
        decide
    · rw [hnil] at hb
      cases hb
    · rw [if_neg Bool.false_ne_true, List.dropLast_append_of_ne_nil (List.cons_ne_nil _ _)]

theorem lead_blank (lead : Bool) : ∀ b ∈ (if lead then [10] else [] : List Byte),
    isSpace b = true := by
  intro b hb
  cases lead with
  | true =>
    rw [List.mem_singleton.mp hb]
    decide
  | false => cases hb

/-- A piece begins with the first word of its first line. -/
theorem Piece.commandWord_bytes (hp : p.lines = l :: lines) (hlt : p.bytes.length < buflen) :
    commandWord p.bytes = l.word := by
  obtain ⟨rest, hend, -, hbytes⟩ := Piece.bytes_cons hp
  refine commandWord_eq ?_
  rw [blockText_eq p.zero_not_mem hlt, hbytes]
  exact (l.firstWord.append hend).behind_spaces (lead_blank p.lead)

/-- A piece with one line: its places are those of the line, one byte earlier behind a newline. -/
theorem Piece.reading_bytes (hp : p.lines = [l]) (hlt : p.bytes.length < buflen) :
    reading p.bytes = l.found p.lead := by
  obtain ⟨rest, -, hrest, hbytes⟩ := Piece.bytes_cons hp
  have hrest := hrest rfl
  have hpos := l.word_pos
  -- what stands in the piece behind the word is what stands in the line, and spaces
  have hplace : ∀ k, p.bytes.drop (l.word.length + k) =
      (l.text ++ rest).drop ((if p.lead then l.word.length - 1 else l.word.length) + k) := by
    intro k
    rw [hbytes]
    cases p.lead with
    | true =>
      rw [if_pos rfl, if_pos rfl, show l.word.length + k = l.word.length - 1 + k + 1 by omega]
      rfl
    | false => rfl
  have hdrop : ∀ k, ∃ tail, (∀ b ∈ tail, isSpace b = true) ∧ p.bytes.drop (l.word.length + k) =
      (l.text.drop (if p.lead then l.word.length - 1 else l.word.length)).drop k ++ tail := by
    intro k
    rw [hplace, List.drop_drop, List.drop_append]
    exact ⟨_, fun b hb => hrest b (List.mem_of_mem_drop hb), rfl⟩
  have hword := Piece.commandWord_bytes hp hlt
  obtain ⟨tail, htail, htopic⟩ := hdrop 0
  rw [Nat.add_zero, List.drop_zero] at htopic
  unfold reading CommandLine.found
  rw [behindCommand, blockText_eq p.zero_not_mem hlt, hword, htopic, scanString_tail htail]
  simp only
  obtain ⟨tail', htail', hsf⟩ := hdrop (((scanString (l.text.drop
    (if p.lead then l.word.length - 1 else l.word.length))).getD []).length + 2)
  rw [sfIn, hword, cstr_drop_pad p.zero_not_mem hlt, hsf, scanInt_tail htail']

theorem Piece.fits (hp : p.lines = [l]) (hlt : p.bytes.length < buflen) : TokensFit p.bytes := by
  have hword := Piece.commandWord_bytes hp hlt
  have hreading := Piece.reading_bytes hp hlt
  refine ⟨zero_mem_pad hlt, fun word hfirst => ?_⟩
  obtain rfl : l.word = word := hword.symm.trans (commandWord_eq hfirst)
  refine ⟨(l.words_fit.2 l.word (l.blockText_text.symm ▸ l.firstWord)).1, fun _ topic htopic => ?_⟩
  rw [← hword] at htopic
  have hfound : (reading p.bytes).topic = some topic := scanString_eq_some.mpr htopic
  rw [hreading] at hfound
  exact (l.found_fits p.lead topic hfound).2

theorem Piece.obeyed_bytes (hp : p.lines = [l]) (hlt : p.bytes.length < buflen) :
    obeyed s p.bytes = some (l.after p.lead s) := by
  unfold obeyed CommandLine.after
  rw [Piece.commandWord_bytes hp hlt, Piece.reading_bytes hp hlt]
  split_ifs with hsub hunsub
  · rfl
  · rfl
  · exact absurd l.command (not_or_intro hsub hunsub)

/-- A piece that fills the buffer has no end. -/
theorem Piece.length_lt (hfit : TokensFit p.bytes) : p.bytes.length < buflen := by
  by_contra hge
  obtain ⟨r, hr⟩ := lineCommand_ok_iff (s := subscriberIdle).mpr hfit
  rw [lineCommand_full p.zero_not_mem (Nat.not_lt.mp hge)] at hr
  cases hr

/-- A piece without a line says nothing. -/
theorem Piece.bytes_nil (hp : p.lines = []) : p.bytes.length < buflen ∧ TokensFit p.bytes ∧
    commandWord p.bytes = [] := by
  unfold Piece.bytes
  rw [hp]
  cases p.lead <;> cases p.closed <;> decide +kernel

end Pieces

/-! ## Chunks cut at the ends of lines -/

/-- The pieces that begin a line. -/
def busy (pieces : List Piece) : List Piece := pieces.filter fun p => !p.lines.isEmpty

section Pieces

variable {l : CommandLine} {lines : List CommandLine} {p : Piece} {pieces : List Piece}
  {s : SubscriberState}

theorem sentFor_blank (hp : p.lines = []) :
    sentFor s ((p :: pieces).map Piece.bytes) = sentFor s (pieces.map Piece.bytes) := by
  obtain ⟨-, hfit, hword⟩ := Piece.bytes_nil hp
  refine sentFor_none hfit (obeyed_eq_none.mpr ?_)
  rw [hword]
  decide

theorem sentFor_line (hp : p.lines = [l]) (hlt : p.bytes.length < buflen) :
    sentFor s ((p :: pieces).map Piece.bytes) = (l.after p.lead s).clsHdr.encode ::
      sentFor (l.after p.lead s) (pieces.map Piece.bytes) :=
  sentFor_some (Piece.fits hp hlt) (Piece.obeyed_bytes hp hlt)

theorem Piece.not_exit (p : Piece) (hfit : TokensFit p.bytes) :
    ¬ exitWord <+: commandWord p.bytes := by
  cases hp : p.lines with
  | nil =>
    rw [(Piece.bytes_nil hp).2.2]
    decide
  | cons l lines =>
    rw [Piece.commandWord_bytes hp (Piece.length_lt hfit)]
    intro hexit
    rcases l.command with hcommand | hcommand
    · exact absurd (List.prefix_of_prefix_length_le hexit hcommand (by decide)) (by decide)
    · exact absurd (List.prefix_of_prefix_length_le hexit hcommand (by decide)) (by decide)

/-- There is at most one command for each piece that begins a line. -/
theorem length_sentFor_le (s : SubscriberState) (pieces : List Piece) :
    (sentFor s (pieces.map Piece.bytes)).length ≤ (busy pieces).length := by
  induction pieces generalizing s with
  | nil => exact le_rfl
  | cons p pieces ih =>
    unfold busy
    cases hp : p.lines with
    | nil =>
      rw [sentFor_blank hp, List.filter_cons_of_neg (by rw [hp]; decide)]
      exact ih s
    | cons l lines =>
      rw [List.filter_cons_of_pos (by rw [hp]; rfl), List.length_cons, List.map_cons]
      by_cases hfit : TokensFit p.bytes
      · cases ho : obeyed s p.bytes with
        | none =>
          rw [sentFor_none hfit ho]
          exact Nat.le_succ_of_le (ih s)
        | some s' =>
          rw [sentFor_some hfit ho, List.length_cons]
          exact Nat.succ_le_succ (ih s')
      · rw [sentFor_unfit hfit]
        exact Nat.zero_le _

/-- There are at most as many pieces that begin a line as lines, and as many only if no piece has
two. -/
theorem length_busy (pieces : List Piece) :
    (busy pieces).length ≤ (pieces.flatMap Piece.lines).length ∧
      ((pieces.flatMap Piece.lines).length ≤ (busy pieces).length →
        ∀ p ∈ pieces, p.lines.length ≤ 1) := by
  induction pieces with
  | nil => exact ⟨le_rfl, by simp⟩
  | cons p pieces ih =>
    obtain ⟨hle, heq⟩ := ih
    have hbusy : (busy (p :: pieces)).length =
        (if p.lines = [] then 0 else 1) + (busy pieces).length := by
      unfold busy
      cases hp : p.lines with
      | nil =>
        rw [List.filter_cons_of_neg (by rw [hp]; decide)]
        simp
      | cons l ls =>
        rw [List.filter_cons_of_pos (by rw [hp]; rfl), List.length_cons]
        simp [Nat.add_comm]
    rw [List.flatMap_cons, List.length_append, hbusy, List.forall_mem_cons]
    by_cases hp : p.lines = []
    · rw [if_pos hp, hp, List.length_nil]
      exact ⟨by omega, fun h => ⟨Nat.zero_le 1, heq (by omega)⟩⟩
    · have hpos := List.length_pos_of_ne_nil hp
      rw [if_neg hp]
      exact ⟨by omega, fun h => ⟨by omega, heq (by omega)⟩⟩

theorem sentFor_lines (s : SubscriberState) (l : CommandLine) (lines : List CommandLine) :
    sentFor s ((l :: lines).map CommandLine.bytes) = (l.after false s).clsHdr.encode ::
      sentFor (l.after false s) (lines.map CommandLine.bytes) := by
  have hbytes : Piece.bytes ⟨false, [l], true⟩ = l.bytes := List.flatMap_singleton _ l
  have hlt : (Piece.bytes ⟨false, [l], true⟩).length < buflen := by
    rw [hbytes, CommandLine.bytes, List.length_append]
    exact l.fits
  have hfit := Piece.fits (p := ⟨false, [l], true⟩) rfl hlt
  have hobeyed := Piece.obeyed_bytes (s := s) (p := ⟨false, [l], true⟩) rfl hlt
  rw [hbytes] at hfit hobeyed
  exact sentFor_some hfit hobeyed

/-- Each line has its command where every `read` returns a line. -/
theorem length_sentFor_lines (s : SubscriberState) (lines : List CommandLine) :
    (sentFor s (lines.map CommandLine.bytes)).length = lines.length := by
  induction lines generalizing s with
  | nil => rfl
  | cons l lines ih =>
    rw [sentFor_lines, List.length_cons, List.length_cons, ih]

theorem CommandLine.steady_iff :
    (l.after true s).clsHdr = (l.after false s).clsHdr ↔ l.Steady s := by
  unfold after Steady
  split_ifs with hsub
  · exact Reading.subscribe_eq_iff (l.found_fits true) (l.found_fits false)
  · exact Reading.unsubscribe_eq_iff (l.found_fits true) (l.found_fits false)

theorem CommandLine.after_alike {lead : Bool}
    (h : (l.after lead s).clsHdr = (l.after false s).clsHdr) :
    Alike (l.after lead s) (l.after false s) := by
  refine ⟨congrArg _ h, congrArg _ h, ?_⟩
  unfold after at h ⊢
  split_ifs at h ⊢ with hsub
  · exact congrArg ClientToServerHdr.sf h
  · rfl

theorem Readable.length_le (h : Readable s pieces) : ∀ p ∈ pieces, p.lines.length ≤ 1 := by
  induction pieces generalizing s with
  | nil => simp
  | cons p pieces ih => exact List.forall_mem_cons.mpr ⟨h.1.1, ih h.2⟩

/-- Pieces of at most one line have the commands of their lines exactly if each is read like its
line. -/
theorem sentFor_eq_iff (hlen : ∀ p ∈ pieces, p.lines.length ≤ 1) :
    sentFor s (pieces.map Piece.bytes) =
      sentFor s ((pieces.flatMap Piece.lines).map CommandLine.bytes) ↔ Readable s pieces := by
  induction pieces generalizing s with
  | nil => exact iff_of_true rfl trivial
  | cons p pieces ih =>
    obtain ⟨hone, hlen⟩ := List.forall_mem_cons.mp hlen
    rw [List.flatMap_cons, Readable]
    match hp : p.lines with
    | [] =>
      have hsimple : p.Simple s := by
        refine ⟨hone, (Piece.bytes_nil hp).1, fun _ l hl => ?_⟩
        rw [hp] at hl
        cases hl
      rw [sentFor_blank hp, List.nil_append, and_iff_right hsimple]
      exact ih hlen
    | [l] =>
      rw [List.singleton_append, sentFor_lines, List.foldl_cons, List.foldl_nil]
      by_cases hlt : p.bytes.length < buflen
      · have hsimple : p.Simple s ↔ (l.after p.lead s).clsHdr = (l.after false s).clsHdr := by
          unfold Piece.Simple
          rw [and_iff_right hone, and_iff_right hlt, hp]
          simp only [List.forall_mem_singleton]
          cases p.lead with
          | false => exact iff_of_true (fun h => by cases h) rfl
          | true => exact (forall_prop_of_true rfl).trans CommandLine.steady_iff.symm
        rw [sentFor_line hp hlt, List.cons.injEq, hsimple, ClientToServerHdr.encode_inj]
        refine and_congr_right fun hhdr => ?_
        rw [sentFor_alike (CommandLine.after_alike hhdr)]
        exact ih hlen
      · rw [List.map_cons, sentFor_unfit fun hfit => hlt (Piece.length_lt hfit)]
        exact iff_of_false (List.cons_ne_nil _ _).symm fun h => hlt h.1.2.1
    | _ :: _ :: _ =>
      rw [hp] at hone
      simp at hone

end Pieces

/-! ## The commands of a chunking -/

section Chunkings

variable {sockfd : ℤ} {s₀ : SubscriberState} {sent sent' : List (List Byte)} {pieces : List Piece}
  {lines : List CommandLine}

/-- Every `read` returns one whole line. -/
def lineByLine (lines : List CommandLine) : Chunking lines where
  chunks := lines.map CommandLine.bytes
  size := by
    intro c hc
    obtain ⟨l, -, rfl⟩ := List.mem_map.mp hc
    have hlen : l.bytes.length = l.text.length + 1 := List.length_append
    exact ⟨List.append_ne_nil_of_right_ne_nil _ (List.cons_ne_nil _ _), hlen.trans_le l.fits.le⟩
  stream := List.flatMap_def.symm

theorem Typed.sent_pieces (h : Typed sockfd s₀ (pieces.map Piece.bytes) sent) :
    sent = sentFor s₀ (pieces.map Piece.bytes) := by
  refine h.sent_eq fun c hc hfit => ?_
  obtain ⟨p, -, rfl⟩ := List.mem_map.mp hc
  exact p.not_exit hfit

theorem Typed.sent_lines (h : Typed sockfd s₀ (lineByLine lines).chunks sent) :
    sent = sentFor s₀ (lines.map CommandLine.bytes) := by
  have hbytes : (lineByLine lines).chunks =
      (lines.map fun l => (⟨false, [l], true⟩ : Piece)).map Piece.bytes := by
    rw [List.map_map]
    exact List.map_congr_left fun l _ => (List.flatMap_singleton CommandLine.bytes l).symm
  rw [hbytes] at h
  rw [h.sent_pieces, ← hbytes]
  rfl

/-- Where the chunks are cut at the ends of lines, the commands are those of the lines exactly if
every chunk is read like its line; and they are lost whenever there are fewer chunks than lines. -/
theorem typed_iff (c : Chunking lines) (h : Typed sockfd s₀ c.chunks sent)
    (h' : Typed sockfd s₀ (lineByLine lines).chunks sent') :
    (CutAtLineEnds lines c.chunks → (sent = sent' ↔ OneLineEach s₀ lines c.chunks)) ∧
    (OneLineEach s₀ lines c.chunks → sent = sent') ∧
    (sent = sent' → lines.length ≤ c.chunks.length) := by
  have hsent' := h'.sent_lines
  have hlength : sent'.length = lines.length := by
    rw [hsent', length_sentFor_lines]
  have hone : OneLineEach s₀ lines c.chunks → sent = sent' := by
    rintro ⟨pieces, hchunks, hlines, hread⟩
    rw [hchunks] at h
    rw [hsent', h.sent_pieces, hlines, sentFor_eq_iff hread.length_le]
    exact hread
  refine ⟨?_, hone, fun heq => ?_⟩
  · rintro ⟨pieces, hchunks, hlines⟩
    refine ⟨fun heq => ?_, hone⟩
    rw [hchunks] at h
    have hsent := h.sent_pieces
    -- as many pieces begin a line as there are lines, so no piece has two
    have hcount : (pieces.flatMap Piece.lines).length ≤ (busy pieces).length := by
      rw [← hlines, ← hlength, ← heq, hsent]
      exact length_sentFor_le s₀ pieces
    refine ⟨pieces, hchunks, hlines, (sentFor_eq_iff ((length_busy pieces).2 hcount)).mp ?_⟩
    rw [← hsent, heq, hsent', hlines]
  · rw [← hlength, ← heq]
    exact h.length_le

end Chunkings

/-! ## Two lines in one chunk -/

section Script

variable {sockfd : ℤ} {s₀ s : SubscriberState} {chunks sent : List (List Byte)}

/-- The answers to a subscriber that is given `chunk` and a server that acknowledges commands. -/
def typist (chunk : List Byte) : (c : Call) → Answer c
  | .read .. => some chunk
  | c => scripted 0 [] [6] c

/-- The commands sent when the standard input comes in the given chunks. -/
def typeIn (sockfd : ℤ) : SubscriberState → List (List Byte) → Option (List (List Byte))
  | _, [] => some []
  | s, chunk :: chunks =>
    let r := (subscriberBody sockfd s 0).play (fun _ => typist chunk) 0
    match r.2 with
    | .ok (s', .next) => (typeIn sockfd s' chunks).map (commandsSent r.1 ++ ·)
    | _ => none

theorem expected_typist (chunk : List Byte) (c : Call) :
    acknowledging.Expected () c (typist chunk c) := by
  cases c with
  | recv site fd len =>
    cases site with
    | getCommandAck =>
      show replyType (some [6]) = 6
      rfl
    | _ => trivial
  | _ => trivial

theorem obeys_typist {chunk : List Byte} {evs : List (Event Sys)}
    (h : ∀ e ∈ evs, e = ⟨e.call, typist chunk e.call⟩) : acknowledging.Obeys () evs := by
  induction evs with
  | nil => trivial
  | cons e evs ih =>
    obtain ⟨he, hevs⟩ := List.forall_mem_cons.mp h
    rw [he]
    exact ⟨expected_typist chunk _, ih hevs⟩

theorem inputs_typist {chunk : List Byte} {evs : List (Event Sys)} {r : SubscriberState × Flow}
    (he : (subscriberBody sockfd s 0).Exec evs (.ok r))
    (h : ∀ e ∈ evs, e = ⟨e.call, typist chunk e.call⟩) : inputs evs = [chunk] := by
  unfold subscriberBody at he
  rw [if_pos rfl, Program.exec_bind_ok] at he
  obtain ⟨es, es', s', rfl, hline, rfl, -⟩ := he
  obtain ⟨ret, rest, rfl, hinputs, -⟩ := lineBranch_input hline
  have hread : (⟨.read 0 buflen, ret⟩ : Event Sys) = ⟨.read 0 buflen, some chunk⟩ :=
    h _ List.mem_cons_self
  cases hread
  rw [List.append_nil]
  show chunk :: inputs rest = [chunk]
  rw [hinputs]

theorem typed_typeIn (hsock : 0 ≤ sockfd) (h : typeIn sockfd s₀ chunks = some sent) :
    Typed sockfd s₀ chunks sent := by
  have hrun : ∀ {chunks s} {hs : List (Handled Sys SubscriberState)} {sent},
      (subscriber sockfd).Run acknowledging () (.select s₀) () (.select s) hs →
      typeIn sockfd s chunks = some sent →
      ∃ s' hs', (subscriber sockfd).Run acknowledging () (.select s₀) () (.select s') hs' ∧
        inputs (hs'.flatMap (·.events)) = inputs (hs.flatMap (·.events)) ++ chunks ∧
        commandsSent (hs'.flatMap (·.events)) = commandsSent (hs.flatMap (·.events)) ++ sent := by
    intro chunks
    induction chunks with
    | nil =>
      intro s hs sent hr hsent
      cases hsent
      exact ⟨s, hs, hr, (List.append_nil _).symm, (List.append_nil _).symm⟩
    | cons chunk chunks ih =>
      intro s hs sent hr hsent
      have he := Program.exec_play (fun _ => typist chunk) (subscriberBody sockfd s 0) 0
      unfold typeIn at hsent
      simp only at hsent
      split at hsent
      · rename_i s₁ ho
        rw [ho] at he
        obtain ⟨later, hlater, rfl⟩ := Option.map_eq_some_iff.mp hsent
        have hwatched : (0 : ℤ) ∈ ({0, sockfd} : Finset ℤ) := Finset.mem_insert_self 0 _
        have hnext := hr.round hwatched le_rfl hsock he
          (obeys_typist fun e he => Program.mem_play he)
        obtain ⟨s', hs', hr', h1, h2⟩ := ih hnext hlater
        refine ⟨s', hs', hr', ?_, ?_⟩
        · rw [h1, List.flatMap_append, List.flatMap_singleton, inputs_append,
            inputs_typist he fun e he => Program.mem_play he, List.append_assoc]
          rfl
        · rw [h2, List.flatMap_append, List.flatMap_singleton, commandsSent_append,
            List.append_assoc]
      · cases hsent
  obtain ⟨s', hs', hr, h1, h2⟩ := hrun .start h
  have ht := Typed.through hr
  rwa [h1, h2] at ht

end Script

def subscribeA : CommandLine where
  text := ascii "subscribe a 1"
  plain := by decide +kernel
  command := by decide +kernel
  words_fit := by decide +kernel
  fits := by decide

def unsubscribeE : CommandLine where
  text := ascii "unsubscribe e"
  plain := by decide +kernel
  command := by decide +kernel
  words_fit := by decide +kernel
  fits := by decide

/-- The newline between the two lines comes with the second one, which is read right since its topic
is the last letter of its command. -/
def newlineLate : Chunking [subscribeA, unsubscribeE] where
  chunks := [ascii "subscribe a 1", 10 :: ascii "unsubscribe e" ++ [10]]
  size := by decide
  stream := by decide

theorem typed_iff_newline : typeIn 3 subscriberIdle newlineLate.chunks =
    typeIn 3 subscriberIdle (lineByLine [subscribeA, unsubscribeE]).chunks := by
  obtain ⟨sent, hsent⟩ : ∃ sent, typeIn 3 subscriberIdle newlineLate.chunks = some sent :=
    Option.isSome_iff_exists.mp (by decide +kernel)
  obtain ⟨sent', hsent'⟩ : ∃ sent,
      typeIn 3 subscriberIdle (lineByLine [subscribeA, unsubscribeE]).chunks = some sent :=
    Option.isSome_iff_exists.mp (by decide +kernel)
  have hone : OneLineEach subscriberIdle [subscribeA, unsubscribeE] newlineLate.chunks := by
    refine ⟨[⟨false, [subscribeA], false⟩, ⟨true, [unsubscribeE], true⟩], by decide, rfl,
      ⟨le_rfl, by decide, fun h => by cases h⟩, ⟨le_rfl, by decide, fun _ l hl => ?_⟩, trivial⟩
    rw [List.mem_singleton.mp hl, CommandLine.Steady, if_neg (by decide +kernel)]
    decide +kernel
  rw [hsent, hsent', (typed_iff newlineLate (typed_typeIn (by decide) hsent)
    (typed_typeIn (by decide) hsent')).2.1 hone]

/-- Both lines in one read. -/
def together : Chunking [subscribeA, unsubscribeE] where
  chunks := [ascii "subscribe a 1" ++ 10 :: ascii "unsubscribe e" ++ [10]]
  size := by decide
  stream := by decide

/-- One line in two reads. -/
def cutInside : Chunking [subscribeA] where
  chunks := [ascii "subscribe a", ascii " 1" ++ [10]]
  size := by decide
  stream := by decide

/-- Of two lines in one read the second is lost, and of a line in two reads the SF. -/
theorem typed_fails :
    (∃ sent sent', Typed 3 subscriberIdle together.chunks sent ∧
      Typed 3 subscriberIdle (lineByLine [subscribeA, unsubscribeE]).chunks sent' ∧
      sent.length = 1 ∧ sent'.length = 2) ∧
    ∃ sent sent', Typed 3 subscriberIdle cutInside.chunks sent ∧
      Typed 3 subscriberIdle (lineByLine [subscribeA]).chunks sent' ∧ sent ≠ sent' := by
  obtain ⟨sent, hsent⟩ : ∃ sent, typeIn 3 subscriberIdle together.chunks = some sent :=
    Option.isSome_iff_exists.mp (by decide +kernel)
  obtain ⟨sent', hsent'⟩ : ∃ sent,
      typeIn 3 subscriberIdle (lineByLine [subscribeA, unsubscribeE]).chunks = some sent :=
    Option.isSome_iff_exists.mp (by decide +kernel)
  have hone : (typeIn 3 subscriberIdle together.chunks).map List.length = some 1 := by
    decide +kernel
  have htwo : (typeIn 3 subscriberIdle (lineByLine [subscribeA, unsubscribeE]).chunks).map
      List.length = some 2 := by
    decide +kernel
  rw [hsent] at hone
  rw [hsent'] at htwo
  refine ⟨⟨sent, sent', typed_typeIn (by decide) hsent, typed_typeIn (by decide) hsent',
    Option.some.inj hone, Option.some.inj htwo⟩, ?_⟩
  obtain ⟨cut, hcut⟩ : ∃ sent, typeIn 3 subscriberIdle cutInside.chunks = some sent :=
    Option.isSome_iff_exists.mp (by decide +kernel)
  obtain ⟨whole, hwhole⟩ : ∃ sent,
      typeIn 3 subscriberIdle (lineByLine [subscribeA]).chunks = some sent :=
    Option.isSome_iff_exists.mp (by decide +kernel)
  have hne : typeIn 3 subscriberIdle cutInside.chunks ≠
      typeIn 3 subscriberIdle (lineByLine [subscribeA]).chunks := by
    decide +kernel
  refine ⟨cut, whole, typed_typeIn (by decide) hcut, typed_typeIn (by decide) hwhole, ?_⟩
  rintro rfl
  exact hne (hcut.trans hwhole.symm)

end TopicServer
