import TopicServer.Framing
import TopicServer.ServerUtil

/-!
# The end of the connection

A `recv` that returns 0 is not told apart from a message: what it leaves is the zeroed buffer. Where
the subscriber waits for an answer the type 0 ends it, but the loop displays the buffer as an
integer of no bytes (`no_phantom_iff`). Up to there the messages displayed are the data frames
received (`run_shown`).
-/

namespace TopicServer

open Interactive Memory

/-- A message that arrives whole and does not end the loop. -/
def Whole (m : List Byte) : Prop := (∃ f : Frame, m = f.bytes) ∨ 4 < msgType m

/-- The messages that the loop receives arrive whole. -/
def wholeMessages : Protocol Sys Unit where
  Allowed _ _ := True
  Expected _
    | .recv .getMessage _ _, ret => ∃ m, ret = some m ∧ Whole m
    | _, _ => True
  next _ _ _ := ()

/-- A message with data. -/
def isData (m : List Byte) : Bool := m ≠ [] ∧ msgType m ≤ 3

theorem isData_of_lt {m : List Byte} (h : 4 < msgType m) : isData m = false := by
  rw [isData, decide_eq_false_iff_not]
  exact fun hd => absurd (UInt8.lt_of_lt_of_le h hd.2) (by decide)

/-- The messages with data received among the calls. -/
def dataFrames (evs : List (Event Sys)) : List (List Byte) :=
  evs.filterMap fun e => match e with
    | ⟨.recv _ _ _, some m⟩ => if isData m then some m else none
    | _ => none

/-- The messages displayed are the data frames received. -/
def Shows (evs : List (Event Sys)) : Prop :=
  ∃ frames : List Frame, dataFrames evs = frames.map Frame.bytes ∧
    List.Forall₂ Frame.ShownAs frames (displays evs)

/-- The end of the connection is read at `site`. -/
def EndsAt (site : Site) (evs : List (Event Sys)) : Prop :=
  ∃ fd len, (⟨.recv site fd len, some []⟩ : Event Sys) ∈ evs

/-- The loop goes on behind a body. -/
def goesOn : Except Halt (SubscriberState × Flow) → Bool
  | .ok (_, .next) => true
  | _ => false

/-- The runs of a subscriber up to the piece of its program that reads the end of the connection:
the statement that reads it, the calls so far, and whether the loop goes on. -/
inductive Interrupted (id : List Byte) (sockfd : ℤ) : Site → List (Event Sys) → Bool → Prop
  | starting {site evs o} : (subscriberStart id sockfd).Exec evs o → EndsAt site evs →
      Interrupted id sockfd site evs o.isOk
  | looping {site evs₀ s₀ s tmp i hs evs o} : (subscriberStart id sockfd).Exec evs₀ (.ok s₀) →
      (subscriber sockfd).Run wholeMessages () (.select s₀) () (.scan s tmp i) hs → i ∈ tmp →
      (subscriberBody sockfd s i).Exec evs o → EndsAt site evs →
      Interrupted id sockfd site (evs₀ ++ hs.flatMap (·.events) ++ evs) (goesOn o)

/-! ## Calls and messages -/

section Calls

variable {es es' evs : List (Event Sys)}

@[simp] theorem dataFrames_append : dataFrames (es ++ es') = dataFrames es ++ dataFrames es' :=
  List.filterMap_append

theorem Shows.append (h : Shows es) (h' : Shows es') : Shows (es ++ es') := by
  obtain ⟨fs, h1, h2⟩ := h
  obtain ⟨fs', h1', h2'⟩ := h'
  refine ⟨fs ++ fs', ?_, ?_⟩
  · rw [dataFrames_append, h1, h1', List.map_append]
  · rw [displays_append]
    exact List.rel_append h2 h2'

theorem shows_nil (h : dataFrames evs = []) (h' : displays evs = []) : Shows evs := by
  refine ⟨[], h, ?_⟩
  rw [h']
  exact .nil

theorem Shows.length_eq (h : Shows evs) : (displays evs).length = (dataFrames evs).length := by
  obtain ⟨fs, h1, h2⟩ := h
  rw [h1, List.length_map, h2.length_eq]

/-- The answers to `recv`, the last one first, of a piece that displays nothing and does not read
messages in the loop. -/
def answered : Protocol Sys (List (Option (List Byte))) where
  Allowed _
    | .printf (.display _) => False
    | .recv .getMessage _ _ => False
    | _ => True
  Expected _ _ _ := True
  next g
    | .recv _ _ _, ret => ret :: g
    | _, _ => g

theorem obeys_answered (g : List (Option (List Byte))) (evs : List (Event Sys)) :
    answered.Obeys g evs := by
  induction evs generalizing g with
  | nil => trivial
  | cons e evs ih => exact ⟨trivial, ih _⟩

theorem mem_answered {g : List (Option (List Byte))} {r : Option (List Byte)} (hr : r ∈ g)
    (evs : List (Event Sys)) : r ∈ answered.after g evs := by
  induction evs generalizing g with
  | nil => exact hr
  | cons e evs ih =>
    obtain ⟨c, ret⟩ := e
    apply ih
    cases c with
    | recv site fd len => exact List.mem_cons_of_mem _ hr
    | _ => exact hr

theorem mem_answered_recv {site : Site} {fd : ℤ} {len : ℕ} {r : Option (List Byte)}
    (h : (⟨.recv site fd len, r⟩ : Event Sys) ∈ evs) (g : List (Option (List Byte))) :
    r ∈ answered.after g evs := by
  induction evs generalizing g with
  | nil => cases h
  | cons e evs ih =>
    obtain ⟨c, ret⟩ := e
    rcases List.mem_cons.mp h with heq | h
    · cases heq
      exact mem_answered List.mem_cons_self evs
    · exact ih h _

/-- Without data among the answers there is no data frame. -/
theorem dataFrames_nil (h : ∀ m, some m ∈ answered.after [] evs → isData m = false) :
    dataFrames evs = [] := by
  refine List.filterMap_eq_nil_iff.mpr fun e he => ?_
  obtain ⟨c, ret⟩ := e
  cases c with
  | recv site fd len =>
    cases ret with
    | none => rfl
    | some m =>
      have hm := h m (mem_answered_recv he [])
      show (if isData m then some m else none) = none
      rw [hm]
      rfl
  | _ => rfl

theorem displays_nil (h : ∀ e ∈ evs, answered.Allowed [] e.call) : displays evs = [] := by
  refine List.filterMap_eq_nil_iff.mpr fun e he => ?_
  have hc := h e he
  obtain ⟨c, ret⟩ := e
  cases c with
  | printf line =>
    cases line with
    | display d => cases hc
    | _ => rfl
  | _ => rfl

end Calls

/-! ## Waiting for an answer -/

/-- A piece goes on only if its messages have types above 4, and stops at the first other one. -/
def Answered {α : Type} : List (Option (List Byte)) → Except Halt α → Prop :=
  Program.post (fun g _ => ∀ r ∈ g, 4 < replyType r) (fun g _ => g.length ≤ 1)

section Answered

variable {sockfd : ℤ} {β : Type}

theorem mem_answered_wp {α : Type} {e : Except Fault α} {f : α → Proc β}
    (h : ∀ a, (f a).wp answered [] Answered) : (mem e >>= f).wp answered [] Answered :=
  wp_mem.mpr ⟨fun _ _ => Nat.zero_le 1, fun a _ => h a⟩

theorem dieCall_answered {b : Bool} {m : String} {f : Unit → Proc β} {g : List (Option (List Byte))}
    (hg : g.length ≤ 1) (h : (f ()).wp answered g Answered) :
    (dieCall b m >>= f).wp answered g Answered :=
  wp_dieCall.mpr ⟨fun _ => hg, fun _ => h⟩

/-- The answer has to be of one type. -/
theorem dieType_answered {ret : Option (List Byte)} {t : Byte} (ht : 4 < t) {m : String}
    {f : Unit → Proc β} (h : 4 < replyType ret → (f ()).wp answered [ret] Answered) :
    (dieType ((ret.getD []).getD 0 0 != t) m >>= f).wp answered [ret] Answered := by
  refine wp_dieType.mpr ⟨fun _ => le_rfl, fun hb => h ?_⟩
  have htype : replyType ret = t := by simpa [replyType] using hb
  rw [htype]
  exact ht

theorem subscriberStart_answered (id : List Byte) :
    (subscriberStart id sockfd).wp answered [] Answered := by
  unfold subscriberStart manageId
  rw [wp_indeterminate]
  refine ⟨trivial, fun clsHdr _ => ?_⟩
  rw [wp_indeterminate]
  refine ⟨trivial, fun sf _ => ?_⟩
  rw [LawfulMonad.bind_assoc, wp_recv]
  refine ⟨trivial, fun ret _ => ?_⟩
  rw [LawfulMonad.bind_assoc]
  refine dieCall_answered le_rfl ?_
  rw [LawfulMonad.bind_assoc]
  refine dieType_answered (by decide) fun h5 => ?_
  rw [LawfulMonad.bind_assoc, wp_indeterminate]
  refine ⟨trivial, fun clSv _ => ?_⟩
  rw [LawfulMonad.bind_assoc, wp_indeterminate]
  refine ⟨trivial, fun idTail _ => ?_⟩
  rw [LawfulMonad.bind_assoc, wp_send]
  refine ⟨trivial, fun sent _ => ?_⟩
  refine dieCall_answered le_rfl fun r hr => ?_
  rw [List.mem_singleton.mp hr]
  exact h5

/-- A command and its answer. -/
theorem command_answered {m : List Byte} {x : β} :
    (do
      let _ ← send .putCommand sockfd m
      let ret ← recv .getCommandAck sockfd (serverHdrSize + 1)
      dieType ((ret.getD []).getD 0 0 != 6) lackAck
      pure x : Proc β).wp answered [] Answered := by
  rw [wp_send]
  refine ⟨trivial, fun sent _ => ?_⟩
  rw [wp_recv]
  refine ⟨trivial, fun ret _ => dieType_answered (by decide) fun h6 r hr => ?_⟩
  rw [List.mem_singleton.mp hr]
  exact h6

theorem exitBranch_answered : (exitBranch sockfd : Proc β).wp answered [] Answered := by
  unfold exitBranch
  rw [wp_indeterminate]
  refine ⟨trivial, fun clSv _ => ?_⟩
  rw [wp_send]
  refine ⟨trivial, fun sent _ => dieCall_answered (Nat.zero_le 1) ?_⟩
  rw [wp_recv]
  refine ⟨trivial, fun ret _ => dieCall_answered le_rfl ?_⟩
  refine dieType_answered (by decide) fun _ => ?_
  rw [wp_close]
  exact ⟨trivial, fun _ _ => le_rfl⟩

/-- A command whose success is printed. -/
theorem printed_answered {p : Proc SubscriberState} {line : Output}
    (hline : answered.Allowed [] (.printf line)) (h : p.wp answered [] Answered) :
    (do
      let s ← p
      printf line
      pure s : Proc SubscriberState).wp answered [] Answered := by
  rw [Program.wp_bind]
  refine h.mono fun g o ho => ?_
  cases o with
  | error e => exact ho
  | ok s => exact ⟨hline, fun _ _ => ho⟩

theorem lineBranch_answered {s : SubscriberState} :
    (lineBranch sockfd s).wp answered [] Answered := by
  refine wp_lineBranch trivial fun ret _ => ⟨fun _ => Nat.zero_le 1, fun _ => Nat.zero_le 1,
    fun buffer command => ?_⟩
  split_ifs
  · exact printed_answered trivial (mem_answered_wp fun topic => command_answered)
  · exact printed_answered trivial (mem_answered_wp fun topic => command_answered)
  · exact exitBranch_answered
  · exact ⟨trivial, fun _ _ r hr => by cases hr⟩

variable {α : Type} {p : Proc α} {evs : List (Event Sys)} {o : Except Halt α} {site : Site}

/-- Such a piece displays nothing. -/
theorem answered_displays (h : p.wp answered [] Answered) (he : p.Exec evs o) : displays evs = [] :=
  displays_nil (h.allowed (fun _ _ hc => hc) he (obeys_answered _ _))

/-- If it goes on, it has taken no data. -/
theorem answered_dataFrames {a : α} (h : p.wp answered [] Answered) (he : p.Exec evs (.ok a)) :
    dataFrames evs = [] := by
  have hall : ∀ r ∈ answered.after [] evs, 4 < replyType r := h.exec he (obeys_answered _ _)
  exact dataFrames_nil fun m hm => isData_of_lt (hall _ hm)

/-- The end of the connection stops it. -/
theorem answered_ends (h : p.wp answered [] Answered) (he : p.Exec evs o) (hend : EndsAt site evs) :
    site ≠ .getMessage ∧ (∃ e, o = .error e) ∧ dataFrames evs = [] := by
  obtain ⟨fd, len, hmem⟩ := hend
  have hrecv := mem_answered_recv hmem []
  refine ⟨?_, ?_⟩
  · rintro rfl
    exact h.allowed (A := answered.Allowed []) (fun _ _ hc => hc) he (obeys_answered _ _) _ hmem
  cases o with
  | ok a =>
    have hall : ∀ r ∈ answered.after [] evs, 4 < replyType r := h.exec he (obeys_answered _ _)
    exact absurd (hall _ hrecv) (by decide)
  | error e =>
    have hone : (answered.after [] evs).length ≤ 1 := h.exec he (obeys_answered _ _)
    refine ⟨⟨e, rfl⟩, dataFrames_nil fun m hm => ?_⟩
    match hg : answered.after [] evs with
    | [] =>
      rw [hg] at hm
      cases hm
    | [r] =>
      rw [hg, List.mem_singleton] at hm hrecv
      obtain rfl := Option.some.inj (hm.trans hrecv.symm)
      rfl
    | _ :: _ :: _ =>
      rw [hg] at hone
      simp at hone

end Answered

/-! ## A message in the loop -/

/-- A call that receives nothing. -/
def noRecv : Call → Bool
  | .recv .. => false
  | _ => true

section Message

variable {sockfd : ℤ} {s : SubscriberState} {m : List Byte} {evs : List (Event Sys)}
  {o : Except Halt (SubscriberState × Flow)}

/-- The loop reads one message. -/
theorem messageBranch_recv (he : (messageBranch sockfd s).Exec evs o) :
    ∃ ret rest, evs = ⟨.recv .getMessage sockfd buflen, ret⟩ :: rest ∧
      ∀ e ∈ rest, noRecv e.call = true := by
  unfold messageBranch at he
  rw [exec_recv] at he
  obtain ⟨ret, rest, rfl, he⟩ := he
  refine ⟨ret, rest, rfl, Program.Calls.exec (A := fun c => noRecv c = true) ?_ he⟩
  exact calls_die ((displayMessage_calls (A := fun c => noRecv c = true) rfl fun _ => rfl).bind
    fun _ => (ackMessage_calls fun _ => rfl).bind fun _ => trivial)

theorem dataFrames_noRecv (h : ∀ e ∈ evs, noRecv e.call = true) : dataFrames evs = [] := by
  refine List.filterMap_eq_nil_iff.mpr fun e he => ?_
  have hc := h e he
  obtain ⟨c, ret⟩ := e
  cases c with
  | recv site fd len => cases hc
  | _ => rfl

theorem displays_ackMessage {o : Except Halt SubscriberState}
    (he : (ackMessage sockfd s).Exec evs o) : displays evs = [] := by
  unfold ackMessage at he
  simp only at he
  rw [exec_send] at he
  obtain ⟨ret, rest, rfl, he⟩ := he
  rw [exec_dieCall] at he
  rcases he with ⟨-, rfl, -⟩ | ⟨-, rfl, -⟩
  · rfl
  · rfl

/-- A message is displayed, or its type is above 3, or its payload is not in the buffer. -/
theorem messageBranch_displays
    (he : (messageBranch sockfd s).Exec
      (⟨.recv .getMessage sockfd buflen, some m⟩ :: evs) o) :
    (∃ d, Displayed m d ∧ displays evs = [d]) ∨
    (3 < (ServerToClientHdr.decode (pad buflen m)).type ∧ displays evs = []) ∨
    (ServerToClientHdr.decode (pad buflen m)).type ≤ 3 ∧
      ∃ e, extractServerToClientHeader (pad buflen m) (.decode (pad buflen m)) = .error e := by
  obtain ⟨ret, rest, heq, hcases⟩ := messageBranch_cases he
  cases heq
  rcases hcases with ⟨hnone, -⟩ | ⟨m', heq, hcases⟩
  · cases hnone
  cases heq
  have hdisplay : ∃ es es' o', evs = es ++ es' ∧
      (displayMessage (pad buflen m) (.decode (pad buflen m))).Exec es o' ∧ displays es' = [] := by
    rcases hcases with ⟨e, hd, -⟩ | ⟨es, es', rfl, hd, ⟨e, ha, -⟩ | ⟨s', ha, -⟩⟩
    · exact ⟨evs, [], _, (List.append_nil _).symm, hd, rfl⟩
    · exact ⟨es, es', _, rfl, hd, displays_ackMessage ha⟩
    · exact ⟨es, es', _, rfl, hd, displays_ackMessage ha⟩
  obtain ⟨es, es', o', rfl, hd, hack⟩ := hdisplay
  rw [displays_append, hack, List.append_nil]
  rcases displayMessage_exec hd with
    ⟨htype, val, adr, udpPort, slack, -, hex, -, h4⟩ | ⟨htype, rfl, -⟩ | ⟨htype, -, e, hex, -⟩
  · exact Or.inl ⟨_, ⟨_, rfl, htype, val, adr, udpPort, slack, hex, rfl⟩, h4⟩
  · exact Or.inr (Or.inl ⟨htype, rfl⟩)
  · exact Or.inr (Or.inr ⟨htype, e, hex⟩)

theorem decode_type (m : List Byte) : (ServerToClientHdr.decode (pad buflen m)).type = msgType m := by
  cases m <;> rfl

theorem isData_frame (f : Frame) : isData f.bytes = true := by
  have hne : f.bytes ≠ [] := List.ne_nil_of_length_pos (by
    rw [f.length_bytes]
    unfold serverHdrSize
    omega)
  rw [isData, decide_eq_true_iff]
  exact ⟨hne, f.type_le⟩

/-- A message that arrives whole is displayed exactly if it is a data frame. -/
theorem messageBranch_shows (he : (messageBranch sockfd s).Exec evs o)
    (ho : wholeMessages.Obeys () evs) : Shows evs := by
  obtain ⟨ret, rest, rfl, hrest⟩ := messageBranch_recv he
  obtain ⟨m, rfl, hm⟩ := ho.1
  have hframes : dataFrames (⟨.recv .getMessage sockfd buflen, some m⟩ :: rest) =
      if isData m then [m] else [] := by
    have hcons : dataFrames (⟨.recv .getMessage sockfd buflen, some m⟩ :: rest) =
        dataFrames [⟨.recv .getMessage sockfd buflen, some m⟩] ++ dataFrames rest := by
      rw [← dataFrames_append]
      rfl
    rw [hcons, dataFrames_noRecv hrest, List.append_nil]
    unfold dataFrames
    cases hd : isData m <;> simp [hd]
  have hdisplays : displays (⟨.recv .getMessage sockfd buflen, some m⟩ :: rest) = displays rest := rfl
  rcases hm with ⟨f, rfl⟩ | h4
  · rw [isData_frame, if_pos rfl] at hframes
    refine ⟨[f], hframes, ?_⟩
    rw [hdisplays]
    rcases messageBranch_displays he with ⟨d, hd, h⟩ | ⟨h3, -⟩ | ⟨-, e, hex⟩
    · rw [h]
      exact .cons (shownAs_of_displayed hd) .nil
    · rw [decode_frame] at h3
      exact absurd f.type_le (UInt8.not_le.mpr h3)
    · rw [decode_frame, extract_frame] at hex
      cases hex
  · rw [isData_of_lt h4] at hframes
    refine shows_nil hframes ?_
    rw [hdisplays]
    rcases messageBranch_displays he with ⟨d, ⟨hdr, rfl, h3, -⟩, -⟩ | ⟨-, h⟩ | ⟨h3, -⟩
    · rw [decode_type] at h3
      exact absurd (UInt8.lt_of_lt_of_le h4 h3) (by decide)
    · exact h
    · rw [decode_type] at h3
      exact absurd (UInt8.lt_of_lt_of_le h4 h3) (by decide)

/-- The end of the connection is displayed. -/
theorem messageBranch_phantom (he : (messageBranch sockfd s).Exec evs o) {site : Site}
    (hend : EndsAt site evs) : site = .getMessage ∧ ∃ d, displays evs = [d] ∧ dataFrames evs = [] := by
  obtain ⟨ret, rest, rfl, hrest⟩ := messageBranch_recv he
  obtain ⟨fd, len, hmem⟩ := hend
  rcases List.mem_cons.mp hmem with heq | hmem
  · cases heq
    have hframes : dataFrames (⟨.recv .getMessage sockfd buflen, some []⟩ :: rest) =
        dataFrames rest := rfl
    have hdisplays : displays (⟨.recv .getMessage sockfd buflen, some []⟩ :: rest) =
        displays rest := rfl
    refine ⟨rfl, ?_⟩
    rw [hframes, hdisplays, dataFrames_noRecv hrest]
    have hzero : extractServerToClientHeader (pad buflen []) (.decode (pad buflen [])) =
        .ok ([], 0, 0) := by
      decide +kernel
    rcases messageBranch_displays he with ⟨d, -, h⟩ | ⟨h3, -⟩ | ⟨-, e, hex⟩
    · exact ⟨d, h, rfl⟩
    · exact absurd h3 (by decide +kernel)
    · rw [hzero] at hex
      cases hex
  · cases hrest _ hmem

end Message

/-! ## Runs up to the end of the connection -/

section Runs

variable {id : List Byte} {sockfd : ℤ} {s : SubscriberState} {i : ℤ} {evs : List (Event Sys)}

theorem body_shows {r : SubscriberState × Flow} (he : (subscriberBody sockfd s i).Exec evs (.ok r))
    (ho : wholeMessages.Obeys () evs) : Shows evs := by
  unfold subscriberBody at he
  split_ifs at he
  · rw [Program.exec_bind_ok] at he
    obtain ⟨es, es', s', rfl, hline, rfl, -⟩ := he
    rw [List.append_nil]
    exact shows_nil (answered_dataFrames lineBranch_answered hline)
      (answered_displays lineBranch_answered hline)
  · exact messageBranch_shows he ho
  · obtain ⟨rfl, -⟩ := he
    exact shows_nil rfl rfl

/-- Along a run the messages displayed are the data frames received. -/
theorem run_shows {g₀ g : Unit} {p₀ p : Point SubscriberState}
    {hs : List (Handled Sys SubscriberState)}
    (h : (subscriber sockfd).Run wholeMessages g₀ p₀ g p hs) : Shows (hs.flatMap (·.events)) := by
  induction h with
  | start => exact shows_nil rfl rfl
  | select _ _ _ ih => exact ih
  | skip _ _ _ ih => exact ih
  | done _ _ ih => exact ih
  | handle _ _ _ he ho ih =>
    rw [List.flatMap_append, List.flatMap_singleton]
    exact ih.append (body_shows he ho)

/-- The end of the connection displays nothing and ends the subscriber, unless it is read by the
`recv` of the loop. -/
theorem no_phantom_iff {site : Site} {on : Bool} (h : Interrupted id sockfd site evs on) :
    (Shows evs ∧ on = false) ↔ site ≠ .getMessage := by
  cases h with
  | starting he hend =>
    obtain ⟨hsite, ⟨e, rfl⟩, hframes⟩ := answered_ends (subscriberStart_answered id) he hend
    exact iff_of_true ⟨shows_nil hframes
      (answered_displays (subscriberStart_answered id) he), rfl⟩ hsite
  | @looping evs₀ s₀ s tmp i hs es o hstart hrun hi he hend =>
    have hbefore : Shows (evs₀ ++ hs.flatMap (·.events)) :=
      (shows_nil (answered_dataFrames (subscriberStart_answered id) hstart)
        (answered_displays (subscriberStart_answered id) hstart)).append (run_shows hrun)
    unfold subscriberBody at he
    split_ifs at he
    · rw [Program.exec_bind] at he
      rcases he with ⟨e, hline, rfl⟩ | ⟨es, es', s', rfl, hline, rfl, -⟩
      · obtain ⟨hsite, -, hframes⟩ := answered_ends lineBranch_answered hline hend
        exact iff_of_true ⟨hbefore.append (shows_nil hframes
          (answered_displays lineBranch_answered hline)), rfl⟩ hsite
      · rw [List.append_nil] at hend
        obtain ⟨-, ⟨e, he⟩, -⟩ := answered_ends lineBranch_answered hline hend
        cases he
    · obtain ⟨hsite, d, hd, hframes⟩ := messageBranch_phantom he hend
      refine iff_of_false (fun hshows => ?_) (not_not_intro hsite)
      -- one message more is displayed than data frames were received
      have hlen := hshows.1.length_eq
      have hlen' := hbefore.length_eq
      rw [displays_append, dataFrames_append, List.length_append, List.length_append, hd, hframes,
        hlen'] at hlen
      simp at hlen
    · obtain ⟨rfl, -⟩ := he
      obtain ⟨fd, len, hmem⟩ := hend
      cases hmem

end Runs

/-! ## An idle subscriber -/

/-- The calls of a subscriber that is asked for its ID. -/
def startCalls : List (Event Sys) :=
  ((subscriberStart [65] 3).play (fun _ => scripted 0 [] [5]) 0).1

theorem startCalls_exec : (subscriberStart [65] 3).Exec startCalls (.ok subscriberIdle) := by
  have hplay := Program.exec_play (fun _ => scripted 0 [] [5]) (subscriberStart [65] 3) 0
  have hidle : ((subscriberStart [65] 3).play (fun _ => scripted 0 [] [5]) 0).2 =
      .ok subscriberIdle := by
    decide +kernel
  rwa [hidle] at hplay

/-- The idle subscriber comes to the only ready descriptor. -/
theorem idle_run {i : ℤ} (hi : i = 0 ∨ i = 3) :
    (subscriber 3).Run wholeMessages () (.select subscriberIdle) ()
      (.scan subscriberIdle {i} i) [] := by
  have hscan : (subscriber 3).Run wholeMessages () (.select subscriberIdle) ()
      (.scan subscriberIdle {i} 0) [] := by
    refine .select .start (fun j hj => ?_) fun j hj => ?_
    · show j ∈ ({0, 3} : Finset ℤ)
      rw [Finset.mem_singleton.mp hj, Finset.mem_insert, Finset.mem_singleton]
      exact hi
    · show 0 ≤ j ∧ j ≤ 3
      rw [Finset.mem_singleton.mp hj]
      omega
  rcases hi with rfl | rfl
  · exact hscan
  · refine hscan.skipTo 3 (by decide) fun j _ hlt hmem => ?_
    rw [Finset.mem_singleton] at hmem
    omega

/-- The calls for the line `exit` when the connection ends before the answer. -/
def exitCalls : List (Event Sys) × Except Halt (SubscriberState × Flow) :=
  (subscriberBody 3 subscriberIdle 0).play
    (fun n => scripted 0 [] (if n = 0 then exitWord else [])) 0

theorem exitCalls_ends : EndsAt .getExitAck exitCalls.1 :=
  ⟨3, buflen, List.mem_of_getElem? (show exitCalls.1[3]? = _ from rfl)⟩

theorem no_phantom_iff_exit :
    Shows (startCalls ++ exitCalls.1) ∧ goesOn exitCalls.2 = false := by
  have h := Interrupted.looping startCalls_exec (idle_run (Or.inl rfl))
    (Finset.mem_singleton_self 0) (Program.exec_play _ _ _) exitCalls_ends
  rw [List.flatMap_nil, List.append_nil] at h
  exact (no_phantom_iff h).mpr (by decide)

/-- The calls of the loop when the connection ends. -/
def endCalls : List (Event Sys) × Except Halt (SubscriberState × Flow) :=
  (subscriberBody 3 subscriberIdle 3).play (fun _ => scripted 0 [] []) 0

theorem endCalls_ends : EndsAt .getMessage endCalls.1 :=
  ⟨3, buflen, List.mem_of_getElem? (show endCalls.1[0]? = _ from rfl)⟩

/-- An idle subscriber that has received nothing displays a message when the server closes the
connection, and goes on. -/
theorem no_phantom_fails :
    Interrupted [65] 3 .getMessage (startCalls ++ endCalls.1) (goesOn endCalls.2) ∧
      ¬ Shows (startCalls ++ endCalls.1) ∧ goesOn endCalls.2 = true := by
  have h := Interrupted.looping startCalls_exec (idle_run (Or.inr rfl))
    (Finset.mem_singleton_self 3) (Program.exec_play _ _ _) endCalls_ends
  rw [List.flatMap_nil, List.append_nil] at h
  refine ⟨h, fun hshows => ?_, by decide +kernel⟩
  have hone : (displays (startCalls ++ endCalls.1)).length = 1 := by decide +kernel
  have hnone : (dataFrames (startCalls ++ endCalls.1)).length = 0 := by decide +kernel
  have hlen := hshows.length_eq
  rw [hone, hnone] at hlen
  cases hlen

end TopicServer
