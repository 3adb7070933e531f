import TopicServer.Lib.Trace
import TopicServer.EndOfStream
import TopicServer.Parsing

/-!
# What arrives at a subscriber and what it shows

A subscriber displays what it receives as a message, in the order in which it arrives: between two
rounds everything that arrived is on the screen (`Settled`), and at any time at most the last thing
that arrived is not (`Caught`). It stops at a fault only right behind a line whose words do not fit,
or behind a message whose header announces more than arrived (`FaultsAt`).
-/

namespace TopicServer

open Interactive Memory

/-- What a call brings for the screen, with the place where it was received. The end of the stream
reads as a message of type 0 where a message is expected. -/
def arrivalOf (e : Event Sys) : Option (Site × List Byte) :=
  match e with
  | ⟨.recv site _ _, some m⟩ =>
    if msgType m ≤ 3 ∧ (m ≠ [] ∨ site = .getMessage) then some (site, m) else none
  | _ => none

def arrivals (evs : List (Event Sys)) : List (Site × List Byte) := evs.filterMap arrivalOf

@[simp] theorem arrivals_append (es es' : List (Event Sys)) :
    arrivals (es ++ es') = arrivals es ++ arrivals es' := List.filterMap_append

/-- A message was received as one and displayed. -/
def Exhibits (a : Site × List Byte) (d : Display) : Prop := a.1 = .getMessage ∧ Displayed a.2 d

/-- Everything that arrived is on the screen. -/
def Settled (evs : List (Event Sys)) : Prop :=
  List.Forall₂ Exhibits (arrivals evs) (displays evs)

/-- Everything that arrived is on the screen, but for the last thing. -/
def Caught (evs : List (Event Sys)) : Prop :=
  ∃ as held, arrivals evs = as ++ held ∧ List.Forall₂ Exhibits as (displays evs) ∧
    held.length ≤ 1

/-- The calls behind which a subscriber comes to a fault: a line whose words do not fit, or a
message whose header announces more than arrived. -/
def FaultsAt (evs : List (Event Sys)) (f : Fault) : Prop :=
  (∃ es block, evs = es ++ [⟨.read 0 buflen, some block⟩] ∧ ¬ TokensFit block) ∨
    ∃ es fd m, evs = es ++ [⟨.recv .getMessage fd buflen, some m⟩] ∧ msgType m ≤ 3 ∧
      extractServerToClientHeader (pad buflen m) (.decode (pad buflen m)) = .error f

/-- Where a subscriber stops. -/
def StopsAt (evs : List (Event Sys)) (e : Halt) : Prop :=
  Caught evs ∧ ∀ f, e = .fault f → FaultsAt evs f

section Silent

variable {es : List (Event Sys)} {e : Event Sys} {a : Site × List Byte}

/-- A call that brings nothing and shows nothing. -/
def Silent (e : Event Sys) : Prop := arrivalOf e = none ∧ displays [e] = []

theorem Settled.caught (h : Settled es) : Caught es :=
  ⟨_, [], (List.append_nil _).symm, h, Nat.zero_le 1⟩

theorem Settled.silent (h : Settled es) (hq : Silent e) : Settled (es ++ [e]) := by
  have harr : arrivals [e] = [] := List.filterMap_cons_none hq.1
  unfold Settled
  rw [arrivals_append, displays_append, harr, hq.2, List.append_nil, List.append_nil]
  exact h

theorem Caught.silent (h : Caught es) (hq : Silent e) : Caught (es ++ [e]) := by
  have harr : arrivals [e] = [] := List.filterMap_cons_none hq.1
  unfold Caught
  rw [arrivals_append, displays_append, harr, hq.2, List.append_nil, List.append_nil]
  exact h

/-- Whatever a call brings waits for the screen. -/
theorem Settled.receives (h : Settled es) (hd : displays [e] = []) : Caught (es ++ [e]) := by
  refine ⟨arrivals es, arrivals [e], arrivals_append _ _, ?_, ?_⟩
  · rw [displays_append, hd, List.append_nil]
    exact h
  · exact (List.length_filterMap_le _ _).trans (Nat.le_refl 1)

theorem silent_of_type {site : Site} {fd : ℤ} {len : ℕ} {ret : Option (List Byte)}
    (h : 3 < replyType ret) : Silent ⟨.recv site fd len, ret⟩ := by
  refine ⟨?_, rfl⟩
  cases ret with
  | none => rfl
  | some m => exact if_neg fun hc => absurd h (UInt8.not_lt.mpr hc.1)

end Silent

/-! ## The programs of a subscriber -/

/-- Before every call a subscriber has shown what arrived, but for the last thing. -/
abbrev screening : Protocol Sys (List (Event Sys)) := .watching fun es _ => Caught es

section Bodies

variable {sockfd : ℤ} {s : SubscriberState} {es : List (Event Sys)}

/-- The postcondition that everything that arrived is on the screen. -/
def Steady {α : Type} : List (Event Sys) → Except Halt α → Prop :=
  Program.post (fun es _ => Settled es) StopsAt

theorem StopsAt.of_caught {e : Halt} (h : Caught es) (he : ∀ f, e ≠ .fault f) : StopsAt es e :=
  ⟨h, fun f hf => absurd hf (he f)⟩

/-- An answer is awaited: another message ends the subscriber. -/
theorem wp_answer {β : Type} {site : Site} {len : ℕ} {t : Byte} {m : String} {f : Proc β}
    {ret : Option (List Byte)} {Q : List (Event Sys) → Except Halt β → Prop} (h : Settled es)
    (ht : 3 < t) (hdie : ∀ es, Caught es → Q es (.error (.dieType m)))
    (hf : ∀ es, Settled es → f.wp screening es Q) :
    (do
      dieType ((ret.getD []).getD 0 0 != t) m
      f : Proc β).wp screening (es ++ [⟨.recv site sockfd len, ret⟩]) Q := by
  rw [wp_dieType]
  refine ⟨fun _ => hdie _ (h.receives rfl), fun hb => hf _ (h.silent (silent_of_type ?_))⟩
  rw [show replyType ret = t by simpa [replyType] using hb]
  exact ht

/-- A command and its answer. -/
theorem wp_commandAnswered {β : Type} {m : List Byte} {f : Proc β}
    {Q : List (Event Sys) → Except Halt β → Prop} (h : Settled es)
    (hdie : ∀ es, Caught es → Q es (.error (.dieType lackAck)))
    (hf : ∀ es, Settled es → f.wp screening es Q) :
    (do
      let _ ← send .putCommand sockfd m
      let ret ← recv .getCommandAck sockfd (serverHdrSize + 1)
      dieType ((ret.getD []).getD 0 0 != 6) lackAck
      f : Proc β).wp screening es Q := by
  rw [wp_send]
  refine ⟨h.caught, fun sent _ => ?_⟩
  have hsent : Settled (es ++ [⟨.send .putCommand sockfd m, sent⟩]) := h.silent ⟨rfl, rfl⟩
  rw [wp_recv]
  exact ⟨hsent.caught, fun ret _ => wp_answer hsent (by decide) hdie hf⟩

/-- The postcondition of a piece of the branch of a line. -/
def Paced {α : Type} : List (Event Sys) → Except Halt α → Prop :=
  Program.post (fun es _ => Settled es) fun es _ => Caught es

theorem processSubscribe_paced {buffer : List Byte} {command : CharArray commandLen}
    (h : Settled es) : (processSubscribe sockfd buffer command s).wp screening es Paced := by
  unfold processSubscribe
  rw [wp_mem]
  exact ⟨fun f _ => h.caught, fun topic _ => wp_commandAnswered h (fun es hc => hc) fun es h => h⟩

theorem processUnsubscribe_paced {buffer : List Byte} {command : CharArray commandLen}
    (h : Settled es) : (processUnsubscribe sockfd buffer command s).wp screening es Paced := by
  unfold processUnsubscribe
  rw [wp_mem]
  exact ⟨fun f _ => h.caught, fun topic _ => wp_commandAnswered h (fun es hc => hc) fun es h => h⟩

theorem exitBranch_paced {α : Type} (h : Settled es) :
    (exitBranch sockfd : Proc α).wp screening es Paced := by
  unfold exitBranch
  rw [wp_indeterminate]
  refine ⟨h.caught, fun clSv _ => ?_⟩
  have h₁ : Settled (es ++ [⟨.indeterminate clientHdrSize, clSv⟩]) := h.silent ⟨rfl, rfl⟩
  rw [wp_send]
  refine ⟨h₁.caught, fun sent _ => ?_⟩
  have h₂ : Settled (es ++ [⟨.indeterminate clientHdrSize, clSv⟩] ++
      [⟨.send .putExit sockfd (3 :: clSv.bytes.drop 1), sent⟩]) := h₁.silent ⟨rfl, rfl⟩
  rw [wp_dieCall]
  refine ⟨fun _ => h₂.caught, fun _ => ?_⟩
  rw [wp_recv]
  refine ⟨h₂.caught, fun ret _ => ?_⟩
  rw [wp_dieCall]
  refine ⟨fun _ => h₂.receives rfl, fun _ => ?_⟩
  refine wp_answer h₂ (by decide) (fun es hc => hc) fun es h => ?_
  rw [wp_close]
  exact ⟨h.caught, fun u _ => (h.silent ⟨rfl, rfl⟩).caught⟩

theorem lineBranch_paced (h : Settled es) : (lineBranch sockfd s).wp screening es Paced := by
  refine wp_lineBranch h.caught fun ret _ => ?_
  have h₁ : Settled (es ++ [⟨.read 0 buflen, ret⟩]) := h.silent ⟨rfl, rfl⟩
  refine ⟨fun _ => h₁.caught, fun _ => h₁.caught, fun buffer command => ?_⟩
  have hprint : ∀ {line : Output} {s : SubscriberState} {es : List (Event Sys)},
      (∀ d, line ≠ .display d) → Settled es →
      (do printf line; pure s : Proc SubscriberState).wp screening es Paced := by
    intro line s es hline h
    rw [wp_printf]
    refine ⟨h.caught, fun u _ => h.silent ⟨rfl, ?_⟩⟩
    cases line with
    | display d => exact absurd rfl (hline d)
    | _ => rfl
  split_ifs with hsub hunsub hexit
  · rw [Program.wp_bind]
    refine (processSubscribe_paced h₁).mono fun es o ho => ?_
    cases o with
    | error e => exact ho
    | ok s => exact hprint (by simp) ho
  · rw [Program.wp_bind]
    refine (processUnsubscribe_paced h₁).mono fun es o ho => ?_
    cases o with
    | error e => exact ho
    | ok s => exact hprint (by simp) ho
  · exact exitBranch_paced h₁
  · exact hprint (by simp) h₁

/-- A line stops a subscriber at a fault only right behind its `read`. -/
theorem lineBranch_steady (h : Settled es) : (lineBranch sockfd s).wp screening es Steady := by
  refine (lineBranch_paced h).along.mono fun es' o ho => ?_
  obtain ⟨hpaced, evs, he, -, hes⟩ := ho
  cases o with
  | ok s => exact hpaced
  | error e =>
    refine ⟨hpaced, fun f hf => ?_⟩
    subst hf
    obtain ⟨block, rfl, hfit⟩ := lineBranch_fault he
    exact Or.inl ⟨es, block, hes, hfit⟩

/-- A message of a type up to 3 is displayed, unless its header is at fault. -/
theorem displayMessage_steady {m : List Byte} (h : Settled es) :
    (displayMessage (pad buflen m) (.decode (pad buflen m))).wp screening
      (es ++ [⟨.recv .getMessage sockfd buflen, some m⟩]) Steady := by
  have h₁ : Caught (es ++ [⟨.recv .getMessage sockfd buflen, some m⟩]) := h.receives rfl
  unfold displayMessage
  rw [decode_type]
  split_ifs with htype
  · rw [wp_mem]
    refine ⟨fun f hf => ⟨h₁, fun f' hf' => ?_⟩, fun r hr => ?_⟩
    · cases hf'
      exact Or.inr ⟨es, sockfd, m, rfl, htype, hf⟩
    obtain ⟨val, adr, udpPort⟩ := r
    show Program.wp _ (indeterminate buflen >>= _) _ _
    rw [wp_indeterminate]
    refine ⟨h₁, fun slack _ => ⟨h₁.silent ⟨rfl, rfl⟩, fun u _ => ?_⟩⟩
    have harrival : arrivals [⟨.recv .getMessage sockfd buflen, some m⟩] =
        [(Site.getMessage, m)] := List.filterMap_cons_some (if_pos ⟨htype, Or.inr rfl⟩)
    have hslack : arrivals [⟨.indeterminate buflen, slack⟩] = [] := rfl
    have hline : ∀ line u, arrivals [⟨.printf line, u⟩] = [] := fun _ _ => rfl
    show List.Forall₂ Exhibits (arrivals (es ++ [_] ++ [_] ++ [_]))
      (displays (es ++ [_] ++ [_] ++ [_]))
    rw [arrivals_append, arrivals_append, arrivals_append, harrival, hslack, hline,
      List.append_nil, List.append_nil, displays_append, displays_append, displays_append,
      List.append_assoc, List.append_assoc]
    refine List.rel_append h (.cons ⟨rfl, _, rfl, ?_, val, adr, udpPort, slack.bytes, hr, ?_⟩ .nil)
    · rwa [decode_type]
    · rw [decode_type]
  · exact h.silent (silent_of_type (UInt8.not_le.mp htype))

/-- What is received as a message is displayed, or its header is at fault. -/
theorem messageBranch_steady (h : Settled es) :
    (messageBranch sockfd s).wp screening es Steady := by
  unfold messageBranch
  rw [wp_recv]
  refine ⟨h.caught, fun ret _ => ?_⟩
  have h₁ : Caught (es ++ [⟨.recv .getMessage sockfd buflen, ret⟩]) := h.receives rfl
  rw [wp_dieCall]
  refine ⟨fun _ => .of_caught h₁ (by simp), fun hsome => ?_⟩
  obtain ⟨m, rfl⟩ : ∃ m, ret = some m := by
    cases ret with
    | none => cases hsome
    | some m => exact ⟨m, rfl⟩
  rw [Program.wp_bind]
  refine (displayMessage_steady h).mono fun es o ho => ?_
  cases o with
  | error e => exact ho
  | ok u =>
    have ho : Settled es := ho
    rw [Program.andThen_ok]
    unfold ackMessage
    rw [LawfulMonad.bind_assoc, wp_send]
    refine ⟨ho.caught, fun sent _ => ?_⟩
    have h₂ : Settled (es ++ [⟨.send .putAck sockfd _, sent⟩]) := ho.silent ⟨rfl, rfl⟩
    rw [LawfulMonad.bind_assoc, wp_dieCall]
    exact ⟨fun _ => .of_caught h₂.caught (by simp), fun _ => h₂⟩

theorem subscriberBody_steady {i : ℤ} (h : Settled es) :
    (subscriberBody sockfd s i).wp screening es Steady := by
  unfold subscriberBody
  split_ifs
  · rw [Program.wp_bind]
    refine (lineBranch_steady h).mono fun es o ho => ?_
    cases o with
    | error e => exact ho
    | ok s => exact ho
  · exact messageBranch_steady h
  · exact h

theorem subscriberStart_steady {id : List Byte} :
    (subscriberStart id sockfd).wp screening [] Steady := by
  unfold subscriberStart
  have h₀ : Settled [] := .nil
  rw [wp_indeterminate]
  refine ⟨h₀.caught, fun clsHdr _ => ?_⟩
  have h₁ : Settled ([] ++ [⟨.indeterminate clientHdrSize, clsHdr⟩]) := h₀.silent ⟨rfl, rfl⟩
  rw [wp_indeterminate]
  refine ⟨h₁.caught, fun sf _ => ?_⟩
  have h₂ : Settled ([] ++ [⟨.indeterminate clientHdrSize, clsHdr⟩] ++ [⟨.indeterminate 4, sf⟩]) :=
    h₁.silent ⟨rfl, rfl⟩
  unfold manageId
  rw [LawfulMonad.bind_assoc, wp_recv]
  refine ⟨h₂.caught, fun ret _ => ?_⟩
  rw [LawfulMonad.bind_assoc, wp_dieCall]
  refine ⟨fun _ => .of_caught (h₂.receives rfl) (by simp), fun _ => ?_⟩
  rw [LawfulMonad.bind_assoc]
  refine wp_answer h₂ (by decide) (fun es hc => .of_caught hc (by simp)) fun es h => ?_
  rw [LawfulMonad.bind_assoc, wp_indeterminate]
  refine ⟨h.caught, fun clSv _ => ?_⟩
  have h₃ : Settled (es ++ [⟨.indeterminate clientHdrSize, clSv⟩]) := h.silent ⟨rfl, rfl⟩
  rw [LawfulMonad.bind_assoc, wp_indeterminate]
  refine ⟨h₃.caught, fun idTail _ => ?_⟩
  have h₄ : Settled (es ++ [⟨.indeterminate clientHdrSize, clSv⟩] ++
      [⟨.indeterminate idLen, idTail⟩]) := h₃.silent ⟨rfl, rfl⟩
  rw [LawfulMonad.bind_assoc, wp_send]
  refine ⟨h₄.caught, fun sent _ => ?_⟩
  have h₅ : Settled (es ++ [⟨.indeterminate clientHdrSize, clSv⟩] ++
      [⟨.indeterminate idLen, idTail⟩] ++ [⟨.send .putIdReply sockfd _, sent⟩]) :=
    h₄.silent ⟨rfl, rfl⟩
  show Program.wp _ (dieCall (!sent) idRepErr >>= _) _ _
  rw [wp_dieCall]
  exact ⟨fun _ => .of_caught h₅.caught (by simp), fun _ => h₅⟩

end Bodies

/-! ## Runs -/

section Runs

variable {sockfd : ℤ} {id : List Byte} {g₀ g : Unit} {P : Protocol Sys Unit}
  {hs : List (Handled Sys SubscriberState)} {evs : List (Event Sys)}
  {p : Phase Sys Halt SubscriberState}

/-- In every phase a subscriber has shown what arrived, but for the last thing; between two rounds
it has shown everything. -/
theorem kept_of_tracks (h : Phase.Tracks (subscriber sockfd) P g₀ (subscriberStart id sockfd) g hs
    evs p) : Phase.Kept (fun es _ => Caught es) Settled StopsAt Caught evs p := by
  refine h.keeps subscriberStart_steady (fun _ h => subscriberBody_steady h) fun es s h => ?_
  show Program.wp _ (close sockfd) _ _
  exact ⟨h.caught, fun u _ => (h.silent ⟨rfl, rfl⟩).caught⟩

/-- What is left of a program keeps pace. -/
theorem caught_of_rest {α : Type} {rest : Proc α} {B : List (Event Sys) → Prop}
    (hB : ∀ es, B es → Caught es)
    (h : rest.wp screening evs (Program.post (fun es _ => B es) StopsAt)) : Caught evs := by
  cases rest with
  | ret a => exact hB _ h
  | stop e => exact h.1
  | call c k => exact h.1

theorem caught_of_kept (h : Phase.Kept (fun es _ => Caught es) Settled StopsAt Caught evs p) :
    Caught evs := by
  cases p with
  | starting rest => exact caught_of_rest (fun _ => Settled.caught) h
  | between pt => exact Settled.caught h
  | running s tmp i done rest => exact caught_of_rest (fun _ => Settled.caught) h
  | finishing rest => exact caught_of_rest (fun _ hc => hc) h
  | stopped e => exact h.1
  | finished => exact h

end Runs

end TopicServer
