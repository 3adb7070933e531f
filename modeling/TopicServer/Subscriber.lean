import TopicServer.SubscriberUtil
import TopicServer.Lib.SelectLoop

/-!
# The subscriber

The program of `subscriber.c` behind its `connect`: the answer to the request for the ID
(`subscriberStart`), and the loop around the standard input and the connection (`subscriber`).
-/

namespace TopicServer

open Interactive Memory

/-- What is printed for a message of a type up to 3 with its payload at the start of `block`. -/
def shown (type : Byte) (block : List Byte) : Shown :=
  if type = 0 then .int (toInt (swap32 (load32 block)))
  else if type = 1 then .shortReal (swap16 (load16 block)).toNat
  else if type = 2 then
    .float (block.getD 0 0 ≠ 0) (swap32 (load32 (block.drop 1))).toNat
      (myPow (block.getD 5 0).toNat)
  else .string (cstr block)

/-- The switch over the type of a message: up to 3 it is printed; `slack` is the memory behind the
block with its payload. -/
def displayMessage (buffer : List Byte) (svCl : ServerToClientHdr) : Proc Unit :=
  if svCl.type ≤ 3 then do
    let (val, adr, udpPort) ← mem (extractServerToClientHeader buffer svCl)
    let slack ← indeterminate buflen
    let topic : CharArray (stringLen + 1) := .ofList _ svCl.topic.bytes
    printf (.display ⟨adr, udpPort, topic, val, shown svCl.type (val ++ slack.bytes)⟩)
  else pure ()

/-- Acknowledge a message. -/
def ackMessage (sockfd : ℤ) (s : SubscriberState) : Proc SubscriberState := do
  let clsHdr := { s.clsHdr with type := 4 }
  let ret ← send .putAck sockfd (clsHdr.encode ++ [0])
  dieCall (!ret) ackFail
  pure { s with clsHdr := clsHdr }

/-- A message from the server, and its acknowledgement. -/
def messageBranch (sockfd : ℤ) (s : SubscriberState) : Proc (SubscriberState × Flow) := do
  let ret ← recv .getMessage sockfd buflen
  dieCall ret.isNone subRecvErr
  let buffer := pad buflen (ret.getD [])
  let svCl := ServerToClientHdr.decode buffer
  displayMessage buffer svCl
  let s ← ackMessage sockfd s
  pure (s, if svCl.type = 4 then .leave else .next)

/-- The command `exit`. -/
def exitBranch {α : Type} (sockfd : ℤ) : Proc α := do
  -- of `cl_sv` only the type is set
  let clSv ← indeterminate clientHdrSize
  let ret ← send .putExit sockfd (3 :: clSv.bytes.drop 1)
  dieCall (!ret) discSig
  let ret ← recv .getExitAck sockfd buflen
  dieCall ret.isNone lackAck
  dieType ((ret.getD []).getD 0 0 != 6) lackAck
  close sockfd
  .stop .exited

/-- A line from the standard input. -/
def lineBranch (sockfd : ℤ) (s : SubscriberState) : Proc SubscriberState := do
  let (buffer, command) ← readFirstParameter
  if strncmp command.bytes subscribeWord subscribeWord.length = 0 then
    let s ← processSubscribe sockfd buffer command s
    printf .subSucc
    pure s
  else if strncmp command.bytes unsubscribeWord unsubscribeWord.length = 0 then
    let s ← processUnsubscribe sockfd buffer command s
    printf .unsubSucc
    pure s
  else if strncmp command.bytes exitWord exitWord.length = 0 then exitBranch sockfd
  else
    printf .wrongCom
    pure s

/-- The body of the loop for the ready descriptor `i`. -/
def subscriberBody (sockfd : ℤ) (s : SubscriberState) (i : ℤ) :
    Proc (SubscriberState × Flow) :=
  if i = 0 then do
    let s ← lineBranch sockfd s
    pure (s, .next)
  else if i = sockfd then messageBranch sockfd s
  else pure (s, .next)

/-- The subscriber's loop. The message of type 4 ends it: the connection is the last descriptor of
a round. -/
def subscriber (sockfd : ℤ) : SelectLoop Sys Halt SubscriberState where
  watched _ := {0, sockfd}
  bound _ := sockfd
  body := subscriberBody sockfd
  finish _ := close sockfd

/-- The program before the loop. -/
def subscriberStart (id : List Byte) (sockfd : ℤ) : Proc SubscriberState := do
  let clsHdr ← indeterminate clientHdrSize
  let sf ← indeterminate 4
  manageId id sockfd
  pure ⟨.decode clsHdr.bytes, toInt (load32 sf.bytes)⟩

/-! ## The calls of a message and of a line -/

section Calls

variable {sockfd : ℤ} {s : SubscriberState} {A : Call → Prop}

theorem displayMessage_calls {buffer : List Byte} {svCl : ServerToClientHdr}
    (hslack : A (.indeterminate buflen)) (hshow : ∀ line, A (.printf line)) :
    (displayMessage buffer svCl).Calls A := by
  unfold displayMessage
  split_ifs
  · exact calls_mem fun _ => calls_ask hslack fun slack => ⟨hshow _, fun _ => trivial⟩
  · trivial

theorem ackMessage_calls (hack : ∀ buf, A (.send .putAck sockfd buf)) :
    (ackMessage sockfd s).Calls A :=
  calls_ask (hack _) fun _ => calls_die trivial

theorem messageBranch_calls (hrecv : A (.recv .getMessage sockfd buflen))
    (hslack : A (.indeterminate buflen)) (hshow : ∀ line, A (.printf line))
    (hack : ∀ buf, A (.send .putAck sockfd buf)) : (messageBranch sockfd s).Calls A :=
  calls_ask hrecv fun _ => calls_die ((displayMessage_calls hslack hshow).bind fun _ =>
    (ackMessage_calls hack).bind fun _ => trivial)

/-- The calls behind the `read` of a line. -/
def LineCall : Call → Prop
  | .send site _ _ => site = .putCommand ∨ site = .putExit
  | .recv .getCommandAck _ len => len = serverHdrSize + 1
  | .recv .getExitAck _ len => len = buflen
  | .close _ => True
  | .printf _ => True
  | .indeterminate _ => True
  | _ => False

/-- A line is read by one `read`. -/
theorem lineBranch_calls : ∃ rest, lineBranch sockfd s = .call (.read 0 buflen) rest ∧
    ∀ ret, (rest ret).Calls LineCall := by
  have hcommand : ∀ (m : List Byte) (x : SubscriberState),
      (do
        let _ ← send .putCommand sockfd m
        let ret ← recv .getCommandAck sockfd (serverHdrSize + 1)
        dieType ((ret.getD []).getD 0 0 != 6) lackAck
        pure x : Proc SubscriberState).Calls LineCall :=
    fun m x => calls_ask (Or.inl rfl) fun _ => calls_ask rfl fun _ => calls_die trivial
  unfold lineBranch readFirstParameter
  rw [LawfulMonad.bind_assoc]
  refine ⟨_, rfl, fun ret => ?_⟩
  simp only [LawfulMonad.bind_assoc]
  refine calls_die (calls_mem fun _ => calls_mem fun command => ?_)
  show Program.Calls _ (if _ then _ else _)
  split_ifs
  · exact (calls_mem fun topic => hcommand _ _).bind fun _ => calls_ask trivial fun _ => trivial
  · exact (calls_mem fun topic => hcommand _ _).bind fun _ => calls_ask trivial fun _ => trivial
  · exact calls_ask trivial fun _ => calls_ask (Or.inr rfl) fun _ => calls_die
      (calls_ask rfl fun _ => calls_die (calls_die (calls_ask trivial fun _ => trivial)))
  · exact calls_ask trivial fun _ => trivial

end Calls

/-! ## The steps of a message -/

/-- What the branch of a message does: it receives one, displays it and acknowledges it, unless one
of these stops it. -/
theorem messageBranch_cases {sockfd : ℤ} {s : SubscriberState} {evs : List (Event Sys)}
    {o : Except Halt (SubscriberState × Flow)} (he : (messageBranch sockfd s).Exec evs o) :
    ∃ ret rest, evs = ⟨.recv .getMessage sockfd buflen, ret⟩ :: rest ∧
      (ret = none ∧ rest = [] ∧ o = .error (.dieCall subRecvErr) ∨
      ∃ m, ret = some m ∧
        ((∃ e, (displayMessage (pad buflen m) (.decode (pad buflen m))).Exec rest (.error e) ∧
          o = .error e) ∨
        ∃ es es', rest = es ++ es' ∧
          (displayMessage (pad buflen m) (.decode (pad buflen m))).Exec es (.ok ()) ∧
          ((∃ e, (ackMessage sockfd s).Exec es' (.error e) ∧ o = .error e) ∨
          ∃ s', (ackMessage sockfd s).Exec es' (.ok s') ∧ o = .ok (s',
            if (ServerToClientHdr.decode (pad buflen m)).type = 4 then .leave else .next)))) := by
  unfold messageBranch at he
  rw [exec_recv] at he
  obtain ⟨ret, rest, rfl, he⟩ := he
  refine ⟨ret, rest, rfl, ?_⟩
  rw [exec_dieCall] at he
  rcases he with ⟨hnone, rfl, rfl⟩ | ⟨hsome, he⟩
  · exact Or.inl ⟨Option.isNone_iff_eq_none.mp hnone, rfl, rfl⟩
  obtain ⟨m, rfl⟩ : ∃ m, ret = some m := by
    cases ret with
    | none => cases hsome
    | some m => exact ⟨m, rfl⟩
  refine Or.inr ⟨m, rfl, ?_⟩
  simp only [Option.getD_some] at he
  rw [Program.exec_bind] at he
  rcases he with ⟨e, hd, rfl⟩ | ⟨es, es', u, rfl, hd, he⟩
  · exact Or.inl ⟨e, hd, rfl⟩
  refine Or.inr ⟨es, es', rfl, hd, ?_⟩
  rw [Program.exec_bind] at he
  rcases he with ⟨e, ha, rfl⟩ | ⟨es₁, es₂, s', rfl, ha, rfl, rfl⟩
  · exact Or.inl ⟨e, ha, rfl⟩
  · rw [List.append_nil]
    exact Or.inr ⟨s', ha, rfl⟩

/-! ## The rule of a line -/

/-- A line is read, and it is one of the commands or no command. -/
theorem wp_lineBranch {γ : Type} {P : Protocol Sys γ} {g : γ} {sockfd : ℤ} {s : SubscriberState}
    {Q : γ → Except Halt SubscriberState → Prop} (hread : P.Allowed g (.read 0 buflen))
    (hline : ∀ ret, P.Expected g (.read 0 buflen) ret →
      (ret = none → Q (P.next g (.read 0 buflen) ret) (.error (.dieCall stdinErr))) ∧
      (∀ f, Q (P.next g (.read 0 buflen) ret) (.error (.fault f))) ∧
      ∀ buffer command, Program.wp P
        (if strncmp command.bytes subscribeWord subscribeWord.length = 0 then do
          let s ← processSubscribe sockfd buffer command s
          printf .subSucc
          pure s
        else if strncmp command.bytes unsubscribeWord unsubscribeWord.length = 0 then do
          let s ← processUnsubscribe sockfd buffer command s
          printf .unsubSucc
          pure s
        else if strncmp command.bytes exitWord exitWord.length = 0 then exitBranch sockfd
        else do
          printf .wrongCom
          pure s) (P.next g (.read 0 buflen) ret) Q) :
    (lineBranch sockfd s).wp P g Q := by
  unfold lineBranch readFirstParameter
  rw [LawfulMonad.bind_assoc, wp_read]
  refine ⟨hread, fun ret hret => ?_⟩
  obtain ⟨hnone, hfault, hcommand⟩ := hline ret hret
  rw [LawfulMonad.bind_assoc, wp_dieCall]
  refine ⟨fun h => hnone (Option.isNone_iff_eq_none.mp h), fun _ => ?_⟩
  rw [LawfulMonad.bind_assoc, wp_mem]
  refine ⟨fun f _ => hfault f, fun _ _ => ?_⟩
  rw [LawfulMonad.bind_assoc, wp_mem]
  exact ⟨fun f _ => hfault f, fun command _ => hcommand _ command⟩

end TopicServer
