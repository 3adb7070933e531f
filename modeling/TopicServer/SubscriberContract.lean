import TopicServer.Session
import TopicServer.Subscriber

/-!
# The subscriber's side of a connection

`dialogue` is the protocol of a subscriber: it answers the request for its ID, and then either
sends a command and takes the next message for its answer, or receives a message and acknowledges
it. An answer of another type ends the protocol (`none`), and with it the subscriber. Between two
bodies the subscriber is idle (`subscriberContract`).
-/

namespace TopicServer

open Interactive Memory

/-- Where a subscriber is on its connection: before the request for its ID, before its reply,
idle, waiting for the answer to a command, before the acknowledgement of a message, behind the
message of type 4, or behind the answer to `exit`. -/
inductive ClientView
  | boot
  | greeted
  | idle
  | waiting (exit : Bool) (command : List Byte)
  | reading (type : Byte)
  | left
  | gone
  deriving DecidableEq

/-- The ID reply of the client `id`. -/
structure IdReply (id m : List Byte) : Prop where
  length : m.length = clientHdrSize + idLen
  type : msgType m = 2
  id : replyId m = id

/-- A command, or the command `exit`. -/
structure Command (exit : Bool) (m : List Byte) : Prop where
  length : m.length = clientHdrSize
  type : if exit then msgType m = 3 else msgType m = 0 ∨ msgType m = 1

namespace ClientView

/-- What a subscriber with the ID `id` may call. -/
def Allowed (id : List Byte) (sockfd : ℤ) (v : ClientView) : Call → Prop
  | .recv .getIdRequest fd _ => v = .boot ∧ fd = sockfd
  | .send .putIdReply fd buf => v = .greeted ∧ fd = sockfd ∧ IdReply id buf
  | .send .putCommand fd buf => v = .idle ∧ fd = sockfd ∧ Command false buf
  | .send .putExit fd buf => v = .idle ∧ fd = sockfd ∧ Command true buf
  | .recv .getCommandAck fd _ => (∃ m, v = .waiting false m) ∧ fd = sockfd
  | .recv .getExitAck fd _ => (∃ m, v = .waiting true m) ∧ fd = sockfd
  | .recv .getMessage fd _ => v = .idle ∧ fd = sockfd
  | .send .putAck fd buf => (∃ type, v = .reading type) ∧ fd = sockfd ∧ msgType buf = 4
  | .close _ => v = .gone ∨ v = .left
  | .read .. => True
  | .printf _ => True
  | .indeterminate _ => True
  | _ => False

/-- What the subscriber relies on: its connection does not fail. -/
def Expected : (c : Call) → Answer c → Prop
  | .send .., r => r = true
  | .recv .., ret => ret.isSome
  | .read .., ret => ret.isSome
  | _, _ => True

/-- The view after a call. -/
def next (v : ClientView) : (c : Call) → Answer c → Option ClientView
  | .recv .getIdRequest _ _, ret => if replyType ret = 5 then some .greeted else none
  | .send .putIdReply _ _, _ => some .idle
  | .send .putCommand _ buf, _ => some (.waiting false buf)
  | .send .putExit _ buf, _ => some (.waiting true buf)
  | .recv .getCommandAck _ _, ret => if replyType ret = 6 then some .idle else none
  | .recv .getExitAck _ _, ret => if replyType ret = 6 then some .gone else none
  | .recv .getMessage _ _, ret => some (.reading (replyType ret))
  | .send .putAck _ _, _ => some (if v = .reading 4 then .left else .idle)
  | _, _ => some v

end ClientView

/-- The protocol of a subscriber; `none` is behind an answer of the wrong type. -/
def dialogue (id : List Byte) (sockfd : ℤ) : Protocol Sys (Option ClientView) where
  Allowed g c := ∃ v, g = some v ∧ v.Allowed id sockfd c
  Expected _ c r := ClientView.Expected c r
  next g c r := g.bind fun v => v.next c r

/-- Where a subscriber stops: at a message of the wrong type, at a fault, or after `exit`. -/
def SubscriberStop : Option ClientView → Halt → Prop
  | g, .dieType _ => g = none
  | _, .fault _ => True
  | g, .exited => g = some .gone
  | _, .dieCall _ => False

section Bodies

variable {id : List Byte} {sockfd : ℤ}

theorem mem_dialogue {α β : Type} {e : Except Fault α} {f : α → Proc β} {v : Option ClientView}
    {Q : Option ClientView → β → Prop}
    (h : ∀ a, e = .ok a → (f a).wp (dialogue id sockfd) v (Program.post Q SubscriberStop)) :
    (mem e >>= f).wp (dialogue id sockfd) v (Program.post Q SubscriberStop) :=
  wp_mem.mpr ⟨fun _ _ => trivial, h⟩

/-- A message that arrives is not an error. -/
theorem isNone_false {ret : Option (List Byte)} (h : ret.isSome) : ret.isNone = false := by
  cases ret with
  | none => cases h
  | some m => rfl

/-- The ID goes into the first bytes of the reply, cut to the length of the field. -/
theorem idReply_of_id {clSv : CharArray clientHdrSize} {idTail : CharArray idLen} (h0 : 0 ∉ id) :
    IdReply (id.take idLen)
      (2 :: clSv.bytes.drop 1 ++ (id ++ 0 :: idTail.bytes).take idLen) := by
  have hhdr : (2 :: clSv.bytes.drop 1).length = clientHdrSize := by
    rw [List.length_cons, List.length_drop, clSv.length_eq]
    rfl
  have htail : ((id ++ 0 :: idTail.bytes).take idLen).length = idLen := by
    rw [List.length_take, List.length_append, List.length_cons, idTail.length_eq]
    omega
  refine ⟨?_, rfl, ?_⟩
  · rw [List.length_append, hhdr, htail]
  · have hdrop : ((2 :: clSv.bytes.drop 1 ++ (id ++ 0 :: idTail.bytes).take idLen).drop
        clientHdrSize).take idLen = (id ++ 0 :: idTail.bytes).take idLen := by
      rw [List.drop_left' hhdr, List.take_take, min_self]
    rw [replyId, hdrop]
    show cstr (pad idLen _) = _
    rw [pad_of_length htail, cstr_take, cstr_append_zero h0]

theorem subscriberStart_wp (h0 : 0 ∉ id) :
    (subscriberStart id sockfd).wp (dialogue (id.take idLen) sockfd) (some .boot)
      (Program.post (fun g _ => g = some .idle) SubscriberStop) := by
  unfold subscriberStart
  rw [wp_indeterminate]
  refine ⟨⟨_, rfl, trivial⟩, fun clsHdr _ => ?_⟩
  rw [wp_indeterminate]
  refine ⟨⟨_, rfl, trivial⟩, fun sf _ => ?_⟩
  unfold manageId
  rw [LawfulMonad.bind_assoc, wp_recv]
  refine ⟨⟨_, rfl, rfl, rfl⟩, fun ret hret => ?_⟩
  rw [LawfulMonad.bind_assoc, wp_dieCall]
  refine ⟨fun h => absurd (h.symm.trans (isNone_false hret)) (by decide), fun _ => ?_⟩
  rw [LawfulMonad.bind_assoc, wp_dieType]
  refine ⟨fun h => ?_, fun h => ?_⟩
  · exact if_neg (bne_iff_ne.mp h)
  have h5 : replyType ret = 5 := by simpa [replyType] using h
  show Program.wp _ _ (if replyType ret = 5 then some ClientView.greeted else none) _
  rw [if_pos h5, LawfulMonad.bind_assoc, wp_indeterminate]
  refine ⟨⟨_, rfl, trivial⟩, fun clSv _ => ?_⟩
  rw [LawfulMonad.bind_assoc, wp_indeterminate]
  refine ⟨⟨_, rfl, trivial⟩, fun idTail _ => ?_⟩
  rw [LawfulMonad.bind_assoc, wp_send]
  refine ⟨⟨_, rfl, rfl, rfl, idReply_of_id h0⟩, fun sent hsent => ?_⟩
  obtain rfl : sent = true := hsent
  exact rfl

/-- A command and its answer. -/
theorem command_wp {β : Type} {v : Option ClientView} {m : List Byte} {f : Proc β}
    {Q : Option ClientView → β → Prop} (hv : v = some .idle) (hm : Command false m)
    (hf : f.wp (dialogue id sockfd) (some .idle) (Program.post Q SubscriberStop)) :
    (do
      let _ ← send .putCommand sockfd m
      let ret ← recv .getCommandAck sockfd (serverHdrSize + 1)
      dieType ((ret.getD []).getD 0 0 != 6) lackAck
      f : Proc β).wp (dialogue id sockfd) v (Program.post Q SubscriberStop) := by
  rw [wp_send]
  refine ⟨⟨_, hv, rfl, rfl, hm⟩, fun sent _ => ?_⟩
  subst hv
  rw [wp_recv]
  refine ⟨⟨_, rfl, ⟨m, rfl⟩, rfl⟩, fun ret _ => ?_⟩
  show Program.wp _ _ (if replyType ret = 6 then some ClientView.idle else none) _
  rw [wp_dieType]
  refine ⟨fun h => if_neg (bne_iff_ne.mp h), fun h => ?_⟩
  rw [if_pos (show replyType ret = 6 by simpa [replyType] using h)]
  exact hf

theorem command_encode {hdr : ClientToServerHdr} (h : hdr.type = 0 ∨ hdr.type = 1) :
    Command false hdr.encode where
  length := hdr.length_encode
  type := h

theorem processSubscribe_wp {buffer : List Byte} {command : CharArray commandLen}
    {s : SubscriberState} : (processSubscribe sockfd buffer command s).wp (dialogue id sockfd)
      (some .idle) (Program.post (fun g _ => g = some .idle) SubscriberStop) := by
  unfold processSubscribe
  exact mem_dialogue fun topic _ => command_wp rfl (command_encode (Or.inl rfl)) rfl

theorem processUnsubscribe_wp {buffer : List Byte} {command : CharArray commandLen}
    {s : SubscriberState} : (processUnsubscribe sockfd buffer command s).wp (dialogue id sockfd)
      (some .idle) (Program.post (fun g _ => g = some .idle) SubscriberStop) := by
  unfold processUnsubscribe
  exact mem_dialogue fun topic _ => command_wp rfl (command_encode (Or.inr rfl)) rfl

theorem exitBranch_wp {α : Type} {Q : Option ClientView → α → Prop} :
    (exitBranch sockfd : Proc α).wp (dialogue id sockfd) (some .idle)
      (Program.post Q SubscriberStop) := by
  unfold exitBranch
  rw [wp_indeterminate]
  refine ⟨⟨_, rfl, trivial⟩, fun clSv _ => ?_⟩
  have hcommand : Command true (3 :: clSv.bytes.drop 1) := by
    refine ⟨?_, rfl⟩
    rw [List.length_cons, List.length_drop, clSv.length_eq]
    rfl
  rw [wp_send]
  refine ⟨⟨_, rfl, rfl, rfl, hcommand⟩, fun sent hsent => ?_⟩
  obtain rfl : sent = true := hsent
  rw [wp_dieCall]
  refine ⟨fun h => absurd h (by decide), fun _ => ?_⟩
  rw [wp_recv]
  refine ⟨⟨_, rfl, ⟨_, rfl⟩, rfl⟩, fun ret hret => ?_⟩
  rw [wp_dieCall]
  refine ⟨fun h => absurd (h.symm.trans (isNone_false hret)) (by decide), fun _ => ?_⟩
  show Program.wp _ _ (if replyType ret = 6 then some ClientView.gone else none) _
  rw [wp_dieType]
  refine ⟨fun h => if_neg (bne_iff_ne.mp h), fun h => ?_⟩
  rw [if_pos (show replyType ret = 6 by simpa [replyType] using h), wp_close]
  exact ⟨⟨_, rfl, Or.inl rfl⟩, fun _ _ => rfl⟩

theorem lineBranch_wp {s : SubscriberState} : (lineBranch sockfd s).wp (dialogue id sockfd)
    (some .idle) (Program.post (fun g _ => g = some .idle) SubscriberStop) := by
  refine wp_lineBranch ⟨_, rfl, trivial⟩ fun ret hret => ⟨fun hnone => ?_, fun _ => trivial,
    fun buffer command => ?_⟩
  · rw [hnone] at hret
    cases hret
  split_ifs with hsub hunsub hexit
  · rw [Program.wp_bind]
    refine processSubscribe_wp.mono fun g o ho => ?_
    cases o with
    | error e => exact ho
    | ok s =>
      obtain rfl := ho
      exact ⟨⟨_, rfl, trivial⟩, fun _ _ => rfl⟩
  · rw [Program.wp_bind]
    refine processUnsubscribe_wp.mono fun g o ho => ?_
    cases o with
    | error e => exact ho
    | ok s =>
      obtain rfl := ho
      exact ⟨⟨_, rfl, trivial⟩, fun _ _ => rfl⟩
  · exact exitBranch_wp
  · exact ⟨⟨_, rfl, trivial⟩, fun _ _ => rfl⟩

theorem displayMessage_wp {buffer : List Byte} {svCl : ServerToClientHdr} {v : ClientView} :
    (displayMessage buffer svCl).wp (dialogue id sockfd) (some v)
      (Program.post (fun g _ => g = some v) SubscriberStop) := by
  unfold displayMessage
  split_ifs
  · refine mem_dialogue fun payload _ => ?_
    show Program.wp _ (indeterminate buflen >>= _) _ _
    rw [wp_indeterminate]
    refine ⟨⟨_, rfl, trivial⟩, fun slack _ => ?_⟩
    exact ⟨⟨_, rfl, trivial⟩, fun _ _ => rfl⟩
  · exact rfl

/-- A message is acknowledged; the one of type 4 is the last. -/
theorem messageBranch_wp {s : SubscriberState} : (messageBranch sockfd s).wp (dialogue id sockfd)
    (some .idle) (Program.post (fun g r => g = some (match r.2 with
      | .next => .idle
      | .leave => .left)) SubscriberStop) := by
  unfold messageBranch
  rw [wp_recv]
  refine ⟨⟨_, rfl, rfl, rfl⟩, fun ret hret => ?_⟩
  rw [wp_dieCall]
  refine ⟨fun h => absurd (h.symm.trans (isNone_false hret)) (by decide), fun _ => ?_⟩
  have htype : (ServerToClientHdr.decode (pad buflen (ret.getD []))).type = replyType ret := by
    unfold ServerToClientHdr.decode replyType
    cases ret.getD [] <;> rfl
  show Program.wp _ _ (some (ClientView.reading (replyType ret))) _
  simp only [htype]
  rw [Program.wp_bind]
  refine displayMessage_wp.mono fun g o ho => ?_
  cases o with
  | error e => exact ho
  | ok u =>
    obtain rfl := ho
    rw [Program.andThen_ok]
    unfold ackMessage
    rw [LawfulMonad.bind_assoc, wp_send]
    refine ⟨⟨_, rfl, ⟨_, rfl⟩, rfl, rfl⟩, fun sent hsent => ?_⟩
    obtain rfl : sent = true := hsent
    show Program.wp _ _ (some (if ClientView.reading (replyType ret) = .reading 4 then
      ClientView.left else .idle)) _
    by_cases h4 : replyType ret = 4
    · rw [if_pos (by rw [h4])]
      simp only [h4]
      exact rfl
    · rw [if_neg h4, if_neg (by simpa using h4)]
      exact rfl

end Bodies

/-- Between two bodies a subscriber is idle. -/
def SubscriberAt (g : Option ClientView) : Point SubscriberState → Prop
  | .left _ => g = some .left
  | _ => g = some .idle

/-- A subscriber keeps to the protocol of its connection. -/
def subscriberContract (id : List Byte) (sockfd : ℤ) :
    (subscriber sockfd).Contract (dialogue id sockfd) where
  At := SubscriberAt
  Stop := SubscriberStop
  select h _ _ := h
  skip h _ _ := h
  done h _ := h
  body := by
    intro g s tmp i hg _ _
    obtain rfl : g = some .idle := hg
    show Program.wp _ (subscriberBody sockfd s i) _ _
    unfold subscriberBody
    split_ifs
    · rw [Program.wp_bind]
      refine lineBranch_wp.mono fun g o ho => ?_
      cases o with
      | error e => exact ho
      | ok s => exact ho
    · refine messageBranch_wp.mono fun g o ho => ?_
      match o with
      | .error e => exact ho
      | .ok (s, .next) => exact ho
      | .ok (s, .leave) => exact ho
    · exact rfl
  finish h := ⟨⟨_, h, Or.inr rfl⟩, fun _ _ => trivial⟩

end TopicServer
