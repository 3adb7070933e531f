import TopicServer.Codec
import TopicServer.StoreForward

/-!
# What a frame carries besides the publication

A frame also holds memory that the server never wrote: the padding of its header, and what the copy
of the topic takes from behind a topic string shorter than the field. Two executions send the same
frame exactly when they find the same bytes there (`frame_public_iff`).
-/

namespace TopicServer

open Interactive Memory

/-- The memory that the round of a datagram reads without having written it. -/
structure Leftover where
  bytes : CharArray 4
  slack : CharArray stringLen
  padding : CharArray 3

/-- What the copy of the topic takes from behind the topic string and its NUL. -/
def Leftover.behindTopic (m : Leftover) (datagram : List Byte) : List Byte :=
  m.slack.bytes.take (stringLen - 1 - (cstr (pad maxLenBuf datagram)).length)

/-- The frame that is sent for a datagram. -/
def sentFrame (datagram : List Byte) (fromUdpStation : SockAddrIn) (m : Leftover) :
    Except Fault (List Byte) := do
  let (msg, buf) ← publication datagram fromUdpStation m.bytes m.slack m.padding
  .ok (frameOf msg buf)

/-- Two executions send the same frame. -/
def SameFrame (datagram : List Byte) (fromUdpStation : SockAddrIn) (m m' : Leftover) : Prop :=
  ∃ frame, sentFrame datagram fromUdpStation m = .ok frame ∧
    sentFrame datagram fromUdpStation m' = .ok frame

/-- The topic of a datagram behind which there are only zeros. -/
def publicTopic (datagram : List Byte) : CharArray stringLen :=
  .ofList stringLen (cstr (datagram.take stringLen))

/-! ## The topic field -/

section TopicField

variable {n : ℕ} {t s s' : List Byte}

/-- A field of `n` bytes copied from a string, its NUL and the memory behind it. -/
theorem take_behind_string (n : ℕ) (t s : List Byte) :
    (t ++ 0 :: s).take n = t.take n ++ if t.length < n then 0 :: s.take (n - 1 - t.length) else [] := by
  rw [List.take_append]
  split_ifs with h
  · obtain ⟨k, hk⟩ : ∃ k, n - t.length = k + 1 := ⟨n - t.length - 1, by omega⟩
    have hk' : n - 1 - t.length = k := by omega
    rw [hk, hk', List.take_succ_cons]
  · rw [Nat.sub_eq_zero_of_le (not_lt.mp h), List.take_zero]

theorem take_behind_string_inj :
    (t ++ 0 :: s).take n = (t ++ 0 :: s').take n ↔
      s.take (n - 1 - t.length) = s'.take (n - 1 - t.length) := by
  rw [take_behind_string, take_behind_string, List.append_cancel_left_eq]
  split_ifs with h
  · rw [List.cons.injEq, and_iff_right rfl]
  · have hzero : n - 1 - t.length = 0 := by omega
    rw [hzero, List.take_zero, List.take_zero]

/-- The field of a string behind which there are only zeros. -/
theorem pad_string (n : ℕ) (t : List Byte) :
    pad n (t.take n) = (t ++ 0 :: List.replicate n 0).take n := by
  rw [take_behind_string]
  split_ifs with h
  · rw [List.take_of_length_le h.le, pad_of_le h.le, List.take_replicate]
    have hk : n - t.length = (n - 1 - t.length) + 1 := by omega
    rw [hk, List.replicate_succ, Nat.min_eq_left (by omega)]
  · have hlen : (t.take n).length = n := List.length_take_of_le (not_lt.mp h)
    rw [pad_of_length hlen, List.append_nil]

end TopicField

/-! ## Two executions -/

section Frames

variable {datagram : List Byte} {fromUdpStation : SockAddrIn} {m m' : Leftover}

theorem sentFrame_relayed (h : Relayable datagram)
    (hfit : serverHdrSize + (relayedPayload (pad maxLenBuf datagram) datagram.length).length ≤
      maxLenBuf) :
    sentFrame datagram fromUdpStation m =
      .ok (relayedFrame h hfit fromUdpStation m.slack m.padding).bytes := by
  unfold sentFrame frameOf
  rw [publication_relayed h hfit]
  simp only [bind, Except.bind, take_relayed h hfit]

/-- Without a NUL in the buffer the topic string does not end. -/
theorem sentFrame_endless (h : 0 ∉ pad maxLenBuf datagram) :
    sentFrame datagram fromUdpStation m = .error .outOfBounds := by
  unfold sentFrame publication buildMsg
  rw [if_pos h]
  rfl

/-- The topic field is copied from the topic string and the memory behind it. -/
theorem relayedTopic_bytes (datagram : List Byte) (slack : CharArray stringLen) :
    (CharArray.ofList stringLen
      ((cstr (pad maxLenBuf datagram) ++ 0 :: slack.bytes).take stringLen)).bytes =
        (cstr (pad maxLenBuf datagram) ++ 0 :: slack.bytes).take stringLen := by
  refine pad_of_length ?_
  have hs := slack.length_eq
  rw [List.length_take, List.length_append, List.length_cons]
  omega

theorem relayedTopic_inj :
    CharArray.ofList stringLen
        ((cstr (pad maxLenBuf datagram) ++ 0 :: m.slack.bytes).take stringLen) =
      CharArray.ofList stringLen
        ((cstr (pad maxLenBuf datagram) ++ 0 :: m'.slack.bytes).take stringLen) ↔
      m.behindTopic datagram = m'.behindTopic datagram := by
  have hm := relayedTopic_bytes datagram m.slack
  have hm' := relayedTopic_bytes datagram m'.slack
  unfold Leftover.behindTopic
  rw [← take_behind_string_inj]
  constructor
  · intro he
    exact hm.symm.trans ((congrArg CharArray.bytes he).trans hm')
  · intro he
    exact CharArray.ext (hm.trans (he.trans hm'.symm))

/-- A frame depends on the memory by its padding and what is behind the topic string only. -/
theorem relayedFrame_inj (h : Relayable datagram)
    (hfit : serverHdrSize + (relayedPayload (pad maxLenBuf datagram) datagram.length).length ≤
      maxLenBuf) :
    (relayedFrame h hfit fromUdpStation m.slack m.padding).bytes =
        (relayedFrame h hfit fromUdpStation m'.slack m'.padding).bytes ↔
      m.padding = m'.padding ∧ m.behindTopic datagram = m'.behindTopic datagram := by
  rw [← relayedTopic_inj]
  constructor
  · intro he
    have hhdr := congrArg (fun b => ServerToClientHdr.decode b) he
    unfold Frame.bytes at hhdr
    simp only [ServerToClientHdr.decode_encode] at hhdr
    exact ⟨congrArg ServerToClientHdr.padding hhdr, congrArg ServerToClientHdr.topic hhdr⟩
  · rintro ⟨hpadding, htopic⟩
    have hhdr : relayedHdr (pad maxLenBuf datagram) datagram.length fromUdpStation m.slack m.padding =
        relayedHdr (pad maxLenBuf datagram) datagram.length fromUdpStation m'.slack m'.padding := by
      unfold relayedHdr
      rw [hpadding, htopic]
    exact congrArg (fun x => x.encode ++ relayedPayload (pad maxLenBuf datagram) datagram.length) hhdr

/-- Memory that holds zeros. -/
def zeroed : Leftover := ⟨.ofList 4 [], .ofList stringLen [], .ofList 3 []⟩

theorem behindTopic_zeroed (datagram : List Byte) :
    m.behindTopic datagram = zeroed.behindTopic datagram ↔ ∀ b ∈ m.behindTopic datagram, b = 0 := by
  have hzeros : zeroed.slack.bytes = List.replicate stringLen 0 := pad_of_le (Nat.zero_le _)
  unfold Leftover.behindTopic
  rw [hzeros, List.take_replicate, List.eq_replicate_iff, List.length_take, m.slack.length_eq,
    Nat.min_comm, and_iff_right rfl]

/-- With zeros in the memory the topic field is the topic and zeros. -/
theorem publicTopic_eq (hlen : datagram.length ≤ maxLenBuf) :
    CharArray.ofList stringLen
      ((cstr (pad maxLenBuf datagram) ++ 0 :: zeroed.slack.bytes).take stringLen) =
        publicTopic datagram := by
  have hzeros : zeroed.slack.bytes = List.replicate stringLen 0 := pad_of_le (Nat.zero_le _)
  refine CharArray.ext ?_
  rw [relayedTopic_bytes, hzeros, ← pad_string, cstr_pad hlen, ← cstr_take]
  rfl

variable (fromUdpStation) in
/-- Two executions send the same frame for a datagram exactly when its topic string ends in the
buffer and they find the same bytes in the padding of the header and behind the topic string. Its
topic field is the topic and zeros exactly when there are zeros behind the topic string. For no
datagram do all executions send the same frame. -/
theorem frame_public_iff (hlen : datagram.length ≤ maxLenBuf)
    (htype : (pad maxLenBuf datagram).getD stringLen 0 ≤ 3)
    (hfit : serverHdrSize + (relayedPayload (pad maxLenBuf datagram) datagram.length).length ≤
      maxLenBuf) :
    (∀ m m', SameFrame datagram fromUdpStation m m' ↔ 0 ∈ pad maxLenBuf datagram ∧
      m.padding = m'.padding ∧ m.behindTopic datagram = m'.behindTopic datagram) ∧
    (∀ m frame, sentFrame datagram fromUdpStation m = .ok frame →
      ((ServerToClientHdr.decode frame).topic = publicTopic datagram ↔
        ∀ b ∈ m.behindTopic datagram, b = 0)) ∧
    ¬ ∀ m m', SameFrame datagram fromUdpStation m m' := by
  have hsame : ∀ m m', SameFrame datagram fromUdpStation m m' ↔ 0 ∈ pad maxLenBuf datagram ∧
      m.padding = m'.padding ∧ m.behindTopic datagram = m'.behindTopic datagram := by
    intro m m'
    unfold SameFrame
    by_cases hnul : 0 ∈ pad maxLenBuf datagram
    · have h : Relayable datagram := ⟨hlen, htype, hnul⟩
      rw [and_iff_right hnul, ← relayedFrame_inj h hfit, sentFrame_relayed h hfit,
        sentFrame_relayed h hfit]
      constructor
      · rintro ⟨frame, hm, hm'⟩
        exact Except.ok.inj (hm.trans hm'.symm)
      · intro he
        exact ⟨_, rfl, congrArg Except.ok he.symm⟩
    · refine iff_of_false ?_ fun h => hnul h.1
      rintro ⟨frame, hm, -⟩
      rw [sentFrame_endless hnul] at hm
      cases hm
  refine ⟨hsame, fun m frame hframe => ?_, fun hall => ?_⟩
  · have hnul : 0 ∈ pad maxLenBuf datagram := by
      by_contra hno
      rw [sentFrame_endless hno] at hframe
      cases hframe
    rw [sentFrame_relayed ⟨hlen, htype, hnul⟩ hfit] at hframe
    cases hframe
    unfold Frame.bytes
    rw [ServerToClientHdr.decode_encode, ← behindTopic_zeroed, ← relayedTopic_inj,
      publicTopic_eq hlen]
    rfl
  · -- the padding alone distinguishes two executions
    have hpad := ((hsame zeroed { zeroed with padding := .ofList 3 [1] }).mp (hall _ _)).2.1
    exact absurd (congrArg CharArray.bytes hpad) (by decide)

end Frames

theorem frame_public_iff_short :
    SameFrame shortDatagram ⟨16777343, 36895⟩ zeroed { zeroed with bytes := .ofList 4 [1] } :=
  ((frame_public_iff ⟨16777343, 36895⟩ relayable_short.length_le relayable_short.type_le
    ((relayed_fits_iff relayable_short).mpr fun _ => by decide)).1 _ _).mpr
      ⟨relayable_short.ends, rfl, rfl⟩

/-- What stands behind the topic `a` in the heap is sent to the subscribers. -/
theorem frame_public_fails : ∃ frame frame',
    sentFrame shortDatagram ⟨16777343, 36895⟩ zeroed = .ok frame ∧
    sentFrame shortDatagram ⟨16777343, 36895⟩ { zeroed with slack := .ofList _ [115, 101, 99] } =
      .ok frame' ∧
    frame ≠ frame' ∧ (ServerToClientHdr.decode frame').topic ≠ publicTopic shortDatagram := by
  have hfit := (relayed_fits_iff relayable_short).mpr fun _ => by decide
  refine ⟨_, _, sentFrame_relayed relayable_short hfit, sentFrame_relayed relayable_short hfit,
    ?_, ?_⟩
  · rw [Ne, relayedFrame_inj]
    decide +kernel
  · unfold Frame.bytes
    rw [ServerToClientHdr.decode_encode]
    show CharArray.ofList stringLen ((cstr (pad maxLenBuf shortDatagram) ++ 0 ::
      (CharArray.ofList stringLen [115, 101, 99]).bytes).take stringLen) ≠ _
    decide +kernel

end TopicServer
