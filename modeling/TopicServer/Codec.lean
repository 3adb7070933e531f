import TopicServer.Steps
import TopicServer.Framing

/-!
# The relay of one datagram

What the server makes of a datagram and the subscriber of the frame. A datagram of a known type
whose topic string ends in the buffer gives a `Frame` (`relayedFrame`), if it is not too long; the
header and the payload that the subscriber reads from it are those of the datagram
(`relay_roundTrip`). The values of the two numeric types with a sign are followed to the line that
is printed.
-/

namespace TopicServer

open Interactive Memory

/-! ## Strings in zeroed memory -/

theorem cstr_append_zeros (b : List Byte) (n : ℕ) : cstr (b ++ List.replicate n 0) = cstr b := by
  induction b with
  | nil => cases n <;> rfl
  | cons x b ih =>
    by_cases hx : x = 0
    · subst hx
      rw [List.cons_append, cstr_zero_cons, cstr_zero_cons]
    · rw [List.cons_append, cstr_cons hx, cstr_cons hx, ih]

theorem cstr_pad {n : ℕ} {b : List Byte} (h : b.length ≤ n) : cstr (pad n b) = cstr b := by
  rw [pad_of_le h, cstr_append_zeros]

/-! ## The message of a datagram -/

/-- The integer of an INT datagram in the buffer, with its sign. -/
def relayedInt (buf : List Byte) : UInt32 :=
  if buf.getD (stringLen + 1) 0 = 1 then -swap32 (load32 (buf.drop (stringLen + 2)))
  else swap32 (load32 (buf.drop (stringLen + 2)))

/-- The payload of the frame for a datagram of `n` bytes in the buffer. -/
def relayedPayload (buf : List Byte) (n : ℕ) : List Byte :=
  if buf.getD stringLen 0 = 0 then network32 (relayedInt buf)
  else if buf.getD stringLen 0 = 1 then (buf.drop (stringLen + 1)).take 2
  else if buf.getD stringLen 0 = 2 then (buf.drop (stringLen + 1)).take 6
  else (buf.drop (stringLen + 1)).take (n - stringLen - 1)

/-- The message for a datagram of `n` bytes in the buffer. -/
def relayedMessage (buf : List Byte) (n : ℕ) : Message where
  topic := cstr buf
  type := buf.getD stringLen 0
  bytes := (relayedPayload buf n).length
  data := some (relayedPayload buf n)

/-- A datagram that the server can receive, of a known type, whose topic string ends in the
buffer. -/
structure Relayable (datagram : List Byte) : Prop where
  length_le : datagram.length ≤ maxLenBuf
  type_le : (pad maxLenBuf datagram).getD stringLen 0 ≤ 3
  ends : 0 ∈ pad maxLenBuf datagram

section Message

variable {datagram : List Byte} {msg : Message}

theorem length_of_type_ne (hlen : datagram.length ≤ maxLenBuf)
    (h : (pad maxLenBuf datagram).getD stringLen 0 ≠ 0) : stringLen < datagram.length := by
  by_contra hle
  apply h
  rw [getD_pad hlen]
  exact List.getD_eq_default _ _ (not_lt.mp hle)

theorem length_relayedPayload (hlen : datagram.length ≤ maxLenBuf) :
    (relayedPayload (pad maxLenBuf datagram) datagram.length).length =
      if (pad maxLenBuf datagram).getD stringLen 0 = 0 then 4
      else if (pad maxLenBuf datagram).getD stringLen 0 = 1 then 2
      else if (pad maxLenBuf datagram).getD stringLen 0 = 2 then 6
      else datagram.length - stringLen - 1 := by
  have h50 : stringLen = 50 := rfl
  have hmax : maxLenBuf = 1551 := rfl
  unfold relayedPayload
  split_ifs
  · rfl
  all_goals
    rw [List.length_take, List.length_drop, length_pad]
    omega

theorem buildMsg_relayable (h : Relayable datagram) (msg : Message) :
    buildMsg (pad maxLenBuf datagram) msg datagram.length =
      .ok (relayedMessage (pad maxLenBuf datagram) datagram.length) := by
  have h50 : stringLen = 50 := rfl
  have hpay := length_relayedPayload h.length_le
  have hlong := length_of_type_ne h.length_le
  have hle := h.length_le
  have h10 : (1 : Byte) ≠ 0 := by decide
  have h20 : (2 : Byte) ≠ 0 := by decide
  have h21 : (2 : Byte) ≠ 1 := by decide
  have h30 : (3 : Byte) ≠ 0 := by decide
  have h31 : (3 : Byte) ≠ 1 := by decide
  have h32 : (3 : Byte) ≠ 2 := by decide
  unfold buildMsg relayedMessage
  rw [if_neg (not_not_intro h.ends)]
  rcases type_cases h.type_le with ht | ht | ht | ht
  · rw [ht, if_pos rfl] at hpay
    rw [hpay]
    simp only [ht, if_true, relayedPayload, relayedInt, store32_swap32]
    rfl
  · rw [ht, if_neg h10, if_pos rfl] at hpay
    rw [hpay]
    simp only [ht, relayedPayload, if_neg h10, if_true]
    rfl
  · rw [ht, if_neg h20, if_neg h21, if_pos rfl] at hpay
    rw [hpay]
    simp only [ht, relayedPayload, if_neg h20, if_neg h21, if_true]
    rfl
  · rw [ht] at hlong
    have hlong := hlong h30
    have hcast : (datagram.length : ℤ) - stringLen - 1 =
        ((datagram.length - stringLen - 1 : ℕ) : ℤ) := by omega
    have hin : ¬ (((datagram.length - stringLen - 1 : ℕ) : ℤ) < 0 ∨
        ((pad maxLenBuf datagram).length : ℤ) < datagram.length) := by
      rw [length_pad]
      omega
    rw [ht, if_neg h30, if_neg h31, if_neg h32] at hpay
    rw [hpay]
    simp only [ht, relayedPayload, if_neg h30, if_neg h31, if_neg h32, if_true, hcast,
      if_neg hin, Int.toNat_natCast]

end Message

/-! ## The frame of a message -/

/-- The header of the frame; `slack` is the memory behind the copy of the topic string. -/
def relayedHdr (buf : List Byte) (n : ℕ) (fromUdpStation : SockAddrIn) (slack : CharArray stringLen)
    (padding : CharArray 3) : ServerToClientHdr where
  type := buf.getD stringLen 0
  padding := padding
  udpIp := swap32 fromUdpStation.sAddr
  udpPort := fromUdpStation.sinPort
  topic := .ofList stringLen ((cstr buf ++ 0 :: slack.bytes).take stringLen)
  bytes := UInt32.ofNat (relayedPayload buf n).length

/-- The frame for a datagram. -/
def relayedFrame {datagram : List Byte} (h : Relayable datagram)
    (hfit : serverHdrSize + (relayedPayload (pad maxLenBuf datagram) datagram.length).length ≤
      maxLenBuf) (fromUdpStation : SockAddrIn) (slack : CharArray stringLen)
    (padding : CharArray 3) : Frame where
  hdr := relayedHdr (pad maxLenBuf datagram) datagram.length fromUdpStation slack padding
  payload := relayedPayload (pad maxLenBuf datagram) datagram.length
  size := by
    show (UInt32.ofNat _).toNat = _
    have hmax : maxLenBuf = 1551 := rfl
    rw [UInt32.toNat_ofNat']
    exact Nat.mod_eq_of_lt (by omega)
  shape := by
    show (pad maxLenBuf datagram).getD stringLen 0 = 0 ∧ _ ∨ _
    have hpay := length_relayedPayload h.length_le
    rcases type_cases h.type_le with ht | ht | ht | ht
    · exact Or.inl ⟨ht, by rw [hpay, ht]; rfl⟩
    · exact Or.inr (Or.inl ⟨ht, by rw [hpay, ht]; rfl⟩)
    · exact Or.inr (Or.inr (Or.inl ⟨ht, by rw [hpay, ht]; rfl⟩))
    · exact Or.inr (Or.inr (Or.inr ⟨ht, by omega⟩))

section Frame

variable {datagram : List Byte} {fromUdpStation : SockAddrIn} {bytes : CharArray 4}
  {slack : CharArray stringLen} {padding : CharArray 3}

theorem buildSentBuffer_relayed (h : Relayable datagram)
    (hfit : serverHdrSize + (relayedPayload (pad maxLenBuf datagram) datagram.length).length ≤
      maxLenBuf) :
    buildSentBuffer (relayedMessage (pad maxLenBuf datagram) datagram.length) fromUdpStation
      slack.bytes padding =
        .ok (pad maxLenBuf (relayedFrame h hfit fromUdpStation slack padding).bytes) := by
  have hmax : maxLenBuf = 1551 := rfl
  have hin : ¬ (((relayedPayload (pad maxLenBuf datagram) datagram.length).length : ℤ) < 0 ∨
      ((relayedPayload (pad maxLenBuf datagram) datagram.length).length : ℤ) <
        (relayedPayload (pad maxLenBuf datagram) datagram.length).length ∨
      (maxLenBuf : ℤ) < serverHdrSize +
        (relayedPayload (pad maxLenBuf datagram) datagram.length).length) := by
    omega
  have hbytes : ((relayedPayload (pad maxLenBuf datagram) datagram.length).length % 2 ^ 32 :
      ℤ).toNat = (relayedPayload (pad maxLenBuf datagram) datagram.length).length := by
    omega
  unfold buildSentBuffer
  simp only [relayedMessage, if_neg hin, hbytes, Int.toNat_natCast, List.take_length]
  rfl

/-- Too long a payload does not go into the buffer. -/
theorem buildSentBuffer_long
    (hfit : maxLenBuf <
      serverHdrSize + (relayedPayload (pad maxLenBuf datagram) datagram.length).length) :
    buildSentBuffer (relayedMessage (pad maxLenBuf datagram) datagram.length) fromUdpStation
      slack.bytes padding = .error .outOfBounds := by
  have hout : (maxLenBuf : ℤ) <
      serverHdrSize + (relayedPayload (pad maxLenBuf datagram) datagram.length).length := by
    exact_mod_cast hfit
  unfold buildSentBuffer relayedMessage
  exact if_pos (Or.inr (Or.inr hout))

theorem publication_relayed (h : Relayable datagram)
    (hfit : serverHdrSize + (relayedPayload (pad maxLenBuf datagram) datagram.length).length ≤
      maxLenBuf) :
    publication datagram fromUdpStation bytes slack padding =
      .ok (relayedMessage (pad maxLenBuf datagram) datagram.length,
        pad maxLenBuf (relayedFrame h hfit fromUdpStation slack padding).bytes) := by
  unfold publication
  rw [List.take_of_length_le h.length_le, buildMsg_relayable h]
  simp only [bind, Except.bind, buildSentBuffer_relayed h hfit]

/-- Only a frame that fits in the buffer is built. -/
theorem publication_fits {r : Message × List Byte} (hlen : datagram.length ≤ maxLenBuf)
    (htype : (pad maxLenBuf datagram).getD stringLen 0 ≤ 3)
    (hpub : publication datagram fromUdpStation bytes slack padding = .ok r) :
    Relayable datagram ∧ serverHdrSize +
      (relayedPayload (pad maxLenBuf datagram) datagram.length).length ≤ maxLenBuf := by
  obtain ⟨msg, hmsg, hbuf⟩ := bind_ok_iff.mp hpub
  have hnul : 0 ∈ pad maxLenBuf datagram := by
    by_contra hno
    rw [buildMsg, if_pos hno] at hmsg
    cases hmsg
  have h : Relayable datagram := ⟨hlen, htype, hnul⟩
  refine ⟨h, ?_⟩
  by_contra hlong
  rw [List.take_of_length_le hlen, buildMsg_relayable h] at hmsg
  cases hmsg
  rw [buildSentBuffer_long (not_le.mp hlong)] at hbuf
  cases hbuf

/-- What is sent of the buffer is the frame. -/
theorem take_relayed (h : Relayable datagram)
    (hfit : serverHdrSize + (relayedPayload (pad maxLenBuf datagram) datagram.length).length ≤
      maxLenBuf) :
    (pad maxLenBuf (relayedFrame h hfit fromUdpStation slack padding).bytes).take
      ((serverHdrSize : ℤ) + (relayedMessage (pad maxLenBuf datagram) datagram.length).bytes).toNat =
        (relayedFrame h hfit fromUdpStation slack padding).bytes := by
  have hlen := (relayedFrame h hfit fromUdpStation slack padding).length_bytes
  have hsize : ((serverHdrSize : ℤ) +
      (relayedMessage (pad maxLenBuf datagram) datagram.length).bytes).toNat =
        (relayedFrame h hfit fromUdpStation slack padding).bytes.length := by
    rw [hlen]
    exact Int.toNat_natCast (serverHdrSize + _)
  rw [hsize, pad_of_le (by rw [hlen]; exact hfit), List.take_left]

/-- The topic in the header reads as the first bytes of the datagram. -/
theorem str_relayedTopic (hlen : datagram.length ≤ maxLenBuf) (slack : CharArray stringLen) :
    (CharArray.ofList (stringLen + 1) (CharArray.ofList stringLen
      ((cstr (pad maxLenBuf datagram) ++ 0 :: slack.bytes).take stringLen)).bytes).str =
        cstr (datagram.take stringLen) := by
  have hfull : ((cstr (pad maxLenBuf datagram) ++ 0 :: slack.bytes).take stringLen).length =
      stringLen := by
    have hs := slack.length_eq
    rw [List.length_take, List.length_append, List.length_cons]
    omega
  have hinner : (CharArray.ofList stringLen
      ((cstr (pad maxLenBuf datagram) ++ 0 :: slack.bytes).take stringLen)).bytes =
        (cstr (pad maxLenBuf datagram) ++ 0 :: slack.bytes).take stringLen := pad_of_length hfull
  show cstr (pad (stringLen + 1) _) = _
  rw [hinner, cstr_pad (by omega), cstr_take, cstr_append_zero (zero_not_mem_cstr _), cstr_pad hlen,
    cstr_take]

end Frame

/-! ## The round trip -/

/-- The payload that a datagram asks for: behind the type, and for an INT its value with the sign,
wrapped to 32 bits. -/
def PayloadOf (datagram val : List Byte) : Prop :=
  ((pad maxLenBuf datagram).getD stringLen 0 = 0 → ∃ v, val = network32 v ∧
    toInt v = Int.bmod
      (if (pad maxLenBuf datagram).getD (stringLen + 1) 0 = 1
        then -bigEndian (((pad maxLenBuf datagram).drop (stringLen + 2)).take 4)
        else bigEndian (((pad maxLenBuf datagram).drop (stringLen + 2)).take 4)) (2 ^ 32)) ∧
  ((pad maxLenBuf datagram).getD stringLen 0 = 1 →
    val = ((pad maxLenBuf datagram).drop (stringLen + 1)).take 2) ∧
  ((pad maxLenBuf datagram).getD stringLen 0 = 2 →
    val = ((pad maxLenBuf datagram).drop (stringLen + 1)).take 6) ∧
  ((pad maxLenBuf datagram).getD stringLen 0 = 3 → val = datagram.drop (stringLen + 1))

section RoundTrip

variable {datagram : List Byte} {fromUdpStation : SockAddrIn} {bytes : CharArray 4}
  {slack : CharArray stringLen} {padding : CharArray 3}

/-- The magnitude of an INT datagram. -/
theorem toNat_swap32_drop {buf : List Byte} {k : ℕ} (h : k + 4 ≤ buf.length) :
    (swap32 (load32 (buf.drop k))).toNat = bigEndian ((buf.drop k).take 4) := by
  match hb : buf.drop k with
  | b₀ :: b₁ :: b₂ :: b₃ :: rest => exact toNat_swap32_load32 b₀ b₁ b₂ b₃ rest
  | [] | [_] | [_, _] | [_, _, _] =>
    have hlen := congrArg List.length hb
    simp only [List.length_drop, List.length_cons, List.length_nil] at hlen
    omega

theorem toInt_relayedInt (buf : List Byte) (h : buf.length = maxLenBuf) :
    toInt (relayedInt buf) = Int.bmod
      (if buf.getD (stringLen + 1) 0 = 1 then -bigEndian ((buf.drop (stringLen + 2)).take 4)
        else bigEndian ((buf.drop (stringLen + 2)).take 4)) (2 ^ 32) := by
  have hin : stringLen + 2 + 4 ≤ buf.length := by rw [h]; decide
  unfold relayedInt
  split_ifs
  · rw [toInt_neg, toNat_swap32_drop hin]
  · rw [toInt_eq_bmod, toNat_swap32_drop hin]

theorem payloadOf_relayed (hlen : datagram.length ≤ maxLenBuf) :
    PayloadOf datagram (relayedPayload (pad maxLenBuf datagram) datagram.length) := by
  unfold PayloadOf relayedPayload
  refine ⟨fun ht => ?_, fun ht => ?_, fun ht => ?_, fun ht => ?_⟩
  · rw [if_pos ht]
    exact ⟨_, rfl, toInt_relayedInt _ (length_pad _ _)⟩
  · rw [ht]
    rfl
  · rw [ht]
    rfl
  · have hlong := length_of_type_ne hlen (by rw [ht]; decide)
    have hdrop : (datagram.drop (stringLen + 1)).length = datagram.length - stringLen - 1 := by
      rw [List.length_drop, Nat.sub_sub]
    rw [ht]
    show ((pad maxLenBuf datagram).drop (stringLen + 1)).take (datagram.length - stringLen - 1) = _
    rw [pad_of_le hlen, List.drop_append_of_le_length hlong, List.take_left' hdrop]

variable (fromUdpStation bytes slack padding) in
/-- The subscriber reads from the frame for a datagram its type, the address and the port of its
sender, its topic and its payload. -/
theorem relay_roundTrip (hlen : datagram.length ≤ maxLenBuf)
    (htype : (pad maxLenBuf datagram).getD stringLen 0 ≤ 3) (hnul : 0 ∈ pad maxLenBuf datagram)
    (hfit : ∀ msg, buildMsg (pad maxLenBuf datagram) ⟨[], 0, toInt (load32 bytes.bytes), none⟩
      datagram.length = .ok msg → serverHdrSize + msg.bytes ≤ maxLenBuf) :
    ∃ msg buf, publication datagram fromUdpStation bytes slack padding = .ok (msg, buf) ∧
      ∃ buffer svCl val adr udpPort,
        buffer = pad buflen (buf.take ((serverHdrSize : ℤ) + msg.bytes).toNat) ∧
        svCl = ServerToClientHdr.decode buffer ∧
        extractServerToClientHeader buffer svCl = .ok (val, adr, udpPort) ∧
        svCl.type = (pad maxLenBuf datagram).getD stringLen 0 ∧ adr = fromUdpStation.sAddr ∧
        udpPort.toNat = bigEndian (store16 fromUdpStation.sinPort) ∧
        (CharArray.ofList (stringLen + 1) svCl.topic.bytes).str = cstr (datagram.take stringLen) ∧
        PayloadOf datagram val := by
  have h : Relayable datagram := ⟨hlen, htype, hnul⟩
  have hfit' : serverHdrSize +
      (relayedPayload (pad maxLenBuf datagram) datagram.length).length ≤ maxLenBuf :=
    Int.ofNat_le.mp (hfit _ (buildMsg_relayable h _))
  have hdecode : ServerToClientHdr.decode
      (pad buflen (relayedFrame h hfit' fromUdpStation slack padding).bytes) =
        relayedHdr (pad maxLenBuf datagram) datagram.length fromUdpStation slack padding :=
    decode_frame _
  have hextract := extract_frame (relayedFrame h hfit' fromUdpStation slack padding)
  refine ⟨_, _, publication_relayed h hfit', _, _,
    relayedPayload (pad maxLenBuf datagram) datagram.length, fromUdpStation.sAddr,
    swap16 fromUdpStation.sinPort, rfl, rfl, ?_⟩
  rw [take_relayed h hfit', hdecode]
  refine ⟨hextract.trans ?_, rfl, rfl, swap16_eq_bigEndian _, str_relayedTopic hlen slack,
    payloadOf_relayed hlen⟩
  show Except.ok (_, swap32 (swap32 fromUdpStation.sAddr), _) = _
  rw [swap32_swap32]
  rfl

/-- Only a long string makes a frame that does not fit. -/
theorem relayed_fits_iff (h : Relayable datagram) :
    serverHdrSize + (relayedPayload (pad maxLenBuf datagram) datagram.length).length ≤ maxLenBuf ↔
      ((pad maxLenBuf datagram).getD stringLen 0 = 3 → datagram.length ≤ 1538) := by
  have hmax : maxLenBuf = 1551 := rfl
  have hhdr : serverHdrSize = 64 := rfl
  have h50 : stringLen = 50 := rfl
  have hlong := length_of_type_ne h.length_le
  rw [length_relayedPayload h.length_le]
  rcases type_cases h.type_le with ht | ht | ht | ht
  · rw [ht]
    exact iff_of_true (show serverHdrSize + 4 ≤ maxLenBuf by decide)
      fun he => absurd he (by decide)
  · rw [ht]
    exact iff_of_true (show serverHdrSize + 2 ≤ maxLenBuf by decide)
      fun he => absurd he (by decide)
  · rw [ht]
    exact iff_of_true (show serverHdrSize + 6 ≤ maxLenBuf by decide)
      fun he => absurd he (by decide)
  · rw [ht] at hlong ⊢
    have hlong := hlong (by decide)
    show serverHdrSize + (datagram.length - stringLen - 1) ≤ maxLenBuf ↔ _
    constructor
    · intro hle _
      omega
    · intro hle
      have hle := hle rfl
      omega

/-- A short real number. -/
def shortDatagram : List Byte := 97 :: List.replicate 49 0 ++ [1, 1, 2]

theorem relayable_short : Relayable shortDatagram :=
  ⟨by decide, by decide +kernel, by decide +kernel⟩

theorem relay_roundTrip_short :
    ∃ msg buf, publication shortDatagram ⟨16777343, 36895⟩ (.ofList 4 []) (.ofList stringLen [])
      (.ofList 3 []) = .ok (msg, buf) ∧
      ∃ buffer svCl adr udpPort,
        buffer = pad buflen (buf.take ((serverHdrSize : ℤ) + msg.bytes).toNat) ∧
        svCl = ServerToClientHdr.decode buffer ∧
        extractServerToClientHeader buffer svCl = .ok ([1, 2], adr, udpPort) ∧
        adr = 16777343 ∧ udpPort.toNat = 8080 := by
  have hfit : ∀ msg, buildMsg (pad maxLenBuf shortDatagram)
      ⟨[], 0, toInt (load32 (CharArray.ofList 4 []).bytes), none⟩ shortDatagram.length = .ok msg →
        (serverHdrSize : ℤ) + msg.bytes ≤ maxLenBuf := by
    intro msg hmsg
    rw [buildMsg_relayable relayable_short] at hmsg
    cases hmsg
    exact Int.ofNat_le.mpr ((relayed_fits_iff relayable_short).mpr fun _ => by decide)
  obtain ⟨msg, buf, hpub, buffer, svCl, val, adr, udpPort, hbuffer, hsv, hex, -, hadr, hport, -, -,
    hval, -⟩ := relay_roundTrip ⟨16777343, 36895⟩ (.ofList 4 []) (.ofList stringLen [])
      (.ofList 3 []) relayable_short.length_le relayable_short.type_le relayable_short.ends hfit
  obtain rfl : val = [1, 2] := (hval (by decide +kernel)).trans (by decide +kernel)
  exact ⟨msg, buf, hpub, buffer, svCl, adr, udpPort, hbuffer, hsv, hex, hadr, hport⟩

/-! ## The size of the frame -/

/-- The frame for a datagram of a known type fits in the server's buffer exactly when the topic
string ends in the buffer, and a string is not longer than the buffer without the header. -/
theorem frame_fits_iff (hlen : datagram.length ≤ maxLenBuf)
    (htype : (pad maxLenBuf datagram).getD stringLen 0 ≤ 3) :
    (∃ msg, buildMsg (pad maxLenBuf datagram) ⟨[], 0, toInt (load32 bytes.bytes), none⟩
        datagram.length = .ok msg ∧ serverHdrSize + msg.bytes ≤ maxLenBuf ∧
        ∃ buf, buildSentBuffer msg fromUdpStation slack.bytes padding = .ok buf) ↔
      0 ∈ pad maxLenBuf datagram ∧
        ((pad maxLenBuf datagram).getD stringLen 0 = 3 → datagram.length ≤ 1538) := by
  constructor
  · rintro ⟨msg, hmsg, hle, -⟩
    have hnul : 0 ∈ pad maxLenBuf datagram := by
      by_contra hno
      unfold buildMsg at hmsg
      rw [if_pos hno] at hmsg
      cases hmsg
    have h : Relayable datagram := ⟨hlen, htype, hnul⟩
    rw [buildMsg_relayable h] at hmsg
    cases hmsg
    exact ⟨hnul, (relayed_fits_iff h).mp (Int.ofNat_le.mp hle)⟩
  · rintro ⟨hnul, hle⟩
    have h : Relayable datagram := ⟨hlen, htype, hnul⟩
    have hfit := (relayed_fits_iff h).mpr hle
    exact ⟨_, buildMsg_relayable h _, Int.ofNat_le.mpr hfit, _, buildSentBuffer_relayed h hfit⟩

theorem frame_fits_iff_short :
    ∃ msg, buildMsg (pad maxLenBuf shortDatagram)
        ⟨[], 0, toInt (load32 (CharArray.ofList 4 []).bytes), none⟩ shortDatagram.length = .ok msg ∧
      serverHdrSize + msg.bytes ≤ maxLenBuf ∧
      ∃ buf, buildSentBuffer msg ⟨16777343, 36895⟩ (CharArray.ofList stringLen []).bytes
        (.ofList 3 []) = .ok buf :=
  (frame_fits_iff relayable_short.length_le relayable_short.type_le).mpr
    ⟨relayable_short.ends, fun _ => by decide⟩

/-- A string of 1488 bytes. -/
def longDatagram : List Byte := 97 :: List.replicate 49 0 ++ 3 :: List.replicate 1488 98

/-- A string of 1488 bytes is received whole, and its frame is one byte longer than the buffer. -/
theorem frame_fits_fails :
    longDatagram ≠ [] ∧ longDatagram.length ≤ maxLenBuf ∧
    (pad maxLenBuf longDatagram).getD stringLen 0 ≤ 3 ∧
    ∃ msg, buildMsg (pad maxLenBuf longDatagram)
        ⟨[], 0, toInt (load32 (CharArray.ofList 4 []).bytes), none⟩ longDatagram.length = .ok msg ∧
      ¬ serverHdrSize + msg.bytes ≤ maxLenBuf ∧
      buildSentBuffer msg ⟨0, 0⟩ (CharArray.ofList stringLen []).bytes (.ofList 3 []) =
        .error .outOfBounds := by
  have h : Relayable longDatagram := ⟨by decide +kernel, by decide +kernel, by decide +kernel⟩
  have hlong : ¬ (serverHdrSize +
      (relayedPayload (pad maxLenBuf longDatagram) longDatagram.length).length ≤ maxLenBuf) := by
    rw [relayed_fits_iff h]
    decide +kernel
  exact ⟨by decide, h.length_le, h.type_le, _, buildMsg_relayable h _, fun hle =>
    hlong (Int.ofNat_le.mp hle), buildSentBuffer_long (not_le.mp hlong)⟩

end RoundTrip

end TopicServer
