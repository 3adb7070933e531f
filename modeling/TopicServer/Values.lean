import TopicServer.Codec

/-!
# Values

The numbers with a sign and the strings, from the datagram to the printed line. An integer is
relayed faithfully below `2 ^ 31` (`int_faithful_iff`): the server negates it as an `int`. A
fixed-point number keeps its magnitude unsigned, but its divisor is a power of ten in the
arithmetic of `int`, which is exact up to the ninth (`float_faithful_iff`). The block of a string
has no room for a NUL, so the payload has to bring one (`displaysString_iff`).
-/

namespace TopicServer

open Interactive Memory

/-! ## From a datagram to a line -/

/-- The message displayed for the frame of a datagram; `behind` is the memory behind the block
with its payload. -/
def relayed (datagram : List Byte) (fromUdpStation : SockAddrIn) (bytes : CharArray 4)
    (slack : CharArray stringLen) (padding : CharArray 3) (behind : List Byte) :
    Except Fault Display := do
  let (msg, buf) ← publication datagram fromUdpStation bytes slack padding
  let buffer := pad buflen (buf.take ((serverHdrSize : ℤ) + msg.bytes).toNat)
  let svCl := ServerToClientHdr.decode buffer
  let (val, adr, udpPort) ← extractServerToClientHeader buffer svCl
  .ok ⟨adr, udpPort, .ofList _ svCl.topic.bytes, val, shown svCl.type (val ++ behind)⟩

section Relayed

variable {datagram : List Byte} {fromUdpStation : SockAddrIn} {bytes : CharArray 4}
  {slack : CharArray stringLen} {padding : CharArray 3} {behind : List Byte} {d : Display}

variable (fromUdpStation bytes slack padding behind) in
theorem relayed_spec (h : Relayable datagram)
    (hfit : serverHdrSize + (relayedPayload (pad maxLenBuf datagram) datagram.length).length ≤
      maxLenBuf) :
    ∃ d, relayed datagram fromUdpStation bytes slack padding behind = .ok d ∧
      d.val = relayedPayload (pad maxLenBuf datagram) datagram.length ∧
      d.shown = shown ((pad maxLenBuf datagram).getD stringLen 0)
        (relayedPayload (pad maxLenBuf datagram) datagram.length ++ behind) := by
  have hdecode := decode_frame (relayedFrame h hfit fromUdpStation slack padding)
  have hextract := extract_frame (relayedFrame h hfit fromUdpStation slack padding)
  unfold relayed
  rw [publication_relayed h hfit]
  simp only [bind, Except.bind, take_relayed h hfit, hdecode, hextract]
  exact ⟨_, rfl, rfl, rfl⟩

/-- Only a frame that fits in the buffer is displayed. -/
theorem relayed_fits (hlen : datagram.length ≤ maxLenBuf)
    (htype : (pad maxLenBuf datagram).getD stringLen 0 ≤ 3)
    (hd : relayed datagram fromUdpStation bytes slack padding behind = .ok d) :
    Relayable datagram ∧ serverHdrSize +
      (relayedPayload (pad maxLenBuf datagram) datagram.length).length ≤ maxLenBuf := by
  obtain ⟨r, hpub, -⟩ := bind_ok_iff.mp hd
  exact publication_fits hlen htype hpub

/-- It is the message that the subscriber's loop displays for the frame. -/
theorem relayed_displayed {msg : Message} {buf : List Byte}
    (hpub : publication datagram fromUdpStation bytes slack padding = .ok (msg, buf))
    (htype : (ServerToClientHdr.decode
      (pad buflen (buf.take ((serverHdrSize : ℤ) + msg.bytes).toNat))).type ≤ 3)
    (hd : relayed datagram fromUdpStation bytes slack padding behind = .ok d) :
    Displayed (buf.take ((serverHdrSize : ℤ) + msg.bytes).toNat) d := by
  unfold relayed at hd
  rw [hpub] at hd
  simp only [bind, Except.bind] at hd
  split at hd
  · cases hd
  · rename_i r hex
    obtain ⟨val, adr, udpPort⟩ := r
    cases hd
    exact ⟨_, rfl, htype, val, adr, udpPort, behind, hex, rfl⟩

end Relayed

/-! ## Datagrams with a fixed payload -/

section Datagram

variable {topic : CharArray stringLen} {t : Byte} {tail : List Byte}

/-- A datagram in the zeroed buffer. -/
theorem pad_datagram (h : (topic.bytes ++ t :: tail).length ≤ maxLenBuf) :
    pad maxLenBuf (topic.bytes ++ t :: tail) = topic.bytes ++ t ::
      (tail ++ List.replicate (maxLenBuf - (topic.bytes ++ t :: tail).length) 0) := by
  rw [pad_of_le h, List.append_assoc, List.cons_append]

theorem getD_behind_topic (b : List Byte) (k : ℕ) :
    (topic.bytes ++ b).getD (stringLen + k) 0 = b.getD k 0 := by
  have hlen := topic.length_eq
  rw [List.getD_append_right _ _ _ _ (by omega), hlen, Nat.add_sub_cancel_left]

theorem drop_behind_topic (b : List Byte) (k : ℕ) :
    (topic.bytes ++ b).drop (stringLen + k) = b.drop k := by
  have hlen := topic.length_eq
  rw [List.drop_append, List.drop_of_length_le (by omega), List.nil_append, hlen,
    Nat.add_sub_cancel_left]

/-- A datagram that does not fill the buffer can be relayed. -/
theorem relayable_datagram (h : (topic.bytes ++ t :: tail).length < maxLenBuf) (ht : t ≤ 3) :
    Relayable (topic.bytes ++ t :: tail) where
  length_le := h.le
  type_le := by
    rw [pad_datagram h.le]
    exact (getD_behind_topic _ 0).trans_le ht
  ends := by
    rw [pad_of_le h.le, List.mem_append]
    exact Or.inr (List.mem_replicate.mpr ⟨by omega, rfl⟩)

end Datagram

/-! ## INT -/

/-- An INT datagram: the sign and the magnitude in network order. -/
def intDatagram (topic : CharArray stringLen) (s : Byte) (m : UInt32) : List Byte :=
  topic.bytes ++ 0 :: s :: network32 m

/-- The negation in `build_msg`, where it is carried out, has a result of type `int`. -/
def NegationFits (buf : List Byte) : Prop :=
  buf.getD (stringLen + 1) 0 = 1 → FitsInt (-toInt (swap32 (load32 (buf.drop (stringLen + 2)))))

section Int

variable (topic : CharArray stringLen) (s : Byte) (m : UInt32) (fromUdpStation : SockAddrIn)
  (bytes : CharArray 4) (slack : CharArray stringLen) (padding : CharArray 3) (behind : List Byte)

theorem relayable_int : Relayable (intDatagram topic s m) := by
  have hlen := topic.length_eq
  refine relayable_datagram ?_ (by decide)
  rw [List.length_append, hlen]
  exact (by decide : stringLen + 6 < maxLenBuf)

/-- Where the sign and the magnitude stand in the buffer. -/
theorem int_fields : (pad maxLenBuf (intDatagram topic s m)).getD stringLen 0 = 0 ∧
    (pad maxLenBuf (intDatagram topic s m)).getD (stringLen + 1) 0 = s ∧
    swap32 (load32 ((pad maxLenBuf (intDatagram topic s m)).drop (stringLen + 2))) = m := by
  have hpad := pad_datagram (relayable_int topic s m).length_le
  unfold intDatagram at hpad ⊢
  rw [hpad]
  refine ⟨getD_behind_topic _ 0, getD_behind_topic _ 1, ?_⟩
  rw [drop_behind_topic]
  exact swap32_load32_network32 m _

/-- An integer is displayed as the value that its bits have after the sign was applied. -/
theorem relayed_int : ∃ d, relayed (intDatagram topic s m) fromUdpStation bytes slack padding
    behind = .ok d ∧ d.shown = .int (toInt (if s = 1 then -m else m)) := by
  obtain ⟨htype, hsign, hm⟩ := int_fields topic s m
  have hfit := (relayed_fits_iff (relayable_int topic s m)).mpr
    fun he => absurd (htype.symm.trans he) (by decide)
  obtain ⟨d, hd, -, hshown⟩ := relayed_spec fromUdpStation bytes slack padding behind
    (relayable_int topic s m) hfit
  refine ⟨d, hd, hshown.trans ?_⟩
  rw [htype, relayedPayload, if_pos htype, relayedInt, hsign, hm]
  show Shown.int (toInt (swap32 (load32 (network32 _ ++ behind)))) = _
  rw [swap32_load32_network32]

/-- An integer with a sign of 0 or 1 is displayed as it was sent, with no overflow, exactly when
its magnitude is an `int`. -/
theorem int_faithful_iff (hs : s = 0 ∨ s = 1) :
    ((∃ d, relayed (intDatagram topic s m) fromUdpStation bytes slack padding behind = .ok d ∧
      d.shown = .int (if s = 0 then m.toNat else -m.toNat)) ∧
      NegationFits (pad maxLenBuf (intDatagram topic s m))) ↔ m.toNat < 2 ^ 31 := by
  obtain ⟨-, hsign, hm⟩ := int_fields topic s m
  obtain ⟨d, hd, hshown⟩ := relayed_int topic s m fromUdpStation bytes slack padding behind
  have hlt := m.toNat_lt
  have hvalue : (∃ d, relayed (intDatagram topic s m) fromUdpStation bytes slack padding behind =
      .ok d ∧ d.shown = .int (if s = 0 then m.toNat else -m.toNat)) ↔
        toInt (if s = 1 then -m else m) = if s = 0 then (m.toNat : ℤ) else -m.toNat := by
    constructor
    · rintro ⟨d', hd', hshown'⟩
      obtain rfl := Except.ok.inj (hd.symm.trans hd')
      exact Shown.int.inj (hshown.symm.trans hshown')
    · intro he
      exact ⟨d, hd, by rw [hshown, he]⟩
  rw [hvalue, NegationFits, hsign, hm]
  rcases hs with rfl | rfl
  · rw [if_neg (by decide), if_pos rfl, toInt_eq_bmod, bmod_eq_iff_fitsInt]
    unfold FitsInt
    constructor
    · rintro ⟨⟨-, hle⟩, -⟩
      omega
    · intro hle
      exact ⟨⟨by omega, by omega⟩, fun he => absurd he (by decide)⟩
  · rw [if_pos rfl, if_neg (by decide), toInt_neg, bmod_eq_iff_fitsInt]
    constructor
    · rintro ⟨⟨hge, -⟩, hneg⟩
      have hneg := hneg rfl
      unfold FitsInt at hneg
      unfold toInt at hneg
      -- the smallest `int` is relayed, but its negation overflows on the way
      split_ifs at hneg with hsmall
      · exact hsmall
      · omega
    · intro hle
      refine ⟨⟨by omega, by omega⟩, fun _ => ?_⟩
      unfold FitsInt toInt
      rw [if_pos hle]
      omega

theorem int_faithful_iff_small :
    ∃ d, relayed (intDatagram (.ofList stringLen [97]) 1 2147483647) ⟨16777343, 36895⟩
      (.ofList 4 []) (.ofList stringLen []) (.ofList 3 []) [] = .ok d ∧
      d.shown = .int (-2147483647) :=
  ((int_faithful_iff _ _ _ _ _ _ _ _ (Or.inr rfl)).mpr (by decide)).1

/-- A magnitude of `2 ^ 31` without sign is displayed as a negative number. -/
theorem int_faithful_fails :
    ¬ ∃ d, relayed (intDatagram (.ofList stringLen [97]) 0 2147483648) ⟨16777343, 36895⟩
      (.ofList 4 []) (.ofList stringLen []) (.ofList 3 []) [] = .ok d ∧
      d.shown = .int 2147483648 := by
  rintro ⟨d, hd, hshown⟩
  obtain ⟨d', hd', hshown'⟩ := relayed_int (.ofList stringLen [97]) 0 2147483648
    ⟨16777343, 36895⟩ (.ofList 4 []) (.ofList stringLen []) (.ofList 3 []) []
  obtain rfl := Except.ok.inj (hd.symm.trans hd')
  rw [hshown] at hshown'
  exact absurd (Shown.int.inj hshown') (by decide)

end Int

/-! ## FLOAT -/

/-- A FLOAT datagram: the sign, the magnitude in network order and the power of ten below it. -/
def floatDatagram (topic : CharArray stringLen) (s : Byte) (m : UInt32) (p : Byte) : List Byte :=
  topic.bytes ++ 2 :: s :: (network32 m ++ [p])

/-- Every multiplication of `my_pow` has a result of type `int`. -/
def PowFits (power : ℕ) : Prop := ∀ i < power, FitsInt (myPow i * 10)

/-- The value of a line for a FLOAT. -/
def floatValue (negative : Bool) (mantissa : ℕ) (divisor : ℤ) : ℚ :=
  if negative then -(mantissa / divisor) else mantissa / divisor

theorem myPow_eq {n : ℕ} (h : n ≤ 9) : myPow n = 10 ^ n := by
  induction n with
  | zero => rfl
  | succ n ih =>
    have hpow : (10 : ℤ) ^ (n + 1) ≤ 10 ^ 9 := pow_le_pow_right₀ (by decide) h
    have hpos : (0 : ℤ) < 10 ^ (n + 1) := by positivity
    rw [myPow, ih (by omega), ← pow_succ, bmod_eq_iff_fitsInt]
    unfold FitsInt
    omega

theorem powFits_iff {n : ℕ} : PowFits n ↔ n ≤ 9 := by
  constructor
  · intro h
    by_contra hn
    -- the tenth multiplication is the first that overflows
    have hten := h 9 (by omega)
    rw [myPow_eq le_rfl] at hten
    exact absurd hten (by decide)
  · intro hn i hi
    have hpow : (10 : ℤ) ^ (i + 1) ≤ 10 ^ 9 := pow_le_pow_right₀ (by decide) (by omega)
    have hpos : (0 : ℤ) < 10 ^ (i + 1) := by positivity
    rw [myPow_eq (by omega), ← pow_succ]
    unfold FitsInt
    omega

/-- `my_pow` is a power of ten up to the ninth only. -/
theorem myPow_eq_iff {n : ℕ} : myPow n = 10 ^ n ↔ n ≤ 9 := by
  refine ⟨fun h => ?_, myPow_eq⟩
  by_contra hn
  obtain ⟨k, rfl⟩ : ∃ k, n = k + 1 := ⟨n - 1, by omega⟩
  have hle := (fitsInt_bmod (myPow k * 10)).2
  have hpow : (10 : ℤ) ^ 10 ≤ 10 ^ (k + 1) := pow_le_pow_right₀ (by decide) (by omega)
  rw [myPow] at h
  omega

section Float

variable (topic : CharArray stringLen) (s : Byte) (m : UInt32) (p : Byte)
  (fromUdpStation : SockAddrIn) (bytes : CharArray 4) (slack : CharArray stringLen)
  (padding : CharArray 3) (behind : List Byte)

theorem relayable_float : Relayable (floatDatagram topic s m p) := by
  have hlen := topic.length_eq
  refine relayable_datagram ?_ (by decide)
  rw [List.length_append, hlen]
  exact (by decide : stringLen + 7 < maxLenBuf)

/-- The type and the payload stand in the buffer. -/
theorem float_fields : (pad maxLenBuf (floatDatagram topic s m p)).getD stringLen 0 = 2 ∧
    ((pad maxLenBuf (floatDatagram topic s m p)).drop (stringLen + 1)).take 6 =
      s :: (network32 m ++ [p]) := by
  have hpad := pad_datagram (relayable_float topic s m p).length_le
  unfold floatDatagram at hpad ⊢
  rw [hpad]
  refine ⟨getD_behind_topic _ 0, ?_⟩
  rw [drop_behind_topic]
  rfl

/-- A fixed-point number is displayed with its sign, its magnitude and the divisor of its power. -/
theorem relayed_float : ∃ d, relayed (floatDatagram topic s m p) fromUdpStation bytes slack padding
    behind = .ok d ∧ d.shown = .float (s ≠ 0) m.toNat (myPow p.toNat) := by
  obtain ⟨htype, hpay⟩ := float_fields topic s m p
  have hfit := (relayed_fits_iff (relayable_float topic s m p)).mpr
    fun he => absurd (htype.symm.trans he) (by decide)
  obtain ⟨d, hd, -, hshown⟩ := relayed_spec fromUdpStation bytes slack padding behind
    (relayable_float topic s m p) hfit
  refine ⟨d, hd, hshown.trans ?_⟩
  rw [htype, relayedPayload, if_neg (by rw [htype]; decide), if_neg (by rw [htype]; decide),
    if_pos htype, hpay]
  show Shown.float (s ≠ 0) (swap32 (load32 (network32 m ++ ([p] ++ behind)))).toNat
    (myPow p.toNat) = _
  rw [swap32_load32_network32]

/-- A fixed-point number is displayed as it was sent, with a divisor that is its power of ten
computed without overflow, exactly when that power is at most the ninth. -/
theorem float_faithful_iff :
    (∃ d negative mantissa divisor,
      relayed (floatDatagram topic s m p) fromUdpStation bytes slack padding behind = .ok d ∧
      d.shown = .float negative mantissa divisor ∧ divisor = myPow p.toNat ∧
      divisor = 10 ^ p.toNat ∧ PowFits p.toNat ∧ divisor ≠ 0 ∧
      floatValue negative mantissa divisor =
        if s ≠ 0 then -((m.toNat : ℚ) / 10 ^ p.toNat) else (m.toNat : ℚ) / 10 ^ p.toNat) ↔
      p.toNat ≤ 9 := by
  constructor
  · rintro ⟨d, negative, mantissa, divisor, -, -, rfl, hpow, -⟩
    exact myPow_eq_iff.mp hpow
  · intro hp
    obtain ⟨d, hd, hshown⟩ := relayed_float topic s m p fromUdpStation bytes slack padding behind
    have hpow := myPow_eq hp
    refine ⟨d, _, _, _, hd, hshown, rfl, hpow, powFits_iff.mpr hp, ?_, ?_⟩
    · rw [hpow]
      positivity
    · unfold floatValue
      rw [hpow]
      push_cast
      simp only [decide_eq_true_eq]

/-- From the tenth power on the divisor is another number. -/
theorem float_faithful_fails :
    ¬ ∃ d negative mantissa divisor,
      relayed (floatDatagram (.ofList stringLen [97]) 0 1 10) ⟨16777343, 36895⟩ (.ofList 4 [])
        (.ofList stringLen []) (.ofList 3 []) [] = .ok d ∧
      d.shown = .float negative mantissa divisor ∧ divisor = 10 ^ 10 := by
  rintro ⟨d, negative, mantissa, divisor, hd, hshown, hpow⟩
  obtain ⟨d', hd', hshown'⟩ := relayed_float (.ofList stringLen [97]) 0 1 10
    ⟨16777343, 36895⟩ (.ofList 4 []) (.ofList stringLen []) (.ofList 3 []) []
  obtain rfl := Except.ok.inj (hd.symm.trans hd')
  obtain ⟨-, -, hdiv⟩ := (Shown.float.injEq ..).mp (hshown.symm.trans hshown')
  rw [hdiv] at hpow
  exact absurd (myPow_eq_iff.mp hpow) (by decide)

end Float

/-! ## STRING -/

/-- A STRING datagram. -/
def stringDatagram (topic : CharArray stringLen) (payload : List Byte) : List Byte :=
  topic.bytes ++ 3 :: payload

section String

variable (topic : CharArray stringLen) (payload : List Byte) (fromUdpStation : SockAddrIn)
  (bytes : CharArray 4) (slack : CharArray stringLen) (padding : CharArray 3) (behind : List Byte)

/-- The string displayed for a payload ends in the block with the payload, and is what the payload
has before its first NUL. -/
def DisplaysString : Prop :=
  ∃ d, relayed (stringDatagram topic payload) fromUdpStation bytes slack padding behind = .ok d ∧
    0 ∈ d.val ∧ d.shown = .string (cstr payload)

variable {payload}

theorem length_stringDatagram (payload : List Byte) :
    (stringDatagram topic payload).length = 51 + payload.length := by
  have hlen := topic.length_eq
  have h50 : stringLen = 50 := rfl
  rw [stringDatagram, List.length_append, List.length_cons]
  omega

/-- The type and the payload of a string in the buffer. -/
theorem string_fields (hlen : payload.length ≤ 1500) :
    (stringDatagram topic payload).length ≤ maxLenBuf ∧
    (pad maxLenBuf (stringDatagram topic payload)).getD stringLen 0 = 3 ∧
    relayedPayload (pad maxLenBuf (stringDatagram topic payload))
      (stringDatagram topic payload).length = payload := by
  have hmax : maxLenBuf = 1551 := rfl
  have h50 : stringLen = 50 := rfl
  have hle : (stringDatagram topic payload).length ≤ maxLenBuf := by
    rw [length_stringDatagram]
    omega
  have htype : (pad maxLenBuf (stringDatagram topic payload)).getD stringLen 0 = 3 := by
    rw [getD_pad hle]
    exact getD_behind_topic (3 :: payload) 0
  refine ⟨hle, htype, ?_⟩
  rw [(payloadOf_relayed hle).2.2.2 htype]
  exact drop_behind_topic (3 :: payload) 1

/-- A string is displayed exactly, whatever memory is behind its block, when its payload has a NUL
and its frame fits in the buffer. -/
theorem displaysString_iff (hlen : payload.length ≤ 1500) :
    DisplaysString topic payload fromUdpStation bytes slack padding behind ↔
      0 ∈ payload ∧ payload.length ≤ 1487 := by
  obtain ⟨hle, htype, hpay⟩ := string_fields topic hlen
  have hlong := length_stringDatagram topic payload
  have htype3 : (pad maxLenBuf (stringDatagram topic payload)).getD stringLen 0 ≤ 3 := by
    rw [htype]
    decide
  constructor
  · rintro ⟨d, hd, hnul, -⟩
    obtain ⟨h, hfit⟩ := relayed_fits hle htype3 hd
    obtain ⟨d', hd', hval, -⟩ := relayed_spec fromUdpStation bytes slack padding behind h hfit
    obtain rfl := Except.ok.inj (hd.symm.trans hd')
    rw [hval, hpay] at hnul
    have hshort := (relayed_fits_iff h).mp hfit htype
    exact ⟨hnul, by omega⟩
  · rintro ⟨hnul, hshort⟩
    have hends : (0 : Byte) ∈ pad maxLenBuf (stringDatagram topic payload) := by
      rw [pad_of_le hle, List.mem_append, stringDatagram, List.mem_append, List.mem_cons]
      exact Or.inl (Or.inr (Or.inr hnul))
    have h : Relayable (stringDatagram topic payload) := ⟨hle, htype3, hends⟩
    have hfit := (relayed_fits_iff h).mpr fun _ => by omega
    obtain ⟨d, hd, hval, hshown⟩ := relayed_spec fromUdpStation bytes slack padding behind h hfit
    rw [hpay] at hval hshown
    refine ⟨d, hd, hval ▸ hnul, ?_⟩
    rw [hshown, htype]
    show Shown.string (cstr (payload ++ behind)) = _
    rw [cstr_append_of_mem hnul]

theorem displaysString_iff_ended :
    DisplaysString (.ofList stringLen [97]) [104, 105, 0] ⟨16777343, 36895⟩ (.ofList 4 [])
      (.ofList stringLen []) (.ofList 3 []) [120, 0] :=
  (displaysString_iff _ _ _ _ _ _ (by decide)).mpr (by decide)

/-- The line for the payload `hi` goes on with the memory behind its block. -/
theorem displaysString_fails :
    ¬ DisplaysString (.ofList stringLen [97]) [104, 105] ⟨16777343, 36895⟩ (.ofList 4 [])
      (.ofList stringLen []) (.ofList 3 []) [120, 0] := fun h =>
  absurd ((displaysString_iff _ _ _ _ _ _ (by decide)).mp h).1 (by decide)

end String

end TopicServer
