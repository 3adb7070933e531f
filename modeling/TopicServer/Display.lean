import TopicServer.Codec

/-!
# What the line for a datagram shows

The subscriber prints the payload that it finds in a block of its size. For a relayed datagram that
is the value of the datagram (`shows_of_payload`), and printing it stays in the block, but for a
string that brings no NUL (`Display.Of.unended`).
-/

namespace TopicServer

open Interactive Memory

/-- The value of a datagram as it is printed: an INT with its sign, wrapped to 32 bits; hundredths;
a magnitude with its sign and the divisor for its power; a string up to its NUL, or, if it has none,
with what lies behind its block. -/
def ShowsValue (datagram : List Byte) (v : Shown) : Prop :=
  ((pad maxLenBuf datagram).getD stringLen 0 = 0 → v = .int (Int.bmod
    (if (pad maxLenBuf datagram).getD (stringLen + 1) 0 = 1
      then -bigEndian (((pad maxLenBuf datagram).drop (stringLen + 2)).take 4)
      else bigEndian (((pad maxLenBuf datagram).drop (stringLen + 2)).take 4)) (2 ^ 32))) ∧
  ((pad maxLenBuf datagram).getD stringLen 0 = 1 →
    v = .shortReal (bigEndian (((pad maxLenBuf datagram).drop (stringLen + 1)).take 2))) ∧
  ((pad maxLenBuf datagram).getD stringLen 0 = 2 →
    v = .float ((pad maxLenBuf datagram).getD (stringLen + 1) 0 ≠ 0)
      (bigEndian (((pad maxLenBuf datagram).drop (stringLen + 2)).take 4))
      (myPow ((pad maxLenBuf datagram).getD (stringLen + 6) 0).toNat)) ∧
  ((pad maxLenBuf datagram).getD stringLen 0 = 3 →
    if 0 ∈ datagram.drop (stringLen + 1) then v = .string (cstr (datagram.drop (stringLen + 1)))
    else ∃ behind, v = .string (datagram.drop (stringLen + 1) ++ behind))

/-- The line for a datagram, with the address and the port of its sender, its topic and a block with
its payload, of which it shows what the payload and the memory behind it read as. -/
structure Display.Of (d : Display) (datagram : List Byte) (fromUdpStation : SockAddrIn) : Prop where
  adr : d.adr = fromUdpStation.sAddr
  udpPort : d.udpPort.toNat = bigEndian (store16 fromUdpStation.sinPort)
  topic : d.topic.str = cstr (datagram.take stringLen)
  type_le : (pad maxLenBuf datagram).getD stringLen 0 ≤ 3
  payload : PayloadOf datagram d.val
  shown : ∃ slack, d.shown =
    TopicServer.shown ((pad maxLenBuf datagram).getD stringLen 0) (d.val ++ slack)

/-- Printing reads behind the block with the payload. -/
def Display.Overruns (d : Display) : Prop :=
  match d.shown with
  | .int _ => d.val.length < 4
  | .shortReal _ => d.val.length < 2
  | .float .. => d.val.length < 6
  | .string _ => 0 ∉ d.val

section Payload

variable {datagram val : List Byte} {d : Display}

/-- The first bytes behind the type of a datagram in the buffer. -/
theorem exists_behind_type (datagram : List Byte) : ∃ b₀ b₁ b₂ b₃ b₄ b₅ rest,
    (pad maxLenBuf datagram).drop (stringLen + 1) = b₀ :: b₁ :: b₂ :: b₃ :: b₄ :: b₅ :: rest := by
  have hlen : ((pad maxLenBuf datagram).drop (stringLen + 1)).length =
      maxLenBuf - (stringLen + 1) := by
    rw [List.length_drop, length_pad]
  match hb : (pad maxLenBuf datagram).drop (stringLen + 1) with
  | b₀ :: b₁ :: b₂ :: b₃ :: b₄ :: b₅ :: rest => exact ⟨b₀, b₁, b₂, b₃, b₄, b₅, rest, rfl⟩
  | [] | [_] | [_, _] | [_, _, _] | [_, _, _, _] | [_, _, _, _, _] =>
    have h6 : maxLenBuf - (stringLen + 1) = 1500 := by decide
    rw [hb, h6] at hlen
    simp at hlen

theorem getD_behind_type (datagram : List Byte) (k : ℕ) :
    (pad maxLenBuf datagram).getD (stringLen + 1 + k) 0 =
      ((pad maxLenBuf datagram).drop (stringLen + 1)).getD k 0 := by
  rw [List.getD_eq_getElem?_getD, List.getD_eq_getElem?_getD, List.getElem?_drop]

/-- What is printed for the payload of a datagram. -/
theorem shows_of_payload (h : PayloadOf datagram val) (slack : List Byte) :
    ShowsValue datagram (shown ((pad maxLenBuf datagram).getD stringLen 0) (val ++ slack)) := by
  obtain ⟨hint, hshort, hfloat, hstring⟩ := h
  obtain ⟨b₀, b₁, b₂, b₃, b₄, b₅, rest, hb⟩ := exists_behind_type datagram
  have hb' : (pad maxLenBuf datagram).drop (stringLen + 2) =
      b₁ :: b₂ :: b₃ :: b₄ :: b₅ :: rest := by
    rw [show stringLen + 2 = stringLen + 1 + 1 from rfl, ← List.drop_drop, hb]
    rfl
  refine ⟨fun ht => ?_, fun ht => ?_, fun ht => ?_, fun ht => ?_⟩
  · obtain ⟨v, rfl, hv⟩ := hint ht
    rw [ht, ← hv]
    show Shown.int (toInt (swap32 (load32 (network32 v ++ slack)))) = _
    rw [swap32_load32_network32]
  · rw [hshort ht, ht, hb]
    show Shown.shortReal (swap16 (load16 (b₀ :: b₁ :: slack))).toNat = _
    rw [toNat_swap16_load16]
    rfl
  · rw [hfloat ht, ht, getD_behind_type datagram 5, hb, hb',
      show stringLen + 1 = stringLen + 1 + 0 from rfl, getD_behind_type datagram 0, hb]
    show Shown.float (b₀ ≠ 0) (swap32 (load32 (b₁ :: b₂ :: b₃ :: b₄ :: b₅ :: slack))).toNat
      (myPow b₅.toNat) = _
    rw [toNat_swap32_load32]
    rfl
  · rw [hstring ht, ht]
    split_ifs with hnul
    · exact congrArg Shown.string (cstr_append_of_mem hnul slack)
    · exact ⟨cstr slack, congrArg Shown.string (cstr_append_of_not_mem hnul slack)⟩

theorem Display.Of.showsValue {fromUdpStation : SockAddrIn} (h : d.Of datagram fromUdpStation) :
    ShowsValue datagram d.shown := by
  obtain ⟨slack, hshown⟩ := h.shown
  rw [hshown]
  exact shows_of_payload h.payload slack

/-- Only a string without a NUL is printed past its block. -/
theorem Display.Of.unended {fromUdpStation : SockAddrIn} (h : d.Of datagram fromUdpStation)
    (hover : d.Overruns) :
    (pad maxLenBuf datagram).getD stringLen 0 = 3 ∧ 0 ∉ datagram.drop (stringLen + 1) := by
  obtain ⟨slack, hshown⟩ := h.shown
  obtain ⟨hint, hshort, hfloat, hstring⟩ := h.payload
  obtain ⟨b₀, b₁, b₂, b₃, b₄, b₅, rest, hb⟩ := exists_behind_type datagram
  unfold Display.Overruns at hover
  rw [hshown] at hover
  rcases type_cases h.type_le with ht | ht | ht | ht
  · obtain ⟨v, hv, -⟩ := hint ht
    rw [ht, hv] at hover
    exact absurd hover (Nat.lt_irrefl 4)
  · rw [ht, hshort ht, hb] at hover
    exact absurd hover (Nat.lt_irrefl 2)
  · rw [ht, hfloat ht, hb] at hover
    exact absurd hover (Nat.lt_irrefl 6)
  · rw [ht, hstring ht] at hover
    exact ⟨ht, hover⟩

end Payload

end TopicServer
