import TopicServer.Subscriber

/-!
# Framing

The subscriber reads each message by one `recv`, so it relies on every `recv` to give one whole
frame. `framing_iff` says that it displays and acknowledges a stream of frames as it should exactly
when every chunk of the stream is a frame: a chunk that is not a frame may still be displayed as
one (the zeroed buffer stands in for missing zeros), but the chunks behind it then go wrong.
-/

namespace TopicServer

open Interactive Memory

/-! ## Frames -/

/-- A data frame: a header of a type up to 3 and the payload that belongs to it. -/
structure Frame where
  hdr : ServerToClientHdr
  payload : List Byte
  size : hdr.bytes.toNat = payload.length
  shape : hdr.type = 0 ∧ payload.length = 4 ∨ hdr.type = 1 ∧ payload.length = 2 ∨
    hdr.type = 2 ∧ payload.length = 6 ∨
    hdr.type = 3 ∧ payload.length ≤ maxLenBuf - serverHdrSize

namespace Frame

variable {f : Frame}

def bytes (f : Frame) : List Byte := f.hdr.encode ++ f.payload

theorem length_bytes (f : Frame) : f.bytes.length = serverHdrSize + f.payload.length := by
  rw [bytes, List.length_append, ServerToClientHdr.length_encode]

theorem type_le (f : Frame) : f.hdr.type ≤ 3 := by
  rcases f.shape with ⟨h, -⟩ | ⟨h, -⟩ | ⟨h, -⟩ | ⟨h, -⟩ <;> rw [h] <;> decide

theorem payload_le (f : Frame) : f.payload.length ≤ maxLenBuf - serverHdrSize := by
  have hmax : maxLenBuf - serverHdrSize = 1487 := rfl
  rcases f.shape with ⟨-, h⟩ | ⟨-, h⟩ | ⟨-, h⟩ | ⟨-, h⟩ <;> omega

theorem length_of_type (h : f.hdr.type = 0) : f.payload.length = 4 := by
  rcases f.shape with ⟨-, h'⟩ | ⟨h', -⟩ | ⟨h', -⟩ | ⟨h', -⟩
  · exact h'
  all_goals
    rw [h] at h'
    cases h'

end Frame

/-! ## Streams that are cut in other places -/

/-- A chunk reads like a frame: behind the padding of the header, and where it ends before the
frame does, the frame has zeros. -/
def Reads (c b : List Byte) : Prop :=
  ∀ k, k = 0 ∨ 4 ≤ k → k < b.length → c.getD k 0 = b.getD k 0

/-- The sender's address of a frame is not zero. -/
def Sent (b : List Byte) : Prop := 63 < b.length ∧ ∃ k, 4 ≤ k ∧ k < 8 ∧ b.getD k 0 ≠ 0

section Streams

variable {b c w : List Byte} {bs cs : List (List Byte)}

/-- A chunk inside a frame, behind its start, does not read like the frame. -/
theorem not_reads_inside {r : List Byte} (hw : w ≠ []) (hb : b = w ++ c ++ r) (hs : Sent b) :
    ¬ Reads c b := by
  intro h
  obtain ⟨-, k, hk, -, hne⟩ := hs
  have hpos : 0 < w.length := List.length_pos_of_ne_nil hw
  -- each byte repeats the one `w.length` places further on, so all are zero
  have hzero : ∀ n k, 4 ≤ k → k < b.length → b.length ≤ k + n → b.getD k 0 = 0 := by
    intro n
    induction n with
    | zero => intro k _ hlt hle; omega
    | succ n ih =>
      intro k hk hlt hle
      rw [← h k (Or.inr hk) hlt]
      by_cases hkc : k < c.length
      · have hshift : c.getD k 0 = b.getD (w.length + k) 0 := by
          rw [hb, List.append_assoc, List.getD_append_right _ _ _ _ (by omega),
            Nat.add_sub_cancel_left, List.getD_append _ _ _ _ hkc]
        rw [hshift]
        have hlen : b.length = w.length + c.length + r.length := by
          rw [hb, List.length_append, List.length_append]
        exact ih _ (by omega) (by omega) (by omega)
      · exact List.getD_eq_default _ _ (by omega)
  have hlt : k < b.length := by
    by_contra hge
    exact hne (List.getD_eq_default _ _ (by omega))
  exact hne (hzero b.length k hk hlt (by omega))

/-- Chunks that start behind the frames they read like do not come to the end of the stream. -/
theorem not_reads_behind (hw : w ≠ []) (hstream : bs.flatten = w ++ cs.flatten)
    (hr : List.Forall₂ Reads cs bs) (hs : ∀ b ∈ bs, Sent b) : False := by
  induction hr generalizing w with
  | nil =>
    rw [List.flatten_nil, List.append_nil] at hstream
    exact hw hstream.symm
  | @cons c b cs bs hread hrest ih =>
    rw [List.flatten_cons, List.flatten_cons, ← List.append_assoc] at hstream
    have hsent := hs b List.mem_cons_self
    have hs' : ∀ b ∈ bs, Sent b := fun b hb => hs b (List.mem_cons_of_mem _ hb)
    rcases List.append_eq_append_iff.mp hstream with ⟨r, h1, h2⟩ | ⟨r, h1, -⟩
    · by_cases hr : r = []
      · rw [hr, List.append_nil] at h1
        exact not_reads_inside hw (by rw [h1, List.append_nil]) hsent hread
      · exact ih hr h2 hs'
    · exact not_reads_inside hw h1 hsent hread

/-- A chunk that ends before the frame that it reads like leaves zeros behind. -/
theorem zeros_of_reads_prefix {z : List Byte} (hb : b = c ++ z) (hs : Sent b) (h : Reads c b) :
    ∀ x ∈ z, x = 0 := by
  obtain ⟨-, k, hk, hk8, hne⟩ := hs
  have hlen : b.length = c.length + z.length := by rw [hb, List.length_append]
  have hkb : k < b.length := by
    by_contra hge
    exact hne (List.getD_eq_default _ _ (by omega))
  have hkc : k < c.length := by
    by_contra hge
    rw [← h k (Or.inr hk) hkb, List.getD_eq_default _ _ (by omega)] at hne
    exact hne rfl
  intro x hx
  obtain ⟨n, hn, rfl⟩ := List.mem_iff_getElem.mp hx
  have hzero := h (c.length + n) (Or.inr (by omega)) (by omega)
  rw [List.getD_eq_default _ _ (by omega), hb, List.getD_append_right _ _ _ _ (by omega),
    Nat.add_sub_cancel_left, List.getD_eq_getElem _ _ hn] at hzero
  exact hzero.symm

/-- The size field of an integer. -/
def IntFrame (b : List Byte) : Prop :=
  b.getD 0 0 = 0 → b.length = 68 ∧ b.getD 60 0 = 4 ∧ b.getD 61 0 = 0 ∧ b.getD 62 0 = 0 ∧
    b.getD 63 0 = 0

/-- Going down in steps of `d` through values that repeat. -/
theorem repeat_down {f : ℕ → Byte} {d lo n : ℕ} (h : ∀ k, lo ≤ k → k ≤ n → f k = f (k - d))
    (j : ℕ) (hj : lo + j * d ≤ n + d) : f n = f (n - j * d) := by
  induction j with
  | zero => rw [Nat.zero_mul, Nat.sub_zero]
  | succ j ih =>
    rw [Nat.succ_mul] at hj ⊢
    rw [ih (by omega), h _ (by omega) (by omega), Nat.sub_sub]

/-- Zeros in front of a frame are read as its start only where few of them are, and the chunk ends
in the size field. -/
theorem zeros_before {z rest rest' : List Byte} (hz : ∀ x ∈ z, x = 0) (hne : z ≠ [])
    (hc : c ≠ []) (hstream : c ++ rest = z ++ (b ++ rest')) (hs : Sent b) (hi : IntFrame b)
    (h : Reads c b) :
    b.length = 68 ∧ 60 < c.length ∧ 58 + z.length ≤ c.length ∧ c.length ≤ 60 + z.length ∧
      ∀ k, 62 ≤ k → b.getD k 0 = 0 := by
  have hd : 0 < z.length := List.length_pos_of_ne_nil hne
  have hcpos : 0 < c.length := List.length_pos_of_ne_nil hc
  have hin : ∀ k, k < c.length → c.getD k 0 = (z ++ (b ++ rest')).getD k 0 := fun k hk => by
    rw [← hstream, List.getD_append _ _ _ _ hk]
  have hlow : ∀ k, k < z.length → (z ++ (b ++ rest')).getD k 0 = 0 := fun k hk => by
    rw [List.getD_append _ _ _ _ hk, List.getD_eq_getElem _ _ hk]
    exact hz _ (List.getElem_mem hk)
  have hhigh : ∀ k, z.length ≤ k → k < z.length + b.length →
      (z ++ (b ++ rest')).getD k 0 = b.getD (k - z.length) 0 := fun k hk hlt => by
    rw [List.getD_append_right _ _ _ _ hk, List.getD_append _ _ _ _ (by omega)]
  obtain ⟨hlong, k₀, hk₀, hk₀', hip⟩ := hs
  have h0 : b.getD 0 0 = 0 := by
    rw [← h 0 (Or.inl rfl) (by omega), hin 0 hcpos, hlow 0 hd]
  obtain ⟨hlen, h60, h61, h62, h63⟩ := hi h0
  have hc60 : 60 < c.length := by
    by_contra hle
    rw [← h 60 (Or.inr (by omega)) (by omega), List.getD_eq_default _ _ (by omega)] at h60
    cases h60
  have hd7 : z.length ≤ 7 := by
    by_contra hlt
    rw [← h k₀ (Or.inr hk₀) (by omega), hin k₀ (by omega), hlow k₀ (by omega)] at hip
    exact hip rfl
  have hstep : ∀ k, max 4 z.length ≤ k → k ≤ 60 → b.getD k 0 = b.getD (k - z.length) 0 := by
    intro k hk hk60
    rw [← h k (Or.inr (by omega)) (by omega), hin k (by omega), hhigh k (by omega) (by omega)]
  have hdown := repeat_down hstep
  have hd3 : z.length ≤ 3 := by
    by_contra hlt
    have hcases : z.length = 4 ∨ z.length = 5 ∨ z.length = 6 ∨ z.length = 7 := by omega
    have h60' : b.getD 60 0 ≠ 0 := by rw [h60]; decide
    rcases hcases with hz4 | hz5 | hz6 | hz7
    · rw [hz4] at hdown
      exact h60' ((hdown 15 (by decide)).trans h0)
    · rw [hz5] at hdown
      exact h60' ((hdown 12 (by decide)).trans h0)
    · rw [hz6] at hdown
      exact h60' ((hdown 10 (by decide)).trans h0)
    · rw [hz7] at hdown
      have h4 : b.getD 4 0 = 0 := by
        rw [← h 4 (Or.inr le_rfl) (by omega), hin 4 (by omega), hlow 4 (by omega)]
      exact h60' ((hdown 8 (by decide)).trans h4)
  have hc3 : c.length ≤ 60 + z.length := by
    by_contra hlt
    have hsize : b.getD (60 + z.length) 0 = 4 := by
      rw [← h _ (Or.inr (by omega)) (by omega), hin _ (by omega), hhigh _ (by omega) (by omega),
        Nat.add_sub_cancel, h60]
    have hcases : z.length = 1 ∨ z.length = 2 ∨ z.length = 3 := by omega
    rcases hcases with hz1 | hz2 | hz3
    · rw [hz1, h61] at hsize
      cases hsize
    · rw [hz2, h62] at hsize
      cases hsize
    · rw [hz3, h63] at hsize
      cases hsize
  refine ⟨hlen, hc60, by omega, hc3, fun k hk => ?_⟩
  by_cases hk62 : k = 62
  · rw [hk62, h62]
  by_cases hk63 : k = 63
  · rw [hk63, h63]
  by_cases hkb : k < b.length
  · rw [← h k (Or.inr (by omega)) hkb, List.getD_eq_default _ _ (by omega)]
  · exact List.getD_eq_default _ _ (by omega)

/-- Chunks that start with zeros in front of the frames they read like do not come to the end of
the stream. -/
theorem not_reads_zeros {z : List Byte} (hz : ∀ x ∈ z, x = 0) (hne : z ≠ [])
    (hstream : cs.flatten = z ++ bs.flatten) (hr : List.Forall₂ Reads cs bs)
    (hc : ∀ c ∈ cs, c ≠ []) (hs : ∀ b ∈ bs, Sent b ∧ IntFrame b) : False := by
  cases hr with
  | nil =>
    rw [List.flatten_nil, List.append_nil] at hstream
    exact hne hstream.symm
  | @cons c b cs bs hread hrest =>
    rw [List.flatten_cons, List.flatten_cons] at hstream
    obtain ⟨hsent, hint⟩ := hs b List.mem_cons_self
    obtain ⟨hlen, h60, hlow, hhigh, hzero⟩ :=
      zeros_before hz hne (hc c List.mem_cons_self) hstream hsent hint hread
    -- the next chunk starts at this byte of the frame
    obtain ⟨m, hm⟩ : ∃ m, c.length = z.length + m := ⟨c.length - z.length, by omega⟩
    have htail : cs.flatten = b.drop m ++ bs.flatten := by
      have hdrop := congrArg (List.drop c.length) hstream
      rw [List.drop_append_of_le_length le_rfl, List.drop_length, List.nil_append, hm,
        List.drop_length_add_append, List.drop_append_of_le_length (by omega)] at hdrop
      exact hdrop
    cases hrest with
    | nil =>
      have hlen' := congrArg List.length htail
      rw [List.flatten_nil, List.length_nil, List.length_append, List.length_drop] at hlen'
      omega
    | @cons c' b' cs bs hread' _ =>
      obtain ⟨⟨hlong, k, hk, hk8, hip⟩, -⟩ := hs b' (by simp)
      rw [List.flatten_cons] at htail
      apply hip
      rw [← hread' k (Or.inr hk) (by omega)]
      by_cases hkc : k < c'.length
      · have hget : c'.getD k 0 = (c' ++ cs.flatten).getD k 0 :=
          (List.getD_append _ _ _ _ hkc).symm
        rw [hget, htail, List.getD_append _ _ _ _ (by rw [List.length_drop]; omega)]
        have hdrop : (b.drop m).getD k 0 = b.getD (m + k) 0 := by
          rw [List.getD_eq_getElem?_getD, List.getD_eq_getElem?_getD, List.getElem?_drop]
        rw [hdrop]
        exact hzero _ (by omega)
      · exact List.getD_eq_default _ _ (by omega)

/-- Chunks that read like the frames of their stream, one by one, are the frames. -/
theorem chunks_eq_of_reads (hstream : cs.flatten = bs.flatten) (hr : List.Forall₂ Reads cs bs)
    (hc : ∀ c ∈ cs, c ≠ []) (hs : ∀ b ∈ bs, Sent b ∧ IntFrame b) : cs = bs := by
  induction hr with
  | nil => rfl
  | @cons c b cs bs hread hrest ih =>
    rw [List.flatten_cons, List.flatten_cons] at hstream
    have hc' : ∀ c ∈ cs, c ≠ [] := fun c hc'' => hc c (List.mem_cons_of_mem _ hc'')
    have hs' : ∀ b ∈ bs, Sent b ∧ IntFrame b := fun b hb => hs b (List.mem_cons_of_mem _ hb)
    rcases List.append_eq_append_iff.mp hstream with ⟨z, h1, h2⟩ | ⟨w, h1, h2⟩
    · by_cases hz : z = []
      · subst hz
        rw [List.append_nil] at h1
        rw [h1, ih h2 hc' hs']
      · have hzero := zeros_of_reads_prefix h1 (hs b List.mem_cons_self).1 hread
        exact (not_reads_zeros hzero hz h2 hrest hc' hs').elim
    · by_cases hw : w = []
      · subst hw
        rw [List.append_nil] at h1
        rw [h1, ih h2.symm hc' hs']
      · exact (not_reads_behind hw h2 hrest fun b hb => (hs' b hb).1).elim

end Streams

/-! ## The receive loop -/

/-- The messages displayed among the calls. -/
def displays (evs : List (Event Sys)) : List Display :=
  evs.filterMap fun e => match e.call with
    | .printf (.display d) => some d
    | _ => none

/-- The acknowledgements sent among the calls. -/
def acks (evs : List (Event Sys)) : ℕ :=
  evs.countP fun e => match e.call with
    | .send .putAck _ _ => true
    | _ => false

@[simp] theorem displays_append (es es' : List (Event Sys)) :
    displays (es ++ es') = displays es ++ displays es' := List.filterMap_append

@[simp] theorem acks_append (es es' : List (Event Sys)) :
    acks (es ++ es') = acks es + acks es' := List.countP_append

/-- The receive loop reads the chunks of the stream one after the other, until it leaves or
stops. -/
def Receives (sockfd : ℤ) : SubscriberState → List (List Byte) → List (Event Sys) →
    Except Halt (SubscriberState × Flow) → Prop
  | s, [], evs, o => evs = [] ∧ o = .ok (s, .next)
  | s, chunk :: chunks, evs, o => ∃ es es' o', evs = ⟨.recv .getMessage sockfd buflen, some chunk⟩ ::
      es ++ es' ∧ (subscriberBody sockfd s sockfd).Exec
        (⟨.recv .getMessage sockfd buflen, some chunk⟩ :: es) o' ∧
      match o' with
      | .ok (s', .next) => Receives sockfd s' chunks es' o
      | o' => es' = [] ∧ o = o'

/-- The connection takes every acknowledgement. -/
def ackTaken (e : Event Sys) : Prop :=
  match e with
  | ⟨.send .putAck _ _, r⟩ => r = true
  | _ => True

/-- The message displayed for a chunk. -/
def Displayed (chunk : List Byte) (d : Display) : Prop :=
  ∃ hdr, hdr = ServerToClientHdr.decode (pad buflen chunk) ∧ hdr.type ≤ 3 ∧
    ∃ val adr udpPort slack,
      extractServerToClientHeader (pad buflen chunk) hdr = .ok (val, adr, udpPort) ∧
      d = ⟨adr, udpPort, .ofList _ hdr.topic.bytes, val, shown hdr.type (val ++ slack)⟩

section Receive

variable {sockfd : ℤ} {s : SubscriberState} {chunk : List Byte} {evs : List (Event Sys)}
  {o : Except Halt (SubscriberState × Flow)}

theorem subscriberBody_sock (hsock : sockfd ≠ 0) (s : SubscriberState) :
    subscriberBody sockfd s sockfd = messageBranch sockfd s := by
  unfold subscriberBody
  rw [if_neg hsock, if_pos rfl]

theorem displayMessage_exec {buffer : List Byte} {svCl : ServerToClientHdr} {o : Except Halt Unit}
    (he : (displayMessage buffer svCl).Exec evs o) :
    (svCl.type ≤ 3 ∧ ∃ val adr udpPort slack, o = .ok () ∧
      extractServerToClientHeader buffer svCl = .ok (val, adr, udpPort) ∧ acks evs = 0 ∧
      displays evs =
        [⟨adr, udpPort, .ofList _ svCl.topic.bytes, val, shown svCl.type (val ++ slack)⟩]) ∨
    (3 < svCl.type ∧ evs = [] ∧ o = .ok ()) ∨
    (svCl.type ≤ 3 ∧ evs = [] ∧ ∃ e, extractServerToClientHeader buffer svCl = .error e ∧
      o = .error (.fault e)) := by
  unfold displayMessage at he
  split_ifs at he with htype
  · rw [exec_mem] at he
    rcases he with ⟨e, hex, rfl, rfl⟩ | ⟨⟨val, adr, udpPort⟩, hex, he⟩
    · exact Or.inr (Or.inr ⟨htype, rfl, e, hex, rfl⟩)
    simp only at he
    rw [exec_indeterminate] at he
    obtain ⟨slack, rest, rfl, ⟨u, rest, rfl, rfl, rfl⟩⟩ := he
    exact Or.inl ⟨htype, val, adr, udpPort, slack.bytes, rfl, hex, rfl, rfl⟩
  · obtain ⟨rfl, rfl⟩ := he
    exact Or.inr (Or.inl ⟨UInt8.not_le.mp htype, rfl, rfl⟩)

theorem ackMessage_exec {o : Except Halt SubscriberState}
    (he : (ackMessage sockfd s).Exec evs o) (hack : ∀ e ∈ evs, ackTaken e) :
    displays evs = [] ∧ acks evs = 1 ∧ o = .ok { s with clsHdr := { s.clsHdr with type := 4 } } := by
  unfold ackMessage at he
  simp only at he
  rw [exec_send] at he
  obtain ⟨ret, rest, rfl, he⟩ := he
  obtain rfl : ret = true := hack _ List.mem_cons_self
  obtain ⟨rfl, rfl⟩ := he
  exact ⟨rfl, rfl, rfl⟩

/-- A chunk is displayed and acknowledged, or only acknowledged, or its header is at fault. -/
theorem messageBranch_exec
    (he : (messageBranch sockfd s).Exec
      (⟨.recv .getMessage sockfd buflen, some chunk⟩ :: evs) o)
    (hack : ∀ e ∈ evs, ackTaken e) :
    (∃ d s', Displayed chunk d ∧ displays evs = [d] ∧ acks evs = 1 ∧ o = .ok (s', .next)) ∨
    (3 < (ServerToClientHdr.decode (pad buflen chunk)).type ∧ displays evs = [] ∧ acks evs = 1 ∧
      ∃ s' flow, o = .ok (s', flow)) ∨
    (displays evs = [] ∧ acks evs = 0 ∧ ∃ e, o = .error (.fault e) ∧
      extractServerToClientHeader (pad buflen chunk) (.decode (pad buflen chunk)) = .error e) := by
  obtain ⟨ret, rest, heq, hcases⟩ := messageBranch_cases he
  cases heq
  rcases hcases with ⟨hnone, -⟩ | ⟨m, heq, hcases⟩
  · cases hnone
  cases heq
  rcases hcases with ⟨e, hd, rfl⟩ | ⟨es, es', rfl, hd, hcases⟩
  · rcases displayMessage_exec hd with
      ⟨-, _, _, _, _, ho, -⟩ | ⟨-, -, ho⟩ | ⟨-, rfl, f, hex, ho⟩
    · cases ho
    · cases ho
    · cases ho
      exact Or.inr (Or.inr ⟨rfl, rfl, f, rfl, hex⟩)
  rw [List.forall_mem_append] at hack
  rcases hcases with ⟨e, ha, rfl⟩ | ⟨s', ha, rfl⟩
  · obtain ⟨-, -, ho⟩ := ackMessage_exec ha hack.2
    cases ho
  obtain ⟨h1, h2, -⟩ := ackMessage_exec ha hack.2
  rw [displays_append, acks_append, h1, h2]
  rcases displayMessage_exec hd with
    ⟨htype, val, adr, udpPort, slack, -, hex, h3, h4⟩ | ⟨htype, rfl, -⟩ | ⟨-, -, e, -, ho⟩
  · left
    refine ⟨_, s', ⟨_, rfl, htype, val, adr, udpPort, slack, hex, rfl⟩, ?_, ?_, ?_⟩
    · rw [h4, List.append_nil]
    · rw [h3]
    · rw [if_neg]
      intro h
      rw [h] at htype
      exact absurd htype (by decide)
  · exact Or.inr (Or.inl ⟨htype, rfl, rfl, s', _, rfl⟩)
  · cases ho

/-- A loop that has read all chunks acknowledged each, and displayed some. -/
theorem Receives.displayed {chunks : List (List Byte)} {s' : SubscriberState} (hsock : sockfd ≠ 0)
    (hr : Receives sockfd s chunks evs (.ok (s', .next))) (hack : ∀ e ∈ evs, ackTaken e) :
    acks evs = chunks.length ∧ (displays evs).length ≤ chunks.length ∧
      ((displays evs).length = chunks.length → List.Forall₂ Displayed chunks (displays evs)) := by
  induction chunks generalizing s evs with
  | nil =>
    obtain ⟨rfl, -⟩ := hr
    exact ⟨rfl, le_rfl, fun _ => .nil⟩
  | cons chunk chunks ih =>
    obtain ⟨es, es', o', rfl, he, hrest⟩ := hr
    rw [subscriberBody_sock hsock] at he
    rw [List.cons_append, List.forall_mem_cons, List.forall_mem_append] at hack
    obtain ⟨-, hack, hack'⟩ := hack
    have hhead : ∀ es : List (Event Sys),
        displays (⟨.recv .getMessage sockfd buflen, some chunk⟩ :: es) = displays es ∧
        acks (⟨.recv .getMessage sockfd buflen, some chunk⟩ :: es) = acks es :=
      fun es => ⟨rfl, rfl⟩
    rw [List.cons_append, (hhead _).1, (hhead _).2, displays_append, acks_append]
    rcases messageBranch_exec he hack with
      ⟨d, s₁, hd, h1, h2, rfl⟩ | ⟨-, h1, h2, s₁, flow, rfl⟩ | ⟨-, -, e, rfl, -⟩
    · obtain ⟨h3, h4, h5⟩ := ih hrest hack'
      rw [h1, h2, h3]
      simp only [List.singleton_append, List.length_cons]
      exact ⟨by omega, by omega, fun hlen => .cons hd (h5 (by omega))⟩
    · cases flow with
      | leave => cases hrest.2
      | next =>
        obtain ⟨h3, h4, -⟩ := ih hrest hack'
        rw [h1, h2, h3]
        simp only [List.nil_append, List.length_cons]
        exact ⟨by omega, by omega, fun hlen => by omega⟩
    · cases hrest.2

end Receive

/-! ## Framing -/

/-- What the subscriber displays for a frame. -/
def Frame.ShownAs (f : Frame) (d : Display) : Prop :=
  d.adr = swap32 f.hdr.udpIp ∧ d.udpPort = swap16 f.hdr.udpPort ∧
    d.topic = .ofList _ f.hdr.topic.bytes ∧ d.val = f.payload ∧
    ∃ slack, d.shown = shown f.hdr.type (f.payload ++ slack)

/-- The subscriber has displayed the frames, each once and in order, sent one acknowledgement for
each, and goes on. -/
def Framed (frames : List Frame) (evs : List (Event Sys))
    (o : Except Halt (SubscriberState × Flow)) : Prop :=
  (∃ s, o = .ok (s, .next)) ∧ List.Forall₂ Frame.ShownAs frames (displays evs) ∧
    acks evs = frames.length

section Framing

variable {f : Frame} {c : List Byte} {d : Display}

theorem Frame.length_le (f : Frame) : f.bytes.length ≤ buflen := by
  have hle := f.payload_le
  rw [f.length_bytes]
  unfold maxLenBuf serverHdrSize at *
  unfold buflen
  omega

/-- A frame stands at the start of the buffer. -/
theorem Frame.pad_bytes (f : Frame) : pad buflen f.bytes =
    f.hdr.encode ++ (f.payload ++ List.replicate (buflen - f.bytes.length) 0) := by
  rw [pad_of_le f.length_le, Frame.bytes, List.append_assoc]

theorem decode_frame (f : Frame) : ServerToClientHdr.decode (pad buflen f.bytes) = f.hdr := by
  rw [f.pad_bytes, ServerToClientHdr.decode_encode]

theorem Frame.toInt_bytes (f : Frame) : toInt f.hdr.bytes = f.payload.length := by
  have hle := f.payload_le
  have hmax : maxLenBuf - serverHdrSize = 1487 := rfl
  unfold toInt
  rw [f.size, if_pos (by omega)]

/-- The payload of a frame is found in a chunk that is the frame. -/
theorem extract_frame (f : Frame) :
    extractServerToClientHeader (pad buflen f.bytes) f.hdr =
      .ok (f.payload, swap32 f.hdr.udpIp, swap16 f.hdr.udpPort) := by
  have hle := f.length_le
  have hlen : (pad buflen f.bytes).length = buflen := length_pad _ _
  have hdrop : (pad buflen f.bytes).drop serverHdrSize =
      f.payload ++ List.replicate (buflen - f.bytes.length) 0 := by
    rw [f.pad_bytes, List.drop_append_of_le_length (by simp), List.drop_of_length_le (by simp),
      List.nil_append]
  rw [f.length_bytes] at hle
  unfold extractServerToClientHeader
  simp only [f.toInt_bytes, hlen]
  rw [if_neg (by omega), if_neg (by omega), hdrop, Int.toNat_natCast,
    List.take_append_of_le_length le_rfl, List.take_length]

theorem type_cases {t : Byte} (ht : t ≤ 3) : t = 0 ∨ t = 1 ∨ t = 2 ∨ t = 3 := by
  have hle : t.toNat ≤ 3 := ht
  simp only [← UInt8.toNat_inj]
  have h1 : (0 : Byte).toNat = 0 := rfl
  have h2 : (1 : Byte).toNat = 1 := rfl
  have h3 : (2 : Byte).toNat = 2 := rfl
  have h4 : (3 : Byte).toNat = 3 := rfl
  omega

/-- What is shown tells the type of the message. -/
theorem shown_type {t t' : Byte} {b b' : List Byte} (ht : t ≤ 3) (ht' : t' ≤ 3)
    (h : shown t b = shown t' b') : t = t' := by
  rcases type_cases ht with rfl | rfl | rfl | rfl <;>
    rcases type_cases ht' with rfl | rfl | rfl | rfl <;> first | rfl | cases h

theorem swap32_inj {x y : UInt32} (h : swap32 x = swap32 y) : x = y := by
  rw [← swap32_swap32 x, h, swap32_swap32]

theorem swap16_inj {x y : UInt16} (h : swap16 x = swap16 y) : x = y := by
  rw [← swap16_swap16 x, h, swap16_swap16]

theorem toInt_eq {x : UInt32} {n : ℕ} (h : toInt x = n) : x.toNat = n := by
  have hx := x.toNat_lt
  unfold toInt at h
  split_ifs at h <;> omega

/-- An array inside a longer one that is zeroed. -/
theorem CharArray.ofList_longer_inj {n m : ℕ} (h : n ≤ m) {a b : CharArray n}
    (he : CharArray.ofList m a.bytes = CharArray.ofList m b.bytes) : a = b := by
  have hb := congrArg CharArray.bytes he
  have hla := a.length_eq
  have hlb := b.length_eq
  unfold CharArray.ofList at hb
  simp only at hb
  rw [pad_of_le (by omega), pad_of_le (by omega), hla, hlb] at hb
  exact CharArray.ext (List.append_cancel_right hb)

/-- Two headers that differ in their padding only. -/
theorem encode_getD {h h' : ServerToClientHdr} (h1 : h.type = h'.type) (h2 : h.udpIp = h'.udpIp)
    (h3 : h.udpPort = h'.udpPort) (h4 : h.topic = h'.topic) (h5 : h.bytes = h'.bytes) {k : ℕ}
    (hk : k = 0 ∨ 4 ≤ k) : h.encode.getD k 0 = h'.encode.getD k 0 := by
  rcases hk with rfl | hk
  · exact h1
  · have hget : ∀ x : ServerToClientHdr, x.encode.getD k 0 = (store32 x.udpIp ++
        (store16 x.udpPort ++ (x.topic.bytes ++ store32 x.bytes))).getD (k - 4) 0 := fun x => by
      have hlen : (x.type :: x.padding.bytes).length = 4 := by
        rw [List.length_cons, x.padding.length_eq]
      have hsplit : x.encode = (x.type :: x.padding.bytes) ++
          (store32 x.udpIp ++ (store16 x.udpPort ++ (x.topic.bytes ++ store32 x.bytes))) := by
        unfold ServerToClientHdr.encode
        simp only [List.cons_append, List.append_assoc]
      rw [hsplit, List.getD_append_right _ _ _ _ (by rw [hlen]; exact hk), hlen]
    rw [hget h, hget h', h2, h3, h4, h5]

/-- A chunk that is displayed as a frame reads like it. -/
theorem reads_of_shown (hc : c.length ≤ buflen) (hd : Displayed c d) (hs : f.ShownAs d) :
    Reads c f.bytes := by
  obtain ⟨hdr, hhdr, htype, val, adr, udpPort, slack, hex, rfl⟩ := hd
  obtain ⟨hadr, hport, htopic, hval, slack', hshown⟩ := hs
  simp only at hadr hport htopic hval hshown
  have hlen : (pad buflen c).length = buflen := length_pad _ _
  -- the fields of the two headers agree
  unfold extractServerToClientHeader at hex
  simp only [hlen] at hex
  split_ifs at hex with hneg hout
  obtain ⟨hval', hadr', hport'⟩ : ((pad buflen c).drop serverHdrSize).take (toInt hdr.bytes).toNat =
      val ∧ swap32 hdr.udpIp = adr ∧ swap16 hdr.udpPort = udpPort := by
    simpa only [Except.ok.injEq, Prod.mk.injEq] using hex
  have hbytes : toInt hdr.bytes = f.payload.length := by
    have hl := congrArg List.length (hval'.trans hval)
    rw [List.length_take, List.length_drop, hlen] at hl
    omega
  have hsize : hdr.bytes = f.hdr.bytes := by
    rw [← UInt32.toNat_inj, toInt_eq hbytes, f.size]
  have hip : hdr.udpIp = f.hdr.udpIp := swap32_inj (hadr'.trans hadr)
  have hpo : hdr.udpPort = f.hdr.udpPort := swap16_inj (hport'.trans hport)
  have hto : hdr.topic = f.hdr.topic := CharArray.ofList_longer_inj (by decide) htopic
  have hty : hdr.type = f.hdr.type := shown_type htype f.type_le hshown
  -- so do the bytes
  have hbuf : pad buflen c = hdr.encode ++ (pad buflen c).drop serverHdrSize := by
    rw [hhdr, ServerToClientHdr.encode_decode (by rw [hlen]; decide), List.take_append_drop]
  have hpay : ((pad buflen c).drop serverHdrSize).take f.payload.length = f.payload := by
    rw [hbytes, Int.toNat_natCast] at hval'
    rw [hval', hval]
  intro k hk hlt
  rw [f.length_bytes] at hlt
  rw [← getD_pad hc, hbuf, Frame.bytes]
  have henc : ∀ x : ServerToClientHdr, x.encode.length = serverHdrSize :=
    ServerToClientHdr.length_encode
  by_cases hk64 : k < serverHdrSize
  · rw [List.getD_append _ _ _ _ (by rw [henc]; exact hk64),
      List.getD_append _ _ _ _ (by rw [henc]; exact hk64)]
    exact encode_getD hty hip hpo hto hsize hk
  · rw [List.getD_append_right _ _ _ _ (by rw [henc]; omega),
      List.getD_append_right _ _ _ _ (by rw [henc]; omega), henc, henc]
    conv_rhs => rw [← hpay]
    rw [List.getD_eq_getElem?_getD, List.getD_eq_getElem?_getD,
      List.getElem?_take_of_lt (by omega)]

theorem shownAs_of_displayed (hd : Displayed f.bytes d) : f.ShownAs d := by
  obtain ⟨hdr, hhdr, -, val, adr, udpPort, slack, hex, rfl⟩ := hd
  rw [decode_frame] at hhdr
  subst hhdr
  rw [extract_frame] at hex
  cases hex
  exact ⟨rfl, rfl, rfl, rfl, slack, rfl⟩

variable {sockfd : ℤ} {s : SubscriberState} {chunks : List (List Byte)} {frames : List Frame}
  {evs : List (Event Sys)} {o : Except Halt (SubscriberState × Flow)}

/-- Chunks that are frames are displayed and acknowledged as such. -/
theorem framed_of_whole (hsock : sockfd ≠ 0)
    (hr : Receives sockfd s (frames.map Frame.bytes) evs o) (hack : ∀ e ∈ evs, ackTaken e) :
    Framed frames evs o := by
  induction frames generalizing s evs with
  | nil =>
    obtain ⟨rfl, rfl⟩ := hr
    exact ⟨⟨s, rfl⟩, .nil, rfl⟩
  | cons f frames ih =>
    obtain ⟨es, es', o', rfl, he, hrest⟩ := hr
    rw [subscriberBody_sock hsock] at he
    rw [List.cons_append, List.forall_mem_cons, List.forall_mem_append] at hack
    obtain ⟨-, hack, hack'⟩ := hack
    rcases messageBranch_exec he hack with
      ⟨d, s₁, hd, h1, h2, rfl⟩ | ⟨htype, -⟩ | ⟨-, -, e, -, hex⟩
    · obtain ⟨hok, h3, h4⟩ := ih hrest hack'
      refine ⟨hok, ?_, ?_⟩
      · show List.Forall₂ _ (f :: frames) (displays (es ++ es'))
        rw [displays_append, h1]
        exact .cons (shownAs_of_displayed hd) h3
      · show acks (es ++ es') = _
        rw [acks_append, h2, h4, List.length_cons, Nat.add_comm]
    · rw [decode_frame] at htype
      exact absurd f.type_le (UInt8.not_le.mpr htype)
    · rw [decode_frame, extract_frame] at hex
      cases hex

/-- Behind the first 60 bytes of a frame stands its size. -/
theorem Frame.getD_size (f : Frame) {k : ℕ} (hk : k < 4) :
    f.bytes.getD (60 + k) 0 = (store32 f.hdr.bytes).getD k 0 := by
  have hsplit : f.bytes = (f.hdr.type :: f.hdr.padding.bytes ++ store32 f.hdr.udpIp ++
      store16 f.hdr.udpPort ++ f.hdr.topic.bytes) ++ (store32 f.hdr.bytes ++ f.payload) := by
    unfold Frame.bytes ServerToClientHdr.encode
    simp only [List.append_assoc]
  have hlen : (f.hdr.type :: f.hdr.padding.bytes ++ store32 f.hdr.udpIp ++
      store16 f.hdr.udpPort ++ f.hdr.topic.bytes).length = 60 := by
    simp [f.hdr.padding.length_eq, f.hdr.topic.length_eq, stringLen]
  rw [hsplit, List.getD_append_right _ _ _ _ (by omega), hlen, Nat.add_sub_cancel_left,
    List.getD_append _ _ _ _ hk]

theorem Frame.getD_udpIp (f : Frame) {k : ℕ} (hk : k < 4) :
    f.bytes.getD (4 + k) 0 = (store32 f.hdr.udpIp).getD k 0 := by
  have hsplit : f.bytes = (f.hdr.type :: f.hdr.padding.bytes) ++ (store32 f.hdr.udpIp ++
      (store16 f.hdr.udpPort ++ f.hdr.topic.bytes ++ store32 f.hdr.bytes ++ f.payload)) := by
    unfold Frame.bytes ServerToClientHdr.encode
    simp only [List.cons_append, List.append_assoc]
  have hlen : (f.hdr.type :: f.hdr.padding.bytes).length = 4 := by
    rw [List.length_cons, f.hdr.padding.length_eq]
  rw [hsplit, List.getD_append_right _ _ _ _ (by omega), hlen, Nat.add_sub_cancel_left,
    List.getD_append _ _ _ _ hk]

theorem Frame.sent (f : Frame) (hip : f.hdr.udpIp ≠ 0) : Sent f.bytes := by
  refine ⟨by rw [f.length_bytes]; unfold serverHdrSize; omega, ?_⟩
  by_contra hno
  push Not at hno
  have hzero : ∀ k, k < 4 → (store32 f.hdr.udpIp).getD k 0 = 0 := fun k hk => by
    rw [← f.getD_udpIp hk]
    exact hno _ (by omega) (by omega)
  apply hip
  have hload := load32_store32 f.hdr.udpIp
  unfold load32 at hload
  rw [hzero 0 (by omega), hzero 1 (by omega), hzero 2 (by omega), hzero 3 (by omega)] at hload
  exact hload.symm

theorem Frame.intFrame (f : Frame) : IntFrame f.bytes := by
  intro h0
  have hlen := f.length_of_type h0
  have hsize : f.hdr.bytes = 4 := by
    rw [← UInt32.toNat_inj, f.size, hlen]
    rfl
  refine ⟨by rw [f.length_bytes, hlen]; rfl, ?_, ?_, ?_, ?_⟩
  · exact (f.getD_size (k := 0) (by omega)).trans (by rw [hsize]; rfl)
  · exact (f.getD_size (k := 1) (by omega)).trans (by rw [hsize]; rfl)
  · exact (f.getD_size (k := 2) (by omega)).trans (by rw [hsize]; rfl)
  · exact (f.getD_size (k := 3) (by omega)).trans (by rw [hsize]; rfl)

/-- A stream is displayed and acknowledged frame by frame when every chunk is a frame; and when
every frame has a sender's address, only then. -/
theorem framing_iff (hsock : sockfd ≠ 0) (hchunks : ∀ c ∈ chunks, c ≠ [] ∧ c.length ≤ buflen)
    (hstream : chunks.flatten = (frames.map Frame.bytes).flatten)
    (hr : Receives sockfd s chunks evs o) (hack : ∀ e ∈ evs, ackTaken e) :
    (chunks = frames.map Frame.bytes → Framed frames evs o) ∧
    ((∀ f ∈ frames, f.hdr.udpIp ≠ 0) →
      (Framed frames evs o ↔ chunks = frames.map Frame.bytes)) := by
  have hwhole : chunks = frames.map Frame.bytes → Framed frames evs o := by
    rintro rfl
    exact framed_of_whole hsock hr hack
  refine ⟨hwhole, fun hip => ⟨?_, hwhole⟩⟩
  rintro ⟨⟨s', rfl⟩, hshown, hacks⟩
  obtain ⟨h1, -, h3⟩ := hr.displayed hsock hack
  have hdisp : List.Forall₂ Displayed chunks (displays evs) :=
    h3 (by rw [← hshown.length_eq, ← hacks, h1])
  refine chunks_eq_of_reads hstream ?_ (fun c hc => (hchunks c hc).1) fun b hb => ?_
  · rw [List.forall₂_map_right_iff]
    refine List.forall₂_iff_get.mpr ⟨?_, fun i hi hi' => ?_⟩
    · rw [hdisp.length_eq, hshown.length_eq]
    · have hi'' : i < (displays evs).length := by rw [← hdisp.length_eq]; exact hi
      exact reads_of_shown (hchunks _ (List.get_mem _ _)).2 (hdisp.get hi hi'')
        (hshown.get hi' hi'')
  · obtain ⟨f, hf, rfl⟩ := List.mem_map.mp hb
    exact ⟨f.sent (hip f hf), f.intFrame⟩

/-! ## Two frames in one chunk -/

/-- The calls of the receive loop when the stream comes in the given chunks. -/
def receiveChunks (sockfd : ℤ) : SubscriberState → List (List Byte) →
    List (Event Sys) × Except Halt (SubscriberState × Flow)
  | s, [] => ([], .ok (s, .next))
  | s, chunk :: chunks =>
    let r := (subscriberBody sockfd s sockfd).play (fun _ => scripted 0 [] chunk) 0
    match r.2 with
    | .ok (s', .next) =>
      let r' := receiveChunks sockfd s' chunks
      (r.1 ++ r'.1, r'.2)
    | o => (r.1, o)

theorem receives_receiveChunks (hsock : sockfd ≠ 0) (s : SubscriberState)
    (chunks : List (List Byte)) :
    Receives sockfd s chunks (receiveChunks sockfd s chunks).1
      (receiveChunks sockfd s chunks).2 := by
  induction chunks generalizing s with
  | nil => exact ⟨rfl, rfl⟩
  | cons chunk chunks ih =>
    have he := Program.exec_play (fun _ => scripted 0 [] chunk) (subscriberBody sockfd s sockfd) 0
    obtain ⟨es, hes⟩ : ∃ es, ((subscriberBody sockfd s sockfd).play
        (fun _ => scripted 0 [] chunk) 0).1 =
        ⟨.recv .getMessage sockfd buflen, some chunk⟩ :: es := by
      rw [subscriberBody_sock hsock]
      exact ⟨_, rfl⟩
    unfold receiveChunks
    simp only
    rw [hes] at he ⊢
    split
    · rename_i s' ho
      rw [ho] at he
      exact ⟨es, _, _, rfl, he, ih s'⟩
    · rename_i ho
      refine ⟨es, [], _, by rw [List.append_nil], he, ?_⟩
      split
      · rename_i s' ho'
        exact absurd ho' (ho s')
      · exact ⟨rfl, rfl⟩

theorem ackTaken_scripted (chunk : List Byte) (c : Call) : ackTaken ⟨c, scripted 0 [] chunk c⟩ := by
  unfold ackTaken
  split
  · rename_i heq
    cases heq
    rfl
  · trivial

theorem ackTaken_receiveChunks (s : SubscriberState) (chunks : List (List Byte)) :
    ∀ e ∈ (receiveChunks sockfd s chunks).1, ackTaken e := by
  induction chunks generalizing s with
  | nil => intro e he; cases he
  | cons chunk chunks ih =>
    have hplay : ∀ e ∈ ((subscriberBody sockfd s sockfd).play
        (fun _ => scripted 0 [] chunk) 0).1, ackTaken e := fun e he => by
      rw [Program.mem_play he]
      exact ackTaken_scripted chunk _
    unfold receiveChunks
    simp only
    split
    · rw [List.forall_mem_append]
      exact ⟨hplay, ih _⟩
    · exact hplay

/-- A short real number. -/
def shortFrame : Frame where
  hdr := ⟨1, .ofList 3 [], 16777343, 8080, .ofList stringLen [97], 2⟩
  payload := [1, 2]
  size := rfl
  shape := Or.inr (Or.inl ⟨rfl, rfl⟩)

/-- A subscriber before its first message. -/
def subscriberIdle : SubscriberState := ⟨⟨0, 0, .ofList stringLen []⟩, 0⟩

theorem framing_iff_whole :
    Framed [shortFrame, shortFrame]
      (receiveChunks 3 subscriberIdle [shortFrame.bytes, shortFrame.bytes]).1
      (receiveChunks 3 subscriberIdle [shortFrame.bytes, shortFrame.bytes]).2 := by
  have hchunks : ∀ c ∈ [shortFrame.bytes, shortFrame.bytes], c ≠ [] ∧ c.length ≤ buflen := by
    intro c hc
    simp only [List.mem_cons, List.not_mem_nil, or_false, or_self] at hc
    subst hc
    exact ⟨by decide, shortFrame.length_le⟩
  have hstream : [shortFrame.bytes, shortFrame.bytes].flatten =
      ([shortFrame, shortFrame].map Frame.bytes).flatten := rfl
  exact (framing_iff (by decide) hchunks hstream (receives_receiveChunks (by decide) _ _)
    (ackTaken_receiveChunks _ _)).1 rfl

/-- Two frames in one chunk are displayed as one message, although the connection takes every
acknowledgement. -/
theorem framing_fails :
    (∀ e ∈ (receiveChunks 3 subscriberIdle [shortFrame.bytes ++ shortFrame.bytes]).1, ackTaken e) ∧
    Receives 3 subscriberIdle [shortFrame.bytes ++ shortFrame.bytes]
      (receiveChunks 3 subscriberIdle [shortFrame.bytes ++ shortFrame.bytes]).1
      (receiveChunks 3 subscriberIdle [shortFrame.bytes ++ shortFrame.bytes]).2 ∧
    ¬ Framed [shortFrame, shortFrame]
      (receiveChunks 3 subscriberIdle [shortFrame.bytes ++ shortFrame.bytes]).1
      (receiveChunks 3 subscriberIdle [shortFrame.bytes ++ shortFrame.bytes]).2 := by
  refine ⟨ackTaken_receiveChunks _ _, receives_receiveChunks (by decide) _ _, ?_⟩
  rintro ⟨-, hshown, -⟩
  have hone : (displays (receiveChunks 3 subscriberIdle
      [shortFrame.bytes ++ shortFrame.bytes]).1).length = 1 := by decide +kernel
  have htwo := hshown.length_eq
  rw [hone] at htwo
  cases htwo

end Framing

end TopicServer
