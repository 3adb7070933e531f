import TopicServer.ServerContract
import TopicServer.SubscriberContract

/-!
# Both ends of a connection

`Wire` lists what the views of the server and of a subscriber and the messages between them can be
together, while the server still follows its protocol; `Logs` relates the commands sent,
acknowledged and executed to where the subscriber is. Each call of one of the two keeps both. A
publication that crosses a command (`Wire.crossed`) is where the wrong type of message is read:
under the stronger conditions of `strict` it does not come about.
-/

namespace TopicServer

open Interactive Memory

/-- How the commands that a subscriber sent (`S`), those that were acknowledged (`A`) and those that
the server executed (`X`) are related, with the messages `tc` on the way to the subscriber. -/
def Logs (S A X tc : List (List Byte)) : Option ClientView → Prop
  | some (.waiting false m) => S = A ++ [m] ∧ (X = A ∧ (∀ b ∈ tc, msgType b ≠ 6) ∨
      X = S ∧ ∃ r rest, tc = r :: rest ∧ msgType r = 6)
  | some (.waiting true m) => S = A ++ [m] ∧ (X = A ∨ X = S)
  | none => A <+: X ∧ X <+: S ∧ S.length ≤ A.length + 1
  | some .gone => A <+: X ∧ X <+: S ∧ S.length ≤ A.length + 1
  | _ => S = A ∧ X = A

/-- A subscriber that has ended: behind a message of the wrong type, or at the end of its program. -/
def Over : Option ClientView → Prop
  | none => True
  | some .left => True
  | some .gone => True
  | _ => False

/-- What the two ends of a connection can be, with the messages on the way to the server and to the
subscriber: the greeting, the connection at rest, a command under way, a frame under way, a command
behind the answer to a frame, `exit`, and, unless `strict`, what follows on a crossing, on a frame
of type 4 or on a refusal. -/
inductive Wire (strict : Bool) (id : List Byte) (S A X : List (List Byte)) :
    ServerView → Option ClientView → List (List Byte) → List (List Byte) → Prop
  | pending : Wire strict id S A X .pending (some .boot) [] []
  | accepted : Wire strict id S A X .accepted (some .boot) [] []
  | requested {q} : msgType q = 5 → Wire strict id S A X .asked (some .boot) [] [q]
  | greeting : Wire strict id S A X .asked (some .greeted) [] []
  | replied {r} : IdReply id r → Wire strict id S A X .asked (some .idle) [r] []
  | repliedSent {r exit m} : IdReply id r → Command exit m → X = A →
      Wire strict id S A X .asked (some (.waiting exit m)) [r, m] []
  | quiet : Wire strict id S A X (.settled id) (some .idle) [] []
  | sent {exit m} : Command exit m → X = A →
      Wire strict id S A X (.settled id) (some (.waiting exit m)) [m] []
  | running {exit m} : Command exit m → X = A →
      Wire strict id S A X (.executing id m) (some (.waiting exit m)) [] []
  | answered {m r} : msgType r = 6 →
      Wire strict id S A X (.settled id) (some (.waiting false m)) [] [r]
  | frame {d} : (strict = true → msgType d ≠ 4) →
      Wire strict id S A X (.awaiting id) (some .idle) [] [d]
  | answeredFrame {m r d} : msgType r = 6 → (strict = true → msgType d ≠ 4) →
      Wire strict id S A X (.awaiting id) (some (.waiting false m)) [] [r, d]
  | reading {type} : (strict = true → type ≠ 4) →
      Wire strict id S A X (.awaiting id) (some (.reading type)) [] []
  | acked {a} : msgType a = 4 → Wire strict id S A X (.awaiting id) (some .idle) [a] []
  | ackedSent {a exit m} : msgType a = 4 → Command exit m → X = A →
      Wire strict id S A X (.awaiting id) (some (.waiting exit m)) [a, m] []
  | crossed {exit m d} : strict = false → Command exit m → X = A →
      Wire strict id S A X (.awaiting id) (some (.waiting exit m)) [m] [d]
  | stopping {m r} : msgType r = 6 → S = A ++ [m] → X = A →
      Wire strict id S A X (.closing m) (some (.waiting true m)) [] [r]
  | leaving {m} : S = A ++ [m] → X = A → Wire strict id S A X (.closing m) (some .gone) [] []
  | stopped {m r} : msgType r = 6 →
      Wire strict id S A X .shut (some (.waiting true m)) [] [r]
  | gone : Wire strict id S A X .shut (some .gone) [] []
  | departing {cv x tc} : strict = false → Over cv →
      Wire strict id S A X (.awaiting id) cv [x] tc
  | departed {v cv tc} : strict = false → Over cv →
      v = .settled id ∨ v = .awaiting id ∨ v = .executing id [] → Wire strict id S A X v cv [] tc
  | refused {cv ts tc} : strict = false → Wire strict id S A X (.closing []) cv ts tc
  | loose {cv ts tc} : strict = false → Wire strict id S A X .shut cv ts tc

section Links

variable {strict : Bool} {id : List Byte} {S A X ts tc : List (List Byte)} {v : ServerView}
  {cv : Option ClientView} {buf m : List Byte}

/-! ## Commands and acknowledgements -/

/-- What was acknowledged was executed, what was executed was sent, and at most one command is
under way. -/
theorem Logs.prefixes (h : Logs S A X tc cv) :
    A <+: X ∧ X <+: S ∧ S.length ≤ A.length + 1 := by
  match cv with
  | none => exact h
  | some .gone => exact h
  | some (.waiting true m) =>
    obtain ⟨rfl, rfl | rfl⟩ := h
    · exact ⟨List.prefix_rfl, List.prefix_append _ _, by simp⟩
    · exact ⟨List.prefix_append _ _, List.prefix_rfl, by simp⟩
  | some (.waiting false m) =>
    obtain ⟨rfl, ⟨rfl, -⟩ | ⟨rfl, -⟩⟩ := h
    · exact ⟨List.prefix_rfl, List.prefix_append _ _, by simp⟩
    · exact ⟨List.prefix_append _ _, List.prefix_rfl, by simp⟩
  | some .boot | some .greeted | some .idle | some (.reading _) | some .left =>
    obtain ⟨rfl, rfl⟩ := h
    exact ⟨List.prefix_rfl, List.prefix_rfl, by simp⟩

/-- A message to the subscriber keeps the logs, unless it is a type 6 for a command that was not
executed. -/
theorem Logs.snoc (h : Logs S A X tc cv)
    (hbuf : ∀ m, cv = some (.waiting false m) → X = A → msgType buf ≠ 6) :
    Logs S A X (tc ++ [buf]) cv := by
  match cv with
  | some (.waiting false m) =>
    obtain ⟨hS, ⟨hX, hno⟩ | ⟨hX, r, rest, rfl, h6⟩⟩ := h
    · refine ⟨hS, Or.inl ⟨hX, List.forall_mem_append.mpr ⟨hno, ?_⟩⟩⟩
      exact List.forall_mem_singleton.mpr (hbuf m rfl hX)
    · exact ⟨hS, Or.inr ⟨hX, r, rest ++ [buf], rfl, h6⟩⟩
  | none | some .gone | some (.waiting true m) => exact h
  | some .boot | some .greeted | some .idle | some (.reading _) | some .left => exact h

/-! ## Calls of the server -/

/-- The command that is executed once its answer is sent; `exit` is over with the connection. -/
def ServerView.answers : Site → ServerView → List (List Byte)
  | .response, .executing _ m => if msgType m = 3 then [] else issued m
  | _, _ => []

theorem Command.ne_nil {exit : Bool} (h : Command exit m) : m ≠ [] := by
  rintro rfl
  have hlen := h.length
  cases hlen

theorem Command.type_three {exit : Bool} (h : Command exit m) : msgType m = 3 ↔ exit = true := by
  have htype := h.type
  cases exit with
  | true => exact iff_of_true htype rfl
  | false =>
    refine iff_of_false (fun h3 => ?_) Bool.false_ne_true
    rcases htype with h0 | h1
    · rw [h0] at h3
      cases h3
    · rw [h1] at h3
      cases h3

theorem Command.type_four {exit : Bool} (h : Command exit m) : msgType m ≠ 4 := by
  have htype := h.type
  intro h4
  cases exit with
  | true =>
    rw [if_pos rfl, h4] at htype
    cases htype
  | false =>
    rcases htype with h0 | h1
    · rw [h0] at h4
      cases h4
    · rw [h1] at h4
      cases h4

theorem Wire.accept (h : Wire strict id S A X .pending cv ts tc) :
    Wire strict id S A X .accepted cv ts tc := by
  cases h with
  | pending => exact .accepted
  | departed _ _ hv => rcases hv with hv | hv | hv <;> cases hv

theorem Wire.request (h : Wire strict id S A X .accepted cv ts tc) (h5 : msgType buf = 5) :
    Wire strict id S A X .asked cv ts (tc ++ [buf]) := by
  cases h with
  | accepted => exact .requested h5
  | departed _ _ hv => rcases hv with hv | hv | hv <;> cases hv

/-- A frame to a settled connection; with a command under way it crosses that. -/
theorem Wire.data {id' : List Byte} (h : Wire strict id S A X (.settled id') cv ts tc)
    (h4 : strict = true → msgType buf ≠ 4) (hts : strict = true → ts = []) :
    Wire strict id S A X (.awaiting id') cv ts (tc ++ [buf]) := by
  cases h with
  | quiet => exact .frame h4
  | @sent exit m hm hX =>
    have hstrict : strict = false := by
      by_contra hs
      cases hts (by simpa using hs)
    exact .crossed hstrict hm hX
  | answered h6 => exact .answeredFrame h6 h4
  | departed hs hcv hv =>
    refine .departed hs hcv (Or.inr (Or.inl ?_))
    rcases hv with hv | hv | hv <;> cases hv
    rfl

/-- A frame of type 6 is not taken for the answer to a command that is still under way. -/
theorem Wire.data_logs {id' : List Byte} (h : Wire strict id S A X (.settled id') cv ts tc)
    (hl : Logs S A X tc cv) (h6 : msgType buf = 6 → ∀ m ∈ ts, msgType m = 3) :
    Logs S A X (tc ++ [buf]) cv := by
  refine hl.snoc fun m hm hX hbuf => ?_
  subst hm
  cases h with
  | sent hcommand =>
    exact Bool.false_ne_true (hcommand.type_three.mp (h6 hbuf m List.mem_cons_self))
  | @answered _ r hr =>
    obtain ⟨hS, ⟨-, hno⟩ | ⟨hXS, -⟩⟩ := hl
    · exact hno r List.mem_cons_self hr
    · rw [hX, hS] at hXS
      simp at hXS
  | departed _ hcv => exact hcv

/-- The answer to a command. -/
theorem Wire.respond {id' : List Byte} (h : Wire strict id S A X (.executing id' m) cv ts tc)
    (hl : Logs S A X tc cv) (h6 : msgType buf = 6) :
    Wire strict id S A (X ++ (ServerView.executing id' m).answers .response)
      ((ServerView.executing id' m).sent .response) cv ts (tc ++ [buf]) ∧
    Logs S A (X ++ (ServerView.executing id' m).answers .response) (tc ++ [buf]) cv := by
  cases h with
  | @running exit m hm hX =>
    unfold ServerView.answers ServerView.sent
    cases exit with
    | true =>
      have h3 : msgType m = 3 := hm.type_three.mpr rfl
      simp only [h3, if_true, List.append_nil]
      exact ⟨.stopping h6 hl.1 hX, hl⟩
    | false =>
      have h3 : msgType m ≠ 3 := fun h3 => absurd (hm.type_three.mp h3) (by decide)
      have hissued : issued m = [m] := if_neg hm.ne_nil
      simp only [h3, if_false, hissued]
      exact ⟨.answered h6, hl.1, Or.inr ⟨by rw [hX, hl.1], buf, [], rfl, h6⟩⟩
  | departed hs hcv hv =>
    obtain ⟨rfl, rfl⟩ : id' = id ∧ m = [] := by
      rcases hv with hv | hv | hv <;> cases hv
      exact ⟨rfl, rfl⟩
    have hnil : X ++ (ServerView.executing id' []).answers .response = X := List.append_nil X
    rw [hnil]
    refine ⟨.departed hs hcv (Or.inl rfl), hl.snoc fun m hm => ?_⟩
    rw [hm] at hcv
    exact hcv.elim

/-- A message of the server keeps both ends and the logs. -/
theorem Wire.send {g : Views} {site : Site} {fd : ℤ} (hallowed : g.Allowed (.send site fd buf))
    (h : Wire strict id S A X (g fd) cv ts tc) (hl : Logs S A X tc cv)
    (hframe : site = .data ∨ site = .queued → (strict = true → msgType buf ≠ 4 ∧ ts = []) ∧
      (msgType buf = 6 → ∀ m ∈ ts, msgType m = 3))
    (hrefusal : site = .refusal → strict = false) :
    Wire strict id S A (X ++ (g fd).answers site) ((g fd).sent site) cv ts (tc ++ [buf]) ∧
      Logs S A (X ++ (g fd).answers site) (tc ++ [buf]) cv := by
  have hother : ∀ type : Byte, msgType buf = type → type ≠ 6 → Logs S A X (tc ++ [buf]) cv :=
    fun type ht hne => hl.snoc fun _ _ _ => by rw [ht]; exact hne
  have hdata : ∀ {id'}, (site = .data ∨ site = .queued) → g fd = .settled id' →
      Wire strict id S A X (.awaiting id') cv ts (tc ++ [buf]) ∧
        Logs S A X (tc ++ [buf]) cv := by
    intro id' hsite hfd
    rw [hfd] at h
    obtain ⟨hs, h6⟩ := hframe hsite
    exact ⟨h.data (fun ht => (hs ht).1) (fun ht => (hs ht).2), h.data_logs hl h6⟩
  cases site with
  | idRequest =>
    obtain ⟨hfd, h5⟩ := hallowed
    rw [hfd] at h ⊢
    rw [show X ++ ServerView.accepted.answers .idRequest = X from List.append_nil X]
    exact ⟨h.request h5, hother 5 h5 (by decide)⟩
  | data =>
    obtain ⟨id', hfd⟩ := hallowed
    rw [hfd, show X ++ (ServerView.settled id').answers .data = X from List.append_nil X]
    exact hdata (Or.inl rfl) hfd
  | queued =>
    obtain ⟨id', hfd⟩ := hallowed
    rw [hfd, show X ++ (ServerView.settled id').answers .queued = X from List.append_nil X]
    exact hdata (Or.inr rfl) hfd
  | response =>
    obtain ⟨⟨id', c, hfd⟩, h6⟩ := hallowed
    rw [hfd] at h ⊢
    exact h.respond hl h6
  | refusal =>
    obtain ⟨⟨id', fd', -, hfd, -⟩, h4⟩ := hallowed
    rw [hfd, show X ++ (ServerView.settled id').answers .refusal = X from List.append_nil X]
    exact ⟨.refused (hrefusal rfl), hother 4 h4 (by decide)⟩
  | _ => exact hallowed.elim

theorem Wire.reply (h : Wire strict id S A X .asked cv (m :: ts) tc) :
    IdReply id m ∧ Wire strict id S A X (.settled id) cv ts tc := by
  cases h with
  | replied hr => exact ⟨hr, .quiet⟩
  | repliedSent hr hm hX => exact ⟨hr, .sent hm hX⟩

/-- The acknowledgement of a frame; the server reads another message there only where a frame
crossed a command. -/
theorem Wire.ack {id' : List Byte} (h : Wire strict id S A X (.awaiting id') cv (m :: ts) tc) :
    (msgType m = 4 → Wire strict id S A X (.settled id') cv ts tc) ∧
      (msgType m ≠ 4 → strict = false) := by
  cases h with
  | acked h4 => exact ⟨fun _ => .quiet, fun hne => absurd h4 hne⟩
  | ackedSent h4 hm hX => exact ⟨fun _ => .sent hm hX, fun hne => absurd h4 hne⟩
  | crossed hs hm => exact ⟨fun h4 => absurd h4 hm.type_four, fun _ => hs⟩
  | departing hs hcv => exact ⟨fun _ => .departed hs hcv (Or.inl rfl), fun _ => hs⟩

theorem Wire.command {id' : List Byte} (h : Wire strict id S A X (.settled id') cv (m :: ts) tc) :
    Wire strict id S A X (.executing id' m) cv ts tc ∧ m.length = clientHdrSize := by
  cases h with
  | sent hm hX => exact ⟨.running hm hX, hm.length⟩

theorem Wire.reply_end (h : Wire strict id S A X .asked cv [] tc) (hcv : Over cv) : False := by
  cases h with
  | requested => exact hcv
  | greeting => exact hcv
  | departed _ _ hv => rcases hv with hv | hv | hv <;> cases hv

theorem Wire.ack_end {id' : List Byte} (h : Wire strict id S A X (.awaiting id') cv [] tc)
    (hcv : Over cv) : strict = false := by
  cases h with
  | frame => exact hcv.elim
  | answeredFrame => exact hcv.elim
  | reading => exact hcv.elim
  | departed hs => exact hs

theorem Wire.command_end {id' : List Byte} (h : Wire strict id S A X (.settled id') cv [] tc)
    (hcv : Over cv) : Wire strict id S A X (.executing id' []) cv [] tc := by
  cases h with
  | quiet => exact hcv.elim
  | answered => exact hcv.elim
  | departed hs hcv' hv =>
    obtain rfl : id' = id := by
      rcases hv with hv | hv | hv <;> cases hv
      rfl
    exact .departed hs hcv' (Or.inr (Or.inr rfl))

/-- The server closes a connection, and the command `exit` is over with it. -/
theorem Wire.close (h : Wire strict id S A X (.closing m) cv ts tc) (hl : Logs S A X tc cv)
    {fin : List (List Byte)} (hfin : fin = [] ∨ fin = issued m) :
    Wire strict id S A (X ++ fin) .shut cv ts tc ∧ Logs S A (X ++ fin) tc cv := by
  have hlog : S = A ++ [m] → X = A → X ++ fin = A ∨ X ++ fin = S := by
    rintro rfl rfl
    rcases hfin with rfl | rfl
    · exact Or.inl (List.append_nil _)
    · unfold issued
      split_ifs with hm
      · exact Or.inl (List.append_nil _)
      · exact Or.inr rfl
  cases h with
  | stopping h6 hS hX => exact ⟨.stopped h6, hS, hlog hS hX⟩
  | leaving hS hX =>
    refine ⟨.gone, ?_⟩
    rcases hlog hS hX with h | h
    · rw [h, hS]
      exact ⟨List.prefix_rfl, List.prefix_append _ _, by simp⟩
    · rw [h, hS]
      exact ⟨List.prefix_append _ _, List.prefix_rfl, by simp⟩
  | departed _ _ hv => rcases hv with hv | hv | hv <;> cases hv
  | refused hs =>
    have hnil : X ++ fin = X := by
      rcases hfin with rfl | rfl <;> exact List.append_nil X
    rw [hnil]
    exact ⟨.loose hs, hl⟩

theorem msgType_take {len : ℕ} (h : clientHdrSize + idLen ≤ len) :
    msgType (m.take len) = msgType m := by
  obtain ⟨len, rfl⟩ : ∃ l, len = l + 1 := ⟨len - 1, by unfold clientHdrSize idLen at h; omega⟩
  cases m <;> rfl

/-- A message to the server: it is what the server expects, unless a frame crossed a command. -/
theorem Wire.recv {k : Sockets} {g : Views} {site : Site} {fd : ℤ} {len : ℕ}
    (hallowed : g.Allowed (.recv site fd len)) (hlen : clientHdrSize + idLen ≤ len)
    (h : Wire strict id S A X (g fd) cv (m :: ts) tc) :
    g.Expected k (.recv site fd len) (some (m.take len)) ∧
      (∀ x, (g fd).got (m.take len) site = some x → Wire strict id S A X x cv ts tc) ∧
      ((g fd).got (m.take len) site = none → strict = false) := by
  have htype : msgType (m.take len) = msgType m := msgType_take hlen
  -- an acknowledgement
  have hack : ∀ id', g fd = .awaiting id' →
      (∀ x, (if msgType (m.take len) = 4 then some (ServerView.settled id') else none) = some x →
        Wire strict id S A X x cv ts tc) ∧
      ((if msgType (m.take len) = 4 then some (ServerView.settled id') else none) = none →
        strict = false) := by
    intro id' hfd
    rw [hfd] at h
    obtain ⟨hsettled, hlost⟩ := h.ack
    rw [htype]
    constructor
    · intro x hx
      split_ifs at hx with h4
      cases hx
      exact hsettled h4
    · intro hnone
      split_ifs at hnone with h4
      exact hlost h4
  cases site with
  | idReply =>
    have hfd : g fd = .asked := hallowed
    rw [hfd] at h ⊢
    obtain ⟨hr, hsettled⟩ := h.reply
    have htake : m.take len = m := List.take_of_length_le (by rw [hr.length]; exact hlen)
    rw [htake]
    refine ⟨⟨m, rfl, hr.length, hr.type⟩, ?_, fun hnone => ?_⟩
    · rintro x ⟨⟩
      rwa [hr.id]
    · cases hnone
  | dataAck =>
    obtain ⟨id', hfd⟩ := hallowed
    rw [hfd]
    exact ⟨rfl, hack id' hfd⟩
  | queuedAck =>
    obtain ⟨id', hfd⟩ := hallowed
    rw [hfd]
    exact ⟨rfl, hack id' hfd⟩
  | command =>
    obtain ⟨id', hfd⟩ := hallowed
    rw [hfd] at h ⊢
    obtain ⟨hrunning, hsize⟩ := h.command
    have htake : m.take len = m :=
      List.take_of_length_le (by rw [hsize]; exact le_trans (Nat.le_add_right _ _) hlen)
    rw [htake]
    refine ⟨rfl, ?_, fun hnone => ?_⟩
    · rintro x ⟨⟩
      exact hrunning
    · cases hnone
  | _ => exact hallowed.elim

/-- The end of the stream of a subscriber that has ended. -/
theorem Wire.recv_end {k : Sockets} {g : Views} {site : Site} {fd : ℤ} {len : ℕ}
    (hallowed : g.Allowed (.recv site fd len)) (h : Wire strict id S A X (g fd) cv [] tc)
    (hcv : Over cv) : g.Expected k (.recv site fd len) (some []) ∧
      (∀ x, (g fd).got [] site = some x → Wire strict id S A X x cv [] tc) ∧
      ((g fd).got [] site = none → strict = false) := by
  cases site with
  | idReply =>
    have hfd : g fd = .asked := hallowed
    rw [hfd] at h
    exact (h.reply_end hcv).elim
  | dataAck =>
    obtain ⟨id', hfd⟩ := hallowed
    rw [hfd] at h ⊢
    refine ⟨rfl, ?_, fun _ => h.ack_end hcv⟩
    rintro x ⟨⟩
  | queuedAck =>
    obtain ⟨id', hfd⟩ := hallowed
    rw [hfd] at h ⊢
    refine ⟨rfl, ?_, fun _ => h.ack_end hcv⟩
    rintro x ⟨⟩
  | command =>
    obtain ⟨id', hfd⟩ := hallowed
    rw [hfd] at h ⊢
    refine ⟨rfl, ?_, fun hnone => by cases hnone⟩
    rintro x ⟨⟩
    exact h.command_end hcv
  | _ => exact hallowed.elim

/-- The server executes a command of the subscriber, or the end of its stream. -/
theorem Wire.executing {id' : List Byte} (h : Wire strict id S A X (.executing id' m) cv ts tc) :
    id' = id ∧ (m = [] ∨ ∃ exit, Command exit m) := by
  cases h with
  | running hm => exact ⟨rfl, Or.inr ⟨_, hm⟩⟩
  | departed _ _ hv =>
    rcases hv with hv | hv | hv <;> cases hv
    exact ⟨rfl, Or.inl rfl⟩

theorem Wire.settled_id {id' : List Byte} (h : Wire strict id S A X (.settled id') cv ts tc) :
    id' = id ∧ (strict = true → cv ≠ some .gone) := by
  cases h with
  | quiet => exact ⟨rfl, fun _ => by simp⟩
  | sent => exact ⟨rfl, fun _ => by simp⟩
  | answered => exact ⟨rfl, fun _ => by simp⟩
  | departed hs _ hv =>
    refine ⟨?_, fun ht => by rw [hs] at ht; cases ht⟩
    rcases hv with hv | hv | hv <;> cases hv
    rfl

/-! ## Calls of the subscriber -/

theorem Wire.putIdReply (h : Wire strict id S A X v (some .greeted) ts tc) (hm : IdReply id m) :
    Wire strict id S A X v (some .idle) (ts ++ [m]) tc := by
  cases h with
  | greeting => exact .replied hm
  | departing _ hcv => exact hcv.elim
  | departed _ hcv => exact hcv.elim
  | refused hs => exact .refused hs
  | loose hs => exact .loose hs

/-- A command; with a message on the way to the subscriber it crosses that. -/
theorem Wire.putCommand {exit : Bool} (h : Wire strict id S A X v (some .idle) ts tc)
    (hX : X = A) (hm : Command exit m) (htc : strict = true → tc = []) :
    Wire strict id (S ++ [m]) A X v (some (.waiting exit m)) (ts ++ [m]) tc := by
  cases h with
  | replied hr => exact .repliedSent hr hm hX
  | quiet => exact .sent hm hX
  | @frame d =>
    have hstrict : strict = false := by
      by_contra hs
      cases htc (by simpa using hs)
    exact .crossed hstrict hm hX
  | acked h4 => exact .ackedSent h4 hm hX
  | departing _ hcv => exact hcv.elim
  | departed _ hcv => exact hcv.elim
  | refused hs => exact .refused hs
  | loose hs => exact .loose hs

theorem Wire.putAck {type : Byte} (h : Wire strict id S A X v (some (.reading type)) ts tc)
    (h4 : msgType m = 4) : Wire strict id S A X v
      (some (if ClientView.reading type = .reading 4 then .left else .idle)) (ts ++ [m]) tc := by
  cases h with
  | reading ht =>
    split_ifs with heq
    · have hstrict : strict = false := by
        by_contra hs
        cases heq
        exact ht (by simpa using hs) rfl
      exact .departing hstrict trivial
    · exact .acked h4
  | departing _ hcv => exact hcv.elim
  | departed _ hcv => exact hcv.elim
  | refused hs => exact .refused hs
  | loose hs => exact .loose hs

theorem Wire.getIdRequest (h : Wire strict id S A X v (some .boot) ts (m :: tc)) :
    Wire strict id S A X v (if msgType m = 5 then some .greeted else none) ts tc ∧
      (strict = true → msgType m = 5) := by
  cases h with
  | requested h5 =>
    rw [if_pos h5]
    exact ⟨.greeting, fun _ => h5⟩
  | departing _ hcv => exact hcv.elim
  | departed _ hcv => exact hcv.elim
  | refused hs => exact ⟨.refused hs, fun ht => by rw [hs] at ht; cases ht⟩
  | loose hs => exact ⟨.loose hs, fun ht => by rw [hs] at ht; cases ht⟩

theorem Wire.getMessage (h : Wire strict id S A X v (some .idle) ts (m :: tc)) :
    Wire strict id S A X v (some (.reading (msgType m))) ts tc := by
  cases h with
  | frame h4 => exact .reading h4
  | departing _ hcv => exact hcv.elim
  | departed _ hcv => exact hcv.elim
  | refused hs => exact .refused hs
  | loose hs => exact .loose hs

/-- The answer to a command: another message is read there only where it crossed the command. -/
theorem Wire.getCommandAck {c : List Byte}
    (h : Wire strict id S A X v (some (.waiting false c)) ts (m :: tc))
    (hl : Logs S A X (m :: tc) (some (.waiting false c))) :
    (msgType m = 6 → Wire strict id S S X v (some .idle) ts tc) ∧
      (msgType m ≠ 6 → Wire strict id S A X v none ts tc ∧ strict = false) := by
  cases h with
  | answered h6 => exact ⟨fun _ => .quiet, fun hne => absurd h6 hne⟩
  | answeredFrame h6 h4 => exact ⟨fun _ => .frame h4, fun hne => absurd h6 hne⟩
  | crossed hs _ hX =>
    refine ⟨fun h6 => ?_, fun _ => ⟨.departing hs trivial, hs⟩⟩
    obtain ⟨hS, ⟨-, hno⟩ | ⟨hXS, -⟩⟩ := hl
    · exact absurd h6 (hno m List.mem_cons_self)
    · rw [hX, hS] at hXS
      simp at hXS
  | departing _ hcv => exact hcv.elim
  | departed _ hcv => exact hcv.elim
  | refused hs => exact ⟨fun _ => .refused hs, fun _ => ⟨.refused hs, hs⟩⟩
  | loose hs => exact ⟨fun _ => .loose hs, fun _ => ⟨.loose hs, hs⟩⟩

theorem Wire.getExitAck {c : List Byte}
    (h : Wire strict id S A X v (some (.waiting true c)) ts (m :: tc)) :
    (msgType m = 6 → Wire strict id S A X v (some .gone) ts tc) ∧
      (msgType m ≠ 6 → Wire strict id S A X v none ts tc ∧ strict = false) := by
  cases h with
  | crossed hs =>
    exact ⟨fun _ => .departing hs trivial, fun _ => ⟨.departing hs trivial, hs⟩⟩
  | stopping h6 hS hX => exact ⟨fun _ => .leaving hS hX, fun hne => absurd h6 hne⟩
  | stopped h6 => exact ⟨fun _ => .gone, fun hne => absurd h6 hne⟩
  | departing _ hcv => exact hcv.elim
  | departed _ hcv => exact hcv.elim
  | refused hs => exact ⟨fun _ => .refused hs, fun _ => ⟨.refused hs, hs⟩⟩
  | loose hs => exact ⟨fun _ => .loose hs, fun _ => ⟨.loose hs, hs⟩⟩

/-- At the end of the stream a subscriber that still reads was not left by its own `exit`. -/
theorem Wire.get_end (h : Wire strict id S A X .shut cv ts []) (hcv : cv ≠ some .gone) :
    strict = false := by
  cases h with
  | gone => exact absurd rfl hcv
  | departed hs => exact hs
  | loose hs => exact hs

/-- A subscriber leaves at a message of type 4 only. -/
theorem Wire.left_loose (h : Wire strict id S A X v (some .left) ts tc) : strict = false := by
  cases h with
  | departing hs => exact hs
  | departed hs => exact hs
  | refused hs => exact hs
  | loose hs => exact hs

/-- The answer that the subscriber takes for its command belongs to it. -/
theorem Logs.getCommandAck {c : List Byte} (h : Logs S A X (m :: tc) (some (.waiting false c)))
    (h6 : msgType m = 6) : A ++ S.getLast?.toList = S ∧ Logs S S X tc (some .idle) := by
  obtain ⟨hS, ⟨-, hno⟩ | ⟨hX, -⟩⟩ := h
  · exact absurd h6 (hno m List.mem_cons_self)
  · refine ⟨?_, rfl, hX⟩
    rw [hS, List.getLast?_append, List.getLast?_singleton]
    rfl

theorem Logs.putCommand {exit : Bool} (h : Logs S A X tc (some .idle))
    (htc : exit = false → ∀ b ∈ tc, msgType b ≠ 6) :
    Logs (S ++ [m]) A X tc (some (.waiting exit m)) := by
  obtain ⟨rfl, hX⟩ := h
  cases exit with
  | true => exact ⟨rfl, Or.inl hX⟩
  | false => exact ⟨rfl, Or.inl ⟨hX, htc rfl⟩⟩

/-! ### Any call of the subscriber -/

/-- Behind its program a subscriber stays where it is. -/
theorem ClientView.next_over {c : ClientView} {sockfd : ℤ} {call : Call} {r : Answer call}
    (hc : c = .left ∨ c = .gone) (h : c.Allowed id sockfd call) : c.next call r = some c := by
  cases call with
  | send site fd buf =>
    cases site with
    | putIdReply | putCommand | putExit =>
      obtain ⟨hv, -⟩ := h
      rcases hc with rfl | rfl <;> cases hv
    | putAck =>
      obtain ⟨⟨type, hv⟩, -⟩ := h
      rcases hc with rfl | rfl <;> cases hv
    | _ => exact h.elim
  | recv site fd len =>
    cases site with
    | getIdRequest | getMessage =>
      obtain ⟨hv, -⟩ := h
      rcases hc with rfl | rfl <;> cases hv
    | getCommandAck | getExitAck =>
      obtain ⟨⟨m, hv⟩, -⟩ := h
      rcases hc with rfl | rfl <;> cases hv
    | _ => exact h.elim
  | _ => rfl

section Calls

variable {c : ClientView} {site : Site} {sockfd fd : ℤ} {len : ℕ}

/-- The commands sent, when the subscriber sends `buf`. -/
def sentWith (site : Site) (buf : List Byte) (S : List (List Byte)) : List (List Byte) :=
  if site = .putCommand ∨ site = .putExit then S ++ [buf] else S

/-- The commands acknowledged, when the subscriber receives `m`. -/
def ackedWith (site : Site) (m : List Byte) (S A : List (List Byte)) : List (List Byte) :=
  if site = .getCommandAck ∧ msgType m = 6 then A ++ S.getLast?.toList else A

theorem Wire.put (hallowed : c.Allowed id sockfd (.send site fd buf))
    (h : Wire strict id S A X v (some c) ts tc) (hl : Logs S A X tc (some c))
    (htc : strict = true → site = .putCommand ∨ site = .putExit → tc = []) :
    Wire strict id (sentWith site buf S) A X v (c.next (.send site fd buf) true) (ts ++ [buf])
      tc := by
  cases site with
  | putIdReply =>
    obtain ⟨rfl, -, hr⟩ := hallowed
    exact h.putIdReply hr
  | putCommand =>
    obtain ⟨rfl, -, hm⟩ := hallowed
    exact h.putCommand hl.2 hm fun hs => htc hs (Or.inl rfl)
  | putExit =>
    obtain ⟨rfl, -, hm⟩ := hallowed
    exact h.putCommand hl.2 hm fun hs => htc hs (Or.inr rfl)
  | putAck =>
    obtain ⟨⟨type, rfl⟩, -, h4⟩ := hallowed
    exact h.putAck h4
  | _ => exact hallowed.elim

theorem Logs.put (hallowed : c.Allowed id sockfd (.send site fd buf))
    (hl : Logs S A X tc (some c)) (htc : site = .putCommand → ∀ b ∈ tc, msgType b ≠ 6) :
    Logs (sentWith site buf S) A X tc (c.next (.send site fd buf) true) := by
  cases site with
  | putIdReply =>
    obtain ⟨rfl, -⟩ := hallowed
    exact hl
  | putCommand =>
    obtain ⟨rfl, -⟩ := hallowed
    show Logs (S ++ [buf]) A X tc (some (.waiting false buf))
    exact hl.putCommand fun _ => htc rfl
  | putExit =>
    obtain ⟨rfl, -⟩ := hallowed
    show Logs (S ++ [buf]) A X tc (some (.waiting true buf))
    exact hl.putCommand fun he => by cases he
  | putAck =>
    obtain ⟨⟨type, rfl⟩, -⟩ := hallowed
    show Logs S A X tc (some (if ClientView.reading type = .reading 4 then .left else .idle))
    split_ifs <;> exact hl
  | _ => exact hallowed.elim

theorem Wire.get (hallowed : c.Allowed id sockfd (.recv site fd len))
    (hlen : clientHdrSize + idLen ≤ len) (h : Wire strict id S A X v (some c) ts (m :: tc))
    (hl : Logs S A X (m :: tc) (some c)) :
    Wire strict id S (ackedWith site m S A) X v
        (c.next (.recv site fd len) (some (m.take len))) ts tc ∧
      (strict = true → (c.next (.recv site fd len) (some (m.take len))).isSome) := by
  have htype : replyType (some (m.take len)) = msgType m := msgType_take hlen
  cases site with
  | getIdRequest =>
    obtain ⟨rfl, -⟩ := hallowed
    show Wire strict id S A X v (if replyType (some (m.take len)) = 5 then _ else none) ts tc ∧
      (_ → (if replyType (some (m.take len)) = 5 then _ else none).isSome)
    rw [htype]
    refine ⟨h.getIdRequest.1, fun hs => ?_⟩
    rw [if_pos (h.getIdRequest.2 hs)]
    rfl
  | getMessage =>
    obtain ⟨rfl, -⟩ := hallowed
    show Wire strict id S A X v (some (.reading (replyType (some (m.take len))))) ts tc ∧ _
    rw [htype]
    exact ⟨h.getMessage, fun _ => rfl⟩
  | getCommandAck =>
    obtain ⟨⟨command, rfl⟩, -⟩ := hallowed
    show Wire strict id S _ X v (if replyType (some (m.take len)) = 6 then _ else none) ts tc ∧
      (_ → (if replyType (some (m.take len)) = 6 then _ else none).isSome)
    rw [htype]
    obtain ⟨h6, hne⟩ := h.getCommandAck hl
    split_ifs with ht
    · rw [ackedWith, if_pos ⟨rfl, ht⟩, (hl.getCommandAck ht).1]
      exact ⟨h6 ht, fun _ => rfl⟩
    · rw [ackedWith, if_neg fun hc => ht hc.2]
      refine ⟨(hne ht).1, fun hs => ?_⟩
      rw [(hne ht).2] at hs
      cases hs
  | getExitAck =>
    obtain ⟨⟨command, rfl⟩, -⟩ := hallowed
    show Wire strict id S A X v (if replyType (some (m.take len)) = 6 then _ else none) ts tc ∧
      (_ → (if replyType (some (m.take len)) = 6 then _ else none).isSome)
    rw [htype]
    obtain ⟨h6, hne⟩ := h.getExitAck
    split_ifs with ht
    · exact ⟨h6 ht, fun _ => rfl⟩
    · refine ⟨(hne ht).1, fun hs => ?_⟩
      rw [(hne ht).2] at hs
      cases hs
  | _ => exact hallowed.elim

theorem Logs.get (hallowed : c.Allowed id sockfd (.recv site fd len))
    (hlen : clientHdrSize + idLen ≤ len) (hl : Logs S A X (m :: tc) (some c)) :
    Logs S (ackedWith site m S A) X tc (c.next (.recv site fd len) (some (m.take len))) := by
  have htype : replyType (some (m.take len)) = msgType m := msgType_take hlen
  cases site with
  | getIdRequest =>
    obtain ⟨rfl, -⟩ := hallowed
    show Logs S A X tc (if replyType (some (m.take len)) = 5 then _ else none)
    split_ifs
    · exact hl
    · exact hl.prefixes
  | getMessage =>
    obtain ⟨rfl, -⟩ := hallowed
    exact hl
  | getCommandAck =>
    obtain ⟨⟨command, rfl⟩, -⟩ := hallowed
    show Logs S _ X tc (if replyType (some (m.take len)) = 6 then _ else none)
    rw [htype]
    split_ifs with ht
    · obtain ⟨hS, hlogs⟩ := hl.getCommandAck ht
      rwa [ackedWith, if_pos ⟨rfl, ht⟩, hS]
    · rw [ackedWith, if_neg fun hc => ht hc.2]
      exact hl.prefixes
  | getExitAck =>
    obtain ⟨⟨command, rfl⟩, -⟩ := hallowed
    show Logs S A X tc (if replyType (some (m.take len)) = 6 then _ else none)
    split_ifs
    · exact hl.prefixes
    · exact hl.prefixes
  | _ => exact hallowed.elim

theorem Logs.get_end (hallowed : c.Allowed id sockfd (.recv site fd len))
    (hl : Logs S A X tc (some c)) :
    Logs S A X tc (c.next (.recv site fd len) (some [])) := by
  cases site with
  | getIdRequest =>
    obtain ⟨rfl, -⟩ := hallowed
    exact hl.prefixes
  | getMessage =>
    obtain ⟨rfl, -⟩ := hallowed
    exact hl
  | getCommandAck | getExitAck =>
    obtain ⟨⟨command, rfl⟩, -⟩ := hallowed
    exact hl.prefixes
  | _ => exact hallowed.elim

end Calls

end Links

/-! ## The room for messages -/

section Room

variable {sockfd : ℤ}

theorem roomy_recv {site : Site} {fd : ℤ} {len : ℕ} (h : clientHdrSize + idLen ≤ len) :
    Roomy (.recv site fd len) := h

theorem lineBranch_roomy {s : SubscriberState} : (lineBranch sockfd s).Calls Roomy := by
  obtain ⟨rest, hline, hcalls⟩ := lineBranch_calls
  rw [hline]
  refine ⟨trivial, fun ret => (hcalls ret).mono fun c hc => ?_⟩
  cases c with
  | recv site fd len =>
    cases site with
    | getCommandAck =>
      obtain rfl : len = serverHdrSize + 1 := hc
      exact roomy_recv (by decide)
    | getExitAck =>
      obtain rfl : len = buflen := hc
      exact roomy_recv (by decide)
    | _ => exact hc.elim
  | _ => trivial

theorem messageBranch_roomy {s : SubscriberState} : (messageBranch sockfd s).Calls Roomy :=
  messageBranch_calls (roomy_recv (by decide)) trivial (fun _ => trivial) fun _ => trivial

theorem subscriberBody_roomy (s : SubscriberState) (i : ℤ) :
    ((subscriber sockfd).body s i).Calls Roomy := by
  show (subscriberBody sockfd s i).Calls Roomy
  unfold subscriberBody
  split_ifs
  · exact lineBranch_roomy.bind fun _ => trivial
  · exact messageBranch_roomy
  · trivial

theorem subscriberFinish_roomy (s : SubscriberState) : ((subscriber sockfd).finish s).Calls Roomy :=
  calls_ask trivial fun _ => trivial

theorem subscriberStart_roomy (id : List Byte) : (subscriberStart id sockfd).Calls Roomy := by
  unfold subscriberStart manageId
  refine calls_ask trivial fun clsHdr => calls_ask trivial fun sf => ?_
  refine Program.Calls.bind ?_ fun _ => trivial
  refine calls_ask (roomy_recv (by decide)) fun ret => calls_die (calls_die ?_)
  refine calls_ask trivial fun clSv => calls_ask trivial fun idTail => calls_ask trivial fun sent => ?_
  cases sent <;> trivial

end Room

end TopicServer
