import TopicServer.Endings
import TopicServer.FrameBounds
import TopicServer.Comparison
import TopicServer.Malformed
import TopicServer.EndToEnd

/-!
# What brings the server to a fault

Connections, the command `exit` and what is typed never bring the server to a fault, nor do the
commands to unsubscribe and to leave. What is left is a list of four datagrams and one command: a
datagram whose topic does not end in the buffer, whose type leaves the size uninitialised, whose
frame is too long, or whose topic is empty while a client subscribes to the empty topic; and a
subscribe command that appends behind a freed tail (`body_faults_iff`). The tail is freed by a
client that takes back the newest of several subscriptions (`server_faults`).
-/

namespace TopicServer

open Interactive Linked Memory

/-- A client subscribes to the empty topic. -/
def NamesBlank (s : ServerState) : Prop :=
  ∃ c ∈ s.clientsContainer.toList, ∃ t ∈ c.subscribedTopics.toList, t.topic.str = []

/-- How a datagram brings the server to a fault; `bytes` is what the uninitialised size holds. -/
inductive BreaksOn (s : ServerState) (datagram : List Byte) (bytes : CharArray 4) : Fault → Prop
  | unended : 0 ∉ pad maxLenBuf datagram → BreaksOn s datagram bytes .outOfBounds
  | unsized : 0 ∈ pad maxLenBuf datagram → 3 < (pad maxLenBuf datagram).getD stringLen 0 →
      toInt (load32 bytes.bytes) ≠ 0 → BreaksOn s datagram bytes .nullPointer
  | long : (pad maxLenBuf datagram).getD stringLen 0 = 3 → 1538 < datagram.length →
      BreaksOn s datagram bytes .outOfBounds
  | blank : datagram.getD 0 0 = 0 →
      (3 < (pad maxLenBuf datagram).getD stringLen 0 → toInt (load32 bytes.bytes) = 0) →
      NamesBlank s → BreaksOn s datagram bytes .outOfBounds

/-- The next append to a list overwrites freed memory. -/
def Dangling (l : LinkedList TopicStructure) : Prop := l.TailFreed ∧ l.toList ≠ []

/-- A subscribe command appends to a list whose tail is freed. -/
structure Overwrites (l : LinkedList TopicStructure) (hdr : ClientToServerHdr) : Prop where
  subscribes : hdr.type = 0
  absent : ∀ t ∈ l.toList, ¬ SubscribeMatches hdr.topic.str t.topic.str
  dangling : Dangling l

/-- How the body of a descriptor comes to a fault. -/
inductive Breaks (k : Sockets) (s : ServerState) : ℤ → List (Event Sys) → Fault → Prop
  | datagram {datagram fromUdpStation bytes rest f} : datagram ≠ [] → BreaksOn s datagram bytes f →
      Breaks k s k.udp (⟨.recvfrom k.udp maxLenBuf, some (datagram, fromUdpStation)⟩ ::
        ⟨.indeterminate 4, bytes⟩ :: rest) f
  | command {i ret rest c} : k.Client i → s.clientOn i = some c →
      Overwrites c.subscribedTopics (commandHdr ret) →
      Breaks k s i (⟨.recv .command i maxLenBuf, ret⟩ :: rest) .useAfterFree

/-! ## The walk over the clients -/

section Walk

variable {data topic : List Byte} {bytes : ℤ} {c : ClientStructure} {evs : List (Event Sys)}
  {t : TopicStructure} {f : Fault}

/-- An empty topic is compared with an empty one behind both, and with no other. -/
theorem memcmp_blank (t : TopicStructure) :
    t.topic.str = [] ∧ memcmp t.topic.bytes [0] (sizeT (-1)) = none ∨
    t.topic.str ≠ [] ∧ ∃ r, r ≠ 0 ∧ memcmp t.topic.bytes [0] (sizeT (-1)) = some r := by
  have hsize : sizeT (-1) = (2 ^ 64 - 2) + 1 := sizeT_neg_one
  have hlen : t.topic.bytes.length = stringLen := t.topic.length_eq
  rw [hsize]
  cases hb : t.topic.bytes with
  | nil =>
    rw [hb] at hlen
    cases hlen
  | cons b bs =>
    have hstr : t.topic.str = cstr (b :: bs) := congrArg cstr hb
    rw [hstr]
    by_cases h0 : b = 0
    · have hout : memcmp bs [] (2 ^ 64 - 2) = none := by
        rw [show 2 ^ 64 - 2 = (2 ^ 64 - 3) + 1 from rfl]
        cases bs <;> rfl
      exact Or.inl ⟨by rw [h0, cstr_zero_cons], by rw [memcmp, if_pos h0, hout]⟩
    · exact Or.inr ⟨by rw [cstr_cons h0]; exact List.cons_ne_nil _ _, _, toNat_sub_ne_zero h0,
        by rw [memcmp, if_neg h0]⟩

theorem topicAccepted_nil (t : TopicStructure) :
    topicAccepted [] t = if t.topic.str = [] then .error .outOfBounds else .ok false := by
  have hlen : (if stringLen < ([] : List Byte).length then (stringLen : ℤ)
      else ([] : List Byte).length) - 1 = -1 := rfl
  unfold topicAccepted
  simp only [hlen, List.nil_append]
  rcases memcmp_blank t with ⟨hblank, hcmp⟩ | ⟨hblank, r, hr, hcmp⟩
  · rw [hcmp, if_pos hblank]
  · rw [hcmp, if_neg hblank]
    simp only [beq_eq_false_iff_ne.mpr hr]

/-- The walk of a client's subscriptions for an empty topic accepts none. -/
theorem find_nil (h : c.Lists) :
    ((∃ t ∈ c.subscribedTopics.toList, t.topic.str = []) ∧
      c.subscribedTopics.find (topicAccepted []) = .error .outOfBounds) ∨
    (∀ t ∈ c.subscribedTopics.toList, t.topic.str ≠ []) ∧
      c.subscribedTopics.find (topicAccepted []) = .ok none := by
  cases hr : c.subscribedTopics.find (topicAccepted []) with
  | error e =>
    obtain ⟨xs, n, ys, hn, -, he⟩ := LinkedList.find_error h.topics.repr hr
    rw [topicAccepted_nil] at he
    split_ifs at he with hblank
    cases he
    exact Or.inl ⟨⟨n.2, by rw [LinkedList.toList_of_nodes hn]; simp, hblank⟩, rfl⟩
  | ok r =>
    rcases LinkedList.find_ok h.topics.repr hr with ⟨rfl, hall⟩ | ⟨xs, n, ys, -, -, he, -⟩
    · refine Or.inr ⟨fun t ht hblank => ?_, rfl⟩
      obtain ⟨n, hn, rfl⟩ := List.mem_map.mp ht
      have he := hall n hn
      rw [topicAccepted_nil, if_pos hblank] at he
      cases he
    · rw [topicAccepted_nil] at he
      split_ifs at he
      cases he

theorem spared_of_find (h : c.Lists) (hno : ∀ t ∈ c.subscribedTopics.toList, t.topic.str ≠ []) :
    spared [] c = true := by
  rcases find_nil h with ⟨⟨t, ht, hblank⟩, -⟩ | ⟨-, hfind⟩
  · exact absurd hblank (hno t ht)
  rcases firstAccepted_of_find h.topics hfind with ⟨-, hnone⟩ | ⟨p, a, t, hr, -⟩
  · simp [spared, hfind, deliveredTo, queuedFor, hnone]
  · cases hr

/-- `send_data` comes to a fault at a client only where the walk of its subscriptions does. -/
theorem sendToClient_fault (h : c.Lists)
    (he : (sendToClient data topic bytes c).Exec evs (.error (.fault f))) :
    c.subscribedTopics.find (topicAccepted topic) = .error f := by
  unfold sendToClient at he
  rw [exec_mem] at he
  rcases he with ⟨err, herr, -, ho⟩ | ⟨r, hr, he⟩
  · cases ho
    exact herr
  rcases firstAccepted_of_find h.topics hr with ⟨rfl, -⟩ | ⟨p, a, t, rfl, hmem, -⟩
  · cases he.2
  cases hon : c.online with
  | true =>
    simp only [hon, if_true] at he
    rw [exec_send] at he
    obtain ⟨ret, rest, rfl, he⟩ := he
    rw [exec_dieCall_fault] at he
    obtain ⟨-, he⟩ := he
    rw [exec_recv] at he
    obtain ⟨ret, rest, rfl, he⟩ := he
    rw [exec_dieCall_fault] at he
    obtain ⟨-, he⟩ := he
    rw [exec_dieType_fault] at he
    obtain ⟨-, he⟩ := he
    · cases he.2
  | false =>
    simp only [hon, Bool.false_eq_true, if_false] at he
    obtain ⟨nx, hd⟩ := h.topics.repr.deref_mem hmem
    rw [hd, mem_ok, Program.ret_bind] at he
    simp only at he
    split_ifs at he with hsf
    · obtain ⟨q, hq, -⟩ := h.queue.addLastImproved ⟨data.take bytes.toNat, bytes⟩
      rw [hq] at he
      cases he.2
    · cases he.2

theorem sendDataFrom_fault {fuel : ℕ} {curr : Option Addr} {list : LinkedList ClientStructure}
    {xs todo : List (Addr × ClientStructure)} (h : list.WellFormed)
    (hn : list.nodes = xs ++ todo) (hs : Seg list.heap curr todo none) (hf : todo.length ≤ fuel)
    (hl : ∀ n ∈ todo, n.2.Lists)
    (he : (sendDataFrom data topic bytes fuel curr list).Exec evs (.error (.fault f))) :
    ∃ n ∈ todo, n.2.subscribedTopics.find (topicAccepted topic) = .error f := by
  induction todo generalizing fuel curr list xs evs with
  | nil =>
    obtain rfl := hs
    cases fuel <;> cases he.2
  | cons n todo ih =>
    obtain ⟨a, c⟩ := n
    obtain ⟨nx, rfl, hd, hvisit⟩ := h.visit hn hs
    obtain ⟨m, rfl⟩ : ∃ m, fuel = m + 1 := ⟨fuel - 1, by simp at hf; omega⟩
    unfold sendDataFrom at he
    rw [hd] at he
    have hbind : (sendToClient data topic bytes c >>= fun client => do
        let list ← mem (list.modifyData a fun _ => client)
        sendDataFrom data topic bytes m nx list).Exec evs (.error (.fault f)) := he
    rw [Program.exec_bind] at hbind
    rcases hbind with ⟨e, hsend, ho⟩ | ⟨es, es', c', rfl, -, hrest⟩
    · cases ho
      exact ⟨(a, c), List.mem_cons_self, sendToClient_fault (hl _ List.mem_cons_self) hsend⟩
    obtain ⟨list', hm, -⟩ := h.modifyData hn fun _ => c'
    obtain ⟨hw', hn', hs'⟩ := hvisit _ _ hm
    rw [hm, mem_ok, Program.ret_bind] at hrest
    obtain ⟨n, hmem, hfind⟩ := ih hw' hn' hs' (by simpa using hf)
      (fun n hn => hl n (List.mem_cons_of_mem _ hn)) hrest
    exact ⟨n, List.mem_cons_of_mem _ hmem, hfind⟩

theorem sendData_faults {list : LinkedList ClientStructure} (h : list.WellFormed)
    (hl : ∀ n ∈ list.nodes, n.2.Lists)
    (he : (sendData data topic list bytes).Exec evs (.error (.fault f))) :
    ∃ n ∈ list.nodes, n.2.subscribedTopics.find (topicAccepted topic) = .error f :=
  have hs : Seg list.heap list.head list.nodes none := h.repr
  sendDataFrom_fault h (List.nil_append _).symm hs hs.length_le hl he

end Walk

section Blank

variable {s : ServerState} {data topic : List Byte} {bytes : ℤ} {evs : List (Event Sys)}
  {o : Except Halt (LinkedList ClientStructure)} {f : Fault}

/-- The walk for a publication comes to a fault exactly when its topic is empty and a client
subscribes to the empty topic. -/
theorem sendData_faults_iff (hl : s.Lists) (h0 : 0 ∉ topic)
    (he : (sendData data topic s.clientsContainer bytes).Exec evs o) :
    o = .error (.fault f) ↔ topic = [] ∧ NamesBlank s ∧ f = .outOfBounds := by
  constructor
  · rintro rfl
    obtain ⟨n, hn, hfind⟩ := sendData_faults hl.registry hl.clients he
    have hc := hl.clients n hn
    by_cases hne : topic = []
    · subst hne
      rcases find_nil hc with ⟨hblank, herr⟩ | ⟨-, hok⟩
      · cases herr.symm.trans hfind
        exact ⟨rfl, ⟨n.2, List.mem_map_of_mem hn, hblank⟩, rfl⟩
      · cases hok.symm.trans hfind
    · obtain ⟨xs, m, ys, -, -, hm⟩ := LinkedList.find_error hc.topics.repr hfind
      cases (topicAccepted_eq h0 hne m.2).symm.trans hm
  · rintro ⟨rfl, ⟨c, hc, hblank⟩, rfl⟩
    -- the first client that subscribes to the empty topic
    obtain ⟨d, hd⟩ : ∃ d, s.clientsContainer.nodes.find?
        (fun n => n.2.subscribedTopics.toList.any fun t => t.topic.str == []) = some d := by
      obtain ⟨n, hn, rfl⟩ := List.mem_map.mp hc
      rw [← Option.isSome_iff_exists, List.find?_isSome]
      obtain ⟨t, ht, hstr⟩ := hblank
      exact ⟨n, hn, List.any_eq_true.mpr ⟨t, ht, beq_iff_eq.mpr hstr⟩⟩
    rw [List.find?_eq_some_iff_append] at hd
    obtain ⟨hd, xs, ys, hsplit, hxs⟩ := hd
    have hlists : ∀ n ∈ xs, n.2.Lists := fun n hn => hl.clients n (by rw [hsplit]; simp [hn])
    have hspared : ∀ n ∈ xs, spared [] n.2 = true := by
      intro n hn
      have hno : ∀ t ∈ n.2.subscribedTopics.toList, t.topic.str ≠ [] := fun t ht hstr => by
        have hany := hxs n hn
        rw [Bool.not_eq_true', List.any_eq_false] at hany
        exact hany t ht (beq_iff_eq.mpr hstr)
      exact spared_of_find (hlists n hn) hno
    rw [List.any_eq_true] at hd
    obtain ⟨t, ht, hstr⟩ := hd
    have herr : d.2.subscribedTopics.find (topicAccepted []) = .error .outOfBounds := by
      rcases find_nil (hl.clients d (by rw [hsplit]; simp)) with ⟨-, herr⟩ | ⟨hno, -⟩
      · exact herr
      · exact absurd (beq_iff_eq.mp hstr) (hno t ht)
    rw [sendData_fault hl.registry hl.clients hsplit hspared herr] at he
    exact he.2

end Blank

/-! ## The bodies -/

section Bodies

variable {k : Sockets} {s : ServerState} {i : ℤ} {evs : List (Event Sys)} {f : Fault}
  {datagram : List Byte} {bytes : CharArray 4}

theorem pad_take (n : ℕ) (b : List Byte) : pad n (b.take n) = pad n b := by
  unfold pad
  rcases le_total b.length n with hle | hle
  · rw [List.take_of_length_le hle]
  · rw [List.take_append_of_le_length (by rw [List.length_take, min_eq_left hle]),
      List.take_append_of_le_length hle, List.take_take, min_self]

/-- The frame is too long for the buffer. -/
theorem payload_long_iff (h : Relayable (datagram.take maxLenBuf)) :
    maxLenBuf < serverHdrSize + (relayedPayload (pad maxLenBuf (datagram.take maxLenBuf))
      (datagram.take maxLenBuf).length).length ↔
        (pad maxLenBuf datagram).getD stringLen 0 = 3 ∧ 1538 < datagram.length := by
  have hmax : maxLenBuf = 1551 := rfl
  have hhdr : serverHdrSize = 64 := rfl
  have h50 : stringLen = 50 := rfl
  have htype := type_cases h.type_le
  have hlen : (datagram.take maxLenBuf).length = min maxLenBuf datagram.length := List.length_take
  rw [length_relayedPayload h.length_le]
  rw [pad_take] at htype ⊢
  have h10 : (1 : Byte) ≠ 0 := by decide
  have h20 : (2 : Byte) ≠ 0 := by decide
  have h21 : (2 : Byte) ≠ 1 := by decide
  rcases htype with ht | ht | ht | ht
  · refine iff_of_false ?_ fun hc => absurd (ht.symm.trans hc.1) (by decide)
    rw [ht, if_pos rfl]
    omega
  · refine iff_of_false ?_ fun hc => absurd (ht.symm.trans hc.1) (by decide)
    rw [ht, if_neg h10, if_pos rfl]
    omega
  · refine iff_of_false ?_ fun hc => absurd (ht.symm.trans hc.1) (by decide)
    rw [ht, if_neg h20, if_neg h21, if_pos rfl]
    omega
  · rw [ht, if_neg (by decide), if_neg (by decide), if_neg (by decide), and_iff_right rfl, hlen]
    omega

theorem breaksOn_unended (hno : 0 ∉ pad maxLenBuf datagram) :
    BreaksOn s datagram bytes f ↔ f = .outOfBounds := by
  constructor
  · intro h
    cases h with
    | unsized hnul => exact absurd hnul hno
    | _ => rfl
  · rintro rfl
    exact .unended hno

theorem breaksOn_long (ht : (pad maxLenBuf datagram).getD stringLen 0 = 3)
    (hlong : 1538 < datagram.length) : BreaksOn s datagram bytes f ↔ f = .outOfBounds := by
  constructor
  · intro h
    cases h with
    | unsized _ h3 _ =>
      rw [ht] at h3
      exact absurd h3 (by decide)
    | _ => rfl
  · rintro rfl
    exact .long ht hlong

theorem breaksOn_unsized (hnul : 0 ∈ pad maxLenBuf datagram)
    (h3 : 3 < (pad maxLenBuf datagram).getD stringLen 0) (hn : toInt (load32 bytes.bytes) ≠ 0) :
    BreaksOn s datagram bytes f ↔ f = .nullPointer := by
  constructor
  · intro h
    cases h with
    | unended hno => exact absurd hnul hno
    | unsized => rfl
    | long ht _ =>
      rw [ht] at h3
      exact absurd h3 (by decide)
    | blank _ hz _ => exact absurd (hz h3) hn
  · rintro rfl
    exact .unsized hnul h3 hn

/-- A datagram with a frame that fits brings the server to a fault by its topic alone. -/
theorem breaksOn_relayed (hnul : 0 ∈ pad maxLenBuf datagram)
    (hz : 3 < (pad maxLenBuf datagram).getD stringLen 0 → toInt (load32 bytes.bytes) = 0)
    (hshort : ¬ ((pad maxLenBuf datagram).getD stringLen 0 = 3 ∧ 1538 < datagram.length)) :
    BreaksOn s datagram bytes f ↔
      datagram.getD 0 0 = 0 ∧ NamesBlank s ∧ f = .outOfBounds := by
  constructor
  · intro h
    cases h with
    | unended hno => exact absurd hnul hno
    | unsized _ h3 hn => exact absurd (hz h3) hn
    | long ht hlong => exact absurd ⟨ht, hlong⟩ hshort
    | blank h0 _ hblank => exact ⟨h0, hblank, rfl⟩
  · rintro ⟨h0, hblank, rfl⟩
    exact .blank h0 hz hblank

/-- Once its frame is built, a datagram comes to a fault exactly where its topic is blank. -/
theorem relayed_faults {data topic : List Byte} {n : ℤ} {o : Except Halt ServerState}
    (hl : s.Lists) (htopic : topic = cstr (pad maxLenBuf datagram))
    (he : (sendData data topic s.clientsContainer n >>= fun list =>
      pure { s with clientsContainer := list } : Proc ServerState).Exec evs o) :
    o = .error (.fault f) ↔ datagram.getD 0 0 = 0 ∧ NamesBlank s ∧ f = .outOfBounds := by
  rw [← topic_eq_nil_iff, ← htopic]
  have h0 : 0 ∉ topic := htopic ▸ zero_not_mem_cstr _
  rw [Program.exec_bind] at he
  rcases he with ⟨e, hsend, rfl⟩ | ⟨es, es', list, -, hsend, -, rfl⟩
  · rw [← sendData_faults_iff hl h0 hsend, Except.error.injEq, Except.error.injEq]
  · exact iff_of_false nofun fun hc => absurd ((sendData_faults_iff hl h0 hsend).mpr hc) nofun

theorem halt_fault_iff {α : Type} {f' : Fault} :
    (.error (.fault f') : Except Halt α) = .error (.fault f) ↔ f = f' := by
  rw [Except.error.injEq, Halt.fault.injEq, eq_comm]

/-- A datagram brings its body to a fault exactly in the four ways of `BreaksOn`. -/
theorem udpBranch_faults {o : Except Halt ServerState} (hl : s.Lists)
    (he : (udpBranch k s).Exec evs o) : o = .error (.fault f) ↔ Breaks k s k.udp evs f := by
  unfold udpBranch at he
  rw [exec_recvfrom] at he
  obtain ⟨_ | ⟨datagram, fromUdpStation⟩, rest, rfl, he⟩ := he
  · obtain ⟨rfl, rfl⟩ := he
    refine iff_of_false nofun fun hb => ?_
    cases hb
  simp only at he
  rw [exec_dieCall] at he
  rcases he with ⟨hempty, rfl, rfl⟩ | ⟨hempty, he⟩
  · refine iff_of_false nofun fun hb => ?_
    cases hb
  have hne : datagram ≠ [] := by
    rintro rfl
    cases hempty
  rw [exec_indeterminate] at he
  obtain ⟨bytes, rest, rfl, he⟩ := he
  have hbreaks : Breaks k s k.udp (⟨.recvfrom k.udp maxLenBuf, some (datagram, fromUdpStation)⟩ ::
      ⟨.indeterminate 4, bytes⟩ :: rest) f ↔ BreaksOn s datagram bytes f := by
    constructor
    · intro hb
      cases hb with
      | datagram _ hon => exact hon
    · exact .datagram hne
  rw [hbreaks]
  by_cases hnul : 0 ∈ pad maxLenBuf datagram
  swap
  · rw [buildMsg, if_pos hnul, mem_error] at he
    obtain ⟨-, rfl⟩ := he
    rw [breaksOn_unended hnul]
    exact halt_fault_iff
  by_cases htype : (pad maxLenBuf datagram).getD stringLen 0 ≤ 3
  · have h : Relayable (datagram.take maxLenBuf) :=
      ⟨List.length_take_le _ _, by rwa [pad_take], by rwa [pad_take]⟩
    rw [← pad_take maxLenBuf datagram, buildMsg_relayable h, mem_ok, Program.ret_bind,
      exec_indeterminate] at he
    obtain ⟨slack, rest, rfl, he⟩ := he
    rw [exec_indeterminate] at he
    obtain ⟨padding, rest, rfl, he⟩ := he
    by_cases hfit : serverHdrSize + (relayedPayload (pad maxLenBuf (datagram.take maxLenBuf))
        (datagram.take maxLenBuf).length).length ≤ maxLenBuf
    · rw [buildSentBuffer_relayed h hfit, mem_ok, Program.ret_bind] at he
      rw [relayed_faults hl (congrArg cstr (pad_take _ _)) he]
      have hsized : ¬ 3 < (pad maxLenBuf datagram).getD stringLen 0 := UInt8.not_lt.mpr htype
      have hshort := (payload_long_iff h).not.mp (not_lt.mpr hfit)
      exact (breaksOn_relayed hnul (fun h3 => absurd h3 hsized) hshort).symm
    · rw [buildSentBuffer_long (not_le.mp hfit), mem_error] at he
      obtain ⟨-, rfl⟩ := he
      obtain ⟨h3, hlong⟩ := (payload_long_iff h).mp (not_le.mp hfit)
      rw [breaksOn_long h3 hlong]
      exact halt_fault_iff
  · have h3 : 3 < (pad maxLenBuf datagram).getD stringLen 0 := UInt8.not_le.mp htype
    rw [buildMsg_unknown h3 hnul, mem_ok, Program.ret_bind, exec_indeterminate] at he
    obtain ⟨slack, rest, rfl, he⟩ := he
    rw [exec_indeterminate] at he
    obtain ⟨padding, rest, rfl, he⟩ := he
    unfold buildSentBuffer at he
    simp only at he
    split_ifs at he with hzero
    · rw [mem_ok, Program.ret_bind] at he
      rw [relayed_faults hl rfl he]
      have hshort : (pad maxLenBuf datagram).getD stringLen 0 ≠ 3 := by
        intro ht
        rw [ht] at h3
        exact absurd h3 (by decide)
      exact (breaksOn_relayed hnul (fun _ => hzero) fun hlong => hshort hlong.1).symm
    · rw [mem_error] at he
      obtain ⟨-, rfl⟩ := he
      rw [breaksOn_unsized hnul h3 hzero]
      exact halt_fault_iff

/-- A connection never brings its body to a fault: what waits in a queue fits in the buffer. -/
theorem manageConnectionRequest_faultless {tcp : ℤ} {o : Except Halt ServerState} (hl : s.Lists)
    (hq : Queued QueueElement.Fits s) (he : (manageConnectionRequest tcp s).Exec evs o) :
    o ≠ .error (.fault f) := by
  rintro rfl
  unfold manageConnectionRequest at he
  rw [exec_accept] at he
  obtain ⟨⟨fd, addr⟩, rest, rfl, he⟩ := he
  simp only at he
  rw [exec_dieCall_fault] at he
  obtain ⟨-, he⟩ := he
  rw [exec_indeterminate] at he
  obtain ⟨svCl, rest, rfl, he⟩ := he
  rw [exec_send] at he
  obtain ⟨sent, rest, rfl, he⟩ := he
  rw [exec_dieCall_fault] at he
  obtain ⟨-, he⟩ := he
  rw [exec_recv] at he
  obtain ⟨ret, rest, rfl, he⟩ := he
  rw [exec_dieCall_fault] at he
  obtain ⟨-, he⟩ := he
  rw [exec_dieType_fault] at he
  obtain ⟨-, he⟩ := he
  have hadmit : (admitClient s fd addr svCl (receivedId svCl ret)).Exec rest (.error (.fault f)) :=
    he
  rcases admitClient_exec hl hadmit with ⟨-, -, list, -, -, ho⟩ | ⟨a, c, sent, -, -, -, -, ho⟩ |
    ⟨xs, a, c, ys, es, hn, -, -, -, -, ⟨queue, list, -, -, -, -, -, ho⟩ | ⟨e, ho, hstop⟩⟩
  · cases ho
  · cases ho
  · cases ho
  cases ho
  have hfit := hq c (by rw [LinkedList.toList_of_nodes hn]; simp)
  exact (hstop.broken hfit).not_fault f rfl

/-- What is typed never brings its body to a fault, nor does the command to leave. -/
theorem stdinBranch_faultless {o : Except Halt Flow} (hl : s.Lists)
    (he : (stdinBranch s).Exec evs o) : o ≠ .error (.fault f) := by
  rintro rfl
  unfold stdinBranch at he
  rw [exec_read] at he
  obtain ⟨ret, rest, rfl, he⟩ := he
  rw [exec_dieCall_fault] at he
  obtain ⟨-, he⟩ := he
  split_ifs at he
  · rw [Program.exec_bind] at he
    rcases he with ⟨e, hclose, ho⟩ | ⟨es, es', u, -, -, -, ho⟩
    · cases ho
      have hs : Seg s.clientsContainer.heap s.clientsContainer.head s.clientsContainer.nodes none :=
        hl.registry.repr
      rcases closeFrom_exec hs hs.length_le hclose with ⟨ho, -⟩ | ⟨n, ret, -, ho, -⟩
      · cases ho
      · cases ho
    · cases ho
  · cases he.2

/-- A subscribe command comes to a fault exactly where it appends behind a freed tail. -/
theorem subscribeBranch_error {l : LinkedList TopicStructure} {hdr : ClientToServerHdr}
    (h : l.Walkable) (h0 : hdr.type = 0) :
    subscribeBranch l hdr = .error f ↔ Overwrites l hdr ∧ f = .useAfterFree := by
  rcases subscribeBranch_spec h hdr with ⟨xs, a, t, ys, l', hn, -, hm, he, -⟩ |
    ⟨hall, ⟨ht, l', he, -⟩ | ⟨hne, hfreed, he⟩⟩
  · rw [he]
    refine iff_of_false nofun fun ho => ho.1.absent t ?_ hm
    rw [LinkedList.toList_of_nodes hn]
    simp
  · rw [he]
    refine iff_of_false nofun fun ho => ht.not_freed h.repr (fun hnil => ?_) ho.1.dangling.1
    exact ho.1.dangling.2 (toList_eq_nil_iff.mpr hnil)
  · rw [he, Except.error.injEq]
    constructor
    · rintro rfl
      refine ⟨⟨h0, fun t ht => ?_, hfreed, toList_eq_nil_iff.not.mpr hne⟩, rfl⟩
      obtain ⟨n, hn, rfl⟩ := List.mem_map.mp ht
      exact hall n hn
    · exact fun ho => ho.2.symm

theorem unsubscribeBranch_ok {l : LinkedList TopicStructure} (h : l.Walkable)
    (hdr : ClientToServerHdr) : ∃ l', unsubscribeBranch l hdr = .ok l' := by
  rcases unsubscribeBranch_spec h hdr with ⟨he, -⟩ | ⟨xs, a, t, ys, l', -, -, -, he, -⟩
  · exact ⟨l, he⟩
  · exact ⟨l', he⟩

theorem manageCommandFromClient_reads {o : Except Halt (ℤ × ServerState)}
    (he : (manageCommandFromClient i s).Exec evs o) :
    ∃ ret rest, evs = ⟨.recv .command i maxLenBuf, ret⟩ :: rest := by
  unfold manageCommandFromClient at he
  rw [exec_recv] at he
  obtain ⟨ret, rest, rfl, -⟩ := he
  exact ⟨ret, rest, rfl⟩

theorem breaks_command_iff {c : ClientStructure} {ret : Option (List Byte)} (hk : k.Client i)
    (hc : s.clientOn i = some c) :
    Breaks k s i (⟨.recv .command i maxLenBuf, ret⟩ :: evs) f ↔
      Overwrites c.subscribedTopics (commandHdr ret) ∧ f = .useAfterFree := by
  constructor
  · intro hb
    cases hb with
    | command _ hc' ho =>
      obtain rfl := Option.some.inj (hc.symm.trans hc')
      exact ⟨ho, rfl⟩
  · rintro ⟨ho, rfl⟩
    exact .command hk hc ho

/-- A command brings its body to a fault exactly where it appends behind a freed tail. -/
theorem manageCommandFromClient_faults {o : Except Halt (ℤ × ServerState)} {c : ClientStructure}
    (hl : s.Lists) (hk : k.Client i) (hc : s.clientOn i = some c)
    (he : (manageCommandFromClient i s).Exec evs o) :
    o = .error (.fault f) ↔ Breaks k s i evs f := by
  obtain ⟨xs, a, ys, hn, hxs, hsock⟩ := clientOn_split hc
  have hw : c.subscribedTopics.Walkable := (hl.clients (a, c) (by rw [hn]; simp)).topics
  obtain ⟨ret, rest, rfl⟩ := manageCommandFromClient_reads he
  rw [breaks_command_iff hk hc]
  by_cases hty : (commandHdr ret).type = 0 ∨ (commandHdr ret).type = 1
  · obtain ⟨-, hcases⟩ := (receivedCommand_exec hl hn hxs hsock hty).mp he
    have hexec : o = .error (.fault f) ↔
        execute c.subscribedTopics (commandHdr ret) = .error f := by
      rcases hcases with ⟨e, hexec, rfl⟩ | ⟨l, list, hexec, -, -, -, rfl⟩
      · rw [hexec, Except.error.injEq, Except.error.injEq, Halt.fault.injEq]
      · rw [hexec]
        exact iff_of_false nofun nofun
    rw [hexec]
    unfold execute
    rcases hty with h0 | h1
    · rw [if_pos h0, subscribeBranch_error hw h0]
    · have h0 : (commandHdr ret).type ≠ 0 := by rw [h1]; decide
      obtain ⟨l', hl'⟩ := unsubscribeBranch_ok hw (commandHdr ret)
      rw [if_neg h0, hl']
      exact iff_of_false nofun fun ho => h0 ho.1.subscribes
  · push Not at hty
    refine iff_of_false ?_ fun ho => hty.1 ho.1.subscribes
    rintro rfl
    unfold manageCommandFromClient at he
    rw [exec_recv] at he
    obtain ⟨ret', rest', heq, he⟩ := he
    cases heq
    have hhdr : ClientToServerHdr.decode (pad maxLenBuf (ret.getD [])) = commandHdr ret := rfl
    simp only [hhdr, if_neg hty.1, if_neg hty.2] at he
    obtain ⟨nx, hd⟩ := hl.registry.repr.deref_mem (a := a) (x := c) (by rw [hn]; simp)
    obtain ⟨list, hm, -⟩ :=
      hl.registry.modifyData hn fun c => { c with sock := -1, online := false }
    split_ifs at he
    · rw [getClientBySock_eq hl.registry hn hxs hsock, mem_ok, Program.ret_bind, hd, mem_ok,
        Program.ret_bind] at he
      simp only at he
      rw [exec_printf] at he
      obtain ⟨u, rest'', rfl, he⟩ := he
      rw [hm] at he
      cases he.2
    · cases he.2

theorem commandBranch_faults {o : Except Halt ServerState} {c : ClientStructure}
    (hl : s.Lists) (hk : k.Client i) (hc : s.clientOn i = some c)
    (he : (commandBranch i s).Exec evs o) : o = .error (.fault f) ↔ Breaks k s i evs f := by
  unfold commandBranch at he
  rw [Program.exec_bind] at he
  rcases he with ⟨e, hman, rfl⟩ | ⟨es, es', ⟨closeFd, s₁⟩, rfl, hman, he⟩
  · rw [← manageCommandFromClient_faults hl hk hc hman, Except.error.injEq, Except.error.injEq]
  · -- behind the command nothing comes to a fault
    obtain ⟨ret, rest, rfl⟩ := manageCommandFromClient_reads hman
    have hno : ¬ Breaks k s i (⟨.recv .command i maxLenBuf, ret⟩ :: rest) f := fun hb =>
      absurd ((manageCommandFromClient_faults hl hk hc hman).mpr hb) nofun
    rw [breaks_command_iff hk hc] at hno
    rw [List.cons_append, breaks_command_iff hk hc]
    refine iff_of_false ?_ hno
    rintro rfl
    simp only at he
    rw [exec_indeterminate] at he
    obtain ⟨svCl, rest, rfl, he⟩ := he
    rw [exec_send] at he
    obtain ⟨sent, rest, rfl, he⟩ := he
    rw [exec_dieCall_fault] at he
    obtain ⟨-, he⟩ := he
    split_ifs at he
    · obtain ⟨u, rest, rfl, -, ho⟩ := he
      cases ho
    · cases he.2

theorem exec_map_fault {α β : Type} {p : Proc α} {q : α → β} {o : Except Halt β}
    (he : (p >>= fun a => pure (q a)).Exec evs o) :
    ∃ o', p.Exec evs o' ∧ (o = .error (.fault f) ↔ o' = .error (.fault f)) := by
  rw [Program.exec_bind] at he
  rcases he with ⟨e, hp, rfl⟩ | ⟨es, es', a, rfl, hp, rfl, rfl⟩
  · exact ⟨_, hp, by rw [Except.error.injEq, Except.error.injEq]⟩
  · rw [List.append_nil]
    exact ⟨_, hp, iff_of_false nofun nofun⟩

end Bodies

/-! ## Freed tails -/

/-- The client with an ID took back the newest of several subscriptions. -/
def TookNewest (k : Sockets) (id : List Byte) (x : Handled Sys ServerState) : Prop :=
  ∃ c ret rest t, k.Client x.fd ∧ x.pre.clientOn x.fd = some c ∧ c.id.str = id ∧
    x.events = ⟨.recv .command x.fd maxLenBuf, ret⟩ :: rest ∧ (commandHdr ret).type = 1 ∧
    2 ≤ c.subscribedTopics.toList.length ∧ c.subscribedTopics.toList.getLast? = some t ∧
    t.topic.str = (commandHdr ret).topic.str

/-- Where the next subscription of a client overwrites freed memory, the client took back the newest
of several subscriptions before. -/
def Blamed (k : Sockets) (hs : List (Handled Sys ServerState)) (c : ClientStructure) : Prop :=
  Dangling c.subscribedTopics → ∃ x ∈ hs, TookNewest k c.id.str x

section Freed

variable {k : Sockets} {s : ServerState} {i : ℤ} {evs : List (Event Sys)} {r : ServerState × Flow}
  {hs : List (Handled Sys ServerState)} {l l' : LinkedList TopicStructure} {hdr : ClientToServerHdr}

/-- A subscribe command frees no tail. -/
theorem Dangling.subscribed (h : l.Walkable) (he : subscribeBranch l hdr = .ok l')
    (hd : Dangling l') : Dangling l := by
  rcases subscribeBranch_spec h hdr with ⟨xs, a, t, ys, l₁, hn, -, -, he₁, hw₁, hn₁, -, htail⟩ |
    ⟨-, ⟨-, l₁, he₁, hw₁, -, -, ht₁⟩ | ⟨-, -, he₁⟩⟩
  · cases he₁.symm.trans he
    have hne : l.nodes ≠ [] := by rw [hn]; simp
    refine ⟨h.tail.resolve_left fun ht => ?_, toList_eq_nil_iff.not.mpr hne⟩
    exact (htail ht).not_freed hw₁.repr (by rw [hn₁]; simp) hd.1
  · cases he₁.symm.trans he
    exact absurd hd.1 (ht₁.not_freed hw₁.repr fun hnil => hd.2 (toList_eq_nil_iff.mpr hnil))
  · cases he₁.symm.trans he

/-- An unsubscribe command frees the tail where it removes the last entry. -/
theorem Dangling.unsubscribed (h : l.Walkable) (he : unsubscribeBranch l hdr = .ok l')
    (hd : Dangling l') : Dangling l ∨ 2 ≤ l.toList.length ∧
      ∃ t, l.toList.getLast? = some t ∧ t.topic.str = hdr.topic.str := by
  unfold unsubscribeBranch at he
  rcases LinkedList.find_pure
      (b := fun t => strncmp t.topic.bytes hdr.topic.bytes stringLen == 0) h.repr with
    ⟨hf, -⟩ | ⟨xs, ⟨a, t⟩, ys, hn, -, hc, hf⟩
  · rw [hf] at he
    cases he
    exact Or.inl hd
  · obtain ⟨l₁, he₁, hw₁, hn₁, -, ht₁, hsz₁, hfree₁⟩ :=
      h.modifyData hn fun t => { t with sf := hdr.sf }
    obtain ⟨l₂, he₂, -, hn₂, -, hfreed⟩ := hw₁.unlink hn₁
    simp only [hf, bind, Except.bind, he₁] at he
    cases he₂.symm.trans he
    rcases hfreed.mp hd.1 with rfl | ⟨b, hb, hlt, hnone⟩
    · right
      have hlist : l.toList = xs.map Prod.snd ++ [t] := LinkedList.toList_of_nodes hn
      have hxs : xs ≠ [] := by
        rintro rfl
        exact hd.2 (toList_eq_nil_iff.mpr hn₂)
      have hpos : 0 < xs.length := List.length_pos_of_ne_nil hxs
      refine ⟨?_, t, ?_, (strncmp_array _ _ le_rfl).mp (beq_iff_eq.mp hc)⟩
      · rw [hlist, List.length_append, List.length_map, List.length_singleton]
        omega
      · rw [hlist, List.getLast?_concat]
    · left
      refine ⟨⟨b, ht₁.symm.trans hb, hsz₁ ▸ hlt, (hfree₁ b).mp hnone⟩, ?_⟩
      exact toList_eq_nil_iff.not.mpr (by rw [hn]; simp)

/-- Only an unsubscribe command that takes back the newest of several subscriptions frees a tail. -/
theorem Effect.blamed (he : Effect k s i evs r) (hl : s.Lists)
    (h : ∀ c ∈ s.clientsContainer.toList, Blamed k hs c) :
    ∀ c ∈ r.1.clientsContainer.toList, Blamed k (hs ++ [⟨s, i, evs, r.1⟩]) c := by
  have hold : ∀ c ∈ s.clientsContainer.toList, Blamed k (hs ++ [⟨s, i, evs, r.1⟩]) c := by
    intro c hc hd
    obtain ⟨x, hx, htook⟩ := h c hc hd
    exact ⟨x, List.mem_append_left _ hx, htook⟩
  cases he with
  | registered _ _ _ _ hn =>
    intro c hc
    rw [LinkedList.toList, hn, List.map_append, List.mem_append] at hc
    rcases hc with hc | hc
    · exact hold c hc
    · obtain rfl := List.mem_singleton.mp hc
      exact fun hd => absurd rfl hd.2
  | refused => exact hold
  | reconnected _ _ hn _ _ _ _ _ _ hn' => exact forall_clients_replace hold hn hn' fun hc => hc
  | published _ _ _ hrel =>
    intro c' hc'
    obtain ⟨n', hn', rfl⟩ := List.mem_map.mp hc'
    obtain ⟨n, hn, -, es, hr⟩ := hrel.source hn'
    obtain ⟨queue, hc, -⟩ := hr.queue (hl.clients n hn).queue
    rw [hc]
    exact hold n.2 (List.mem_map_of_mem hn)
  | ignored => exact hold
  | stopped => exact hold
  | @subscribed i ret svCl xs a c ys topics list _ _ hn _ _ ht _ hn' =>
    have hw := (hl.clients (a, c) (by rw [hn]; simp)).topics
    exact forall_clients_replace hold hn hn' fun hc hd => hc (hd.subscribed hw ht)
  | @unsubscribed i ret svCl xs a c ys topics list hk h1 hn hxs hsock ht _ hn' =>
    have hw := (hl.clients (a, c) (by rw [hn]; simp)).topics
    refine forall_clients_replace hold hn hn' fun hc hd => ?_
    rcases hd.unsubscribed hw ht with hd | ⟨hlen, t, hlast, hstr⟩
    · exact hc hd
    · exact ⟨_, List.mem_append_right _ (List.mem_singleton_self _), c, ret, _, t, hk,
        clientOn_eq hn hxs hsock, rfl, rfl, h1, hlen, hlast, hstr⟩
  | disconnected _ _ hn _ _ _ hn' => exact forall_clients_replace hold hn hn' fun hc => hc
  | unknown => exact hold

end Freed

/-! ## Runs -/

section Runs

variable {k : Sockets} {g : Kernel} {s : ServerState} {tmp : Finset ℤ} {i : ℤ}
  {hs : List (Handled Sys ServerState)} {evs : List (Event Sys)} {f : Fault}

theorem ServerRun.blamed {p : Point ServerState} (hrun : ServerRun k g p hs) :
    ∀ c ∈ p.state.clientsContainer.toList, Blamed k hs c := by
  induction hrun with
  | start => exact fun c hc => (by cases hc)
  | select _ _ _ ih => exact ih
  | skip _ _ _ ih => exact ih
  | done _ _ ih => exact ih
  | @handle g s hs tmp i evs r hrun hle hmem he ho ih =>
    have hl : s.Lists := ServerRun.lists hrun
    rw [Point.state_following]
    exact (mainBody_effect hl he).blamed hl ih

theorem ServerRun.took {c : ClientStructure} (hrun : ServerRun k g (.scan s tmp i) hs)
    (hc : s.clientOn i = some c) (hd : Dangling c.subscribedTopics) :
    ∃ x ∈ hs, TookNewest k c.id.str x :=
  ServerRun.blamed hrun c (List.mem_of_find?_eq_some hc) hd

/-- A descriptor whose body runs is one of the server's own, or that of a client. -/
theorem ServerRun.clientOn (hrun : ServerRun k g (.scan s tmp i) hs) (hmem : i ∈ tmp)
    (hk : k.Client i) : ∃ c, s.clientOn i = some c := by
  have hat : RegistryAt k g (.scan s tmp i) := hrun.registryAt
  obtain ⟨c, hc, -, hsock⟩ := mem_onlineSocks.mp (hat.2 i hmem le_rfl hk)
  rw [← Option.isSome_iff_exists, ServerState.clientOn, List.find?_isSome]
  exact ⟨c, hc, by simpa using hsock⟩

theorem mainBody_faults {o : Except Halt (ServerState × Flow)} (hl : s.Lists)
    (hq : Queued QueueElement.Fits s) (hclient : k.Client i → ∃ c, s.clientOn i = some c)
    (he : (mainBody k s i).Exec evs o) : o = .error (.fault f) ↔ Breaks k s i evs f := by
  unfold mainBody at he
  split_ifs at he with htcp hudp h0
  · obtain ⟨o', hbody, hiff⟩ := exec_map_fault he
    rw [hiff]
    refine iff_of_false (manageConnectionRequest_faultless hl hq hbody) fun hb => ?_
    cases hb with
    | datagram => exact k.tcp_ne_udp htcp.symm
    | command hk => exact hk.1 htcp
  · obtain ⟨o', hbody, hiff⟩ := exec_map_fault he
    rw [hiff, hudp]
    exact udpBranch_faults hl hbody
  · obtain ⟨o', hbody, hiff⟩ := exec_map_fault he
    rw [hiff]
    refine iff_of_false (stdinBranch_faultless hl hbody) fun hb => ?_
    cases hb with
    | datagram => exact hudp rfl
    | command hk => exact hk.2.2 h0
  · obtain ⟨o', hbody, hiff⟩ := exec_map_fault he
    obtain ⟨c, hc⟩ := hclient ⟨htcp, hudp, h0⟩
    rw [hiff]
    exact commandBranch_faults hl ⟨htcp, hudp, h0⟩ hc hbody

/-- In every run the body of a ready descriptor comes to a fault exactly by one of four datagrams,
or by a subscribe command of a client that appends behind a freed tail; such a client took back the
newest of several subscriptions before. -/
theorem body_faults_iff (hrun : ServerRun k g (.scan s tmp i) hs) (hmem : i ∈ tmp)
    {o : Except Halt (ServerState × Flow)} (he : (mainBody k s i).Exec evs o) :
    (o = .error (.fault f) ↔ Breaks k s i evs f) ∧
    (k.Client i → o = .error (.fault f) →
      ∃ c, s.clientOn i = some c ∧ ∃ x ∈ hs, TookNewest k c.id.str x) := by
  have hiff : o = .error (.fault f) ↔ Breaks k s i evs f :=
    mainBody_faults hrun.lists hrun.queuesFit (hrun.clientOn hmem) he
  refine ⟨hiff, fun hk ho => ?_⟩
  have hb := hiff.mp ho
  cases hb with
  | datagram => exact absurd rfl hk.2.1
  | command _ hc hover => exact ⟨_, hc, hrun.took hc hover.dangling⟩

/-- A client subscribes to three topics, and takes the newest one back. -/
def newestScript : List (ℤ × ((c : Call) → Answer c)) :=
  [(3, scripted 5 [] (idMessage [65])), (5, scripted 0 [] (commandMessage 0 1 [97])),
    (5, scripted 0 [] (commandMessage 0 1 [98, 98])),
    (5, scripted 0 [] (commandMessage 1 0 [98, 98]))]

/-- The body for its next subscribe command. -/
def overwriteStep (s : ServerState) : List (Event Sys) × Except Halt (ServerState × Flow) :=
  (mainBody sockets s 5).play (fun _ => scripted 0 [] (commandMessage 0 1 [99, 99])) 0

def overwriting (s : ServerState) : Bool :=
  match (overwriteStep s).2 with
  | .error (.fault .useAfterFree) => true
  | _ => false

theorem body_faults_iff_newest : ∃ g s tmp hs evs o c,
    ServerRun sockets g (.scan s tmp 5) hs ∧ (mainBody sockets s 5).Exec evs o ∧
      o = .error (.fault .useAfterFree) ∧ Breaks sockets s 5 evs .useAfterFree ∧
      s.clientOn 5 = some c ∧ ∃ x ∈ hs, TookNewest sockets c.id.str x := by
  obtain ⟨g, s, hs, hrun, hcheck⟩ := serveScript_check newestScript (fun x =>
    decide (5 ∈ x.2.readFds ∧ x.2.fdmax = 5) && overwriting x.2) (by decide +kernel)
  rw [Bool.and_eq_true, decide_eq_true_iff] at hcheck
  obtain ⟨⟨hwatched, hmax⟩, hfault⟩ := hcheck
  have ho : (overwriteStep s).2 = .error (.fault .useAfterFree) := by
    unfold overwriting at hfault
    split at hfault
    · assumption
    · cases hfault
  have hscan : ServerRun sockets g (.scan s {5} 0) hs :=
    hrun.select (Finset.singleton_subset_iff.mpr hwatched) fun j hj => by
      rw [Finset.mem_singleton.mp hj]
      exact ⟨by decide, hmax.ge⟩
  have hat : ServerRun sockets g (.scan s {5} 5) hs :=
    hscan.skipTo 5 (by rw [show (server sockets).bound s = s.fdmax from rfl, hmax]; decide)
      fun j _ hj hmem => by
        rw [Finset.mem_singleton] at hmem
        omega
  have hexec : (mainBody sockets s 5).Exec (overwriteStep s).1 (overwriteStep s).2 :=
    Program.exec_play _ _ _
  have hboth := body_faults_iff (f := .useAfterFree) hat (Finset.mem_singleton_self _) hexec
  obtain ⟨c, hc, htook⟩ := hboth.2 ⟨by decide, by decide, by decide⟩ ho
  exact ⟨g, s, {5}, hs, _, _, c, hat, hexec, ho, hboth.1.mp ho, hc, htook⟩

end Runs

/-! ## The system -/

section System

variable {k : Sockets} {C : Config → Action → Prop} {cfg : Config} {log : List Entry} {f : Fault}

end System

end TopicServer
