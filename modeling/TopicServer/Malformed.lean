import TopicServer.Codec
import TopicServer.Delivery
import TopicServer.Registry

/-!
# Malformed datagrams

The server looks at no length. An empty datagram ends it, a type above 3 leaves the size of the
message uninitialised, and what a short one lacks is read from the zeroed buffer: it is relayed
like any other. So a malformed datagram is harmless exactly when it is of the third kind and no
client would get it (`malformed_harmless_iff`).
-/

namespace TopicServer

open Interactive Linked Memory

/-- The bytes that a type has behind it at least. -/
def fixedPayload (type : Byte) : ℕ :=
  if type = 0 then 5 else if type = 1 then 2 else if type = 2 then 6 else 0

/-- A datagram that is no complete message: without the part up to the type, shorter than the
payload of its type, or of an unknown type. -/
def Malformed (datagram : List Byte) : Prop :=
  datagram.length < stringLen + 1 ∨
    datagram.length < stringLen + 1 + fixedPayload (datagram.getD stringLen 0) ∨
    3 < datagram.getD stringLen 0

/-- A call that sends on a connection. -/
def isSend : Call → Bool
  | .send .. => true
  | _ => false

/-- A publication on the topic neither reaches the client nor is kept for it. -/
def spared (topic : List Byte) (c : ClientStructure) : Bool :=
  match c.subscribedTopics.find (topicAccepted topic) with
  | .error _ => false
  | .ok _ => !deliveredTo topic c && !queuedFor topic c

/-- However the environment answers, the datagram leaves the server running and its clients as they
were, nothing is sent, and the size of the message is one that the datagram determines. -/
def Harmless (k : Sockets) (s : ServerState) (datagram : List Byte) (fromUdpStation : SockAddrIn) :
    Prop :=
  (∀ evs o, (mainBody k s k.udp).Exec
      (⟨.recvfrom k.udp maxLenBuf, some (datagram, fromUdpStation)⟩ :: evs) o →
    (∃ s', o = .ok (s', .next) ∧ s'.clientsContainer.toList = s.clientsContainer.toList) ∧
      ∀ e ∈ evs, isSend e.call = false) ∧
  ∃ n, ∀ (bytes : CharArray 4) (msg : Message),
    buildMsg (pad maxLenBuf datagram) ⟨[], 0, toInt (load32 bytes.bytes), none⟩
      (datagram.take maxLenBuf).length = .ok msg → msg.bytes = n

/-! ## Clients that get nothing -/

section Spared

variable {data topic : List Byte} {bytes : ℤ} {c : ClientStructure}

theorem sendToClient_spared (h : c.Lists) (hs : spared topic c = true) :
    sendToClient data topic bytes c = .ret c := by
  unfold spared at hs
  unfold sendToClient
  cases hr : c.subscribedTopics.find (topicAccepted topic) with
  | error e =>
    rw [hr] at hs
    cases hs
  | ok r =>
    rw [hr] at hs
    simp only [Bool.and_eq_true, Bool.not_eq_true'] at hs
    obtain ⟨hdel, hque⟩ := hs
    rcases firstAccepted_of_find h.topics hr with ⟨rfl, -⟩ | ⟨p, a, t, rfl, hmem, hacc⟩
    · rfl
    · have hoff : c.online = false := by simpa [deliveredTo, hacc] using hdel
      have hsf : t.sf = 0 := by simpa [queuedFor, hacc, hoff] using hque
      obtain ⟨nx, hd⟩ := h.topics.repr.deref_mem hmem
      simp only [mem_ok, Program.ret_bind, hoff, hd, hsf, Bool.false_eq_true, if_false, ne_eq,
        not_true_eq_false, Program.pure_eq]

/-- The walk passes clients that get nothing and leaves the list as it is. -/
theorem sendDataFrom_skip {list : LinkedList ClientStructure} {xs : List (Addr × ClientStructure)}
    {p q : Option Addr} (hl : ∀ n ∈ xs, n.2.Lists) (hs : ∀ n ∈ xs, spared topic n.2 = true)
    (hseg : Seg list.heap p xs q) (fuel : ℕ) :
    sendDataFrom data topic bytes (xs.length + fuel) p list =
      sendDataFrom data topic bytes fuel q list := by
  induction xs generalizing p with
  | nil =>
    obtain rfl := hseg
    rw [List.length_nil, Nat.zero_add]
  | cons n xs ih =>
    obtain ⟨a, c⟩ := n
    obtain ⟨rfl, nx, hg, hseg⟩ := hseg
    have hc : sendToClient data topic bytes c = .ret c :=
      sendToClient_spared (hl _ List.mem_cons_self) (hs _ List.mem_cons_self)
    have hd : deref list.heap (some a) = .ok (a, ⟨c, nx⟩) := by rw [deref, hg]
    have hm : list.modifyData a (fun _ => c) = .ok list := by
      unfold LinkedList.modifyData
      rw [hd]
      exact congrArg (fun h => Except.ok { list with heap := h }) (Heap.set_self hg)
    rw [List.length_cons, Nat.succ_add, sendDataFrom, hd]
    simp only [mem_ok, Program.ret_bind, hc, hm]
    exact ih (fun n hn => hl n (List.mem_cons_of_mem _ hn))
      (fun n hn => hs n (List.mem_cons_of_mem _ hn)) hseg

theorem sendData_spared {list : LinkedList ClientStructure} (h : list.WellFormed)
    (hl : ∀ n ∈ list.nodes, n.2.Lists) (hs : ∀ n ∈ list.nodes, spared topic n.2 = true) :
    sendData data topic list bytes = .ret list := by
  have hseg : Seg list.heap list.head list.nodes none := h.repr
  obtain ⟨fuel, hfuel⟩ := Nat.exists_eq_add_of_le hseg.length_le
  unfold sendData
  rw [hfuel, sendDataFrom_skip hl hs hseg]
  cases fuel <;> rfl

/-- A comparison that leaves its memory stops the walk. -/
theorem sendData_fault {list : LinkedList ClientStructure} {xs ys : List (Addr × ClientStructure)}
    {n : Addr × ClientStructure} {e : Fault} (h : list.WellFormed)
    (hl : ∀ n ∈ list.nodes, n.2.Lists) (hn : list.nodes = xs ++ n :: ys)
    (hs : ∀ n ∈ xs, spared topic n.2 = true)
    (he : n.2.subscribedTopics.find (topicAccepted topic) = .error e) :
    sendData data topic list bytes = .stop (.fault e) := by
  have hseg : Seg list.heap list.head list.nodes none := h.repr
  have hlen := hseg.length_le
  rw [hn] at hseg hl hlen
  rw [List.length_append, List.length_cons] at hlen
  obtain ⟨m, h1, h2⟩ := Seg.append_iff.mp hseg
  obtain ⟨a, c⟩ := n
  obtain ⟨rfl, nx, hg, -⟩ := h2
  have hd : deref list.heap (some a) = .ok (a, ⟨c, nx⟩) := by rw [deref, hg]
  obtain ⟨fuel, hfuel⟩ : ∃ fuel, list.heap.size = xs.length + (fuel + 1) :=
    ⟨list.heap.size - xs.length - 1, by omega⟩
  unfold sendData
  rw [hfuel, sendDataFrom_skip (fun n hn => hl n (List.mem_append_left _ hn)) hs h1, sendDataFrom,
    hd]
  simp only [mem_ok, Program.ret_bind, sendToClient, he, mem_error, Program.stop_bind]

/-- A client that is not spared gets the publication, has it kept, or stops the walk. -/
theorem spared_eq_false (h : spared topic c = false) :
    (∃ e, c.subscribedTopics.find (topicAccepted topic) = .error e) ∨
      deliveredTo topic c = true ∨ queuedFor topic c = true := by
  unfold spared at h
  cases hr : c.subscribedTopics.find (topicAccepted topic) with
  | error e => exact Or.inl ⟨e, rfl⟩
  | ok r =>
    rw [hr] at h
    simp only [Bool.and_eq_false_iff, Bool.not_eq_false'] at h
    exact Or.inr h

/-- Where the clients stay as they were, each was relayed to itself. -/
theorem RelayedAll.unchanged {ns ns' : List (Addr × ClientStructure)} {evs : List (Event Sys)}
    (hr : RelayedAll data topic bytes ns evs ns') (h : ns'.map Prod.snd = ns.map Prod.snd)
    {n : Addr × ClientStructure} (hn : n ∈ ns) : ∃ es, Relayed data topic bytes n.2 es n.2 := by
  induction ns generalizing evs ns' with
  | nil => cases hn
  | cons m ns ih =>
    obtain ⟨es, c', es', ns'', -, rfl, h1, h2⟩ := hr
    rw [List.map_cons, List.map_cons, List.cons.injEq] at h
    obtain ⟨rfl, h⟩ := h
    rcases List.mem_cons.mp hn with rfl | hn
    · exact ⟨es, h1⟩
    · exact ih h2 h hn

end Spared

/-! ## Receiving a malformed datagram -/

theorem getD_pad_lt {n k : ℕ} {b : List Byte} (hk : k < n) : (pad n b).getD k 0 = b.getD k 0 := by
  rcases le_total b.length n with hb | hb
  · exact getD_pad hb
  · have htake : pad n b = b.take n := by
      rw [pad, Nat.sub_eq_zero_of_le hb, List.replicate_zero, List.append_nil]
    rw [htake, List.getD_eq_getElem?_getD, List.getElem?_take_of_lt hk,
      ← List.getD_eq_getElem?_getD]

section Receive

variable {k : Sockets} {s : ServerState} {datagram : List Byte} {fromUdpStation : SockAddrIn}
  {evs : List (Event Sys)} {o : Except Halt (ServerState × Flow)}

/-- A malformed datagram of a known type is short, and what it lacks is zero. -/
theorem Malformed.relayable (h : Malformed datagram) (htype : datagram.getD stringLen 0 ≤ 3) :
    Relayable datagram ∧ datagram.length ≤ 56 := by
  have h50 : stringLen = 50 := rfl
  have hmax : maxLenBuf = 1551 := rfl
  have hfixed : fixedPayload (datagram.getD stringLen 0) ≤ 6 := by
    unfold fixedPayload
    split_ifs <;> omega
  have hlen : datagram.length ≤ 56 := by
    rcases h with h | h | h
    · omega
    · omega
    · exact absurd htype (UInt8.not_le.mpr h)
  refine ⟨⟨by omega, ?_, ?_⟩, hlen⟩
  · rw [getD_pad_lt (by decide)]
    exact htype
  · rw [pad_of_le (by omega), List.mem_append, List.mem_replicate]
    exact Or.inr ⟨by omega, rfl⟩

theorem mainBody_udp : mainBody k s k.udp = udpBranch k s >>= fun s => pure (s, .next) := by
  unfold mainBody
  rw [if_neg k.tcp_ne_udp.symm, if_pos rfl]

/-- An empty datagram ends the server. -/
theorem mainBody_empty : (mainBody k s k.udp).Exec
    [⟨.recvfrom k.udp maxLenBuf, some ([], fromUdpStation)⟩] (.error (.dieCall udpRecvErr)) := by
  rw [mainBody_udp]
  exact ⟨_, _, rfl, rfl, rfl⟩

/-- The end of the round of a datagram, once the frame is built. -/
def relayFrame (s : ServerState) (data topic : List Byte) (bytes : ℤ) : Proc (ServerState × Flow) := do
  let list ← sendData data topic s.clientsContainer bytes
  pure ({ s with clientsContainer := list }, .next)

/-- The round of a relayable datagram: nothing happens before its frame is relayed. -/
theorem mainBody_received (h : Relayable datagram) (hne : datagram ≠ [])
    (hfit : serverHdrSize + (relayedPayload (pad maxLenBuf datagram) datagram.length).length ≤
      maxLenBuf) :
    (mainBody k s k.udp).Exec
        (⟨.recvfrom k.udp maxLenBuf, some (datagram, fromUdpStation)⟩ :: evs) o ↔
      ∃ bytes slack padding es, evs = ⟨.indeterminate 4, bytes⟩ ::
        ⟨.indeterminate stringLen, slack⟩ :: ⟨.indeterminate 3, padding⟩ :: es ∧
        (relayFrame s (pad maxLenBuf (relayedFrame h hfit fromUdpStation slack padding).bytes)
          (cstr (pad maxLenBuf datagram)) (serverHdrSize +
            (relayedMessage (pad maxLenBuf datagram) datagram.length).bytes)).Exec es o := by
  have hempty : (datagram.length == 0) = false := by
    simpa using hne
  have hbuild (bytes : CharArray 4) := buildMsg_relayable h ⟨[], 0, toInt (load32 bytes.bytes), none⟩
  rw [mainBody_udp, udpBranch, Program.bind_assoc, exec_recvfrom]
  constructor
  · rintro ⟨r, rest, heq, he⟩
    cases heq
    simp only [hempty, dieCall, Program.failIf_false, Program.ret_bind, Program.bind_assoc] at he
    rw [exec_indeterminate] at he
    obtain ⟨bytes, rest, rfl, he⟩ := he
    rw [List.take_of_length_le h.length_le, hbuild, mem_ok, Program.ret_bind,
      exec_indeterminate] at he
    obtain ⟨slack, rest, rfl, he⟩ := he
    rw [exec_indeterminate] at he
    obtain ⟨padding, es, rfl, he⟩ := he
    rw [buildSentBuffer_relayed h hfit, mem_ok, Program.ret_bind] at he
    exact ⟨bytes, slack, padding, es, rfl, he⟩
  · rintro ⟨bytes, slack, padding, es, rfl, he⟩
    refine ⟨_, _, rfl, ?_⟩
    simp only [hempty, dieCall, Program.failIf_false, Program.ret_bind, Program.bind_assoc]
    rw [exec_indeterminate]
    refine ⟨bytes, _, rfl, ?_⟩
    rw [List.take_of_length_le h.length_le, hbuild, mem_ok, Program.ret_bind, exec_indeterminate]
    refine ⟨slack, _, rfl, ?_⟩
    rw [exec_indeterminate]
    refine ⟨padding, es, rfl, ?_⟩
    rw [buildSentBuffer_relayed h hfit, mem_ok, Program.ret_bind]
    exact he

/-! ## Unknown types -/

theorem buildMsg_unknown {buf : List Byte} (ht : 3 < buf.getD stringLen 0) (hnul : 0 ∈ buf)
    (msg : Message) (n : ℤ) : buildMsg buf msg n =
      .ok { msg with topic := cstr buf, type := buf.getD stringLen 0, data := none } := by
  have hne (t : Byte) (h3 : t ≤ 3) : buf.getD stringLen 0 ≠ t := fun he =>
    absurd ht (UInt8.not_lt.mpr (he ▸ h3))
  unfold buildMsg
  rw [if_neg (not_not_intro hnul)]
  simp only [if_neg (hne 0 (by decide)), if_neg (hne 1 (by decide)), if_neg (hne 2 (by decide)),
    if_neg (hne 3 (by decide))]

/-- Two values of the uninitialised memory. -/
theorem not_harmless_unknown (hne : datagram ≠ []) (ht : 3 < datagram.getD stringLen 0) :
    ¬ Harmless k s datagram fromUdpStation := by
  rintro ⟨hrun, n, hbytes⟩
  have htype : 3 < (pad maxLenBuf datagram).getD stringLen 0 := by
    rw [getD_pad_lt (by decide)]
    exact ht
  by_cases hnul : 0 ∈ pad maxLenBuf datagram
  · have h0 := hbytes (.ofList 4 []) _ (buildMsg_unknown htype hnul _ _)
    have h1 := hbytes (.ofList 4 [1]) _ (buildMsg_unknown htype hnul _ _)
    have h01 : toInt (load32 (CharArray.ofList 4 []).bytes) =
        toInt (load32 (CharArray.ofList 4 [1]).bytes) := h0.trans h1.symm
    exact absurd h01 (by decide)
  · have hempty : (datagram.length == 0) = false := by
      simpa using hne
    have hstop : (mainBody k s k.udp).Exec
        [⟨.recvfrom k.udp maxLenBuf, some (datagram, fromUdpStation)⟩,
          ⟨.indeterminate 4, .ofList 4 []⟩] (.error (.fault .outOfBounds)) := by
      rw [mainBody_udp, udpBranch, Program.bind_assoc, exec_recvfrom]
      refine ⟨_, _, rfl, ?_⟩
      simp only [hempty, dieCall, Program.failIf_false, Program.ret_bind, Program.bind_assoc]
      rw [exec_indeterminate]
      refine ⟨_, _, rfl, ?_⟩
      rw [buildMsg, if_pos hnul]
      exact ⟨rfl, rfl⟩
    obtain ⟨⟨s', hs', -⟩, -⟩ := hrun _ _ hstop
    cases hs'

/-! ## Which malformed datagrams are harmless -/

/-- Without a send there is no data frame. -/
theorem dataSends_of_no_send (h : ∀ e ∈ evs, isSend e.call = false) : dataSends evs = [] := by
  refine List.filterMap_eq_nil_iff.mpr fun e he => ?_
  have hs := h e he
  obtain ⟨c, r⟩ := e
  cases c with
  | send site fd buf => cases hs
  | _ => rfl

/-- The clients are spared if the datagram is harmless. -/
theorem Harmless.spared (hl : s.Lists) (h : Relayable datagram) (hne : datagram ≠ [])
    (hfit : serverHdrSize + (relayedPayload (pad maxLenBuf datagram) datagram.length).length ≤
      maxLenBuf) (hh : Harmless k s datagram fromUdpStation) :
    ∀ n ∈ s.clientsContainer.nodes, spared (cstr (pad maxLenBuf datagram)) n.2 = true := by
  by_contra hno
  -- the first client that is not spared
  obtain ⟨n, hfind⟩ : ∃ n, s.clientsContainer.nodes.find?
      (fun n => !TopicServer.spared (cstr (pad maxLenBuf datagram)) n.2) = some n := by
    rw [← Option.ne_none_iff_exists']
    intro hnone
    rw [List.find?_eq_none] at hnone
    exact hno fun n hn => by simpa using hnone n hn
  rw [List.find?_eq_some_iff_append, Bool.not_eq_true'] at hfind
  obtain ⟨hsp, xs, ys, hn, hxs⟩ := hfind
  have hmem : n ∈ s.clientsContainer.nodes := by
    rw [hn]
    simp
  have hxs : ∀ n ∈ xs, TopicServer.spared (cstr (pad maxLenBuf datagram)) n.2 = true :=
    fun n hn => by simpa using hxs n hn
  have hsend := Program.exec_play (fun _ => scripted 0 [] []) (sendData
    (pad maxLenBuf (relayedFrame h hfit fromUdpStation (.ofList _ []) (.ofList _ [])).bytes)
    (cstr (pad maxLenBuf datagram)) s.clientsContainer
    (serverHdrSize + (relayedMessage (pad maxLenBuf datagram) datagram.length).bytes)) 0
  generalize Program.play _ _ _ = r at hsend
  obtain ⟨es, o⟩ := r
  have hround (o : Except Halt (ServerState × Flow)) (ho : (relayFrame s
      (pad maxLenBuf (relayedFrame h hfit fromUdpStation (.ofList _ []) (.ofList _ [])).bytes)
      (cstr (pad maxLenBuf datagram))
      (serverHdrSize + (relayedMessage (pad maxLenBuf datagram) datagram.length).bytes)).Exec es o) :=
    hh.1 _ o ((mainBody_received h hne hfit).mpr ⟨.ofList 4 [], _, _, es, rfl, ho⟩)
  rcases sendData_exec hl.registry hl.clients hsend with
    ⟨list, rfl, -, hrel⟩ | ⟨e, -, -, -, -, rfl, -⟩
  · obtain ⟨⟨s', hs', hsame⟩, hnosend⟩ := hround _
      (Program.exec_bind_ok.mpr ⟨es, [], list, (List.append_nil _).symm, hsend, rfl, rfl⟩)
    cases hs'
    rcases spared_eq_false hsp with ⟨e, he⟩ | hdel | hque
    · rw [sendData_fault hl.registry hl.clients hn hxs he] at hsend
      cases hsend.2
    · have hsends := hrel.sends
      rw [dataSends_of_no_send fun e he => hnosend e (by simp [he]), eq_comm,
        List.map_eq_nil_iff, List.filter_eq_nil_iff] at hsends
      exact hsends n hmem hdel
    · obtain ⟨es', hr⟩ := hrel.unchanged hsame hmem
      obtain ⟨queue, hc, -, hq⟩ := hr.queue (hl.clients n hmem).queue
      have hqueue : n.2.queue = queue := congrArg ClientStructure.queue hc
      rw [if_pos hque, hqueue] at hq
      simp at hq
  · obtain ⟨⟨s', hs', -⟩, -⟩ := hround _ (Program.exec_bind.mpr (Or.inl ⟨e, hsend, rfl⟩))
    cases hs'

variable (fromUdpStation) in
/-- A malformed datagram is harmless exactly when it is not empty, its type is known, and every
client is spared a publication on its topic. -/
theorem malformed_harmless_iff {g : Kernel} {p : Point ServerState}
    {hs : List (Handled Sys ServerState)} (h : ServerRun k g p hs) (hd : Malformed datagram) :
    Harmless k p.state datagram fromUdpStation ↔
      datagram ≠ [] ∧ datagram.getD stringLen 0 ≤ 3 ∧
        ∀ n ∈ p.state.clientsContainer.nodes,
          spared (cstr (pad maxLenBuf datagram)) n.2 = true := by
  have hl := h.lists
  constructor
  · intro hh
    have hne : datagram ≠ [] := by
      rintro rfl
      obtain ⟨⟨s', hs', -⟩, -⟩ := hh.1 _ _ mainBody_empty
      cases hs'
    have htype : datagram.getD stringLen 0 ≤ 3 := by
      by_contra hgt
      exact not_harmless_unknown hne (UInt8.not_le.mp hgt) hh
    obtain ⟨hrel, hlen⟩ := hd.relayable htype
    have hfit := (relayed_fits_iff hrel).mpr fun _ => by omega
    exact ⟨hne, htype, hh.spared hl hrel hne hfit⟩
  · rintro ⟨hne, htype, hspared⟩
    obtain ⟨hrel, hlen⟩ := hd.relayable htype
    have hfit := (relayed_fits_iff hrel).mpr fun _ => by omega
    refine ⟨fun evs o he => ?_, (relayedMessage (pad maxLenBuf datagram) datagram.length).bytes,
      fun bytes msg hmsg => ?_⟩
    · obtain ⟨bytes, slack, padding, es, rfl, hrest⟩ := (mainBody_received hrel hne hfit).mp he
      rw [relayFrame, sendData_spared hl.registry hl.clients hspared] at hrest
      obtain ⟨rfl, rfl⟩ := hrest
      exact ⟨⟨_, rfl, rfl⟩, by simp [isSend]⟩
    · rw [List.take_of_length_le hrel.length_le, buildMsg_relayable hrel] at hmsg
      cases hmsg
      rfl

end Receive

/-- A datagram that ends behind its topic `cd`. -/
def truncatedDatagram : List Byte := [99, 100]

theorem malformed_truncated : Malformed truncatedDatagram := Or.inl (by decide)

/-- The client of another topic is spared the truncated datagram. -/
theorem malformed_harmless_iff_truncated :
    ∃ g s hs, ServerRun sockets g (.select s) hs ∧ s.clientsContainer.toList ≠ [] ∧
      Harmless sockets s truncatedDatagram ⟨0, 0⟩ := by
  obtain ⟨g, s, hs, hrun, hcheck⟩ := serveScript_check subscribedScript
    (fun x => !x.2.clientsContainer.toList.isEmpty && x.2.clientsContainer.toList.all
      (spared (cstr (pad maxLenBuf truncatedDatagram)))) (by decide +kernel)
  rw [Bool.and_eq_true, Bool.not_eq_true', List.isEmpty_eq_false_iff, List.all_eq_true] at hcheck
  refine ⟨g, s, hs, hrun, hcheck.1, ?_⟩
  exact (malformed_harmless_iff ⟨0, 0⟩ hrun malformed_truncated).mpr
    ⟨by decide, by decide, fun n hn => hcheck.2 n.2 (List.mem_map_of_mem hn)⟩

/-- The server does not survive an empty datagram. -/
theorem malformed_harmless_fails :
    ∃ g s hs, ServerRun sockets g (.select s) hs ∧ Malformed [] ∧
      ¬ Harmless sockets s [] ⟨0, 0⟩ := by
  refine ⟨_, _, _, .start, Or.inl (by decide), ?_⟩
  intro hh
  obtain ⟨⟨s', hs', -⟩, -⟩ := hh.1 _ _ mainBody_empty
  cases hs'

end TopicServer
