import TopicServer.Codec
import TopicServer.StoreForward

/-!
# The lengths of frames

Among datagrams of known types every length that the server works with is that of a frame: a short
datagram shows type 0 in the zeroed buffer, so the size of a string is never negative. The queues
hold frames only (`ServerRun.queuesFramed`), and the buffers of `empty_queue` and of the subscriber
are longer than any frame.
-/

namespace TopicServer

open Interactive Linked Memory

/-- A datagram that the server can receive and that shows a known type in the zeroed buffer. -/
def KnownType (datagram : List Byte) : Prop :=
  datagram.length ≤ maxLenBuf ∧ (pad maxLenBuf datagram).getD stringLen 0 ≤ 3

instance : DecidablePred KnownType := fun _ => inferInstanceAs (Decidable (_ ∧ _))

/-- Every datagram of a step shows a known type. -/
def ReceivesKnown (h : Handled Sys ServerState) : Prop :=
  ∀ e ∈ h.events, ∀ d, datagramOf e = some d → KnownType d.1

/-- An element of a queue that holds one whole frame. -/
def QueueElement.Framed (el : QueueElement) : Prop := ∃ f : Frame, el = ⟨f.bytes, f.bytes.length⟩

/-- The element that is kept for a publication. -/
def queuedElement (msg : Message) (buf : List Byte) : QueueElement :=
  ⟨frameOf msg buf, serverHdrSize + msg.bytes⟩

/-- The elements of all queues have a property. -/
def Queued (P : QueueElement → Prop) (s : ServerState) : Prop :=
  ∀ c ∈ s.clientsContainer.toList, ∀ el ∈ c.queue.toList, P el

/-- An element that goes into the buffer of `empty_queue`. -/
def QueueElement.Fits (el : QueueElement) : Prop := 0 ≤ el.len ∧ el.len ≤ buflen

/-- What is received into the buffer of the subscriber fits, and so does the payload that its header
announces. -/
def CopiesInside (frame : List Byte) : Prop :=
  frame.length ≤ buflen ∧
    ∃ r, extractServerToClientHeader (pad buflen frame) (.decode (pad buflen frame)) = .ok r

/-! ## One datagram -/

section Datagram

variable {datagram : List Byte} {fromUdpStation : SockAddrIn} {bytes : CharArray 4}
  {slack : CharArray stringLen} {padding : CharArray 3} {msg₀ msg : Message} {buf : List Byte}

/-- The length of the frame for a datagram lies between the header's and that of the buffer. -/
theorem message_bounds (h : KnownType datagram)
    (hmsg : buildMsg (pad maxLenBuf datagram) msg₀ datagram.length = .ok msg) :
    0 ≤ msg.bytes ∧ serverHdrSize + msg.bytes ≤ buflen := by
  have hmax : maxLenBuf = 1551 := rfl
  have hbuf : buflen = 1600 := rfl
  have hhdr : serverHdrSize = 64 := rfl
  have h50 : stringLen = 50 := rfl
  have hnul : 0 ∈ pad maxLenBuf datagram := by
    by_contra hno
    rw [buildMsg, if_pos hno] at hmsg
    cases hmsg
  have hpay := length_relayedPayload h.1
  rw [buildMsg_relayable ⟨h.1, h.2, hnul⟩] at hmsg
  cases hmsg
  have hle : (relayedPayload (pad maxLenBuf datagram) datagram.length).length ≤ 1500 := by
    have hlen := h.1
    rw [hpay]
    split_ifs <;> omega
  show (0 : ℤ) ≤ (relayedPayload (pad maxLenBuf datagram) datagram.length).length ∧
    (serverHdrSize : ℤ) + (relayedPayload (pad maxLenBuf datagram) datagram.length).length ≤ buflen
  omega

/-- What is sent for a datagram is a frame of the length that is passed on. -/
theorem publication_frame (h : KnownType datagram)
    (hpub : publication datagram fromUdpStation bytes slack padding = .ok (msg, buf)) :
    ∃ f : Frame, frameOf msg buf = f.bytes ∧ (serverHdrSize : ℤ) + msg.bytes = f.bytes.length := by
  obtain ⟨hrel, hfit⟩ := publication_fits h.1 h.2 hpub
  rw [publication_relayed hrel hfit] at hpub
  cases hpub
  refine ⟨relayedFrame hrel hfit fromUdpStation slack padding, take_relayed hrel hfit, ?_⟩
  rw [Frame.length_bytes]
  rfl

/-- Whatever the type of a datagram, what is kept of it fits. -/
theorem publication_element_fits
    (hpub : publication datagram fromUdpStation bytes slack padding = .ok (msg, buf)) :
    (queuedElement msg buf).Fits := by
  have hmax : maxLenBuf = 1551 := rfl
  have hbuf : buflen = 1600 := rfl
  have hhdr : serverHdrSize = 64 := rfl
  obtain ⟨m, -, hsend⟩ := bind_ok_iff.mp hpub
  obtain ⟨b, hsend, heq⟩ := bind_ok_iff.mp hsend
  cases heq
  show (0 : ℤ) ≤ serverHdrSize + msg.bytes ∧ (serverHdrSize : ℤ) + msg.bytes ≤ buflen
  unfold buildSentBuffer at hsend
  split at hsend
  · split_ifs at hsend with h0
    omega
  · split_ifs at hsend with hout
    omega

end Datagram

theorem copiesInside_frame (f : Frame) : CopiesInside f.bytes := by
  refine ⟨f.length_le, (f.payload, swap32 f.hdr.udpIp, swap16 f.hdr.udpPort), ?_⟩
  rw [decode_frame]
  exact extract_frame f

theorem QueueElement.Framed.bounds {el : QueueElement} (h : el.Framed) :
    (serverHdrSize : ℤ) ≤ el.len ∧ el.len ≤ buflen := by
  obtain ⟨f, rfl⟩ := h
  have hle := f.length_le
  have hlen := f.length_bytes
  show (serverHdrSize : ℤ) ≤ f.bytes.length ∧ (f.bytes.length : ℤ) ≤ buflen
  omega

theorem QueueElement.Framed.frame {el : QueueElement} (h : el.Framed) : CopiesInside el.frame := by
  obtain ⟨f, rfl⟩ := h
  have hframe : QueueElement.frame ⟨f.bytes, f.bytes.length⟩ = f.bytes := by
    rw [QueueElement.frame, Int.toNat_natCast, List.take_length]
  rw [hframe]
  exact copiesInside_frame f

/-! ## One step -/

section Steps

variable {k : Sockets} {s : ServerState} {i : ℤ} {evs : List (Event Sys)} {r : ServerState × Flow}

variable {P : QueueElement → Prop}

/-- A step keeps a property of the queues, if what it may publish has it. -/
theorem Effect.queued (he : Effect k s i evs r) (hl : s.Lists)
    (hpub : ∀ msg buf, publicationOf evs = some (msg, buf) → P (queuedElement msg buf))
    (h : Queued P s) : Queued P r.1 := by
  cases he with
  | registered _ _ _ _ hn =>
    intro c hc
    rw [LinkedList.toList, hn, List.map_append, List.mem_append] at hc
    rcases hc with hc | hc
    · exact h c hc
    · obtain rfl := List.mem_singleton.mp hc
      intro el hel
      cases hel
  | refused => exact h
  | reconnected _ _ hn _ _ _ _ hnil _ hn' =>
    refine forall_clients_replace h hn hn' fun _ el hel => ?_
    rw [LinkedList.toList, hnil] at hel
    cases hel
  | published _ hp _ hrel =>
    have hnew := hpub _ _ (publicationOf_reception hp)
    intro c' hc'
    obtain ⟨n', hn', rfl⟩ := List.mem_map.mp hc'
    obtain ⟨n, hn, -, es', hr⟩ := hrel.source hn'
    obtain ⟨queue, hc, -, hq⟩ := hr.queue (hl.clients n hn).queue
    intro el hel
    rw [hc] at hel
    rw [hq, List.mem_append] at hel
    rcases hel with hel | hel
    · exact h n.2 (List.mem_map_of_mem hn) el hel
    · split_ifs at hel
      · obtain rfl := List.mem_singleton.mp hel
        exact hnew
      · cases hel
  | ignored => exact h
  | stopped => exact h
  | subscribed _ _ hn _ _ _ _ hn' => exact forall_clients_replace h hn hn' fun hq => hq
  | unsubscribed _ _ hn _ _ _ _ hn' => exact forall_clients_replace h hn hn' fun hq => hq
  | disconnected _ _ hn _ _ _ hn' => exact forall_clients_replace h hn hn' fun hq => hq
  | unknown => exact h

end Steps

/-! ## Runs -/

section Runs

variable {k : Sockets} {g : Kernel} {p : Point ServerState} {hs : List (Handled Sys ServerState)}

/-- The queues have a property that every publication of the run has. -/
theorem ServerRun.queued {P : QueueElement → Prop} (hrun : ServerRun k g p hs)
    (hpub : ∀ x ∈ hs, ∀ msg buf, publicationOf x.events = some (msg, buf) →
      P (queuedElement msg buf)) : Queued P p.state := by
  induction hrun with
  | start => exact fun c hc => (by cases hc)
  | select _ _ _ ih => exact ih hpub
  | skip _ _ _ ih => exact ih hpub
  | done _ _ ih => exact ih hpub
  | @handle g s hs tmp i evs r hrun hle hmem he ho ih =>
    have hl : s.Lists := ServerRun.lists hrun
    rw [List.forall_mem_append, List.forall_mem_singleton] at hpub
    rw [Point.state_following]
    exact (mainBody_effect hl he).queued hl hpub.2 (ih hpub.1)

/-- A publication comes from a datagram that was received. -/
theorem publicationOf_datagram {evs : List (Event Sys)} {msg : Message} {buf : List Byte}
    (h : publicationOf evs = some (msg, buf)) : ∃ e ∈ evs, ∃ d bytes slack padding,
      datagramOf e = some d ∧ publication d.1 d.2 bytes slack padding = .ok (msg, buf) := by
  unfold publicationOf at h
  split at h
  · rename_i e bytes slack padding rest
    rw [Option.bind_eq_bind, Option.bind_eq_some_iff] at h
    obtain ⟨⟨datagram, addr⟩, hd, hpub⟩ := h
    refine ⟨e, List.mem_cons_self, ⟨datagram, addr⟩, .ofList 4 (garbageOf bytes),
      .ofList stringLen (garbageOf slack), .ofList 3 (garbageOf padding), hd, ?_⟩
    cases hr : publication datagram addr (.ofList 4 (garbageOf bytes))
        (.ofList stringLen (garbageOf slack)) (.ofList 3 (garbageOf padding)) with
    | error f =>
      simp only [hr] at hpub
      cases hpub
    | ok r =>
      simp only [hr] at hpub
      exact congrArg Except.ok (Option.some.inj hpub)
  · cases h

/-- What every run keeps in its queues fits in the buffer of `empty_queue`. -/
theorem ServerRun.queuesFit (hrun : ServerRun k g p hs) : Queued QueueElement.Fits p.state := by
  refine hrun.queued fun x _ msg buf hpub => ?_
  obtain ⟨e, -, d, bytes, slack, padding, -, hpub⟩ := publicationOf_datagram hpub
  exact publication_element_fits hpub

/-- Where all datagrams show a known type, the queues hold frames. -/
theorem ServerRun.queuesFramed (hrun : ServerRun k g p hs) (hknown : ∀ x ∈ hs, ReceivesKnown x) :
    Queued QueueElement.Framed p.state := by
  refine hrun.queued fun x hx msg buf hpub => ?_
  obtain ⟨e, he, d, bytes, slack, padding, hd, hpub⟩ := publicationOf_datagram hpub
  obtain ⟨f, hframe, hlen⟩ := publication_frame (hknown x hx e he d hd) hpub
  exact ⟨f, by rw [queuedElement, hframe, hlen]⟩

/-- A flush of a queue stays inside its buffer. -/
theorem emptyQueue_inside {c : ClientStructure} {evs : List (Event Sys)}
    {o : Except Halt ClientStructure} (h : c.queue.WellFormed)
    (hq : ∀ el ∈ c.queue.toList, el.Fits) (he : (emptyQueue c).Exec evs o) (f : Fault) :
    o ≠ .error (.fault f) := by
  rintro rfl
  rcases emptyQueue_exec h he with ⟨queue, ho, -⟩ | ⟨e, ho, hstop⟩
  · cases ho
  cases ho
  exact (hstop.broken hq).not_fault f rfl

/-- Where all datagrams show a known type, the length of every frame that is relayed or waits in a
queue lies between that of the header and `BUFLEN`, and the copies of `empty_queue` and of the
subscriber stay inside their buffers. -/
theorem frame_bounds (hrun : ServerRun k g p hs) (hknown : ∀ x ∈ hs, ReceivesKnown x) :
    (∀ datagram msg₀ msg, KnownType datagram →
      buildMsg (pad maxLenBuf datagram) msg₀ datagram.length = .ok msg →
      0 ≤ msg.bytes ∧ serverHdrSize + msg.bytes ≤ buflen) ∧
    (∀ datagram fromUdpStation bytes slack padding msg buf, KnownType datagram →
      publication datagram fromUdpStation bytes slack padding = .ok (msg, buf) →
      CopiesInside (frameOf msg buf)) ∧
    ∀ c ∈ p.state.clientsContainer.toList,
      (∀ el ∈ c.queue.toList, serverHdrSize ≤ el.len ∧ el.len ≤ buflen ∧ CopiesInside el.frame) ∧
      ∀ evs o f, (emptyQueue c).Exec evs o → o ≠ .error (.fault f) := by
  have hq := hrun.queuesFramed hknown
  refine ⟨fun _ _ _ => message_bounds, fun _ _ _ _ _ _ _ hk hpub => ?_, fun c hc => ⟨?_, ?_⟩⟩
  · obtain ⟨f, hf, -⟩ := publication_frame hk hpub
    rw [hf]
    exact copiesInside_frame f
  · intro el hel
    have hframed := hq c hc el hel
    exact ⟨hframed.bounds.1, hframed.bounds.2, hframed.frame⟩
  · obtain ⟨n, hn, rfl⟩ := List.mem_map.mp hc
    intro evs o f he
    exact emptyQueue_inside (hrun.lists.clients n hn).queue (hrun.queuesFit n.2 hc) he f

end Runs

theorem scripted_known {conn : ℤ} {datagram received : List Byte} (h : KnownType datagram)
    (c : Call) (d : List Byte × SockAddrIn)
    (hd : datagramOf ⟨c, scripted conn datagram received c⟩ = some d) : KnownType d.1 := by
  cases c with
  | recvfrom fd len =>
    cases hd
    exact h
  | _ => cases hd

/-- A client subscribes with the flag and leaves; then a string is published. -/
def waitingScript : List (ℤ × ((c : Call) → Answer c)) :=
  [(3, scripted 5 [] (idMessage [65])), (5, scripted 0 [] (commandMessage 0 1 [97])),
    (5, scripted 0 [] (commandMessage 3 0 [])),
    (4, scripted 0 (97 :: List.replicate 49 0 ++ [3, 120]) [])]

theorem frame_bounds_waiting :
    ∃ g s hs c, ServerRun sockets g (.select s) hs ∧ c ∈ s.clientsContainer.toList ∧
      c.queue.toList ≠ [] ∧ ∀ el ∈ c.queue.toList, serverHdrSize ≤ el.len ∧ el.len ≤ buflen := by
  have hcheck : (serveScript waitingScript).any (fun x =>
      x.2.clientsContainer.toList.any fun c => !c.queue.toList.isEmpty) = true := by decide +kernel
  rw [Option.any_eq_true] at hcheck
  obtain ⟨⟨g, s⟩, hsome, hcheck⟩ := hcheck
  rw [List.any_eq_true] at hcheck
  obtain ⟨c, hc, hwaiting⟩ := hcheck
  rw [Bool.not_eq_true', List.isEmpty_eq_false_iff] at hwaiting
  obtain ⟨hs, hrun, hscript⟩ := serveScript_run hsome
  have hknown : ∀ x ∈ hs, ReceivesKnown x := by
    intro x hx e he d hd
    obtain ⟨entry, hmem, hall⟩ := hscript x hx
    rw [hall e he] at hd
    simp only [waitingScript, List.mem_cons, List.not_mem_nil, or_false] at hmem
    rcases hmem with rfl | rfl | rfl | rfl
    · exact scripted_known (by decide +kernel) _ _ hd
    · exact scripted_known (by decide +kernel) _ _ hd
    · exact scripted_known (by decide +kernel) _ _ hd
    · exact scripted_known (by decide +kernel) _ _ hd
  refine ⟨g, s, hs, c, hrun, hc, hwaiting, fun el hel => ?_⟩
  obtain ⟨h1, h2, -⟩ := ((frame_bounds hrun hknown).2.2 c hc).1 el hel
  exact ⟨h1, h2⟩

end TopicServer
