import TopicServer.FrameBounds
import TopicServer.Malformed
import TopicServer.SystemLog

/-!
# What the server sends

Whatever the server sends is a message of its own, of a type that the subscriber does not display,
or the frame of a datagram that it received before (`Issued`): also what waited in a queue. So every
message that is displayed comes from a datagram (`sent_issued`), and every message is not empty and
fits in the buffer of a subscriber (`WellFramed`).
-/

namespace TopicServer

open Interactive Linked Memory

/-- A message that the subscriber does not display. -/
def Hidden (m : List Byte) : Prop := 3 < msgType m ∧ m ≠ [] ∧ m.length ≤ buflen

/-- A whole frame, or a message that is not displayed. -/
def WellFramed (m : List Byte) : Prop := (∃ f : Frame, m = f.bytes) ∨ Hidden m

/-- The frame of a datagram that was received. -/
def PublishedIn (evs : List (Event Sys)) (m : List Byte) : Prop :=
  ∃ e ∈ evs, ∃ datagram fromUdpStation bytes slack padding msg buf,
    datagramOf e = some (datagram, fromUdpStation) ∧
    publication datagram fromUdpStation bytes slack padding = .ok (msg, buf) ∧
    m = frameOf msg buf

/-- A message of the server's own, or the frame of a datagram that was received. -/
def Issued (evs : List (Event Sys)) (m : List Byte) : Prop := Hidden m ∨ PublishedIn evs m

/-- What the server sends was issued. -/
def SendsIssued (evs : List (Event Sys)) : Call → Prop
  | .send _ _ buf => Issued evs buf
  | _ => True

/-- What waits in the queues was issued. -/
abbrev QueuesIssued (evs : List (Event Sys)) (s : ServerState) : Prop :=
  Queued (fun el => Issued evs el.frame) s

/-! ## Messages -/

section Messages

variable {m : List Byte} {evs evs' : List (Event Sys)}

theorem WellFramed.ne_nil (h : WellFramed m) : m ≠ [] := by
  rcases h with ⟨f, rfl⟩ | ⟨-, h, -⟩
  · have hlen := f.length_bytes
    have hhdr : serverHdrSize = 64 := rfl
    intro hnil
    rw [hnil, List.length_nil] at hlen
    omega
  · exact h

theorem WellFramed.length_le (h : WellFramed m) : m.length ≤ buflen := by
  rcases h with ⟨f, rfl⟩ | ⟨-, -, h⟩
  · exact f.length_le
  · exact h

/-- The messages of the server's own: a type behind which the header is not set. -/
theorem hidden_hdr {t : Byte} {svCl : CharArray serverHdrSize} {rest : List Byte} (ht : 3 < t)
    (hlen : rest.length ≤ 1) : Hidden (t :: svCl.bytes.drop 1 ++ rest) := by
  have hhdr : serverHdrSize = 64 := rfl
  have hbuf : buflen = 1600 := rfl
  refine ⟨ht, List.cons_ne_nil _ _, ?_⟩
  rw [List.cons_append, List.length_cons, List.length_append, List.length_drop, svCl.length_eq]
  omega

theorem hidden_type {t : Byte} {svCl : CharArray serverHdrSize} (ht : 3 < t) :
    Hidden (t :: svCl.bytes.drop 1) := by
  have h : Hidden (t :: svCl.bytes.drop 1 ++ []) := hidden_hdr ht (by decide)
  rwa [List.append_nil] at h

theorem PublishedIn.mono (h : PublishedIn evs m) (hsub : evs ⊆ evs') : PublishedIn evs' m := by
  obtain ⟨e, he, hpub⟩ := h
  exact ⟨e, hsub he, hpub⟩

theorem Issued.mono (h : Issued evs m) (hsub : evs ⊆ evs') : Issued evs' m :=
  h.imp_right fun h => h.mono hsub

theorem SendsIssued.mono {c : Call} (h : SendsIssued evs c) (hsub : evs ⊆ evs') :
    SendsIssued evs' c := by
  cases c with
  | send site fd buf => exact Issued.mono h hsub
  | _ => trivial

end Messages

/-! ## Publications -/

section Publications

variable {datagram : List Byte} {fromUdpStation : SockAddrIn} {bytes : CharArray 4}
  {slack : CharArray stringLen} {padding : CharArray 3} {msg : Message} {buf : List Byte}

/-- Only the part of a datagram that fits in the buffer counts. -/
theorem publication_take :
    publication (datagram.take maxLenBuf) fromUdpStation bytes slack padding =
      publication datagram fromUdpStation bytes slack padding := by
  have hpad : pad maxLenBuf (datagram.take maxLenBuf) = pad maxLenBuf datagram := by
    unfold pad
    rw [List.take_append, List.take_take, min_self, List.take_append, List.length_take]
    congr 1
    by_cases h : datagram.length ≤ maxLenBuf
    · rw [min_eq_right h]
    · rw [min_eq_left (by omega), Nat.sub_self, Nat.sub_eq_zero_of_le (by omega)]
  unfold publication
  rw [hpad, List.take_take, min_self]

/-- The frame for the part of a datagram that fits in the buffer. -/
def Relays (datagram : List Byte) (fromUdpStation : SockAddrIn) (f : Frame) : Prop :=
  ∃ (h : Relayable (datagram.take maxLenBuf))
    (hfit : serverHdrSize + (relayedPayload (pad maxLenBuf (datagram.take maxLenBuf))
      (datagram.take maxLenBuf).length).length ≤ maxLenBuf) (slack : CharArray stringLen)
    (padding : CharArray 3), f = relayedFrame h hfit fromUdpStation slack padding

/-- What is published of a datagram is its frame, or not displayed. -/
theorem publication_relays
    (hpub : publication datagram fromUdpStation bytes slack padding = .ok (msg, buf)) :
    (∃ f, Relays datagram fromUdpStation f ∧ frameOf msg buf = f.bytes) ∨
      Hidden (frameOf msg buf) := by
  rw [← publication_take] at hpub
  have hle : (datagram.take maxLenBuf).length ≤ maxLenBuf := List.length_take_le _ _
  by_cases ht : (pad maxLenBuf (datagram.take maxLenBuf)).getD stringLen 0 ≤ 3
  · obtain ⟨hrel, hfit⟩ := publication_fits hle ht hpub
    rw [publication_relayed hrel hfit] at hpub
    cases hpub
    exact Or.inl ⟨_, ⟨hrel, hfit, slack, padding, rfl⟩, take_relayed hrel hfit⟩
  · -- such a message has no data, so only its header is sent
    rw [UInt8.not_le] at ht
    obtain ⟨m, hmsg, hsend⟩ := bind_ok_iff.mp hpub
    obtain ⟨b, hsend, heq⟩ := bind_ok_iff.mp hsend
    cases heq
    have hnul : 0 ∈ pad maxLenBuf (datagram.take maxLenBuf) := by
      by_contra hno
      rw [buildMsg, if_pos hno] at hmsg
      cases hmsg
    rw [buildMsg_unknown ht hnul] at hmsg
    cases hmsg
    unfold buildSentBuffer at hsend
    dsimp only at hsend
    split_ifs at hsend with h0
    cases hsend
    refine Or.inr ?_
    unfold frameOf
    rw [show (⟨_, _, toInt (load32 bytes.bytes), _⟩ : Message).bytes = 0 from h0, add_zero,
      Int.toNat_natCast, pad_of_le (by rw [ServerToClientHdr.length_encode]; decide),
      List.take_left' (ServerToClientHdr.length_encode _)]
    refine ⟨ht, List.cons_ne_nil _ _, ?_⟩
    rw [ServerToClientHdr.length_encode]
    decide

/-- What was issued is the frame of a datagram that was received, or not displayed. -/
theorem Issued.cases {evs : List (Event Sys)} {m : List Byte} (h : Issued evs m) :
    (∃ e ∈ evs, ∃ d f, datagramOf e = some d ∧ Relays d.1 d.2 f ∧ m = f.bytes) ∨ Hidden m := by
  rcases h with h | ⟨e, he, datagram, addr, bytes, slack, padding, msg, buf, hd, hpub, rfl⟩
  · exact Or.inr h
  · rcases publication_relays hpub with ⟨f, hf, heq⟩ | h
    · exact Or.inl ⟨e, he, _, f, hd, hf, heq⟩
    · exact Or.inr h

theorem Issued.wellFramed {evs : List (Event Sys)} {m : List Byte} (h : Issued evs m) :
    WellFramed m := by
  rcases h.cases with ⟨e, -, d, f, -, -, rfl⟩ | h
  · exact Or.inl ⟨f, rfl⟩
  · exact Or.inr h

end Publications

/-! ## The calls of the server -/

/-- What the server calls besides the messages of its clients: it sends messages of its own, takes
acknowledgements, prints, closes and reads memory. -/
def Routine : Call → Prop
  | .send _ _ buf => Hidden buf
  | .recv site _ _ => site = .dataAck ∨ site = .queuedAck ∨ site = .shutdownAck
  | .close _ => True
  | .printf _ => True
  | .indeterminate _ => True
  | _ => False

section Calls

variable {k : Sockets} {s : ServerState} {A : Call → Prop}

/-- A frame is sent to a client that is online, where a subscription accepts it. -/
theorem sendToClient_sends (hroutine : ∀ c, Routine c → A c) {data topic : List Byte} {bytes : ℤ}
    {c : ClientStructure} (h : c.subscribedTopics.Walkable)
    (hsend : c.online = true → ∀ t, firstAccepted topic c = some t →
      A (.send .data c.sock (data.take bytes.toNat))) :
    (sendToClient data topic bytes c).Calls A := by
  unfold sendToClient
  refine calls_mem_ok fun found hfound => ?_
  rcases firstAccepted_of_find h hfound with ⟨rfl, -⟩ | ⟨p, a, t, rfl, -, ht⟩
  · trivial
  split_ifs with hon
  · exact calls_ask (hsend hon t ht) fun ret => calls_die
      (calls_ask (hroutine _ (Or.inl rfl)) fun ret => calls_die (calls_die trivial))
  · refine calls_mem fun node => ?_
    dsimp only
    split_ifs
    · exact calls_mem fun _ => trivial
    · trivial

theorem sendDataFrom_sends (hroutine : ∀ c, Routine c → A c) {data topic : List Byte} {bytes : ℤ}
    {fuel : ℕ} {curr : Option Addr} {list : LinkedList ClientStructure}
    {xs todo : List (Addr × ClientStructure)} (h : list.WellFormed)
    (hn : list.nodes = xs ++ todo) (hs : Seg list.heap curr todo none)
    (hl : ∀ n ∈ todo, n.2.Lists)
    (hsend : ∀ n ∈ todo, n.2.online = true → ∀ t, firstAccepted topic n.2 = some t →
      A (.send .data n.2.sock (data.take bytes.toNat))) :
    (sendDataFrom data topic bytes fuel curr list).Calls A := by
  induction todo generalizing fuel curr list xs with
  | nil =>
    obtain rfl := hs
    cases fuel <;> trivial
  | cons n todo ih =>
    obtain ⟨a, c⟩ := n
    obtain ⟨next, rfl, hd, hvisit⟩ := h.visit hn hs
    rw [List.forall_mem_cons] at hl hsend
    cases fuel with
    | zero => trivial
    | succ fuel =>
      unfold sendDataFrom
      rw [hd, mem_ok, Program.ret_bind]
      refine (sendToClient_sends hroutine hl.1.topics hsend.1).bind fun c' => ?_
      refine calls_mem_ok fun list' hlist' => ?_
      obtain ⟨hw', hn', hs'⟩ := hvisit _ _ hlist'
      exact ih hw' hn' hs' hl.2 hsend.2

theorem emptyQueueLoop_sends (hroutine : ∀ c, Routine c → A c) {sock : ℤ} {fuel : ℕ}
    {queue : LinkedList QueueElement} (h : queue.WellFormed)
    (hsend : ∀ el ∈ queue.toList, A (.send .queued sock el.frame)) :
    (emptyQueueLoop sock fuel queue).Calls A := by
  induction fuel generalizing queue with
  | zero =>
    unfold emptyQueueLoop
    cases queue.head <;> trivial
  | succ fuel ih =>
    unfold emptyQueueLoop
    cases hh : queue.head with
    | none => trivial
    | some a =>
      cases hn : queue.nodes with
      | nil =>
        have hnone := h.repr.head_eq_none.mpr hn
        rw [hh] at hnone
        cases hnone
      | cons n ns =>
        obtain ⟨a, el⟩ := n
        obtain ⟨l', hrem, hw', hn', hheap⟩ := h.removeFirst hn
        obtain ⟨nx, hd⟩ := h.repr.deref_mem (a := a) (x := el) (by rw [hn]; simp)
        have hlist : queue.toList = el :: l'.toList := by
          rw [LinkedList.toList, hn, List.map_cons, ← hn', ← LinkedList.toList]
        rw [hlist, List.forall_mem_cons] at hsend
        simp only [hrem, mem_ok, Program.ret_bind, hheap, hd]
        refine calls_mem fun _ => calls_ask hsend.1 fun ret => calls_die ?_
        exact calls_ask (hroutine _ (Or.inr (Or.inl rfl))) fun ret =>
          calls_die (calls_die (ih hw' hsend.2))

/-- Behind its ID a client is sent what waits in its queue, unless it is refused. -/
theorem admitClient_sends (hroutine : ∀ c, Routine c → A c) {fd : ℤ} {addr : SockAddrIn}
    {svCl : CharArray serverHdrSize} {id : CharArray idLen} (hl : s.Lists)
    (hsend : ∀ c ∈ s.clientsContainer.toList, c.id.str = id.str → ∀ el ∈ c.queue.toList,
      A (.send .queued fd el.frame)) :
    (admitClient s fd addr svCl id).Calls A := by
  unfold admitClient
  refine calls_mem_ok fun old hold => ?_
  cases old with
  | none => exact calls_ask (hroutine _ trivial) fun _ => calls_mem fun list => trivial
  | some old =>
    rcases getClientById_spec hl.registry _ with ⟨hnone, -⟩ | ⟨xs, a, c, ys, hn, hid, hsome⟩
    · rw [hnone] at hold
      cases hold
    rw [hsome] at hold
    obtain rfl := Option.some.inj (Except.ok.inj hold)
    have hmem : (a, c) ∈ s.clientsContainer.nodes := by rw [hn]; simp
    obtain ⟨nx, hd⟩ := hl.registry.repr.deref_mem hmem
    dsimp only
    rw [hd, mem_ok, Program.ret_bind]
    dsimp only
    split_ifs
    · exact calls_ask (hroutine _ trivial) fun _ =>
        calls_ask (hroutine _ (hidden_type (by decide))) fun _ =>
          calls_ask (hroutine _ trivial) fun _ => trivial
    · refine calls_ask (hroutine _ trivial) fun _ => Program.Calls.bind ?_ fun client =>
        calls_mem fun list => trivial
      exact (emptyQueueLoop_sends hroutine (hl.clients _ hmem).queue
        (hsend c (List.mem_map_of_mem hmem) hid)).bind fun queue => trivial

theorem closeFrom_hidden (hroutine : ∀ c, Routine c → A c) {list : LinkedList ClientStructure}
    {fuel : ℕ} {curr : Option Addr} : (closeFrom list fuel curr).Calls A := by
  induction fuel generalizing curr with
  | zero => cases curr <;> trivial
  | succ fuel ih =>
    cases curr with
    | none => trivial
    | some a =>
      unfold closeFrom
      refine calls_mem fun node => calls_ask (hroutine _ trivial) fun svCl => ?_
      exact calls_ask (hroutine _ (hidden_type (by decide))) fun _ =>
        calls_ask (hroutine _ (Or.inr (Or.inr rfl))) fun ret =>
          calls_die (calls_ask (hroutine _ trivial) fun _ => ih)

/-- Before its answer a command is received, and one that leaves is printed. -/
theorem manageCommandFromClient_calls {i : ℤ}
    (hrecv : A (.recv .command i maxLenBuf)) (hprint : ∀ line, A (.printf line)) :
    (manageCommandFromClient i s).Calls A := by
  unfold manageCommandFromClient
  refine calls_ask hrecv fun ret => ?_
  dsimp only
  split_ifs
  · exact calls_mem fun client => calls_mem fun node => calls_mem fun topics =>
      calls_mem fun list => trivial
  · exact calls_mem fun client => calls_mem fun node => calls_mem fun topics =>
      calls_mem fun list => trivial
  · exact calls_mem fun client => calls_mem fun node => calls_ask (hprint _) fun _ =>
      calls_mem fun list => trivial
  · trivial

theorem commandBranch_sends (hroutine : ∀ c, Routine c → A c) {i : ℤ}
    (hrecv : A (.recv .command i maxLenBuf)) : (commandBranch i s).Calls A := by
  refine (manageCommandFromClient_calls hrecv fun line => hroutine _ trivial).bind fun r => ?_
  refine calls_ask (hroutine _ trivial) fun svCl => ?_
  refine calls_ask (hroutine _ (hidden_hdr (by decide) (by decide))) fun sent => calls_die ?_
  split_ifs
  · exact calls_ask (hroutine _ trivial) fun _ => trivial
  · trivial

theorem stdinBranch_sends (hroutine : ∀ c, Routine c → A c) (hread : A (.read 0 maxLenBuf)) :
    (stdinBranch s).Calls A := by
  refine calls_ask hread fun ret => calls_die ?_
  split_ifs
  · exact (closeFrom_hidden hroutine).bind fun _ => trivial
  · trivial

end Calls

/-! ## Sends are issued -/

section Issued

variable {k : Sockets} {s : ServerState} {evs : List (Event Sys)}

/-- The postcondition that asks nothing. -/
abbrev anyEnd {α : Type} : List (Event Sys) → Except Halt α → Prop :=
  Program.post (fun _ _ => True) fun _ _ => True

theorem issued_of_routine (c : Call) (h : Routine c) : SendsIssued evs c := by
  cases c with
  | send site fd buf => exact Or.inl h
  | _ => trivial

/-- Behind a datagram its frame may be sent. -/
theorem udpBranch_issued (hl : s.Lists) :
    (udpBranch k s).wp (.watching SendsIssued) evs anyEnd := by
  unfold udpBranch
  rw [wp_recvfrom]
  refine ⟨trivial, fun ret _ => ?_⟩
  cases ret with
  | none => trivial
  | some ret =>
    obtain ⟨datagram, fromUdpStation⟩ := ret
    refine Program.Calls.watching (D := SendsIssued
      (evs ++ [⟨.recvfrom k.udp maxLenBuf, some (datagram, fromUdpStation)⟩])) ?_ fun evs c hc =>
        hc.mono (List.subset_append_left _ _)
    refine calls_die (calls_ask trivial fun bytes => calls_mem_ok fun msg hmsg => ?_)
    refine calls_ask trivial fun slack => calls_ask trivial fun padding => ?_
    refine calls_mem_ok fun buf hbuf => ?_
    have hpub : publication datagram fromUdpStation bytes slack padding = .ok (msg, buf) :=
      bind_ok_iff.mpr ⟨msg, hmsg, bind_ok_iff.mpr ⟨buf, hbuf, rfl⟩⟩
    have hissued : Issued (evs ++ [⟨.recvfrom k.udp maxLenBuf, some (datagram, fromUdpStation)⟩])
        (buf.take ((serverHdrSize : ℤ) + msg.bytes).toNat) :=
      Or.inr ⟨_, List.mem_append_right _ (List.mem_singleton_self _), datagram, fromUdpStation,
        bytes, slack, padding, msg, buf, rfl, hpub, rfl⟩
    exact (sendDataFrom_sends issued_of_routine hl.registry (List.nil_append _).symm
      (show Seg _ _ _ _ from hl.registry.repr) hl.clients fun _ _ _ _ _ => hissued).bind
        fun list => trivial

theorem manageConnectionRequest_issued (hl : s.Lists) (hq : QueuesIssued evs s) :
    (manageConnectionRequest k.tcp s).Calls (SendsIssued evs) := by
  unfold manageConnectionRequest
  refine calls_ask trivial fun conn => calls_die (calls_ask trivial fun svCl => ?_)
  refine calls_ask (Or.inl (hidden_type (by decide))) fun ret => calls_die ?_
  refine calls_ask trivial fun ret => calls_die (calls_die ?_)
  have hadmit : (admitClient s conn.1 conn.2 svCl (receivedId svCl ret)).Calls (SendsIssued evs) :=
    admitClient_sends issued_of_routine hl fun c hc _ => hq c hc
  exact hadmit

theorem mainBody_issued {i : ℤ} (hl : s.Lists) (hq : QueuesIssued evs s) :
    (mainBody k s i).wp (.watching SendsIssued) evs anyEnd := by
  have hcalls : ∀ {p : Proc (ServerState × Flow)}, p.Calls (SendsIssued evs) →
      p.wp (.watching SendsIssued) evs anyEnd :=
    fun hp => hp.watching fun evs c hc => hc.mono (List.subset_append_left _ _)
  unfold mainBody
  split_ifs
  · exact hcalls ((manageConnectionRequest_issued hl hq).bind fun _ => trivial)
  · rw [Program.wp_bind]
    refine (udpBranch_issued hl).mono fun es o _ => ?_
    cases o <;> trivial
  · exact hcalls ((stdinBranch_sends issued_of_routine trivial).bind fun _ => trivial)
  · exact hcalls ((commandBranch_sends issued_of_routine trivial).bind fun _ => trivial)

end Issued

/-! ## Runs -/

section Runs

variable {k : Sockets} {g : Kernel} {p : Point ServerState} {hs : List (Handled Sys ServerState)}

/-- What waits in a queue comes from a datagram of the run. -/
theorem ServerRun.queuesIssued (hrun : ServerRun k g p hs) :
    QueuesIssued (hs.flatMap Handled.events) p.state := by
  refine hrun.queued fun x hx msg buf hpub => ?_
  obtain ⟨e, he, d, bytes, slack, padding, hd, hpub⟩ := publicationOf_datagram hpub
  refine Or.inr ⟨e, List.mem_flatMap.mpr ⟨x, hx, he⟩, d.1, d.2, bytes, slack, padding, msg, buf, hd,
    hpub, ?_⟩
  unfold queuedElement QueueElement.frame frameOf
  rw [List.take_take, min_self]

/-- The server's process is in a run of its loop, which has made all its calls. -/
theorem serverRun_of_arrives {evs : List (Event Sys)}
    (h : (server k).Arrives kernel (kernelInit k) (pure (serverInit k)) g p hs evs) :
    ServerRun k g p hs ∧ evs = hs.flatMap Handled.events := by
  obtain ⟨es, s₀, ⟨rfl, heq⟩, -, hrun, rfl⟩ := h
  cases heq
  exact ⟨hrun, rfl⟩

variable {C : Config → Action → Prop} {cfg : Config} {log : List Entry} {n : ℕ}

/-- Whatever the server is about to send was issued. -/
theorem LoggedRun.asks_issued (h : LoggedRun k C cfg log) {c : Call}
    {next : Answer c → Phase Sys Halt ServerState × List (Handled Sys ServerState)}
    (hask : (TopicServer.server k).ask cfg.server = some ⟨c, next⟩) :
    SendsIssued (callsOf none log) c := by
  have hkept : Phase.Kept SendsIssued (fun _ => True) (fun _ _ => True) (fun _ => True)
      (callsOf none log) cfg.server := by
    refine h.server.keeps trivial (fun harr _ => ?_) fun es s _ => ?_
    · obtain ⟨hrun, rfl⟩ := serverRun_of_arrives harr
      exact mainBody_issued hrun.lists hrun.queuesIssued
    · exact ⟨trivial, fun _ _ => ⟨trivial, fun _ _ => trivial⟩⟩
  exact hkept.asks hask

/-- In every run of the system, what the server has sent to a subscriber was issued: it is the frame
of a datagram that the server had received, or it is not displayed. -/
theorem sent_issued (h : LoggedRun k C cfg log) (n : ℕ) :
    ∀ m ∈ messagesTo n log, Issued (callsOf none log) m := by
  induction h with
  | init => exact fun m hm => (by cases hm)
  | @step cfg cfg' a log hrun _ hstep ih =>
    rw [messagesTo_append, callsOf_append, List.forall_mem_append]
    refine ⟨fun m hm => (ih m hm).mono (List.subset_append_left _ _), ?_⟩
    have hcases := step_cases hstep
    generalize cfg.entries k a = es at hcases
    cases hcases with
    | @serverCall inputs c next r cfg₁ hask _ =>
      have hsends := hrun.asks_issued hask
      cases c with
      | send site fd buf =>
        rw [messagesTo_send]
        split_ifs
        · exact List.forall_mem_singleton.mpr
            (Issued.mono hsends (List.subset_append_left _ _))
        · exact fun m hm => (by cases hm)
      | _ =>
        rw [messagesTo_other (fun _ _ _ => by simp)]
        exact fun m hm => (by cases hm)
    | _ => exact fun m hm => (by cases hm)

end Runs

end TopicServer
