import TopicServer.StoreForward
import TopicServer.Subscriptions
import TopicServer.Lib.Broker

/-!
# The server as a broker

What the server keeps for an ID, and all that it ever sent to it, is what a broker makes of the
operations in its trace (`server_refines_broker`): the connections by their IDs, the commands by the
ID that arrived on their descriptor, the publications by their datagrams. So the clients do not
see each other: a client can only tell apart two runs that differ in its own connections and
commands or in the publications (`clients_isolated`).
-/

namespace TopicServer

open Interactive Linked Memory PubSub

/-! ## The broker of the server -/

/-- The operations of the server's broker: commands are headers, and frames are published. -/
abbrev BrokerOp := Op (List Byte) ClientToServerHdr (List Byte) (List Byte)

/-- A subscribe command on a list of entries: the flag of the first one that its comparison accepts
is set, or an entry is appended. -/
def subscribeEntries (hdr : ClientToServerHdr) : List TopicStructure → List TopicStructure
  | [] => [⟨hdr.topic, hdr.sf⟩]
  | t :: ts =>
    if SubscribeMatches hdr.topic.str t.topic.str then { t with sf := hdr.sf } :: ts
    else t :: subscribeEntries hdr ts

/-- An unsubscribe command on a list of entries: the first one with its topic is removed. -/
def unsubscribeEntries (hdr : ClientToServerHdr) (ts : List TopicStructure) : List TopicStructure :=
  ts.eraseP fun t => t.topic.str == hdr.topic.str

/-- The comparisons of the server. -/
def serverPolicy : Policy (List TopicStructure) ClientToServerHdr (List Byte) where
  init := []
  exec hdr ts := if hdr.type = 0 then subscribeEntries hdr ts else unsubscribeEntries hdr ts
  wanted topic ts := (ts.find? (accepts topic)).isSome
  kept topic ts := (ts.find? (accepts topic)).any (·.sf ≠ 0)

/-- What the server keeps for a client. -/
def ClientStructure.session (c : ClientStructure) : Session (List TopicStructure) (List Byte) where
  subs := c.subscribedTopics.toList
  online := c.online
  queue := c.queuedFrames

/-- What the server keeps for an ID. -/
def ServerState.session (s : ServerState) (id : List Byte) :
    Option (Session (List TopicStructure) (List Byte)) :=
  (s.clientWith id).map ClientStructure.session

/-- The operation in the calls of one body, while the kernel is in the state `g`. A command is one
of the client whose ID arrived last on its descriptor. -/
def brokerOp (g : Kernel) (evs : List (Event Sys)) : Option BrokerOp :=
  match evs with
  | ⟨.accept _, _⟩ :: request :: _ :: ⟨.recv .idReply _ _, ret⟩ :: _ =>
    some (.connect (receivedId (.ofList serverHdrSize (garbageOf request)) ret).str)
  | ⟨.recv .command fd _, ret⟩ :: _ =>
    if (commandHdr ret).type = 0 ∨ (commandHdr ret).type = 1 then
      some (.command (g.identified fd) (commandHdr ret))
    else if (commandHdr ret).type = 3 then some (.leave (g.identified fd))
    else none
  | evs => (publicationOf evs).map fun (msg, buf) => .publish msg.topic (frameOf msg buf)

/-- The operations in the calls of one body after the other. -/
def brokerOps : Kernel → List (List (Event Sys)) → List BrokerOp
  | _, [] => []
  | g, evs :: rest => (brokerOp g evs).toList ++ brokerOps (kernel.after g evs) rest

/-! ## Commands on lists of entries -/

section Entries

variable {l l' : LinkedList TopicStructure} {hdr : ClientToServerHdr} {xs ys : List TopicStructure}
  {t : TopicStructure}

theorem subscribeEntries_found
    (hxs : ∀ u ∈ xs, ¬ SubscribeMatches hdr.topic.str u.topic.str)
    (ht : SubscribeMatches hdr.topic.str t.topic.str) :
    subscribeEntries hdr (xs ++ t :: ys) = xs ++ { t with sf := hdr.sf } :: ys := by
  induction xs with
  | nil =>
    rw [List.nil_append, subscribeEntries, if_pos ht]
    rfl
  | cons x xs ih =>
    rw [List.cons_append, subscribeEntries, if_neg (hxs x List.mem_cons_self),
      ih fun u hu => hxs u (List.mem_cons_of_mem _ hu)]
    rfl

theorem subscribeEntries_missing
    (hxs : ∀ u ∈ xs, ¬ SubscribeMatches hdr.topic.str u.topic.str) :
    subscribeEntries hdr xs = xs ++ [⟨hdr.topic, hdr.sf⟩] := by
  induction xs with
  | nil => rfl
  | cons x xs ih =>
    rw [subscribeEntries, if_neg (hxs x List.mem_cons_self),
      ih fun u hu => hxs u (List.mem_cons_of_mem _ hu)]
    rfl

theorem subscribeBranch_toList (hw : l.Walkable) (he : subscribeBranch l hdr = .ok l') :
    l'.toList = subscribeEntries hdr l.toList := by
  rcases subscribeBranch_spec hw hdr with
    ⟨us, b, t, vs, l₁, hn, hus, ht, he₁, -, hn', -⟩ | ⟨hall, ⟨-, l₁, he₁, -, hn', -⟩ | ⟨-, -, he₁⟩⟩
  · obtain rfl := Except.ok.inj (he₁.symm.trans he)
    have hus' : ∀ u ∈ us.map Prod.snd, ¬ SubscribeMatches hdr.topic.str u.topic.str := by
      rw [List.forall_mem_map]
      exact hus
    rw [LinkedList.toList_of_nodes hn, LinkedList.toList_of_nodes hn',
      subscribeEntries_found hus' ht]
  · obtain rfl := Except.ok.inj (he₁.symm.trans he)
    rw [subscribeEntries_missing (forall_nodes_iff.mp hall), LinkedList.toList, hn',
      List.map_append]
    rfl
  · rw [he₁] at he
    cases he

theorem unsubscribeBranch_toList (hw : l.Walkable) (he : unsubscribeBranch l hdr = .ok l') :
    l'.toList = unsubscribeEntries hdr l.toList := by
  unfold unsubscribeEntries
  rcases unsubscribeBranch_spec hw hdr with
    ⟨he₁, hall⟩ | ⟨us, b, t, vs, l₁, hn, hus, ht, he₁, -, hn', -⟩
  · obtain rfl := Except.ok.inj (he₁.symm.trans he)
    have hall' : ∀ t ∈ l.toList, t.topic.str ≠ hdr.topic.str := forall_nodes_iff.mp hall
    exact (List.eraseP_of_forall_not fun t ht => by simpa using hall' t ht).symm
  · obtain rfl := Except.ok.inj (he₁.symm.trans he)
    have hus' : ∀ u ∈ us.map Prod.snd, u.topic.str ≠ hdr.topic.str := by
      rw [List.forall_mem_map]
      exact hus
    rw [LinkedList.toList_of_nodes hn, List.eraseP_append_right _ (by simpa using hus'),
      List.eraseP_cons_of_pos (by simpa using ht), LinkedList.toList, hn', List.map_append]

end Entries

/-! ## The steps -/

/-- A step does to what is kept for an ID, and sends to it, what its operation does. -/
def Reacts (id : List Byte) (g : Kernel) (x : Handled Sys ServerState) : Prop :=
  match brokerOp g x.events with
  | none => x.post.session id = x.pre.session id ∧ sentTo id x = []
  | some op => (x.post.session id, sentTo id x) = serverPolicy.step id op (x.pre.session id)

section Steps

variable {k : Sockets} {g : Kernel} {s : ServerState} {i : ℤ} {evs : List (Event Sys)}
  {r : ServerState × Flow} {id : List Byte} {x : Handled Sys ServerState}

theorem session_congr {s s' : ServerState} (h : s'.clientWith id = s.clientWith id) :
    s'.session id = s.session id := by
  unfold ServerState.session
  rw [h]

theorem sentTo_of_none (h : dataSends x.events = []) : sentTo id x = [] := by
  unfold sentTo
  cases x.post.clientWith id with
  | none => rfl
  | some c => exact sentOn_of_none h

/-- A step that concerns another client. -/
theorem reacts_other {op : BrokerOp} (hop : brokerOp g x.events = some op)
    (hc : op.concerns id = false) (hpost : x.post.clientWith id = x.pre.clientWith id)
    (hs : sentTo id x = []) : Reacts id g x := by
  unfold Reacts
  rw [hop]
  show _ = serverPolicy.step id op _
  rw [Policy.step_of_not_concerns hc, session_congr hpost, hs]

theorem reacts_none (hop : brokerOp g x.events = none)
    (hpost : x.post.clientWith id = x.pre.clientWith id) (hs : dataSends x.events = []) :
    Reacts id g x := by
  unfold Reacts
  rw [hop]
  exact ⟨session_congr hpost, sentTo_of_none hs⟩

/-- A step that replaces the entry of the client that its operation concerns. -/
theorem reacts_replace {op : BrokerOp} {xs ys : List ClientStructure} {c c' : ClientStructure}
    (hpre : x.pre.clientsContainer.toList = xs ++ c :: ys)
    (hpost : x.post.clientsContainer.toList = xs ++ c' :: ys)
    (hids : ((xs ++ c :: ys).map fun c => c.id.str).Nodup) (hid : c'.id = c.id)
    (hop : brokerOp g x.events = some op) (hc : ∀ id, op.concerns id = decide (c.id.str = id))
    (hs : ∀ id, c.id.str ≠ id → sentTo id x = [])
    (hreact : serverPolicy.react op (some c.session) =
      (some c'.session, sentOn c'.sock x.events)) (id : List Byte) : Reacts id g x := by
  by_cases h : c.id.str = id
  · unfold Reacts ServerState.session sentTo
    have hids' : ((xs ++ c' :: ys).map fun c => c.id.str).Nodup := by
      rw [List.map_append, List.map_cons, hid]
      rwa [List.map_append, List.map_cons] at hids
    have h1 := findId_of_mem hids (c := c) (by simp)
    have h2 := findId_of_mem hids' (c := c') (by simp)
    rw [hid, h] at h2
    rw [h] at h1
    rw [hop, clientWith_eq, clientWith_eq, hpre, hpost, h1, h2]
    show _ = serverPolicy.step id op (some c.session)
    unfold Policy.step
    rw [hc, if_pos (by simpa using h), hreact]
    rfl
  · refine reacts_other hop (by rw [hc]; simpa using h) ?_ (hs id h)
    rcases findId_replace id hids hid with ⟨h1, -⟩ | heq
    · exact absurd (findId_mem h1).2 h
    · rw [clientWith_eq, clientWith_eq, hpre, hpost, heq]

/-- A connection that gave its ID is one operation, whatever follows. -/
theorem brokerOp_greeting {tcp fd : ℤ} {addr : SockAddrIn} {svCl : CharArray serverHdrSize}
    {ret : Option (List Byte)} {es : List (Event Sys)} :
    brokerOp g (greeting tcp fd addr svCl ret ++ es) =
      some (.connect (receivedId svCl ret).str) := by
  show some (Op.connect (receivedId (.ofList serverHdrSize svCl.bytes) ret).str) = _
  rw [CharArray.ofList_bytes]

/-- So is a publication. -/
theorem brokerOp_reception {datagram : List Byte} {addr : SockAddrIn}
    {size : CharArray 4} {slack : CharArray stringLen} {padding : CharArray 3} {msg : Message}
    {buf : List Byte} {es : List (Event Sys)}
    (hp : publication datagram addr size slack padding = .ok (msg, buf)) :
    brokerOp g (reception k.udp datagram addr size slack padding ++ es) =
      some (.publish msg.topic (frameOf msg buf)) := by
  show (publicationOf (reception k.udp datagram addr size slack padding ++ es)).map _ = _
  rw [publicationOf_reception hp]
  rfl

/-- The client on a descriptor that is handled is online, and its ID arrived there. -/
theorem Registry.identified_of_sock {c : ClientStructure}
    (h : Registry k g s.clientsContainer.toList s.readFds)
    (hi : i ∈ onlineSocks s.clientsContainer.toList) (hc : c ∈ s.clientsContainer.toList)
    (hsock : c.sock = i) : c.online = true ∧ g.identified i = c.id.str := by
  have h0 := (h.client i hi).2
  have hon : c.online = true := (h.flag c hc).mpr (by omega)
  exact ⟨hon, by rw [← hsock]; exact h.owner c hc hon⟩

/-- A command is one of the client that stands on its descriptor. -/
theorem Registry.brokerOp_command {c : ClientStructure} {ret : Option (List Byte)}
    {svCl : CharArray serverHdrSize}
    (h : Registry k g s.clientsContainer.toList s.readFds)
    (hi : i ∈ onlineSocks s.clientsContainer.toList) (hc : c ∈ s.clientsContainer.toList)
    (hsock : c.sock = i) (ht : (commandHdr ret).type = 0 ∨ (commandHdr ret).type = 1) :
    brokerOp g (commandCalls i ret [] svCl) = some (.command c.id.str (commandHdr ret)) := by
  show (if _ then _ else _) = _
  rw [if_pos ht, (h.identified_of_sock hi hc hsock).2]

/-- What a publication does to the session of one client. -/
theorem Relayed.session {data topic : List Byte} {bytes : ℤ} {c c' : ClientStructure}
    {es : List (Event Sys)} (hl : c.Lists) (hr : Relayed data topic bytes c es c') :
    (some c'.session, if deliveredTo topic c then [data.take bytes.toNat] else []) =
      serverPolicy.react (.publish topic (data.take bytes.toNat) : BrokerOp)
        (some c.session) := by
  obtain ⟨queue, rfl, -, hqueue⟩ := hr.queue hl.queue
  rw [Policy.react_publish]
  have hsubs : serverPolicy.kept topic c.session.subs =
      (firstAccepted topic c).any (·.sf ≠ 0) := rfl
  have hframes : ({ c with queue := queue } : ClientStructure).queuedFrames = c.queuedFrames ++
      if queuedFor topic c then [data.take bytes.toNat] else [] := by
    show queue.toList.map QueueElement.frame = c.queue.toList.map QueueElement.frame ++ _
    rw [hqueue, List.map_append]
    cases queuedFor topic c with
    | true =>
      show _ ++ [(data.take bytes.toNat).take bytes.toNat] = _ ++ [data.take bytes.toNat]
      rw [List.take_take, min_self]
    | false => rfl
  unfold ClientStructure.session
  rw [hframes]
  unfold deliveredTo queuedFor
  cases hon : c.online with
  | true =>
    rw [Bool.true_and, Bool.not_true, Bool.false_and, if_neg (by simp), List.append_nil]
    rfl
  | false =>
    rw [Bool.false_and, Bool.not_false, Bool.true_and, ← hsubs]
    rfl

/-- Every step does to the session of every client what its operation does. -/
theorem Effect.reacts (he : Effect k s i evs r) (hl : s.Lists) (ho : kernel.Obeys g evs)
    (h : Registry k g s.clientsContainer.toList s.readFds)
    (hi : k.Client i → i ∈ onlineSocks s.clientsContainer.toList) (id : List Byte) :
    Reacts id g ⟨s, i, evs, r.1⟩ := by
  have hids := h.ids
  cases he with
  | @registered fd addr svCl ret list _ _ hid _ hn =>
    have hlist : list.toList =
        s.clientsContainer.toList ++ [newClient (receivedId svCl ret) fd] := by
      rw [LinkedList.toList, hn, List.map_append]
      rfl
    by_cases hnew : (receivedId svCl ret).str = id
    · have hnone : s.clientWith id = none := by
        rw [clientWith_eq]
        refine findId_none fun c hc => ?_
        obtain ⟨n, hn', rfl⟩ := List.mem_map.mp hc
        rw [← hnew]
        exact hid n hn'
      unfold Reacts ServerState.session
      rw [brokerOp_greeting, hnone, sentTo_of_none rfl, clientWith_eq, hlist, findId_append,
        ← clientWith_eq, hnone, Option.none_or, findId_cons_eq hnew, hnew]
      show _ = serverPolicy.step id _ none
      unfold Policy.step
      rw [if_pos (by simp [Op.concerns])]
      rfl
    · refine reacts_other brokerOp_greeting (by simpa [Op.concerns] using hnew) ?_
        (sentTo_of_none rfl)
      rw [clientWith_eq, clientWith_eq, hlist, findId_append, findId_cons_ne hnew]
      exact Option.or_none
  | @refused fd addr svCl ret a c sent _ _ hmem hid hon =>
    have hmem' : c ∈ s.clientsContainer.toList := List.mem_map_of_mem hmem
    obtain ⟨xs, ys, hsplit⟩ := List.append_of_mem hmem'
    refine reacts_replace hsplit hsplit (hsplit ▸ hids) rfl brokerOp_greeting (fun id => ?_)
      (fun _ _ => sentTo_of_none rfl) ?_ id
    · rw [hid]
      rfl
    · rw [Policy.react_connect]
      exact if_pos hon
  | @reconnected fd addr svCl ret xs a c ys es queue list hfd _ hn hid hoff hfl _ hqn _ hn' =>
    obtain ⟨h0, hfresh⟩ := obeys_greeting hfd ho
    have hpre := LinkedList.toList_of_nodes hn
    have hpost := LinkedList.toList_of_nodes hn'
    have hempty : queue.toList = [] := by rw [LinkedList.toList, hqn]; rfl
    have hsent : ∀ j, sentOn j (greeting k.tcp fd addr svCl ret ++
        ⟨.printf (.newConn c.id addr), ()⟩ :: es) = sentOn j es := fun j => rfl
    have hkeep : ({ c with sock := fd, online := true, queue := queue } : ClientStructure).id =
        c.id := rfl
    refine reacts_replace hpre hpost (hpre ▸ hids) hkeep brokerOp_greeting (fun id => ?_)
      (fun id hne => ?_) ?_ id
    · rw [hid]
      rfl
    · -- the others stand on other descriptors
      have hsame : findId id list.toList = findId id s.clientsContainer.toList := by
        rcases findId_replace id (hpre ▸ hids) hkeep with ⟨h1, -⟩ | heq
        · exact absurd (findId_mem h1).2 hne
        · rw [hpre, hpost, heq]
      unfold sentTo
      simp only [clientWith_eq, hsame]
      cases hd : findId id s.clientsContainer.toList with
      | none => rfl
      | some d =>
        have hmem := (findId_mem hd).1
        show sentOn d.sock _ = []
        rw [hsent]
        refine hfl.sentOn_ne fun he => ?_
        have hon : d.online = true := (h.flag d hmem).mpr (by rw [he]; exact hfd)
        exact (h.fresh hfresh).2 (mem_onlineSocks.mpr ⟨d, hmem, hon, he⟩)
    · -- the client that comes back gets what its queue held
      have hoffline : ¬ c.session.online = true := by
        rw [show c.session.online = c.online from rfl, hoff]
        simp
      rw [Policy.react_connect, if_neg hoffline, hsent, hfl.sentOn_self]
      unfold ClientStructure.session ClientStructure.queuedFrames
      rw [hempty]
      rfl
  | @published datagram addr size slack padding msg buf es list _ hp _ hrel =>
    have hflag : ∀ n ∈ s.clientsContainer.nodes, n.2.online = true ↔ n.2.sock ≠ -1 :=
      fun n hn => h.flag n.2 (List.mem_map_of_mem hn)
    have hsent : ∀ j, sentOn j (reception k.udp datagram addr size slack padding ++ es) =
        sentOn j es := fun j => rfl
    unfold Reacts ServerState.session sentTo
    rw [brokerOp_reception hp, clientWith_eq, clientWith_eq]
    rcases hrel.findId id hl.clients with ⟨h1, h2⟩ | ⟨n, c', es', hn, h1, h2, hr⟩
    · simp only [LinkedList.toList, h1, h2]
      rfl
    · simp only [LinkedList.toList, h1, h2]
      have hc := hr.session (hl.clients n hn)
      obtain ⟨queue, rfl, -⟩ := hr.queue (hl.clients n hn).queue
      show (_, sentOn n.2.sock _) = _
      rw [hsent, hrel.sentOn h.socks hflag hn]
      exact hc
  | ignored => exact reacts_none rfl rfl rfl
  | @stopped line es hclose =>
    have hnone : brokerOp g (⟨.read 0 maxLenBuf, some line⟩ :: es) = none := by
      show (publicationOf _).map _ = none
      rw [publicationOf_cons rfl]
      rfl
    have hsent : dataSends es = [] := closeFrom_sends hclose
    exact reacts_none hnone rfl hsent
  | @subscribed i ret svCl xs a c ys topics list hk h0 hn _ hsock ht _ hn' =>
    have hpre := LinkedList.toList_of_nodes hn
    have hpost := LinkedList.toList_of_nodes hn'
    have hc : c ∈ s.clientsContainer.toList := by
      rw [hpre]
      simp
    have hw := (hl.clients (a, c) (by rw [hn]; simp)).topics
    have hop : brokerOp g (commandCalls i ret [] svCl) = _ :=
      h.brokerOp_command (hi hk) hc hsock (Or.inl h0)
    have hkeep : ({ c with subscribedTopics := topics } : ClientStructure).id = c.id := rfl
    refine reacts_replace hpre hpost (hpre ▸ hids) hkeep hop (fun _ => rfl)
      (fun _ _ => sentTo_of_none rfl) ?_ id
    have hexec : serverPolicy.exec (commandHdr ret) c.session.subs = topics.toList :=
      (if_pos h0).trans (subscribeBranch_toList hw ht).symm
    show (some { c.session with subs := serverPolicy.exec (commandHdr ret) c.session.subs }, []) = _
    rw [hexec]
    rfl
  | @unsubscribed i ret svCl xs a c ys topics list hk h1 hn _ hsock ht _ hn' =>
    have hpre := LinkedList.toList_of_nodes hn
    have hpost := LinkedList.toList_of_nodes hn'
    have hc : c ∈ s.clientsContainer.toList := by
      rw [hpre]
      simp
    have hw := (hl.clients (a, c) (by rw [hn]; simp)).topics
    have hop : brokerOp g (commandCalls i ret [] svCl) = _ :=
      h.brokerOp_command (hi hk) hc hsock (Or.inr h1)
    have hkeep : ({ c with subscribedTopics := topics } : ClientStructure).id = c.id := rfl
    refine reacts_replace hpre hpost (hpre ▸ hids) hkeep hop (fun _ => rfl)
      (fun _ _ => sentTo_of_none rfl) ?_ id
    have hexec : serverPolicy.exec (commandHdr ret) c.session.subs = topics.toList :=
      (if_neg (by rw [h1]; decide)).trans (unsubscribeBranch_toList hw ht).symm
    show (some { c.session with subs := serverPolicy.exec (commandHdr ret) c.session.subs }, []) = _
    rw [hexec]
    rfl
  | @disconnected i ret svCl xs a c ys list hk h3 hn _ hsock _ hn' =>
    have hpre := LinkedList.toList_of_nodes hn
    have hpost := LinkedList.toList_of_nodes hn'
    have hc : c ∈ s.clientsContainer.toList := by
      rw [hpre]
      simp
    have hne : i ≠ -1 := by
      have h0 := (h.client i (hi hk)).2
      omega
    have hop : brokerOp g (commandCalls i ret [⟨.printf (.disc c.id), ()⟩] svCl ++
        if i = -1 then [] else [⟨.close i, ()⟩]) = some (.leave c.id.str) := by
      show (if _ then _ else if _ then _ else _) = _
      rw [if_neg (by rw [h3]; decide), if_pos h3, (h.identified_of_sock (hi hk) hc hsock).2]
    have hkeep : ({ c with sock := -1, online := false } : ClientStructure).id = c.id := rfl
    rw [if_neg hne] at hop ⊢
    exact reacts_replace hpre hpost (hpre ▸ hids) hkeep hop (fun _ => rfl)
      (fun _ _ => sentTo_of_none rfl) rfl id
  | @unknown i ret svCl hk h0 h1 h3 =>
    have hnone : brokerOp g (commandCalls i ret [] svCl) = none := by
      show (if _ then _ else if _ then _ else _) = _
      rw [if_neg (by simp [h0, h1]), if_neg h3]
    exact reacts_none hnone rfl rfl

/-- A frame on the descriptor of a client is sent to its ID. -/
theorem mem_sentTo {c : ClientStructure} {y : ℤ × List Byte}
    (hids : (x.post.clientsContainer.toList.map fun c => c.id.str).Nodup)
    (hc : c ∈ x.post.clientsContainer.toList) (hy : y ∈ dataSends x.events) (hsock : y.1 = c.sock) :
    y.2 ∈ sentTo c.id.str x := by
  unfold sentTo
  rw [clientWith_eq, findId_of_mem hids hc]
  exact List.mem_filterMap.mpr ⟨y, hy, if_pos hsock⟩

/-- A step sends no frame but to its clients. -/
theorem Effect.addressed (he : Effect k s i evs r) (hl : s.Lists)
    (h : Registry k g s.clientsContainer.toList s.readFds) :
    ∀ y ∈ dataSends evs, ∃ id, y.2 ∈ sentTo id ⟨s, i, evs, r.1⟩ := by
  have hids := h.ids
  intro y hy
  cases he with
  | @reconnected fd addr svCl ret xs a c ys es queue list hfd _ hn hid hoff hfl _ _ _ hn' =>
    have hsends : dataSends (greeting k.tcp fd addr svCl ret ++
        ⟨.printf (.newConn c.id addr), ()⟩ :: es) = dataSends es := rfl
    rw [hsends, hfl.sends] at hy
    obtain ⟨el, hel, rfl⟩ := List.mem_map.mp hy
    have hids' : (list.toList.map fun c => c.id.str).Nodup := by
      rw [LinkedList.toList_of_nodes hn, List.map_append, List.map_cons] at hids
      rw [LinkedList.toList_of_nodes hn', List.map_append, List.map_cons]
      exact hids
    refine ⟨_, mem_sentTo (c := { c with sock := fd, online := true, queue := queue }) hids' ?_ ?_
      rfl⟩
    · rw [LinkedList.toList_of_nodes hn']
      simp
    · show _ ∈ dataSends (greeting k.tcp fd addr svCl ret ++ _ :: es)
      rw [hsends, hfl.sends]
      exact List.mem_map_of_mem hel
  | @published datagram addr size slack padding msg buf es list _ hp _ hrel =>
    have hsends : dataSends (reception k.udp datagram addr size slack padding ++ es) =
        dataSends es := rfl
    have hsame := hrel.map_eq (fun n => n.2.id.str) (fun _ _ _ => rfl) hl.clients
    have hids' : (list.toList.map fun c => c.id.str).Nodup := by
      unfold LinkedList.toList at hids ⊢
      rw [List.map_map] at hids ⊢
      exact hsame ▸ hids
    have hy' := hy
    rw [hsends, hrel.sends] at hy'
    obtain ⟨n, hn, rfl⟩ := List.mem_map.mp hy'
    have hn := List.mem_of_mem_filter hn
    obtain ⟨c', es', hc', hr⟩ := hrel.target hn
    obtain ⟨queue, rfl, -⟩ := hr.queue (hl.clients n hn).queue
    exact ⟨_, mem_sentTo hids' (List.mem_map_of_mem hc') hy rfl⟩
  | @stopped line es hclose =>
    have hsent : dataSends (⟨.read 0 maxLenBuf, some line⟩ :: es) = dataSends es := rfl
    rw [hsent, closeFrom_sends hclose] at hy
    cases hy
  | disconnected =>
    split_ifs at hy
    · cases hy
    · cases hy
  | _ => cases hy

end Steps

/-! ## The runs -/

section Runs

variable {k k' : Sockets} {g g' : Kernel} {p p' : Point ServerState}
  {hs hs' : List (Handled Sys ServerState)}

/-- The operations in the trace of a run. -/
def operations (k : Sockets) (hs : List (Handled Sys ServerState)) : List BrokerOp :=
  brokerOps (kernelInit k) (hs.map Handled.events)

theorem brokerOps_snoc (g : Kernel) (evss : List (List (Event Sys))) (evs : List (Event Sys)) :
    brokerOps g (evss ++ [evs]) =
      brokerOps g evss ++ (brokerOp (evss.foldl kernel.after g) evs).toList := by
  induction evss generalizing g with
  | nil =>
    show (brokerOp g evs).toList ++ [] = _
    rw [List.append_nil]
    rfl
  | cons e evss ih =>
    show (brokerOp g e).toList ++ brokerOps (kernel.after g e) (evss ++ [evs]) = _
    rw [ih, ← List.append_assoc]
    rfl

/-- What the server keeps for a client, and what it sent to it, is what the broker makes of the
operations in the trace. -/
theorem ServerRun.broker (hrun : ServerRun k g p hs) (id : List Byte) :
    (p.state.session id, hs.flatMap (sentTo id)) = serverPolicy.run id (operations k hs) := by
  induction hrun with
  | start => rfl
  | select _ _ _ ih => exact ih
  | skip _ _ _ ih => exact ih
  | done _ _ ih => exact ih
  | @handle g s hs tmp i evs r hrun hle hmem he ho ih =>
    have hl : s.Lists := ServerRun.lists hrun
    have hat : RegistryAt k g (.scan s tmp i) := ServerRun.registryAt hrun
    have hstep := (mainBody_effect hl he).reacts hl ho hat.1 (hat.2 i hmem le_rfl) id
    have hg : (hs.map Handled.events).foldl kernel.after (kernelInit k) = g := hrun.after_eq
    rw [Point.state_following, List.flatMap_append, List.flatMap_singleton]
    unfold operations at ih ⊢
    rw [List.map_append, List.map_singleton, brokerOps_snoc, hg]
    unfold Reacts at hstep
    show _ = serverPolicy.run id (_ ++ (brokerOp g evs).toList)
    cases hop : brokerOp g evs with
    | none =>
      simp only [hop] at hstep
      rw [hstep.1, hstep.2, List.append_nil, Option.toList_none, List.append_nil]
      exact ih
    | some op =>
      simp only [hop] at hstep
      rw [Option.toList_some, Policy.run_snoc, ← ih]
      exact congrArg (fun y => (y.1, hs.flatMap (sentTo id) ++ y.2)) hstep

/-- Every frame that was sent in a run went to a client. -/
theorem ServerRun.addressed (hrun : ServerRun k g p hs) :
    ∀ x ∈ hs, ∀ y ∈ dataSends x.events, ∃ id, y.2 ∈ sentTo id x := by
  induction hrun with
  | start => exact fun x hx => (by cases hx)
  | select _ _ _ ih => exact ih
  | skip _ _ _ ih => exact ih
  | done _ _ ih => exact ih
  | @handle g s hs tmp i evs r hrun hle hmem he ho ih =>
    have hl : s.Lists := ServerRun.lists hrun
    have hat : RegistryAt k g (.scan s tmp i) := ServerRun.registryAt hrun
    rw [List.forall_mem_append, List.forall_mem_singleton]
    exact ⟨ih, (mainBody_effect hl he).addressed hl hat.1⟩

/-- The server is a broker: what it keeps for every client, and what it sent to it, is what the
broker makes of the operations in the trace, and it sends frames to its clients only. -/
theorem server_refines_broker (hrun : ServerRun k g p hs) :
    (∀ id, (p.state.session id, hs.flatMap (sentTo id)) =
      serverPolicy.run id (operations k hs)) ∧
    ∀ x ∈ hs, ∀ y ∈ dataSends x.events, ∃ id, y.2 ∈ sentTo id x :=
  ⟨hrun.broker, hrun.addressed⟩

/-- Clients do not see each other: where the operations that concern a client are the same, the
server keeps the same for it and sent it the same, whatever the other clients did. -/
theorem clients_isolated (hrun : ServerRun k g p hs) (hrun' : ServerRun k' g' p' hs')
    {id : List Byte} (h : (operations k hs).filter (Op.concerns id) =
      (operations k' hs').filter (Op.concerns id)) :
    p.state.session id = p'.state.session id ∧
      hs.flatMap (sentTo id) = hs'.flatMap (sentTo id) := by
  have h1 := hrun.broker id
  have h2 := hrun'.broker id
  rw [← Policy.run_filter, h, Policy.run_filter] at h1
  have heq := h1.trans h2.symm
  exact ⟨congrArg Prod.fst heq, congrArg Prod.snd heq⟩

end Runs

/-! ## Two runs -/

/-- A client that acknowledges what it is sent when it comes back. -/
def returning (conn : ℤ) (id : List Byte) : (c : Call) → Answer c
  | .recv .queuedAck _ _ => some [4]
  | c => scripted conn [] (idMessage id) c

/-- A client subscribes with the flag and leaves, and comes back after a publication. -/
def aloneScript : List (ℤ × ((c : Call) → Answer c)) :=
  [(3, returning 5 [65]), (5, scripted 0 [] (commandMessage 0 1 [97])),
    (5, scripted 0 [] (commandMessage 3 0 [])),
    (4, scripted 0 (97 :: List.replicate 49 0 ++ [3, 120]) []), (3, returning 5 [65])]

/-- Another client gets its descriptor meanwhile, and subscribes to the same topic. -/
def sharedScript : List (ℤ × ((c : Call) → Answer c)) :=
  [(3, returning 5 [65]), (5, scripted 0 [] (commandMessage 0 1 [97])),
    (5, scripted 0 [] (commandMessage 3 0 [])), (3, returning 5 [66]),
    (5, scripted 0 [] (commandMessage 0 0 [97])),
    (4, scripted 0 (97 :: List.replicate 49 0 ++ [3, 120]) [4]), (3, returning 6 [65])]

/-- The operations of the first run. -/
theorem server_refines_broker_alone :
    ∃ g s hs, ServerRun sockets g (.select s) hs ∧ (operations sockets hs).length = 5 ∧
      (s.session [65], hs.flatMap (sentTo [65])) =
        serverPolicy.run [65] (operations sockets hs) := by
  obtain ⟨g, s, hs, hrun, htrace⟩ := serveScript_trace aloneScript (by decide +kernel)
  have hlen : (operations sockets hs).length = 5 := by
    unfold operations
    rw [htrace]
    decide +kernel
  exact ⟨g, s, hs, hrun, hlen, (server_refines_broker hrun).1 [65]⟩

/-- The first client cannot tell the two runs apart. -/
theorem clients_isolated_shared :
    ∃ g s hs g' s' hs', ServerRun sockets g (.select s) hs ∧
      ServerRun sockets g' (.select s') hs' ∧ hs.length ≠ hs'.length ∧
      s.session [65] = s'.session [65] ∧ hs.flatMap (sentTo [65]) = hs'.flatMap (sentTo [65]) := by
  obtain ⟨g, s, hs, hrun, htrace⟩ := serveScript_trace aloneScript (by decide +kernel)
  obtain ⟨g', s', hs', hrun', htrace'⟩ := serveScript_trace sharedScript (by decide +kernel)
  have hlen : (hs.map Handled.events).length ≠ (hs'.map Handled.events).length := by
    rw [htrace, htrace']
    decide +kernel
  rw [List.length_map, List.length_map] at hlen
  have hops : (operations sockets hs).filter (Op.concerns [65]) =
      (operations sockets hs').filter (Op.concerns [65]) := by
    unfold operations
    rw [htrace, htrace']
    decide +kernel
  exact ⟨g, s, hs, g', s', hs', hrun, hrun', hlen, clients_isolated hrun hrun' hops⟩

end TopicServer
