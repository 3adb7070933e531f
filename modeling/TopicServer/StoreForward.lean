import TopicServer.Delivery

/-!
# Store and forward

What a client was sent over all its connections, followed by what its queue still holds, is what
the publications owed it, in their order. A publication owes its frame to a client that is
registered, has a subscription that `send_data` accepts, and is online or has the flag set in the
first one. `Effect.forwarded` is the account of one step; `store_and_forward` adds the steps of a
run.
-/

namespace TopicServer

open Interactive Linked Memory

/-! ## The account of a step -/

/-- The entry of the registry with an ID. -/
def ServerState.clientWith (s : ServerState) (id : List Byte) : Option ClientStructure :=
  s.clientsContainer.toList.find? fun c => c.id.str == id

/-- The bytes that a queue element sends. -/
def QueueElement.frame (el : QueueElement) : List Byte := el.data.take el.len.toNat

/-- The frames in the queue of a client. -/
def ClientStructure.queuedFrames (c : ClientStructure) : List (List Byte) :=
  c.queue.toList.map QueueElement.frame

/-- The datagram that a call received. -/
def datagramOf : Event Sys → Option (List Byte × SockAddrIn)
  | ⟨.recvfrom .., ret⟩ => ret
  | _ => none

/-- The bytes of memory that was read without having been written. -/
def garbageOf : Event Sys → List Byte
  | ⟨.indeterminate _, garbage⟩ => garbage.bytes
  | _ => []

/-- The message that a step publishes, with the buffer of its frame. -/
def publicationOf : List (Event Sys) → Option (Message × List Byte)
  | e :: bytes :: slack :: padding :: _ => do
    let (datagram, fromUdpStation) ← datagramOf e
    (publication datagram fromUdpStation (.ofList 4 (garbageOf bytes))
      (.ofList stringLen (garbageOf slack)) (.ofList 3 (garbageOf padding))).toOption
  | _ => none

/-- The frame of a message in its buffer. -/
def frameOf (msg : Message) (buf : List Byte) : List Byte :=
  buf.take (serverHdrSize + msg.bytes).toNat

/-- The frame that a step publishes. -/
def published (h : Handled Sys ServerState) : List (List Byte) :=
  match publicationOf h.events with
  | some (msg, buf) => [frameOf msg buf]
  | none => []

/-- The frame that a step owes to the client with an ID. -/
def due (id : List Byte) (h : Handled Sys ServerState) : List (List Byte) :=
  match publicationOf h.events, h.pre.clientWith id with
  | some (msg, buf), some c =>
    if deliveredTo msg.topic c || queuedFor msg.topic c then [frameOf msg buf] else []
  | _, _ => []

/-- The data frames that a step sent on a descriptor. -/
def sentOn (fd : ℤ) (evs : List (Event Sys)) : List (List Byte) :=
  (dataSends evs).filterMap fun x => if x.1 = fd then some x.2 else none

/-- The data frames that a step sent to the client with an ID. -/
def sentTo (id : List Byte) (h : Handled Sys ServerState) : List (List Byte) :=
  match h.post.clientWith id with
  | some c => sentOn c.sock h.events
  | none => []

/-- No client that is online has a frame waiting. -/
def QueuesEmpty (s : ServerState) : Prop :=
  ∀ c ∈ s.clientsContainer.toList, c.online = true → c.queue.toList = []

/-- The account of a step for the client with an ID: what its queue held and what the step owes it
is what the step sent and what the queue holds now. -/
def Forwarded (id : List Byte) (h : Handled Sys ServerState) : Prop :=
  match h.pre.clientWith id, h.post.clientWith id with
  | some c, some c' => c.queuedFrames ++ due id h = sentTo id h ++ c'.queuedFrames
  | none, some c' => sentTo id h = [] ∧ c'.queuedFrames = []
  | none, none => True
  | some _, none => False

/-! ## Finding a client -/

section Lookup

variable {s : ServerState} {id : List Byte} {cs xs ys : List ClientStructure}
  {c c' d : ClientStructure}

/-- The first of some clients with an ID. -/
def findId (id : List Byte) (cs : List ClientStructure) : Option ClientStructure :=
  cs.find? fun c => c.id.str == id

theorem clientWith_eq : s.clientWith id = findId id s.clientsContainer.toList := rfl

theorem findId_none (h : ∀ c ∈ cs, c.id.str ≠ id) : findId id cs = none := by
  unfold findId
  rw [List.find?_eq_none]
  intro c hc
  rw [beq_iff_eq]
  exact h c hc

theorem findId_mem (h : findId id cs = some c) : c ∈ cs ∧ c.id.str = id := by
  unfold findId at h
  have hid := List.find?_some h
  exact ⟨List.mem_of_find?_eq_some h, beq_iff_eq.mp hid⟩

theorem findId_append (id : List Byte) (xs ys : List ClientStructure) :
    findId id (xs ++ ys) = (findId id xs).or (findId id ys) := List.find?_append

theorem findId_cons_eq (h : c.id.str = id) : findId id (c :: cs) = some c :=
  List.find?_cons_of_pos (by simpa using h)

theorem findId_cons_ne (h : c.id.str ≠ id) : findId id (c :: cs) = findId id cs :=
  List.find?_cons_of_neg (by simpa using h)

theorem findId_of_mem (hids : (cs.map fun c => c.id.str).Nodup) (hc : c ∈ cs) :
    findId c.id.str cs = some c := by
  obtain ⟨xs, ys, rfl⟩ := List.append_of_mem hc
  rw [List.map_append, List.map_cons, List.nodup_middle, List.nodup_cons] at hids
  have hxs : findId c.id.str xs = none := findId_none fun d hd he => hids.1 (by
    rw [List.mem_append]
    exact Or.inl (List.mem_map.mpr ⟨d, hd, he⟩))
  rw [findId_append, hxs, Option.none_or, findId_cons_eq rfl]

/-- Replacing an entry by one with the same ID is seen by this ID only. -/
theorem findId_replace (id : List Byte) (hids : ((xs ++ c :: ys).map fun c => c.id.str).Nodup)
    (hid : c'.id = c.id) :
    (findId id (xs ++ c :: ys) = some c ∧ findId id (xs ++ c' :: ys) = some c') ∨
      findId id (xs ++ c' :: ys) = findId id (xs ++ c :: ys) := by
  by_cases h : c.id.str = id
  · have hxs : ∀ d ∈ xs, d.id.str ≠ id := by
      rw [List.map_append, List.map_cons, List.nodup_middle, List.nodup_cons] at hids
      intro d hd he
      exact hids.1 (List.mem_append_left _ (List.mem_map.mpr ⟨d, hd, he.trans h.symm⟩))
    left
    constructor
    · rw [findId_append, findId_none hxs, Option.none_or, findId_cons_eq h]
    · rw [findId_append, findId_none hxs, Option.none_or, findId_cons_eq (by rw [hid, h])]
  · right
    rw [findId_append, findId_append, findId_cons_ne h, findId_cons_ne (by rw [hid]; exact h)]

end Lookup

/-! ## The frames of a step -/

section Frames

variable {fd : ℤ} {frame : List Byte} {evs : List (Event Sys)} {h : Handled Sys ServerState}
  {id : List Byte}

theorem sentOn_of_none (he : dataSends evs = []) : sentOn fd evs = [] := by
  unfold sentOn
  rw [he]
  rfl

/-- When all data frames of a step are one frame, those on a descriptor are counted. -/
theorem sentOn_eq_replicate (hall : ∀ x ∈ dataSends evs, x.2 = frame) :
    sentOn fd evs = List.replicate ((dataSends evs).count (fd, frame)) frame := by
  unfold sentOn
  generalize dataSends evs = xs at hall
  induction xs with
  | nil => rfl
  | cons x xs ih =>
    obtain ⟨j, buf⟩ := x
    obtain rfl : buf = frame := hall (j, buf) List.mem_cons_self
    have hrec := ih fun x hx => hall x (List.mem_cons_of_mem _ hx)
    by_cases hj : j = fd
    · subst hj
      rw [List.count_cons_self, List.replicate_succ, ← hrec]
      exact List.filterMap_cons_some (if_pos rfl)
    · rw [List.count_cons_of_ne (by simp [hj]), ← hrec]
      exact List.filterMap_cons_none (if_neg hj)

theorem Flushed.sends {sock : ℤ} {els : List QueueElement} (hf : Flushed sock els evs) :
    dataSends evs = els.map fun el => (sock, el.frame) := by
  induction els generalizing evs with
  | nil =>
    obtain rfl := hf
    rfl
  | cons el els ih =>
    obtain ⟨ret, rest, rfl, -, hf⟩ := hf
    rw [List.map_cons, ← ih hf]
    rfl

theorem Flushed.sentOn_self {sock : ℤ} {els : List QueueElement} (hf : Flushed sock els evs) :
    sentOn sock evs = els.map QueueElement.frame := by
  unfold sentOn
  rw [hf.sends, List.filterMap_map]
  have hsome : (fun el : QueueElement =>
      if (sock, el.frame).1 = sock then some (sock, el.frame).2 else none) =
      some ∘ QueueElement.frame := by
    funext el
    exact if_pos rfl
  show els.filterMap _ = _
  rw [Function.comp_def, hsome, List.filterMap_eq_map]

theorem Flushed.sentOn_ne {sock : ℤ} {els : List QueueElement} (hf : Flushed sock els evs)
    (hne : fd ≠ sock) : sentOn fd evs = [] := by
  unfold sentOn
  rw [hf.sends, List.filterMap_eq_nil_iff]
  intro x hx
  obtain ⟨el, -, rfl⟩ := List.mem_map.mp hx
  exact if_neg hne.symm

/-- `close_all_sockets` sends no data. -/
theorem closeFrom_sends {list : LinkedList ClientStructure} {fuel : ℕ} {curr : Option Addr}
    {o : Except Halt Unit} (he : (closeFrom list fuel curr).Exec evs o) : dataSends evs = [] := by
  induction fuel generalizing curr evs with
  | zero =>
    cases curr with
    | none => rw [he.1, dataSends_nil]
    | some a => rw [he.1, dataSends_nil]
  | succ fuel ih =>
    cases curr with
    | none => rw [he.1, dataSends_nil]
    | some a =>
      unfold closeFrom at he
      rw [exec_mem] at he
      rcases he with ⟨e, -, rfl, -⟩ | ⟨⟨b, node⟩, -, he⟩
      · rfl
      simp only at he
      rw [exec_indeterminate] at he
      obtain ⟨svCl, rest, rfl, he⟩ := he
      rw [exec_send] at he
      obtain ⟨sent, rest, rfl, he⟩ := he
      rw [exec_recv] at he
      obtain ⟨ret, rest, rfl, he⟩ := he
      rw [exec_dieType] at he
      rcases he with ⟨-, rfl, -⟩ | ⟨-, he⟩
      · rfl
      rw [exec_close] at he
      obtain ⟨u, rest, rfl, he⟩ := he
      show dataSends rest = []
      exact ih he

/-- A step that publishes nothing owes nothing. -/
theorem due_of_none (hp : publicationOf h.events = none) : due id h = [] := by
  unfold due
  rw [hp]

/-- A step that neither publishes nor sends to a client leaves its account as it was. -/
theorem forwarded_of_eq (hpost : h.post.clientWith id = h.pre.clientWith id)
    (hp : publicationOf h.events = none)
    (hs : ∀ c, h.pre.clientWith id = some c → sentOn c.sock h.events = []) : Forwarded id h := by
  unfold Forwarded sentTo
  rw [hpost, due_of_none hp]
  cases hc : h.pre.clientWith id with
  | none => trivial
  | some c =>
    show c.queuedFrames ++ [] = sentOn c.sock h.events ++ c.queuedFrames
    rw [hs c hc, List.append_nil, List.nil_append]

/-- So does one that replaces an entry, and leaves its queue alone. -/
theorem forwarded_of_replace {xs ys : List ClientStructure} {c c' : ClientStructure}
    (hpre : h.pre.clientsContainer.toList = xs ++ c :: ys)
    (hpost : h.post.clientsContainer.toList = xs ++ c' :: ys)
    (hids : ((xs ++ c :: ys).map fun c => c.id.str).Nodup) (hid : c'.id = c.id)
    (hq : c'.queue = c.queue) (hp : publicationOf h.events = none)
    (hs : dataSends h.events = []) : Forwarded id h := by
  rcases findId_replace id hids hid with ⟨h1, h2⟩ | heq
  · unfold Forwarded sentTo
    rw [due_of_none hp, clientWith_eq, clientWith_eq, hpre, hpost, h1, h2]
    show c.queuedFrames ++ [] = sentOn c'.sock h.events ++ c'.queuedFrames
    rw [sentOn_of_none hs, ClientStructure.queuedFrames, ClientStructure.queuedFrames, hq,
      List.append_nil, List.nil_append]
  · refine forwarded_of_eq ?_ hp fun _ _ => sentOn_of_none hs
    rw [clientWith_eq, clientWith_eq, hpre, hpost, heq]

end Frames

/-! ## The steps -/

section Steps

variable {k : Sockets} {g : Kernel} {s : ServerState} {i : ℤ} {evs : List (Event Sys)}
  {r : ServerState × Flow} {id data topic : List Byte} {bytes : ℤ}
  {ns ns' : List (Addr × ClientStructure)}

/-- What the walk of `send_data` does to the client with an ID. -/
theorem RelayedAll.findId (id : List Byte) (hl : ∀ n ∈ ns, n.2.Lists) (hr : RelayedAll data topic bytes ns evs ns') :
    (findId id (ns.map Prod.snd) = none ∧ findId id (ns'.map Prod.snd) = none) ∨
    ∃ n c' es, n ∈ ns ∧ findId id (ns.map Prod.snd) = some n.2 ∧
      findId id (ns'.map Prod.snd) = some c' ∧ Relayed data topic bytes n.2 es c' := by
  induction ns generalizing evs ns' with
  | nil =>
    obtain ⟨-, rfl⟩ := hr
    exact Or.inl ⟨rfl, rfl⟩
  | cons n ns ih =>
    obtain ⟨es, c', es', ns'', -, rfl, h1, h2⟩ := hr
    obtain ⟨queue, rfl, -⟩ := h1.queue (hl n List.mem_cons_self).queue
    rw [List.map_cons, List.map_cons]
    by_cases hid : n.2.id.str = id
    · exact Or.inr ⟨n, _, es, List.mem_cons_self, findId_cons_eq hid, findId_cons_eq hid, h1⟩
    · have hid' : ({ n.2 with queue := queue } : ClientStructure).id.str ≠ id := hid
      rw [findId_cons_ne hid, findId_cons_ne hid']
      rcases ih (fun n hn => hl n (List.mem_cons_of_mem _ hn)) h2 with
        hnone | ⟨m, c', es, hm, h⟩
      · exact Or.inl hnone
      · exact Or.inr ⟨m, c', es, List.mem_cons_of_mem _ hm, h⟩

/-- The frames of a publication on the descriptor of a client. -/
theorem RelayedAll.sentOn (hnd : (onlineSocks (ns.map Prod.snd)).Nodup)
    (hflag : ∀ n ∈ ns, n.2.online = true ↔ n.2.sock ≠ -1)
    (hr : RelayedAll data topic bytes ns evs ns') {n : Addr × ClientStructure} (hn : n ∈ ns) :
    sentOn n.2.sock evs = if deliveredTo topic n.2 then [data.take bytes.toNat] else [] := by
  have hall : ∀ x ∈ dataSends evs, x.2 = data.take bytes.toNat := by
    rw [hr.sends]
    intro x hx
    obtain ⟨m, -, rfl⟩ := List.mem_map.mp hx
    rfl
  rw [sentOn_eq_replicate hall, count_sends hnd hflag hr hn]
  split_ifs <;> rfl

/-- The account of a publication for one client. -/
theorem Relayed.forwarded {c c' : ClientStructure} {es : List (Event Sys)} (hl : c.Lists)
    (hq : c.online = true → c.queue.toList = []) (hr : Relayed data topic bytes c es c') :
    c'.sock = c.sock ∧ (c'.online = true → c'.queue.toList = []) ∧
    c.queuedFrames ++
      (if deliveredTo topic c || queuedFor topic c then [data.take bytes.toNat] else []) =
      (if deliveredTo topic c then [data.take bytes.toNat] else []) ++ c'.queuedFrames := by
  obtain ⟨queue, rfl, -, hqueue⟩ := hr.queue hl.queue
  refine ⟨rfl, fun hon => ?_, ?_⟩
  · have hnot : queuedFor topic c = false := by
      unfold queuedFor
      rw [show c.online = true from hon]
      rfl
    show queue.toList = []
    rw [hqueue, hq hon, hnot]
    rfl
  · unfold ClientStructure.queuedFrames
    rw [show ({ c with queue := queue } : ClientStructure).queue = queue from rfl, hqueue]
    cases hon : c.online with
    | true =>
      have hnot : queuedFor topic c = false := by simp [queuedFor, hon]
      rw [hq hon, hnot, Bool.or_false]
      cases deliveredTo topic c <;> rfl
    | false =>
      have hnot : deliveredTo topic c = false := by simp [deliveredTo, hon]
      rw [hnot, Bool.false_or, List.map_append]
      cases queuedFor topic c with
      | true =>
        show _ ++ [_] = _ ++ [(data.take bytes.toNat).take bytes.toNat]
        rw [List.take_take, min_self]
      | false => rfl

theorem publicationOf_cons {e : Event Sys} {es : List (Event Sys)} (he : datagramOf e = none) :
    publicationOf (e :: es) = none := by
  unfold publicationOf
  split
  · rename_i heq
    cases heq
    rw [he]
    rfl
  · rfl

theorem publicationOf_reception {datagram : List Byte} {addr : SockAddrIn} {size : CharArray 4}
    {slack : CharArray stringLen} {padding : CharArray 3} {msg : Message} {buf : List Byte}
    {es : List (Event Sys)} (hp : publication datagram addr size slack padding = .ok (msg, buf)) :
    publicationOf (reception k.udp datagram addr size slack padding ++ es) = some (msg, buf) := by
  show (publication datagram addr (.ofList 4 size.bytes) (.ofList stringLen slack.bytes)
    (.ofList 3 padding.bytes)).toOption = _
  rw [CharArray.ofList_bytes, CharArray.ofList_bytes, CharArray.ofList_bytes, hp]
  rfl

theorem QueuesEmpty.replace {s' : ServerState} {xs ys : List ClientStructure}
    {c c' : ClientStructure} (h : QueuesEmpty s)
    (hpre : s.clientsContainer.toList = xs ++ c :: ys)
    (hpost : s'.clientsContainer.toList = xs ++ c' :: ys)
    (hc : c'.online = true → c'.queue.toList = []) : QueuesEmpty s' := by
  intro d hd
  rw [hpost, List.mem_append, List.mem_cons] at hd
  have hold : ∀ d ∈ xs ++ c :: ys, d.online = true → d.queue.toList = [] := hpre ▸ h
  rcases hd with hd | rfl | hd
  · exact hold d (List.mem_append_left _ hd)
  · exact hc
  · exact hold d (List.mem_append_right _ (List.mem_cons_of_mem _ hd))

/-- Every step balances the account of every client, and keeps the queues of online ones empty. -/
theorem Effect.forwarded (he : Effect k s i evs r) (hl : s.Lists) (ho : kernel.Obeys g evs)
    (h : Registry k g s.clientsContainer.toList s.readFds) (hq : QueuesEmpty s) :
    QueuesEmpty r.1 ∧ ∀ id, Forwarded id ⟨s, i, evs, r.1⟩ := by
  have hids := h.ids
  cases he with
  | @registered fd addr svCl ret list _ _ hid _ hn =>
    have hlist : list.toList =
        s.clientsContainer.toList ++ [newClient (receivedId svCl ret) fd] := by
      rw [LinkedList.toList, hn, List.map_append]
      rfl
    constructor
    · intro c hc hon
      rcases List.mem_append.mp (hlist ▸ hc) with hc | hc
      · exact hq c hc hon
      · rw [List.mem_singleton.mp hc]
        rfl
    · intro id
      by_cases hnew : (receivedId svCl ret).str = id
      · have hnone : s.clientWith id = none := by
          rw [clientWith_eq]
          refine findId_none fun c hc => ?_
          obtain ⟨n, hn', rfl⟩ := List.mem_map.mp hc
          rw [← hnew]
          exact hid n hn'
        unfold Forwarded sentTo
        rw [hnone, clientWith_eq, hlist, findId_append, ← clientWith_eq, hnone, Option.none_or,
          findId_cons_eq hnew]
        exact ⟨sentOn_of_none rfl, rfl⟩
      · refine forwarded_of_eq ?_ rfl fun _ _ => sentOn_of_none rfl
        rw [clientWith_eq, clientWith_eq, hlist, findId_append]
        show (findId id _).or (findId id (newClient _ _ :: [])) = _
        rw [findId_cons_ne hnew]
        exact Option.or_none
  | refused => exact ⟨hq, fun id => forwarded_of_eq rfl rfl fun _ _ => sentOn_of_none rfl⟩
  | @reconnected fd addr svCl ret xs a c ys es queue list hfd _ hn hid hoff hfl _ hqn _ hn' =>
    obtain ⟨h0, hfresh⟩ := obeys_greeting hfd ho
    have hpre := LinkedList.toList_of_nodes hn
    have hpost := LinkedList.toList_of_nodes hn'
    have hempty : queue.toList = [] := by rw [LinkedList.toList, hqn]; rfl
    refine ⟨hq.replace hpre hpost fun _ => hempty, fun id => ?_⟩
    have hsent : ∀ j, sentOn j (greeting k.tcp fd addr svCl ret ++
        ⟨.printf (.newConn c.id addr), ()⟩ :: es) = sentOn j es := fun j => rfl
    rw [hpre] at hids
    have hkeep : ({ c with sock := fd, online := true, queue := queue } : ClientStructure).id =
        c.id := rfl
    rcases findId_replace id hids hkeep with ⟨h1, h2⟩ | heq
    · -- the client that comes back gets what its queue held
      unfold Forwarded sentTo
      rw [due_of_none rfl, clientWith_eq, clientWith_eq, hpre, hpost, h1, h2]
      show c.queuedFrames ++ [] = sentOn fd _ ++ queue.toList.map QueueElement.frame
      rw [hsent, hfl.sentOn_self, hempty, ClientStructure.queuedFrames]
      rfl
    · -- the others stand on other descriptors
      refine forwarded_of_eq ?_ rfl fun d hd => ?_
      · rw [clientWith_eq, clientWith_eq, hpre, hpost, heq]
      · have hmem := (findId_mem hd).1
        show sentOn d.sock _ = []
        rw [hsent]
        refine hfl.sentOn_ne fun he => ?_
        have hon : d.online = true := (h.flag d hmem).mpr (by rw [he]; exact hfd)
        exact (h.fresh hfresh).2 (mem_onlineSocks.mpr ⟨d, hmem, hon, he⟩)
  | @published datagram addr size slack padding msg buf es list _ hp _ hrel =>
    have hflag : ∀ n ∈ s.clientsContainer.nodes, n.2.online = true ↔ n.2.sock ≠ -1 :=
      fun n hn => h.flag n.2 (List.mem_map_of_mem hn)
    have hsent : ∀ j, sentOn j (reception k.udp datagram addr size slack padding ++ es) =
        sentOn j es := fun j => rfl
    constructor
    · intro c' hc'
      obtain ⟨n', hn', rfl⟩ := List.mem_map.mp hc'
      obtain ⟨n, hn, -, es', hr⟩ := hrel.source hn'
      exact (hr.forwarded (hl.clients n hn) (hq n.2 (List.mem_map_of_mem hn))).2.1
    · intro id
      unfold Forwarded sentTo due
      rw [publicationOf_reception hp, clientWith_eq, clientWith_eq]
      rcases hrel.findId id hl.clients with ⟨h1, h2⟩ | ⟨n, c', es', hn, h1, h2, hr⟩
      · simp only [LinkedList.toList, h1, h2]
      · simp only [LinkedList.toList, h1, h2]
        obtain ⟨hsock, -, hacc⟩ :=
          hr.forwarded (hl.clients n hn) (hq n.2 (List.mem_map_of_mem hn))
        rw [hsent, hsock, hrel.sentOn h.socks hflag hn]
        exact hacc
  | ignored => exact ⟨hq, fun id => forwarded_of_eq rfl rfl fun _ _ => sentOn_of_none rfl⟩
  | @stopped line es hclose =>
    refine ⟨hq, fun id => forwarded_of_eq rfl (publicationOf_cons rfl) fun _ _ => ?_⟩
    refine sentOn_of_none ?_
    show dataSends es = []
    exact closeFrom_sends hclose
  | @subscribed i ret svCl xs a c ys topics list _ _ hn _ _ _ _ hn' =>
    have hpre := LinkedList.toList_of_nodes hn
    have hpost := LinkedList.toList_of_nodes hn'
    refine ⟨hq.replace hpre hpost (hq c (by rw [hpre]; simp)), fun id => ?_⟩
    exact forwarded_of_replace hpre hpost (hpre ▸ hids) rfl rfl rfl rfl
  | @unsubscribed i ret svCl xs a c ys topics list _ _ hn _ _ _ _ hn' =>
    have hpre := LinkedList.toList_of_nodes hn
    have hpost := LinkedList.toList_of_nodes hn'
    refine ⟨hq.replace hpre hpost (hq c (by rw [hpre]; simp)), fun id => ?_⟩
    exact forwarded_of_replace hpre hpost (hpre ▸ hids) rfl rfl rfl rfl
  | @disconnected i ret svCl xs a c ys list _ _ hn _ _ _ hn' =>
    have hpre := LinkedList.toList_of_nodes hn
    have hpost := LinkedList.toList_of_nodes hn'
    refine ⟨hq.replace hpre hpost fun hon => (by cases hon), fun id => ?_⟩
    refine forwarded_of_replace hpre hpost (hpre ▸ hids) rfl rfl rfl ?_
    split_ifs <;> rfl
  | unknown => exact ⟨hq, fun id => forwarded_of_eq rfl rfl fun _ _ => sentOn_of_none rfl⟩

/-! ## The runs -/

variable {p : Point ServerState} {hs : List (Handled Sys ServerState)}

/-- The account of a run for the client with an ID. -/
def Balanced (id : List Byte) (hs : List (Handled Sys ServerState)) (s : ServerState) : Prop :=
  match s.clientWith id with
  | some c => hs.flatMap (sentTo id) ++ c.queuedFrames = hs.flatMap (due id)
  | none => hs.flatMap (sentTo id) = [] ∧ hs.flatMap (due id) = []

/-- Balanced steps add up. -/
theorem Balanced.snoc {x : Handled Sys ServerState} (h : Balanced id hs x.pre)
    (hx : Forwarded id x) : Balanced id (hs ++ [x]) x.post := by
  unfold Forwarded at hx
  unfold Balanced at *
  rw [List.flatMap_append, List.flatMap_append, List.flatMap_singleton, List.flatMap_singleton]
  have hdue : x.pre.clientWith id = none → due id x = [] := by
    intro hnone
    unfold due
    rw [hnone]
    cases publicationOf x.events <;> rfl
  have hsent : x.post.clientWith id = none → sentTo id x = [] := by
    intro hnone
    unfold sentTo
    rw [hnone]
  cases hpre : x.pre.clientWith id with
  | none =>
    rw [hpre] at h hx
    obtain ⟨h1, h2⟩ := h
    rw [hdue hpre, h1, h2]
    cases hpost : x.post.clientWith id with
    | none => exact ⟨hsent hpost, rfl⟩
    | some c' =>
      rw [hpost] at hx
      show [] ++ sentTo id x ++ c'.queuedFrames = _
      rw [hx.1, hx.2]
      rfl
  | some c =>
    rw [hpre] at h hx
    cases hpost : x.post.clientWith id with
    | none =>
      rw [hpost] at hx
      exact hx.elim
    | some c' =>
      rw [hpost] at hx
      have hold : hs.flatMap (sentTo id) ++ c.queuedFrames = hs.flatMap (due id) := h
      have hnew : c.queuedFrames ++ due id x = sentTo id x ++ c'.queuedFrames := hx
      show hs.flatMap (sentTo id) ++ sentTo id x ++ c'.queuedFrames = _
      rw [List.append_assoc, ← hnew, ← List.append_assoc, hold]

/-- Every run balances the accounts. -/
theorem ServerRun.balanced (hrun : ServerRun k g p hs) :
    QueuesEmpty p.state ∧ ∀ id, Balanced id hs p.state := by
  induction hrun with
  | start => exact ⟨fun c hc => (by cases hc), fun id => ⟨rfl, rfl⟩⟩
  | select _ _ _ ih => exact ih
  | skip _ _ _ ih => exact ih
  | done _ _ ih => exact ih
  | @handle g s hs tmp i evs r hrun hle hmem he ho ih =>
    have hl : s.Lists := ServerRun.lists hrun
    have hat : RegistryAt k g (.scan s tmp i) := ServerRun.registryAt hrun
    obtain ⟨hq, hacc⟩ := (mainBody_effect hl he).forwarded hl ho hat.1 ih.1
    rw [Point.state_following]
    exact ⟨hq, fun id => (ih.2 id).snoc (hacc id)⟩

theorem due_sublist (x : Handled Sys ServerState) : (due id x).Sublist (published x) := by
  unfold due published
  cases publicationOf x.events with
  | none => exact List.nil_sublist _
  | some y =>
    obtain ⟨msg, buf⟩ := y
    cases x.pre.clientWith id with
    | none => exact List.nil_sublist _
    | some c =>
      show (if _ then [frameOf msg buf] else []).Sublist [frameOf msg buf]
      split_ifs
      · exact List.Sublist.refl _
      · exact List.nil_sublist _

theorem dues_sublist (hs : List (Handled Sys ServerState)) :
    (hs.flatMap (due id)).Sublist (hs.flatMap published) :=
  List.Sublist.flatMap_right hs fun x _ => due_sublist x

/-- Store and forward: what a client was sent, followed by its queue, is what the publications owed
it, a part of all publications in their order; and online clients have nothing waiting. -/
theorem store_and_forward (hrun : ServerRun k g p hs) {c : ClientStructure}
    (hc : c ∈ p.state.clientsContainer.toList) :
    hs.flatMap (sentTo c.id.str) ++ c.queuedFrames = hs.flatMap (due c.id.str) ∧
    (hs.flatMap (due c.id.str)).Sublist (hs.flatMap published) ∧
    (c.online = true → c.queue.toList = []) := by
  obtain ⟨hq, hbal⟩ := hrun.balanced
  obtain ⟨g', hreg⟩ := hrun.registry
  refine ⟨?_, dues_sublist hs, hq c hc⟩
  have h := hbal c.id.str
  unfold Balanced at h
  rw [clientWith_eq, findId_of_mem hreg.ids hc] at h
  exact h

/-- A client subscribes with the flag and leaves; a publication waits in its queue. -/
theorem store_and_forward_waiting :
    ∃ (g : Kernel) (s : ServerState) (hs : List (Handled Sys ServerState)) (c : ClientStructure),
      ServerRun sockets g (.select s) hs ∧ c.queuedFrames ≠ [] ∧
      hs.flatMap (sentTo c.id.str) ++ c.queuedFrames = hs.flatMap (due c.id.str) := by
  obtain ⟨g, s, hs, hrun, hcheck⟩ := serveScript_check
    [(3, scripted 5 [] (idMessage [65])), (5, scripted 0 [] (commandMessage 0 1 [97])),
      (5, scripted 0 [] (commandMessage 3 0 [])),
      (4, scripted 0 (97 :: List.replicate 49 0 ++ [3, 120]) [])]
    (fun x => x.2.clientsContainer.toList.any fun c => !c.queuedFrames.isEmpty) (by decide +kernel)
  rw [List.any_eq_true] at hcheck
  obtain ⟨c, hc, hwaiting⟩ := hcheck
  exact ⟨g, s, hs, c, hrun, by simpa using hwaiting, (store_and_forward hrun hc).1⟩

end Steps

end TopicServer
