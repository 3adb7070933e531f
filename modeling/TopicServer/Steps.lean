import TopicServer.Clients

/-!
# What one ready descriptor does

`Effect k s i evs r` lists what the body of the loop can do for descriptor `i` in state `s` when
it ends in `r`: the calls it made with their answers, and the nodes of the registry afterwards.
`mainBody_effect` proves the list complete; every invariant of the server is derived from it.
-/

namespace TopicServer

open Interactive Linked Memory

/-! ## Relaying a publication -/

/-- Whether the comparison of `send_data` accepts a subscription. -/
def accepts (topic : List Byte) (t : TopicStructure) : Bool :=
  match topicAccepted topic t with
  | .ok b => b
  | .error _ => false

/-- The first subscription of a client that the comparison accepts. -/
def firstAccepted (topic : List Byte) (c : ClientStructure) : Option TopicStructure :=
  c.subscribedTopics.toList.find? (accepts topic)

/-- A frame was sent on a connection and acknowledged. -/
def Delivered (frame : List Byte) (sock : ℤ) (evs : List (Event Sys)) : Prop :=
  ∃ ret, evs = [⟨.send .data sock frame, true⟩, ⟨.recv .dataAck sock maxLenBuf, ret⟩] ∧
    replyType ret = 4

/-- The inner loop of `send_data` for one client. -/
def Relayed (data topic : List Byte) (bytes : ℤ) (c : ClientStructure)
    (evs : List (Event Sys)) (c' : ClientStructure) : Prop :=
  match firstAccepted topic c with
  | none => evs = [] ∧ c' = c
  | some t =>
    if c.online then Delivered (data.take bytes.toNat) c.sock evs ∧ c' = c
    else evs = [] ∧ if t.sf = 0 then c' = c else
      ∃ q, c.queue.addLastImproved ⟨data.take bytes.toNat, bytes⟩ = .ok q ∧
        c' = { c with queue := q }

/-- `Relayed` for one client after the other. -/
def RelayedAll (data topic : List Byte) (bytes : ℤ) :
    List (Addr × ClientStructure) → List (Event Sys) → List (Addr × ClientStructure) → Prop
  | [], evs, ns' => evs = [] ∧ ns' = []
  | (a, c) :: ns, evs, ns' => ∃ es c' es' ns'', evs = es ++ es' ∧ ns' = (a, c') :: ns'' ∧
      Relayed data topic bytes c es c' ∧ RelayedAll data topic bytes ns es' ns''

section Relay

variable {data topic : List Byte} {bytes : ℤ} {c c' : ClientStructure} {evs : List (Event Sys)}

theorem firstAccepted_of_find (h : c.subscribedTopics.Walkable)
    {r : Option (Option Addr × Addr)}
    (hr : c.subscribedTopics.find (topicAccepted topic) = .ok r) :
    (r = none ∧ firstAccepted topic c = none) ∨
    ∃ p a t, r = some (p, a) ∧ (a, t) ∈ c.subscribedTopics.nodes ∧
      firstAccepted topic c = some t := by
  have hfalse : ∀ t, topicAccepted topic t = .ok false → accepts topic t = false := by
    intro t ht
    rw [accepts, ht]
  unfold firstAccepted
  rw [LinkedList.toList]
  rcases LinkedList.find_ok h.repr hr with ⟨rfl, hall⟩ | ⟨xs, ⟨a, t⟩, ys, hn, hxs, ht, rfl⟩
  · refine Or.inl ⟨rfl, List.find?_eq_none.mpr fun t ht => ?_⟩
    obtain ⟨n, hn, rfl⟩ := List.mem_map.mp ht
    rw [hfalse _ (hall n hn)]
    decide
  · refine Or.inr ⟨_, a, t, rfl, by rw [hn]; simp, ?_⟩
    have hno : (xs.map Prod.snd).find? (accepts topic) = none := by
      refine List.find?_eq_none.mpr fun t' ht' => ?_
      obtain ⟨n, hn', rfl⟩ := List.mem_map.mp ht'
      rw [hfalse _ (hxs n hn')]
      decide
    have hyes : accepts topic t = true := by rw [accepts, ht]
    rw [hn, List.map_append, List.find?_append, hno, Option.none_or, List.map_cons,
      List.find?_cons_of_pos hyes]

/-- How `send_data` can stop at a client: a comparison that leaves its memory, or a client that
does not take the frame or does not answer with an acknowledgement. -/
def Refused (data topic : List Byte) (bytes : ℤ) (c : ClientStructure) (evs : List (Event Sys)) :
    Prop :=
  (∃ e, c.subscribedTopics.find (topicAccepted topic) = .error e) ∨
  c.online = true ∧
    (evs = [⟨.send .data c.sock (data.take bytes.toNat), false⟩] ∨
      ∃ ret, evs = [⟨.send .data c.sock (data.take bytes.toNat), true⟩,
        ⟨.recv .dataAck c.sock maxLenBuf, ret⟩] ∧ replyType ret ≠ 4)

theorem sendToClient_exec (h : c.Lists) {o : Except Halt ClientStructure}
    (he : (sendToClient data topic bytes c).Exec evs o) :
    (∃ c', o = .ok c' ∧ Relayed data topic bytes c evs c') ∨
      ∃ e, o = .error e ∧ Refused data topic bytes c evs := by
  unfold sendToClient at he
  rw [exec_mem] at he
  rcases he with ⟨err, herr, rfl, rfl⟩ | ⟨r, hr, he⟩
  · exact Or.inr ⟨_, rfl, Or.inl ⟨err, herr⟩⟩
  unfold Relayed
  rcases firstAccepted_of_find h.topics hr with ⟨rfl, hacc⟩ | ⟨p, a, t, rfl, hmem, hacc⟩
  · obtain ⟨rfl, rfl⟩ := he
    exact Or.inl ⟨c, rfl, by rw [hacc]; exact ⟨rfl, rfl⟩⟩
  · rw [hacc]
    cases hon : c.online with
    | true =>
      simp only [hon, if_true] at he ⊢
      rw [exec_send] at he
      obtain ⟨ret, rest, rfl, he⟩ := he
      rw [exec_dieCall] at he
      rcases he with ⟨hret, rfl, rfl⟩ | ⟨hret, he⟩
      · obtain rfl : ret = false := by simpa using hret
        exact Or.inr ⟨_, rfl, Or.inr ⟨hon, Or.inl rfl⟩⟩
      obtain rfl : ret = true := by simpa using hret
      rw [exec_recv] at he
      obtain ⟨ret, rest, rfl, he⟩ := he
      rw [exec_dieCall] at he
      rcases he with ⟨hret, rfl, rfl⟩ | ⟨hret, he⟩
      · obtain rfl : ret = none := by simpa using hret
        exact Or.inr ⟨_, rfl, Or.inr ⟨hon, Or.inr ⟨none, rfl, by decide⟩⟩⟩
      rw [exec_dieType] at he
      rcases he with ⟨hret, rfl, rfl⟩ | ⟨hret, rfl, rfl⟩
      · exact Or.inr ⟨_, rfl, Or.inr ⟨hon, Or.inr ⟨ret, rfl, by simpa using hret⟩⟩⟩
      · exact Or.inl ⟨c, rfl, ⟨ret, rfl, by simpa using hret⟩, rfl⟩
    | false =>
      simp only [hon, Bool.false_eq_true, if_false] at he ⊢
      obtain ⟨nx, hd⟩ := h.topics.repr.deref_mem hmem
      rw [exec_mem] at he
      rcases he with ⟨err, herr, -, -⟩ | ⟨r, hr, he⟩
      · rw [hd] at herr
        cases herr
      obtain rfl := Except.ok.inj (hd.symm.trans hr)
      by_cases hsf : t.sf = 0
      · rw [if_neg (not_not_intro hsf)] at he
        obtain ⟨rfl, rfl⟩ := he
        exact Or.inl ⟨c, rfl, rfl, by rw [if_pos hsf]⟩
      · rw [if_pos hsf, exec_mem] at he
        obtain ⟨q, hq, -⟩ := h.queue.addLastImproved ⟨data.take bytes.toNat, bytes⟩
        rcases he with ⟨err, herr, -, -⟩ | ⟨q', hq', rfl, rfl⟩
        · rw [hq] at herr
          cases herr
        · exact Or.inl ⟨_, rfl, rfl, by rw [if_neg hsf]; exact ⟨q', hq', rfl⟩⟩

/-- The walk over the clients treats each one, and stops only where it stops at one. -/
theorem sendDataFrom_exec {fuel : ℕ} {curr : Option Addr} {list : LinkedList ClientStructure}
    {xs todo : List (Addr × ClientStructure)} {o : Except Halt (LinkedList ClientStructure)}
    (h : list.WellFormed) (hn : list.nodes = xs ++ todo) (hs : Seg list.heap curr todo none)
    (hf : todo.length ≤ fuel) (hl : ∀ n ∈ todo, n.2.Lists)
    (he : (sendDataFrom data topic bytes fuel curr list).Exec evs o) :
    (∃ list' todo', o = .ok list' ∧ list'.WellFormed ∧ list'.nodes = xs ++ todo' ∧
      RelayedAll data topic bytes todo evs todo') ∨
    ∃ e n es es', n ∈ todo ∧ o = .error e ∧ evs = es ++ es' ∧
      Refused data topic bytes n.2 es' := by
  induction todo generalizing fuel curr list xs evs with
  | nil =>
    obtain rfl := hs
    obtain ⟨rfl, rfl⟩ : evs = [] ∧ o = .ok list := by cases fuel <;> exact he
    exact Or.inl ⟨list, [], rfl, h, hn, rfl, rfl⟩
  | cons n todo ih =>
    obtain ⟨a, c⟩ := n
    have hnd := (show Seg _ _ _ _ from h.repr).nodup
    obtain ⟨rfl, nx, hg, hs⟩ := hs
    obtain ⟨f, rfl⟩ : ∃ f, fuel = f + 1 := ⟨fuel - 1, by simp at hf; omega⟩
    have hd : deref list.heap (some a) = .ok (a, ⟨c, nx⟩) := by rw [deref, hg]
    unfold sendDataFrom at he
    rw [hd] at he
    have hbind : (sendToClient data topic bytes c >>= fun client => do
        let list ← mem (list.modifyData a fun _ => client)
        sendDataFrom data topic bytes f nx list).Exec evs o := he
    rw [Program.exec_bind] at hbind
    rcases hbind with ⟨e, hc, rfl⟩ | ⟨es, es', c', rfl, hc, hrest⟩
    · rcases sendToClient_exec (hl _ List.mem_cons_self) hc with ⟨c', h', -⟩ | ⟨e', -, href⟩
      · cases h'
      · exact Or.inr ⟨e, (a, c), [], evs, List.mem_cons_self, rfl, rfl, href⟩
    obtain ⟨c'', hc'', hrel⟩ | ⟨e', h', -⟩ := sendToClient_exec (hl _ List.mem_cons_self) hc
    swap
    · cases h'
    cases hc''
    obtain ⟨list', hm, hw', hn'⟩ := h.modifyData hn fun _ => c'
    have hlist' : list' = { list with heap := list.heap.set a ⟨c', nx⟩ } := by
      rw [LinkedList.modifyData, hd] at hm
      exact (Except.ok.inj hm).symm
    rw [hm] at hrest
    rw [hn, List.map_append, List.map_cons, List.nodup_middle, List.nodup_cons, List.mem_append,
      not_or] at hnd
    have hs' : Seg list'.heap nx todo none := by
      rw [hlist']
      exact hs.set_out hnd.1.2 ⟨_, hg⟩
    have hn'' : list'.nodes = (xs ++ [(a, c')]) ++ todo := by rw [hn']; simp
    have hrec := ih hw' hn'' hs' (by simpa using hf)
      (fun n hn => hl n (List.mem_cons_of_mem _ hn)) hrest
    rcases hrec with ⟨l, todo', rfl, h1, h2, h3⟩ | ⟨e, n, fs, fs', h1, rfl, rfl, h2⟩
    · exact Or.inl ⟨l, (a, c') :: todo', rfl, h1, by rw [h2]; simp, es, c', es', todo', rfl, rfl,
        hrel, h3⟩
    · exact Or.inr ⟨e, n, es ++ fs, fs', List.mem_cons_of_mem _ h1, rfl, by simp, h2⟩

theorem sendData_exec {list : LinkedList ClientStructure}
    {o : Except Halt (LinkedList ClientStructure)} (h : list.WellFormed)
    (hl : ∀ n ∈ list.nodes, n.2.Lists) (he : (sendData data topic list bytes).Exec evs o) :
    (∃ list', o = .ok list' ∧ list'.WellFormed ∧
      RelayedAll data topic bytes list.nodes evs list'.nodes) ∨
    ∃ e n es es', n ∈ list.nodes ∧ o = .error e ∧ evs = es ++ es' ∧
      Refused data topic bytes n.2 es' := by
  have hs : Seg list.heap list.head list.nodes none := h.repr
  have hn : list.nodes = [] ++ list.nodes := rfl
  rcases sendDataFrom_exec h hn hs hs.length_le hl he with
    ⟨list', todo', rfl, h1, h2, h3⟩ | herr
  · rw [List.nil_append] at h2
    exact Or.inl ⟨list', rfl, h1, h2 ▸ h3⟩
  · exact Or.inr herr

end Relay

/-! ## What a publication brings to a client -/

/-- The client gets the frame at once. -/
def deliveredTo (topic : List Byte) (c : ClientStructure) : Bool :=
  c.online && (firstAccepted topic c).isSome

/-- The frame is kept for the client. -/
def queuedFor (topic : List Byte) (c : ClientStructure) : Bool :=
  !c.online && (firstAccepted topic c).any (·.sf ≠ 0)

/-- The data frames among the calls, with their descriptors. -/
def dataSends (evs : List (Event Sys)) : List (ℤ × List Byte) :=
  evs.filterMap fun e => match e.call with
    | .send .data fd buf => some (fd, buf)
    | .send .queued fd buf => some (fd, buf)
    | _ => none

@[simp] theorem dataSends_nil : dataSends [] = [] := rfl

@[simp] theorem dataSends_append (es es' : List (Event Sys)) :
    dataSends (es ++ es') = dataSends es ++ dataSends es' := List.filterMap_append

section Relay

variable {data topic : List Byte} {bytes : ℤ} {c c' : ClientStructure} {evs : List (Event Sys)}
  {ns ns' : List (Addr × ClientStructure)}

/-- Only the queue of a client changes, by the frame that is kept for it. -/
theorem Relayed.queue (hr : Relayed data topic bytes c evs c') (h : c.queue.WellFormed) :
    ∃ queue, c' = { c with queue := queue } ∧ queue.WellFormed ∧
      queue.toList = c.queue.toList ++
        if queuedFor topic c then [⟨data.take bytes.toNat, bytes⟩] else [] := by
  have hsame : queuedFor topic c = false → ∃ queue, c = { c with queue := queue } ∧
      queue.WellFormed ∧ queue.toList = c.queue.toList ++
        if queuedFor topic c then [⟨data.take bytes.toNat, bytes⟩] else [] := fun hq =>
    ⟨c.queue, rfl, h, by simp [hq]⟩
  unfold Relayed at hr
  cases hacc : firstAccepted topic c with
  | none =>
    rw [hacc] at hr
    obtain ⟨-, rfl⟩ := hr
    exact hsame (by simp [queuedFor, hacc])
  | some t =>
    simp only [hacc] at hr
    split_ifs at hr with hon hsf
    · obtain ⟨-, rfl⟩ := hr
      exact hsame (by simp [queuedFor, hon])
    · obtain ⟨-, rfl⟩ := hr
      exact hsame (by simp [queuedFor, hacc, hsf])
    · obtain ⟨-, q, hq, rfl⟩ := hr
      obtain ⟨q', hq', hw, hn⟩ := h.addLastImproved ⟨data.take bytes.toNat, bytes⟩
      obtain rfl := Except.ok.inj (hq'.symm.trans hq)
      refine ⟨q', rfl, hw, ?_⟩
      rw [LinkedList.toList, hn, List.map_append, if_pos (by simp [queuedFor, hacc, hsf, hon])]
      rfl

theorem Relayed.sends (hr : Relayed data topic bytes c evs c') :
    dataSends evs = if deliveredTo topic c then [(c.sock, data.take bytes.toNat)] else [] := by
  unfold Relayed at hr
  cases hacc : firstAccepted topic c with
  | none =>
    rw [hacc] at hr
    rw [hr.1, if_neg (by simp [deliveredTo, hacc]), dataSends_nil]
  | some t =>
    simp only [hacc] at hr
    split_ifs at hr with hon hsf
    · obtain ⟨⟨ret, rfl, -⟩, -⟩ := hr
      rw [if_pos (by simp [deliveredTo, hacc, hon])]
      rfl
    · rw [hr.1, if_neg (by simp [deliveredTo, hon]), dataSends_nil]
    · rw [hr.1, if_neg (by simp [deliveredTo, hon]), dataSends_nil]

theorem RelayedAll.sends (hr : RelayedAll data topic bytes ns evs ns') :
    dataSends evs =
      (ns.filter fun n => deliveredTo topic n.2).map fun n => (n.2.sock, data.take bytes.toNat) := by
  induction ns generalizing evs ns' with
  | nil =>
    obtain ⟨rfl, -⟩ := hr
    rfl
  | cons n ns ih =>
    obtain ⟨es, c', es', ns'', rfl, -, h1, h2⟩ := hr
    rw [dataSends_append, h1.sends, ih h2, List.filter_cons]
    split_ifs <;> rfl

/-- Every client afterwards comes from one before. -/
theorem RelayedAll.source (hr : RelayedAll data topic bytes ns evs ns')
    {n' : Addr × ClientStructure} (hn : n' ∈ ns') :
    ∃ n ∈ ns, n'.1 = n.1 ∧ ∃ es, Relayed data topic bytes n.2 es n'.2 := by
  induction ns generalizing evs ns' with
  | nil =>
    obtain ⟨-, rfl⟩ := hr
    cases hn
  | cons n ns ih =>
    obtain ⟨es, c', es', ns'', -, rfl, h1, h2⟩ := hr
    rcases List.mem_cons.mp hn with rfl | hn
    · exact ⟨n, List.mem_cons_self, rfl, es, h1⟩
    · obtain ⟨m, hm, h⟩ := ih h2 hn
      exact ⟨m, List.mem_cons_of_mem _ hm, h⟩

/-- Every client before is found afterwards. -/
theorem RelayedAll.target (hr : RelayedAll data topic bytes ns evs ns')
    {n : Addr × ClientStructure} (hn : n ∈ ns) :
    ∃ c' es, (n.1, c') ∈ ns' ∧ Relayed data topic bytes n.2 es c' := by
  induction ns generalizing evs ns' with
  | nil => cases hn
  | cons m ns ih =>
    obtain ⟨es, c', es', ns'', -, rfl, h1, h2⟩ := hr
    rcases List.mem_cons.mp hn with rfl | hn
    · exact ⟨c', es, List.mem_cons_self, h1⟩
    · obtain ⟨c'', es'', hm, h⟩ := ih h2 hn
      exact ⟨c'', es'', List.mem_cons_of_mem _ hm, h⟩

/-- Whatever does not depend on the queues stays as it was. -/
theorem RelayedAll.map_eq {β : Type} (f : Addr × ClientStructure → β)
    (hf : ∀ a c queue, f (a, { c with queue := queue }) = f (a, c))
    (hl : ∀ n ∈ ns, n.2.Lists) (hr : RelayedAll data topic bytes ns evs ns') :
    ns'.map f = ns.map f := by
  induction ns generalizing evs ns' with
  | nil =>
    obtain ⟨-, rfl⟩ := hr
    rfl
  | cons n ns ih =>
    obtain ⟨es, c', es', ns'', -, rfl, h1, h2⟩ := hr
    obtain ⟨queue, rfl, -⟩ := h1.queue (hl n List.mem_cons_self).queue
    rw [List.map_cons, List.map_cons, hf, ih (fun n hn => hl n (List.mem_cons_of_mem _ hn)) h2]

end Relay

/-! ## Flushing a queue -/

/-- The queued frames were sent one by one, each acknowledged. -/
def Flushed (sock : ℤ) : List QueueElement → List (Event Sys) → Prop
  | [], evs => evs = []
  | el :: els, evs => ∃ ret rest,
      evs = ⟨.send .queued sock (el.data.take el.len.toNat), true⟩ ::
        ⟨.recv .queuedAck sock buflen, ret⟩ :: rest ∧
      replyType ret = 4 ∧ Flushed sock els rest

/-- A queued frame was not delivered: it could not be sent, nothing came back, or something else
than an acknowledgement. -/
inductive Undelivered (sock : ℤ) (el : QueueElement) : List (Event Sys) → Halt → Prop
  | unsent : Undelivered sock el
      [⟨.send .queued sock (el.data.take el.len.toNat), false⟩] (.dieCall queueErr)
  | silent : Undelivered sock el [⟨.send .queued sock (el.data.take el.len.toNat), true⟩,
      ⟨.recv .queuedAck sock buflen, none⟩] (.dieCall lackAck)
  | refused {m} : replyType (some m) ≠ 4 →
      Undelivered sock el [⟨.send .queued sock (el.data.take el.len.toNat), true⟩,
        ⟨.recv .queuedAck sock buflen, some m⟩] (.dieType lackAck)

/-- A flush broke off: the first queued frames were acknowledged, and the next was not delivered. -/
def FlushBroken (sock : ℤ) (els : List QueueElement) (evs : List (Event Sys)) (e : Halt) : Prop :=
  ∃ before el after es es', els = before ++ el :: after ∧ evs = es ++ es' ∧
    Flushed sock before es ∧ Undelivered sock el es' e

/-- Why a flush stops: it broke off, or an element does not fit in the buffer. -/
def FlushStops (sock : ℤ) (els : List QueueElement) (evs : List (Event Sys)) (e : Halt) : Prop :=
  FlushBroken sock els evs e ∨
    e = .fault .outOfBounds ∧ ∃ el ∈ els, el.len < 0 ∨ buflen < el.len

section Stops

variable {sock : ℤ} {el : QueueElement} {els : List QueueElement} {evs : List (Event Sys)}
  {e : Halt}

theorem Undelivered.stops (h : Undelivered sock el evs e) (els : List QueueElement) :
    FlushStops sock (el :: els) evs e :=
  Or.inl ⟨[], el, els, [], evs, rfl, rfl, rfl, h⟩

theorem FlushStops.cons (h : FlushStops sock els evs e) {ret : Option (List Byte)}
    (hack : replyType ret = 4) :
    FlushStops sock (el :: els) (⟨.send .queued sock (el.data.take el.len.toNat), true⟩ ::
      ⟨.recv .queuedAck sock buflen, ret⟩ :: evs) e := by
  rcases h with ⟨before, el', after, es, es', rfl, rfl, hfl, hun⟩ | ⟨h, el', hmem, hlen⟩
  · exact Or.inl ⟨el :: before, el', after, _, es', rfl, rfl, ⟨ret, es, rfl, hack, hfl⟩, hun⟩
  · exact Or.inr ⟨h, el', List.mem_cons_of_mem _ hmem, hlen⟩

/-- The flush of elements that fit stops where it broke off. -/
theorem FlushStops.broken (h : FlushStops sock els evs e)
    (hfit : ∀ el ∈ els, 0 ≤ el.len ∧ el.len ≤ buflen) : FlushBroken sock els evs e := by
  rcases h with h | ⟨-, el, hel, hout⟩
  · exact h
  · obtain ⟨h0, hle⟩ := hfit el hel
    omega

theorem FlushBroken.not_fault (h : FlushBroken sock els evs e) (f : Fault) : e ≠ .fault f := by
  obtain ⟨_, _, _, _, _, _, _, _, hun⟩ := h
  cases hun with
  | unsent => simp
  | silent => simp
  | refused => simp

end Stops

/-- A flush sends the elements of the queue one by one, or stops at one. -/
theorem emptyQueueLoop_exec {sock : ℤ} {fuel : ℕ} {queue : LinkedList QueueElement}
    {evs : List (Event Sys)} {o : Except Halt (LinkedList QueueElement)} (h : queue.WellFormed)
    (hfuel : queue.nodes.length ≤ fuel) (he : (emptyQueueLoop sock fuel queue).Exec evs o) :
    (∃ queue', o = .ok queue' ∧ queue'.WellFormed ∧ queue'.nodes = [] ∧
      Flushed sock queue.toList evs) ∨
    ∃ e, o = .error e ∧ FlushStops sock queue.toList evs e := by
  induction fuel generalizing queue evs with
  | zero =>
    have hnil : queue.nodes = [] := List.length_eq_zero_iff.mp (Nat.le_zero.mp hfuel)
    unfold emptyQueueLoop at he
    rw [h.repr.head_eq_none.mpr hnil] at he
    obtain ⟨rfl, rfl⟩ := he
    exact Or.inl ⟨queue, rfl, h, hnil, by rw [LinkedList.toList, hnil]; rfl⟩
  | succ fuel ih =>
    unfold emptyQueueLoop at he
    cases hn : queue.nodes with
    | nil =>
      rw [h.repr.head_eq_none.mpr hn] at he
      obtain ⟨rfl, rfl⟩ := he
      exact Or.inl ⟨queue, rfl, h, hn, by rw [LinkedList.toList, hn]; rfl⟩
    | cons n ns =>
      obtain ⟨a, el⟩ := n
      obtain ⟨b, hh⟩ : ∃ b, queue.head = some b := by
        rw [← Option.ne_none_iff_exists', Ne, h.repr.head_eq_none, hn]
        exact List.cons_ne_nil _ _
      obtain ⟨l', hrem, hw', hn', hheap⟩ := h.removeFirst hn
      obtain ⟨nx, hd⟩ := h.repr.deref_mem (a := a) (x := el) (by rw [hn]; simp)
      have hlist : queue.toList = el :: l'.toList := by
        rw [LinkedList.toList, hn, List.map_cons, ← hn', ← LinkedList.toList]
      rw [hlist]
      simp only [hh, hrem, mem_ok, Program.ret_bind, hheap, hd] at he
      rw [exec_mem] at he
      rcases he with ⟨err, hlen, rfl, rfl⟩ | ⟨-, -, he⟩
      · split_ifs at hlen with hout
        cases hlen
        exact Or.inr ⟨_, rfl, Or.inr ⟨rfl, el, List.mem_cons_self, hout⟩⟩
      rw [exec_send] at he
      obtain ⟨sent, rest, rfl, he⟩ := he
      rw [exec_dieCall] at he
      rcases he with ⟨hsent, rfl, rfl⟩ | ⟨hsent, he⟩
      · obtain rfl : sent = false := by simpa using hsent
        exact Or.inr ⟨_, rfl, Undelivered.unsent.stops _⟩
      obtain rfl : sent = true := by simpa using hsent
      rw [exec_recv] at he
      obtain ⟨ret, rest, rfl, he⟩ := he
      rw [exec_dieCall] at he
      rcases he with ⟨hnone, rfl, rfl⟩ | ⟨hsome, he⟩
      · obtain rfl := Option.isNone_iff_eq_none.mp hnone
        exact Or.inr ⟨_, rfl, Undelivered.silent.stops _⟩
      rw [exec_dieType] at he
      rcases he with ⟨hack, rfl, rfl⟩ | ⟨hack, he⟩
      · obtain ⟨m, rfl⟩ := Option.isSome_iff_exists.mp (Option.isNone_eq_false_iff.mp hsome)
        exact Or.inr ⟨_, rfl, (Undelivered.refused (by simpa using hack)).stops _⟩
      have hfuel' : l'.nodes.length ≤ fuel := by
        rw [hn, List.length_cons] at hfuel
        rw [hn']
        omega
      rcases ih hw' hfuel' he with ⟨queue', rfl, h1, h2, h3⟩ | ⟨e, rfl, hstop⟩
      · exact Or.inl ⟨queue', rfl, h1, h2, ret, rest, rfl, by simpa using hack, h3⟩
      · exact Or.inr ⟨e, rfl, hstop.cons (by simpa using hack)⟩

theorem emptyQueue_exec {c : ClientStructure} {evs : List (Event Sys)}
    {o : Except Halt ClientStructure} (h : c.queue.WellFormed) (he : (emptyQueue c).Exec evs o) :
    (∃ queue, o = .ok { c with queue := queue } ∧ queue.WellFormed ∧ queue.nodes = [] ∧
      Flushed c.sock c.queue.toList evs) ∨
    ∃ e, o = .error e ∧ FlushStops c.sock c.queue.toList evs e := by
  unfold emptyQueue at he
  have hfuel := (show Seg c.queue.heap c.queue.head c.queue.nodes none from h.repr).length_le
  rw [Program.exec_bind] at he
  rcases he with ⟨e, hq, rfl⟩ | ⟨es, es', queue, rfl, hq, rfl, rfl⟩
  · rcases emptyQueueLoop_exec h hfuel hq with ⟨queue, ho, -⟩ | hstop
    · cases ho
    · obtain ⟨e, ho, hstop⟩ := hstop
      cases ho
      exact Or.inr ⟨e, rfl, hstop⟩
  · rcases emptyQueueLoop_exec h hfuel hq with ⟨queue', ho, h1, h2, h3⟩ | ⟨e, ho, -⟩
    · cases ho
      rw [List.append_nil]
      exact Or.inl ⟨queue, rfl, h1, h2, h3⟩
    · cases ho

/-- A flush calls nothing but the `send` and the `recv` of its elements. -/
theorem emptyQueue_calls {A : Call → Prop} {c : ClientStructure}
    (hsend : ∀ buf, A (.send .queued c.sock buf)) (hrecv : A (.recv .queuedAck c.sock buflen)) :
    (emptyQueue c).Calls A := by
  have hloop : ∀ fuel queue, (emptyQueueLoop c.sock fuel queue).Calls A := by
    intro fuel
    induction fuel with
    | zero =>
      intro queue
      unfold emptyQueueLoop
      cases queue.head <;> trivial
    | succ fuel ih =>
      intro queue
      unfold emptyQueueLoop
      cases queue.head with
      | none => trivial
      | some a =>
        refine calls_mem fun first => calls_mem fun node => calls_mem fun _ => ?_
        exact calls_ask (hsend _) fun ret => calls_die
          (calls_ask hrecv fun ret => calls_die (calls_die (ih _)))
  exact (hloop _ _).bind fun queue => trivial

theorem emptyQueue_ok {c c' : ClientStructure} {evs : List (Event Sys)} (h : c.queue.WellFormed)
    (he : (emptyQueue c).Exec evs (.ok c')) :
    ∃ queue, c' = { c with queue := queue } ∧ queue.WellFormed ∧ queue.nodes = [] ∧
      Flushed c.sock c.queue.toList evs := by
  rcases emptyQueue_exec h he with ⟨queue, ho, hq⟩ | ⟨e, ho, -⟩
  · exact ⟨queue, Except.ok.inj ho, hq⟩
  · cases ho

/-! ## The effects -/

/-- What stands in the buffer of the ID reply. -/
def idReply (svCl : CharArray serverHdrSize) (ret : Option (List Byte)) : List Byte :=
  overlay (ret.getD []) (5 :: svCl.bytes.drop 1)

/-- The ID in the buffer of the ID reply. -/
def receivedId (svCl : CharArray serverHdrSize) (ret : Option (List Byte)) : CharArray idLen :=
  .ofList idLen (((idReply svCl ret).drop clientHdrSize).take idLen)

/-- The entry of a client that connects for the first time. -/
def newClient (id : CharArray idLen) (sock : ℤ) : ClientStructure where
  id := id
  subscribedTopics := .initList
  sock := sock
  online := true
  queue := .initList

/-- The header of the command in a buffer. -/
def commandHdr (ret : Option (List Byte)) : ClientToServerHdr :=
  .decode (pad maxLenBuf (ret.getD []))

/-- The calls by which a connection is accepted and asked for its ID. -/
def greeting (tcp fd : ℤ) (addr : SockAddrIn) (svCl : CharArray serverHdrSize)
    (ret : Option (List Byte)) : List (Event Sys) :=
  [⟨.accept tcp, (fd, addr)⟩, ⟨.indeterminate serverHdrSize, svCl⟩,
    ⟨.send .idRequest fd (5 :: svCl.bytes.drop 1), true⟩, ⟨.recv .idReply fd maxLenBuf, ret⟩]

/-- The calls by which a datagram is received and its frame built. -/
def reception (udp : ℤ) (datagram : List Byte) (fromUdpStation : SockAddrIn)
    (bytes : CharArray 4) (slack : CharArray stringLen) (padding : CharArray 3) :
    List (Event Sys) :=
  [⟨.recvfrom udp maxLenBuf, some (datagram, fromUdpStation)⟩, ⟨.indeterminate 4, bytes⟩,
    ⟨.indeterminate stringLen, slack⟩, ⟨.indeterminate 3, padding⟩]

/-- The message in a datagram and the buffer with its frame. -/
def publication (datagram : List Byte) (fromUdpStation : SockAddrIn) (bytes : CharArray 4)
    (slack : CharArray stringLen) (padding : CharArray 3) : Except Fault (Message × List Byte) := do
  let msg ← buildMsg (pad maxLenBuf datagram) ⟨[], 0, toInt (load32 bytes.bytes), none⟩
    (datagram.take maxLenBuf).length
  let buf ← buildSentBuffer msg fromUdpStation slack.bytes padding
  .ok (msg, buf)

/-- The calls by which a command is read and answered, with those in between. -/
def commandCalls (i : ℤ) (ret : Option (List Byte)) (between : List (Event Sys))
    (svCl : CharArray serverHdrSize) : List (Event Sys) :=
  ⟨.recv .command i maxLenBuf, ret⟩ :: between ++
    [⟨.indeterminate serverHdrSize, svCl⟩,
      ⟨.send .response i (6 :: svCl.bytes.drop 1 ++ [0]), true⟩]

/-- The descriptors that the loop leaves to `manage_command_from_client`. -/
def Sockets.Client (k : Sockets) (i : ℤ) : Prop := i ≠ k.tcp ∧ i ≠ k.udp ∧ i ≠ 0

/-- What the body of the loop does for a ready descriptor. -/
inductive Effect (k : Sockets) (s : ServerState) :
    ℤ → List (Event Sys) → ServerState × Flow → Prop
  | registered {fd addr svCl ret list} : fd ≠ -1 → (idReply svCl ret).getD 0 0 = 2 →
      (∀ n ∈ s.clientsContainer.nodes, n.2.id.str ≠ (receivedId svCl ret).str) →
      list.WellFormed →
      list.nodes = s.clientsContainer.nodes ++
        [(s.clientsContainer.heap.size, newClient (receivedId svCl ret) fd)] →
      Effect k s k.tcp
        (greeting k.tcp fd addr svCl ret ++ [⟨.printf (.newConn (receivedId svCl ret) addr), ()⟩])
        ({ clientsContainer := list, readFds := insert fd s.readFds, fdmax := s.fdmax + 1 }, .next)
  | refused {fd addr svCl ret a c sent} : fd ≠ -1 → (idReply svCl ret).getD 0 0 = 2 →
      (a, c) ∈ s.clientsContainer.nodes → c.id.str = (receivedId svCl ret).str →
      c.online = true →
      Effect k s k.tcp
        (greeting k.tcp fd addr svCl ret ++ [⟨.printf (.conRef c.id), ()⟩,
          ⟨.send .refusal fd (4 :: svCl.bytes.drop 1), sent⟩, ⟨.close fd, ()⟩])
        (s, .next)
  | reconnected {fd addr svCl ret xs a c ys es queue list} : fd ≠ -1 →
      (idReply svCl ret).getD 0 0 = 2 →
      s.clientsContainer.nodes = xs ++ (a, c) :: ys → c.id.str = (receivedId svCl ret).str →
      c.online = false → Flushed fd c.queue.toList es → queue.WellFormed → queue.nodes = [] →
      list.WellFormed →
      list.nodes = xs ++ (a, { c with sock := fd, online := true, queue := queue }) :: ys →
      Effect k s k.tcp
        (greeting k.tcp fd addr svCl ret ++ ⟨.printf (.newConn c.id addr), ()⟩ :: es)
        ({ clientsContainer := list, readFds := insert fd s.readFds, fdmax := s.fdmax + 1 }, .next)
  | published {datagram fromUdpStation bytes slack padding msg buf es list} : datagram ≠ [] →
      publication datagram fromUdpStation bytes slack padding = .ok (msg, buf) →
      list.WellFormed →
      RelayedAll buf msg.topic (serverHdrSize + msg.bytes) s.clientsContainer.nodes es
        list.nodes →
      Effect k s k.udp (reception k.udp datagram fromUdpStation bytes slack padding ++ es)
        ({ s with clientsContainer := list }, .next)
  | ignored {line} : Effect k s 0 [⟨.read 0 maxLenBuf, some line⟩] (s, .next)
  | stopped {line es} : (closeAllSockets s.clientsContainer).Exec es (.ok ()) →
      Effect k s 0 (⟨.read 0 maxLenBuf, some line⟩ :: es) (s, .leave)
  | subscribed {i ret svCl xs a c ys topics list} : k.Client i → (commandHdr ret).type = 0 →
      s.clientsContainer.nodes = xs ++ (a, c) :: ys → (∀ n ∈ xs, n.2.sock ≠ i) → c.sock = i →
      subscribeBranch c.subscribedTopics (commandHdr ret) = .ok topics → list.WellFormed →
      list.nodes = xs ++ (a, { c with subscribedTopics := topics }) :: ys →
      Effect k s i (commandCalls i ret [] svCl) ({ s with clientsContainer := list }, .next)
  | unsubscribed {i ret svCl xs a c ys topics list} : k.Client i → (commandHdr ret).type = 1 →
      s.clientsContainer.nodes = xs ++ (a, c) :: ys → (∀ n ∈ xs, n.2.sock ≠ i) → c.sock = i →
      unsubscribeBranch c.subscribedTopics (commandHdr ret) = .ok topics → list.WellFormed →
      list.nodes = xs ++ (a, { c with subscribedTopics := topics }) :: ys →
      Effect k s i (commandCalls i ret [] svCl) ({ s with clientsContainer := list }, .next)
  | disconnected {i ret svCl xs a c ys list} : k.Client i → (commandHdr ret).type = 3 →
      s.clientsContainer.nodes = xs ++ (a, c) :: ys → (∀ n ∈ xs, n.2.sock ≠ i) → c.sock = i →
      list.WellFormed → list.nodes = xs ++ (a, { c with sock := -1, online := false }) :: ys →
      Effect k s i
        (commandCalls i ret [⟨.printf (.disc c.id), ()⟩] svCl ++
          if i = -1 then [] else [⟨.close i, ()⟩])
        ({ clientsContainer := list, readFds := s.readFds.erase i,
           fdmax := if s.fdmax = i then s.fdmax - 1 else s.fdmax }, .next)
  | unknown {i ret svCl} : k.Client i → (commandHdr ret).type ≠ 0 →
      (commandHdr ret).type ≠ 1 → (commandHdr ret).type ≠ 3 →
      Effect k s i (commandCalls i ret [] svCl) (s, .next)

section Branches

variable {k : Sockets} {s s' : ServerState} {evs : List (Event Sys)}

/-- What follows the ID reply in `manage_connection_request`. -/
def admitClient (s : ServerState) (fd : ℤ) (addr : SockAddrIn) (svCl : CharArray serverHdrSize)
    (id : CharArray idLen) : Proc ServerState := do
  match ← mem (getClientById s.clientsContainer id) with
  | none =>
    printf (.newConn id addr)
    let list ← mem (s.clientsContainer.addLastImproved (newClient id fd))
    pure { clientsContainer := list, readFds := insert fd s.readFds, fdmax := s.fdmax + 1 }
  | some oldClient =>
    let (_, node) ← mem (deref s.clientsContainer.heap (some oldClient))
    if node.data.online then
      printf (.conRef node.data.id)
      let _ ← send .refusal fd (4 :: svCl.bytes.drop 1)
      close fd
      pure s
    else
      printf (.newConn node.data.id addr)
      let client ← emptyQueue { node.data with sock := fd, online := true }
      let list ← mem (s.clientsContainer.modifyData oldClient fun _ => client)
      pure { clientsContainer := list, readFds := insert fd s.readFds, fdmax := s.fdmax + 1 }

/-- The three ways in which a client is admitted; only the flush of a queue may stop. -/
theorem admitClient_exec {fd : ℤ} {addr : SockAddrIn} {svCl : CharArray serverHdrSize}
    {id : CharArray idLen} {o : Except Halt ServerState} (h : s.Lists)
    (he : (admitClient s fd addr svCl id).Exec evs o) :
    ((∀ n ∈ s.clientsContainer.nodes, n.2.id.str ≠ id.str) ∧
      evs = [⟨.printf (.newConn id addr), ()⟩] ∧ ∃ list, list.WellFormed ∧
      list.nodes = s.clientsContainer.nodes ++ [(s.clientsContainer.heap.size, newClient id fd)] ∧
      o = .ok { clientsContainer := list, readFds := insert fd s.readFds, fdmax := s.fdmax + 1 }) ∨
    (∃ a c sent, (a, c) ∈ s.clientsContainer.nodes ∧ c.id.str = id.str ∧ c.online = true ∧
      evs = [⟨.printf (.conRef c.id), ()⟩, ⟨.send .refusal fd (4 :: svCl.bytes.drop 1), sent⟩,
        ⟨.close fd, ()⟩] ∧ o = .ok s) ∨
    ∃ xs a c ys es, s.clientsContainer.nodes = xs ++ (a, c) :: ys ∧ c.id.str = id.str ∧
      c.online = false ∧ evs = ⟨.printf (.newConn c.id addr), ()⟩ :: es ∧
      (∀ e ∈ es, (∃ buf, e.call = .send .queued fd buf) ∨ e.call = .recv .queuedAck fd buflen) ∧
      ((∃ queue list, Flushed fd c.queue.toList es ∧ queue.WellFormed ∧ queue.nodes = [] ∧
        list.WellFormed ∧
        list.nodes = xs ++ (a, { c with sock := fd, online := true, queue := queue }) :: ys ∧
        o = .ok { clientsContainer := list, readFds := insert fd s.readFds,
                  fdmax := s.fdmax + 1 }) ∨
      ∃ e, o = .error e ∧ FlushStops fd c.queue.toList es e) := by
  unfold admitClient at he
  rcases getClientById_spec h.registry id with ⟨hnone, hall⟩ | ⟨xs, a, c, ys, hn, hid, hsome⟩
  · simp only [hnone, mem_ok, Program.ret_bind] at he
    rw [exec_printf] at he
    obtain ⟨u, rest, rfl, he⟩ := he
    obtain ⟨list, hadd, hw, hn⟩ := h.registry.addLastImproved (newClient id fd)
    rw [hadd, mem_ok, Program.ret_bind] at he
    obtain ⟨rfl, rfl⟩ := he
    exact Or.inl ⟨hall, rfl, list, hw, hn, rfl⟩
  · obtain ⟨nx, hd⟩ := h.registry.repr.deref_mem (a := a) (x := c) (by rw [hn]; simp)
    simp only [hsome, hd, mem_ok, Program.ret_bind] at he
    cases hon : c.online with
    | true =>
      simp only [hon, if_true] at he
      obtain ⟨u, rest, rfl, sent, rest, rfl, v, rest, rfl, rfl, rfl⟩ := he
      exact Or.inr (Or.inl ⟨a, c, sent, by rw [hn]; simp, hid, hon, rfl, rfl⟩)
    | false =>
      simp only [hon, Bool.false_eq_true, if_false] at he
      rw [exec_printf] at he
      obtain ⟨u, rest, rfl, he⟩ := he
      have hq : c.queue.WellFormed := (h.clients (a, c) (by rw [hn]; simp)).queue
      have hcalls : (emptyQueue { c with sock := fd, online := true }).Calls fun call : Call =>
          (∃ buf, call = .send .queued fd buf) ∨ call = .recv .queuedAck fd buflen :=
        emptyQueue_calls (fun buf => Or.inl ⟨buf, rfl⟩) (Or.inr rfl)
      refine Or.inr (Or.inr ⟨xs, a, c, ys, rest, hn, hid, hon, rfl, ?_, ?_⟩)
      · refine Program.Calls.exec (A := fun call : Call => (∃ buf, call = .send .queued fd buf) ∨
          call = .recv .queuedAck fd buflen) ?_ he
        exact hcalls.bind fun client => calls_mem fun list => trivial
      rw [Program.exec_bind] at he
      rcases he with ⟨e, hflush, rfl⟩ | ⟨es, es', c', rfl, hflush, he⟩
      · rcases emptyQueue_exec (by exact hq) hflush with ⟨queue, ho, -⟩ | ⟨e', ho, hstop⟩
        · cases ho
        · cases ho
          exact Or.inr ⟨e, rfl, hstop⟩
      · obtain ⟨queue, rfl, hqw, hqn, hfl⟩ := emptyQueue_ok (by exact hq) hflush
        obtain ⟨list, hm, hw, hn'⟩ := h.registry.modifyData hn
          fun _ => { c with sock := fd, online := true, queue := queue }
        rw [hm, mem_ok, Program.ret_bind] at he
        obtain ⟨rfl, rfl⟩ := he
        rw [List.append_nil]
        exact Or.inl ⟨queue, list, hfl, hqw, hqn, hw, hn', rfl⟩

/-- Behind the ID reply a connection is admitted. -/
theorem manageConnectionRequest_greeted {tcp fd : ℤ} {addr : SockAddrIn}
    {svCl : CharArray serverHdrSize} {reply : List Byte} {o : Except Halt ServerState}
    (hfd : fd ≠ -1) (htype : (idReply svCl (some reply)).getD 0 0 = 2)
    (he : (manageConnectionRequest tcp s).Exec (greeting tcp fd addr svCl (some reply) ++ evs) o) :
    (admitClient s fd addr svCl (receivedId svCl (some reply))).Exec evs o := by
  unfold manageConnectionRequest greeting at he
  rw [exec_accept] at he
  obtain ⟨r, rest, heq, he⟩ := he
  cases heq
  rw [exec_dieCall] at he
  rcases he with ⟨hneg, -⟩ | ⟨-, he⟩
  · exact absurd (eq_of_beq hneg) hfd
  rw [exec_indeterminate] at he
  obtain ⟨r, rest, heq, he⟩ := he
  cases heq
  rw [exec_send] at he
  obtain ⟨r, rest, heq, he⟩ := he
  cases heq
  rw [exec_dieCall] at he
  rcases he with ⟨hsent, -⟩ | ⟨-, he⟩
  · cases hsent
  rw [exec_recv] at he
  obtain ⟨r, rest, heq, he⟩ := he
  cases heq
  rw [exec_dieCall] at he
  rcases he with ⟨hnone, -⟩ | ⟨-, he⟩
  · cases hnone
  rw [exec_dieType] at he
  rcases he with ⟨hne, -⟩ | ⟨-, he⟩
  · exact absurd htype (bne_iff_ne.mp hne)
  · exact he

theorem manageConnectionRequest_effect (h : s.Lists)
    (he : (manageConnectionRequest k.tcp s).Exec evs (.ok s')) :
    Effect k s k.tcp evs (s', .next) := by
  unfold manageConnectionRequest at he
  rw [exec_accept] at he
  obtain ⟨⟨fd, addr⟩, rest, rfl, he⟩ := he
  rw [exec_dieCall_ok, exec_indeterminate] at he
  obtain ⟨hfd, svCl, rest, rfl, he⟩ := he
  have hfd : fd ≠ -1 := by simpa using hfd
  rw [exec_send] at he
  obtain ⟨sent, rest, rfl, he⟩ := he
  rw [exec_dieCall_ok, exec_recv] at he
  obtain ⟨hsent, ret, rest, rfl, he⟩ := he
  obtain rfl : sent = true := by simpa using hsent
  rw [exec_dieCall_ok, exec_dieType_ok] at he
  obtain ⟨-, htype, he⟩ := he
  have htype : (idReply svCl ret).getD 0 0 = 2 := by
    rw [bne_eq_false_iff_eq] at htype
    exact htype
  rcases admitClient_exec h (show (admitClient s fd addr svCl (receivedId svCl ret)).Exec _ _ from he)
    with ⟨hall, rfl, list, hw, hn, ho⟩ | ⟨a, c, sent, hmem, hid, hon, rfl, ho⟩ |
      ⟨xs, a, c, ys, es, hn, hid, hon, rfl, -, ⟨queue, list, hfl, hqw, hqn, hw, hn', ho⟩ |
        ⟨e, ho, -⟩⟩
  · cases ho
    exact .registered hfd htype hall hw hn
  · cases ho
    exact .refused hfd htype hmem hid hon
  · cases ho
    exact .reconnected hfd htype hn hid hon hfl hqw hqn hw hn'
  · cases ho

theorem udpBranch_effect (h : s.Lists) (he : (udpBranch k s).Exec evs (.ok s')) :
    Effect k s k.udp evs (s', .next) := by
  unfold udpBranch at he
  rw [exec_recvfrom] at he
  obtain ⟨_ | ⟨datagram, fromUdpStation⟩, rest, rfl, he⟩ := he
  · cases he.2
  simp only at he
  rw [exec_dieCall_ok, exec_indeterminate] at he
  obtain ⟨hlen, bytes, rest, rfl, he⟩ := he
  rw [exec_mem_ok] at he
  obtain ⟨msg, hmsg, he⟩ := he
  rw [exec_indeterminate] at he
  obtain ⟨slack, rest, rfl, he⟩ := he
  rw [exec_indeterminate] at he
  obtain ⟨padding, rest, rfl, he⟩ := he
  rw [exec_mem_ok] at he
  obtain ⟨buf, hbuf, he⟩ := he
  rw [Program.exec_bind_ok] at he
  obtain ⟨es, es', list, rfl, hsend, rfl, hs'⟩ := he
  cases hs'
  rw [List.append_nil]
  have hne : datagram ≠ [] := by
    rintro rfl
    simp at hlen
  have hpub : publication datagram fromUdpStation bytes slack padding = .ok (msg, buf) := by
    unfold publication
    rw [hmsg]
    simp only [bind, Except.bind, hbuf]
  rcases sendData_exec h.registry h.clients hsend with ⟨list', hl, hw, hrel⟩ | ⟨e, n, _, _, _, hl, _⟩
  · cases hl
    exact .published hne hpub hw hrel
  · cases hl

theorem stdinBranch_effect {flow : Flow} (he : (stdinBranch s).Exec evs (.ok flow)) :
    Effect k s 0 evs (s, flow) := by
  unfold stdinBranch at he
  rw [exec_read] at he
  obtain ⟨ret, rest, rfl, he⟩ := he
  rw [exec_dieCall_ok] at he
  obtain ⟨hret, he⟩ := he
  obtain ⟨line, rfl⟩ : ∃ line, ret = some line := by
    rw [← Option.isSome_iff_exists]
    simpa using hret
  split_ifs at he with hexit
  · rw [Program.exec_bind_ok] at he
    obtain ⟨es, es', u, rfl, hclose, rfl, hflow⟩ := he
    cases hflow
    rw [List.append_nil]
    exact .stopped hclose
  · obtain ⟨rfl, hflow⟩ := he
    cases hflow
    exact .ignored

/-- The common part of the two commands on topics: the client is found and its list replaced. -/
theorem updateTopics_exec {i : ℤ} {xs ys : List (Addr × ClientStructure)} {a : Addr}
    {c : ClientStructure} {f : LinkedList TopicStructure → Except Fault (LinkedList TopicStructure)}
    {o : Except Halt (ℤ × ServerState)} (h : s.Lists)
    (hn : s.clientsContainer.nodes = xs ++ (a, c) :: ys) (hxs : ∀ n ∈ xs, n.2.sock ≠ i)
    (hsock : c.sock = i) :
    (do
      let client ← mem (getClientBySock s.clientsContainer i)
      let (a, node) ← mem (deref s.clientsContainer.heap client)
      let topics ← mem (f node.data.subscribedTopics)
      let list ← mem (s.clientsContainer.modifyData a
        fun c => { c with subscribedTopics := topics })
      pure (-1, { s with clientsContainer := list }) : Proc (ℤ × ServerState)).Exec evs o ↔
      evs = [] ∧ ((∃ e, f c.subscribedTopics = .error e ∧ o = .error (.fault e)) ∨
        ∃ topics list, f c.subscribedTopics = .ok topics ∧ list.WellFormed ∧
          list.nodes = xs ++ (a, { c with subscribedTopics := topics }) :: ys ∧
          s.clientsContainer.modifyData a (fun c => { c with subscribedTopics := topics }) =
            .ok list ∧ o = .ok (-1, { s with clientsContainer := list })) := by
  obtain ⟨nx, hd⟩ := h.registry.repr.deref_mem (a := a) (x := c) (by rw [hn]; simp)
  rw [getClientBySock_eq h.registry hn hxs hsock, mem_ok, Program.ret_bind, hd, mem_ok,
    Program.ret_bind]
  simp only
  cases hf : f c.subscribedTopics with
  | error e => simp
  | ok topics =>
    obtain ⟨list, hm, hw, hn'⟩ := h.registry.modifyData hn
      fun c => { c with subscribedTopics := topics }
    rw [mem_ok, Program.ret_bind, hm, mem_ok, Program.ret_bind, Program.pure_eq,
      Program.exec_ret]
    refine and_congr_right fun _ => ?_
    constructor
    · rintro rfl
      exact Or.inr ⟨topics, list, rfl, hw, hn', hm, rfl⟩
    · rintro (⟨e, he, -⟩ | ⟨topics', list', he, -, -, hm', rfl⟩)
      · cases he
      · cases he
        rw [hm] at hm'
        cases hm'
        rfl

/-- A command is found its client and executed. -/
theorem commandBranch_effect {i : ℤ} (hi : k.Client i) (h : s.Lists)
    (he : (commandBranch i s).Exec evs (.ok s')) : Effect k s i evs (s', .next) := by
  unfold commandBranch at he
  rw [Program.exec_bind_ok] at he
  obtain ⟨es, es', ⟨closeFd, s₁⟩, rfl, hman, he⟩ := he
  simp only at he
  rw [exec_indeterminate] at he
  obtain ⟨svCl, rest, rfl, he⟩ := he
  rw [exec_send] at he
  obtain ⟨sent, rest, rfl, he⟩ := he
  rw [exec_dieCall_ok] at he
  obtain ⟨hsent, he⟩ := he
  obtain rfl : sent = true := by simpa using hsent
  unfold manageCommandFromClient at hman
  rw [exec_recv] at hman
  obtain ⟨ret, es, rfl, hman⟩ := hman
  have hclosed : closeFd = -1 → rest = [] ∧ s' = s₁ := by
    rintro rfl
    obtain ⟨hrest, hs⟩ := he
    exact ⟨hrest, Except.ok.inj hs⟩
  rcases getClientBySock_spec h.registry i with
    ⟨hnone, -⟩ | ⟨xs, a, c, ys, hn, hxs, hsock, hsome⟩
  · -- every known command dereferences the client
    simp only [hnone] at hman
    split_ifs at hman with h0 h1 h3
    · cases hman.2
    · cases hman.2
    · cases hman.2
    · obtain ⟨rfl, hs⟩ := hman
      cases hs
      obtain ⟨rfl, rfl⟩ := hclosed rfl
      exact .unknown hi h0 h1 h3
  obtain ⟨nx, hd⟩ := h.registry.repr.deref_mem (a := a) (x := c) (by rw [hn]; simp)
  simp only at hman
  split_ifs at hman with h0 h1 h3
  · obtain ⟨rfl, ⟨e, -, ho⟩ | ⟨topics, list, htopics, hw, hn', -, ho⟩⟩ :=
      (updateTopics_exec (f := fun l => subscribeBranch l (commandHdr ret)) h hn hxs hsock).mp hman
    · cases ho
    cases ho
    obtain ⟨rfl, rfl⟩ := hclosed rfl
    exact .subscribed hi h0 hn hxs hsock htopics hw hn'
  · obtain ⟨rfl, ⟨e, -, ho⟩ | ⟨topics, list, htopics, hw, hn', -, ho⟩⟩ :=
      (updateTopics_exec (f := fun l => unsubscribeBranch l (commandHdr ret)) h hn hxs hsock).mp hman
    · cases ho
    cases ho
    obtain ⟨rfl, rfl⟩ := hclosed rfl
    exact .unsubscribed hi h1 hn hxs hsock htopics hw hn'
  · rw [exec_mem_ok] at hman
    obtain ⟨r, hr, hman⟩ := hman
    obtain rfl := Except.ok.inj (hsome.symm.trans hr)
    rw [exec_mem_ok] at hman
    obtain ⟨r, hr, hman⟩ := hman
    obtain rfl := Except.ok.inj (hd.symm.trans hr)
    simp only at hman
    rw [exec_printf] at hman
    obtain ⟨u, rest', rfl, hman⟩ := hman
    obtain ⟨list, hm, hw, hn'⟩ := h.registry.modifyData hn
      fun c => { c with sock := -1, online := false }
    rw [exec_mem_ok] at hman
    obtain ⟨list', hm', rfl, hs⟩ := hman
    obtain rfl := Except.ok.inj (hm.symm.trans hm')
    cases hs
    have heff (x : CharArray serverHdrSize) : Effect k s i (commandCalls i ret _ x ++ _) _ :=
      .disconnected hi h3 hn hxs hsock hw hn'
    by_cases hneg : i = -1
    · obtain ⟨rfl, rfl⟩ := hclosed hneg
      simpa [commandCalls, hneg, hsock] using heff svCl
    · rw [if_pos hneg] at he
      obtain ⟨v, rest, rfl, rfl, hs⟩ := he
      cases hs
      simpa [commandCalls, hneg, hsock] using heff svCl
  · obtain ⟨rfl, hs⟩ := hman
    cases hs
    obtain ⟨rfl, rfl⟩ := hclosed rfl
    exact .unknown hi h0 h1 h3

/-- The list of effects is complete. -/
theorem mainBody_effect {i : ℤ} {r : ServerState × Flow} (h : s.Lists)
    (he : (mainBody k s i).Exec evs (.ok r)) : Effect k s i evs r := by
  unfold mainBody at he
  by_cases htcp : i = k.tcp
  · rw [if_pos htcp, Program.exec_bind_ok] at he
    obtain ⟨es, es', s', rfl, hb, rfl, hr⟩ := he
    cases hr
    rw [List.append_nil, htcp]
    exact manageConnectionRequest_effect h hb
  by_cases hudp : i = k.udp
  · rw [if_neg htcp, if_pos hudp, Program.exec_bind_ok] at he
    obtain ⟨es, es', s', rfl, hb, rfl, hr⟩ := he
    cases hr
    rw [List.append_nil, hudp]
    exact udpBranch_effect h hb
  by_cases h0 : i = 0
  · rw [if_neg htcp, if_neg hudp, if_pos h0, Program.exec_bind_ok] at he
    obtain ⟨es, es', flow, rfl, hb, rfl, hr⟩ := he
    cases hr
    rw [List.append_nil, h0]
    exact stdinBranch_effect hb
  · rw [if_neg htcp, if_neg hudp, if_neg h0, Program.exec_bind_ok] at he
    obtain ⟨es, es', s', rfl, hb, rfl, hr⟩ := he
    cases hr
    rw [List.append_nil]
    exact commandBranch_effect ⟨htcp, hudp, h0⟩ h hb

end Branches

end TopicServer
