import TopicServer.Registry

/-!
# The server's side of a connection

`sessions` is the protocol that the server follows on each of its descriptors: it accepts a
connection, asks for the ID, and then is the one who sends a frame and waits for its
acknowledgement, or executes a command and answers it. A message of another type where an
acknowledgement is due ends the protocol (`none`), and with it the server. Between two bodies the
views are those of the registry (`views`). `serverContract` says that the body of every descriptor
follows the protocol.
-/

namespace TopicServer

open Interactive Linked Memory

/-- How far the server is with a connection. `pending` and `shut` are connections without a
descriptor, not accepted yet or closed; `unused` is a descriptor without a connection. -/
inductive ServerView
  | pending
  | unused
  | accepted
  | asked
  | settled (id : List Byte)
  | awaiting (id : List Byte)
  | executing (id command : List Byte)
  | closing (command : List Byte)
  | shut
  deriving DecidableEq

/-- The ID in an ID reply. -/
def replyId (m : List Byte) : List Byte :=
  (CharArray.ofList idLen ((m.drop clientHdrSize).take idLen)).str

namespace ServerView

/-- The view after the server has sent a message; it closes the connection after it has answered
the command `exit` or refused the client. -/
def sent : Site → ServerView → ServerView
  | .idRequest, _ => .asked
  | .data, .settled id => .awaiting id
  | .queued, .settled id => .awaiting id
  | .response, .executing id m => if msgType m = 3 then .closing m else .settled id
  | .refusal, _ => .closing []
  | _, v => v

/-- The view after the server has received `m`. -/
def got (m : List Byte) : Site → ServerView → Option ServerView
  | .idReply, _ => some (.settled (replyId m))
  | .dataAck, .awaiting id => if msgType m = 4 then some (.settled id) else none
  | .queuedAck, .awaiting id => if msgType m = 4 then some (.settled id) else none
  | .command, .settled id => some (.executing id m)
  | _, v => some v

end ServerView

/-- The views of all descriptors. -/
abbrev Views := ℤ → ServerView

namespace Views

/-- What the server may call. -/
def Allowed (g : Views) : Call → Prop
  | .send .idRequest fd buf => g fd = .accepted ∧ msgType buf = 5
  | .send .data fd _ => ∃ id, g fd = .settled id
  | .send .queued fd _ => ∃ id, g fd = .settled id
  | .send .response fd buf => (∃ id m, g fd = .executing id m) ∧ msgType buf = 6
  | .send .refusal fd buf =>
    (∃ id fd', fd' ≠ fd ∧ g fd = .settled id ∧ g fd' = .settled id) ∧ msgType buf = 4
  | .send .. => False
  | .recv .idReply fd _ => g fd = .asked
  | .recv .dataAck fd _ => ∃ id, g fd = .awaiting id
  | .recv .queuedAck fd _ => ∃ id, g fd = .awaiting id
  | .recv .command fd _ => ∃ id, g fd = .settled id
  | .recv .. => False
  | .close fd => ∃ m, g fd = .closing m
  | _ => True

/-- What the connections answer; the console is silent. -/
def Expected (k : Sockets) (g : Views) : (c : Call) → Answer c → Prop
  | .accept _, r => 0 ≤ r.1 ∧ k.Client r.1 ∧ g r.1 = .unused
  | .send .., r => r = true
  | .recv .idReply _ _, ret =>
    ∃ m, ret = some m ∧ m.length = clientHdrSize + idLen ∧ msgType m = 2
  | .recv .., ret => ret.isSome
  | .recvfrom .., ret => ∃ datagram addr, ret = some (datagram, addr) ∧ datagram ≠ []
  | .read .., _ => False
  | _, _ => True

/-- The views after a call. -/
def next (g : Views) : (c : Call) → Answer c → Option Views
  | .accept _, r => some (Function.update g r.1 .accepted)
  | .send site fd _, _ => some (Function.update g fd ((g fd).sent site))
  | .recv site fd _, ret => ((g fd).got (ret.getD []) site).map (Function.update g fd)
  | .close fd, _ => some (Function.update g fd .unused)
  | _, _ => some g

end Views

/-- The protocol of the server's descriptors; `none` is behind a message of the wrong type. -/
def sessions (k : Sockets) : Protocol Sys (Option Views) where
  Allowed g c := ∃ v, g = some v ∧ v.Allowed c
  Expected g c r := ∀ v, g = some v → v.Expected k c r
  next g c r := g.bind fun v => v.next c r

@[simp] theorem sessions_printf (k : Sockets) (g : Views) (line : Output) (r : Unit) :
    (sessions k).next (some g) (.printf line) r = some g := rfl

@[simp] theorem sessions_indeterminate (k : Sockets) (g : Views) (n : ℕ) (r : CharArray n) :
    (sessions k).next (some g) (.indeterminate n) r = some g := rfl

@[simp] theorem sessions_close (k : Sockets) (g : Views) (fd : ℤ) (r : Unit) :
    (sessions k).next (some g) (.close fd) r = some (Function.update g fd .unused) := rfl

@[simp] theorem sessions_refusal (k : Sockets) (g : Views) (fd : ℤ) (buf : List Byte) (r : Bool) :
    (sessions k).next (some g) (.send .refusal fd buf) r =
      some (Function.update g fd (.closing [])) := rfl

/-- Whether a call answers a command other than `exit`. -/
def Views.answers (g : Views) : Call → Bool
  | .send .response fd _ =>
    match g fd with
    | .executing _ m => msgType m ≠ 3
    | _ => false
  | _ => false

/-- The protocol of a body that is over once it has answered a command other than `exit`. -/
def answering (k : Sockets) : Protocol Sys (Option Views × Bool) where
  Allowed g c := g.2 = false ∧ (sessions k).Allowed g.1 c
  Expected g c r := (sessions k).Expected g.1 c r
  next g c r := ((sessions k).next g.1 c r, g.1.any (·.answers c))

/-- Where the server stops: at a message of the wrong type, or at a fault. -/
def ServerStop : Option Views → Halt → Prop
  | g, .dieType _ => g = none
  | _, .fault _ => True
  | _, _ => False

/-- The views of the descriptors between two bodies. -/
def views (cs : List ClientStructure) (fd : ℤ) : ServerView :=
  match cs.find? fun c => c.online && c.sock == fd with
  | some c => .settled c.id.str
  | none => .unused

/-! ## The views of the registry -/

section Views

variable {cs xs ys : List ClientStructure} {c : ClientStructure} {fd : ℤ}

theorem views_cons (c : ClientStructure) (cs : List ClientStructure) (fd : ℤ) :
    views (c :: cs) fd = if c.online && c.sock == fd then .settled c.id.str else views cs fd := by
  unfold views
  rw [List.find?_cons]
  split_ifs with h
  · rw [h]
  · rw [Bool.not_eq_true] at h
    rw [h]

theorem views_unused (h : fd ∉ onlineSocks cs) : views cs fd = .unused := by
  have hno : cs.find? (fun c => c.online && c.sock == fd) = none := by
    rw [List.find?_eq_none]
    intro c hc hfd
    rw [Bool.and_eq_true, beq_iff_eq] at hfd
    exact h (mem_onlineSocks.mpr ⟨c, hc, hfd⟩)
  rw [views, hno]

theorem views_mem {id : List Byte} (h : views cs fd = .settled id) :
    ∃ c ∈ cs, c.online = true ∧ c.sock = fd ∧ c.id.str = id := by
  unfold views at h
  split at h
  · rename_i c hc
    cases h
    have hfd := List.find?_some hc
    rw [Bool.and_eq_true, beq_iff_eq] at hfd
    exact ⟨c, List.mem_of_find?_eq_some hc, hfd.1, hfd.2, rfl⟩
  · cases h

theorem views_offline (h : c.online = false) : views (xs ++ c :: ys) = views (xs ++ ys) := by
  funext fd
  unfold views
  rw [List.find?_append, List.find?_append, List.find?_cons_of_neg (by simp [h])]

theorem views_online (h : c.online = true) (hfd : c.sock ∉ onlineSocks (xs ++ ys)) :
    views (xs ++ c :: ys) = Function.update (views (xs ++ ys)) c.sock (.settled c.id.str) := by
  funext fd
  by_cases hc : fd = c.sock
  · subst hc
    have hxs : xs.find? (fun d => d.online && d.sock == c.sock) = none := by
      rw [List.find?_eq_none]
      intro d hd hd'
      rw [Bool.and_eq_true, beq_iff_eq] at hd'
      exact hfd (mem_onlineSocks.mpr ⟨d, List.mem_append_left _ hd, hd'⟩)
    rw [Function.update_self, views, List.find?_append, hxs, Option.none_or,
      List.find?_cons_of_pos (by simp [h])]
  · rw [Function.update_of_ne hc, views, views, List.find?_append, List.find?_append,
      List.find?_cons_of_neg (by simpa using fun _ => fun he => hc he.symm)]

theorem views_congr {ds : List ClientStructure}
    (h : ds.map (fun c => (c.id, c.sock, c.online)) = cs.map fun c => (c.id, c.sock, c.online)) :
    views ds = views cs := by
  funext fd
  induction cs generalizing ds with
  | nil =>
    rw [List.map_nil, List.map_eq_nil_iff] at h
    rw [h]
  | cons c cs ih =>
    obtain ⟨d, ds, rfl, hd, hds⟩ := List.map_eq_cons_iff.mp h
    obtain ⟨hid, hsock, hon⟩ : d.id = c.id ∧ d.sock = c.sock ∧ d.online = c.online := by
      simpa using hd
    rw [views_cons, views_cons, hid, hsock, hon, ih hds]

/-- In a registry whose descriptors differ, every online client is the one on its descriptor. -/
theorem views_of_mem (h : (onlineSocks cs).Nodup) (hc : c ∈ cs) (hon : c.online = true) :
    views cs c.sock = .settled c.id.str := by
  obtain ⟨xs, ys, rfl⟩ := List.append_of_mem hc
  rw [onlineSocks_append, onlineSocks_cons_online hon, List.nodup_middle, List.nodup_cons,
    ← onlineSocks_append] at h
  rw [views_online hon h.1, Function.update_self]

end Views

/-! ## The bodies follow the protocol -/

section Bodies

variable {k : Sockets} {g : Views} {fd : ℤ} {id : List Byte}

/-- A fault ends the server without breaking the protocol. -/
theorem mem_wp {α β : Type} {e : Except Fault α} {f : α → Proc β} {v : Option Views}
    {Q : Option Views → β → Prop}
    (h : ∀ a, e = .ok a → (f a).wp (sessions k) v (Program.post Q ServerStop)) :
    (mem e >>= f).wp (sessions k) v (Program.post Q ServerStop) :=
  wp_mem.mpr ⟨fun _ _ => trivial, h⟩

theorem update_settled (h : g fd = .settled id) (v : ServerView) :
    Function.update (Function.update g fd v) fd (.settled id) = g := by
  rw [Function.update_idem, ← h, Function.update_eq_self]

/-- A frame and its acknowledgement leave the views as they were. -/
theorem exchange_wp {β : Type} {site ack : Site} {buf : List Byte} {len : ℕ} {e₁ e₂ e₃ : String}
    {f : Proc β} {Q : Option Views → Except Halt β → Prop}
    (hsite : site = .data ∧ ack = .dataAck ∨ site = .queued ∧ ack = .queuedAck)
    (hg : g fd = .settled id) (hdie : Q none (.error (.dieType e₃)))
    (hf : f.wp (sessions k) (some g) Q) :
    (do
      let ret ← send site fd buf
      dieCall (!ret) e₁
      let ret ← recv ack fd len
      dieCall ret.isNone e₂
      dieType (replyType ret != 4) e₃
      f : Proc β).wp (sessions k) (some g) Q := by
  have hallowed : g.Allowed (.send site fd buf) := by
    rcases hsite with ⟨rfl, -⟩ | ⟨rfl, -⟩ <;> exact ⟨id, hg⟩
  have hsent : (g fd).sent site = .awaiting id := by
    rw [hg]
    rcases hsite with ⟨rfl, -⟩ | ⟨rfl, -⟩ <;> rfl
  rw [wp_send]
  refine ⟨⟨g, rfl, hallowed⟩, fun r hr => ?_⟩
  obtain rfl : r = true := hr g rfl
  rw [wp_dieCall]
  refine ⟨fun h => absurd h (by decide), fun _ => ?_⟩
  have hnext : (sessions k).next (some g) (.send site fd buf) true =
      some (Function.update g fd (.awaiting id)) := by rw [← hsent]; rfl
  rw [hnext, wp_recv]
  have hgot : Function.update g fd (.awaiting id) fd = .awaiting id := Function.update_self _ _ _
  refine ⟨⟨_, rfl, ?_⟩, fun ret hret => ?_⟩
  · rcases hsite with ⟨-, rfl⟩ | ⟨-, rfl⟩ <;> exact ⟨id, hgot⟩
  have hsome : ret.isSome := by
    rcases hsite with ⟨-, rfl⟩ | ⟨-, rfl⟩ <;> exact hret _ rfl
  rw [wp_dieCall]
  refine ⟨fun h => ?_, fun _ => ?_⟩
  · rw [Option.isNone_iff_eq_none] at h
    rw [h] at hsome
    cases hsome
  have hnext : (sessions k).next (some (Function.update g fd (.awaiting id))) (.recv ack fd len)
      ret = if replyType ret = 4 then some g else none := by
    show ((Function.update g fd (ServerView.awaiting id) fd).got (ret.getD []) ack).map _ = _
    rw [hgot]
    unfold replyType
    rcases hsite with ⟨-, rfl⟩ | ⟨-, rfl⟩
    · unfold ServerView.got msgType
      split_ifs
      · exact congrArg some (update_settled hg _)
      · rfl
    · unfold ServerView.got msgType
      split_ifs
      · exact congrArg some (update_settled hg _)
      · rfl
  rw [hnext, wp_dieType]
  refine ⟨fun h => ?_, fun h => ?_⟩
  · rw [if_neg (by simpa using h)]
    exact hdie
  · rw [if_pos (by simpa using h)]
    exact hf

theorem sendToClient_wp {data topic : List Byte} {bytes : ℤ} {c : ClientStructure}
    (hg : c.online = true → ∃ id, g c.sock = .settled id) :
    (sendToClient data topic bytes c).wp (sessions k) (some g)
      (Program.post (fun g' _ => g' = some g) ServerStop) := by
  unfold sendToClient
  refine mem_wp fun found _ => ?_
  cases found with
  | none => exact rfl
  | some found =>
    obtain ⟨prev, curr⟩ := found
    split_ifs with hon
    · obtain ⟨id, hid⟩ := hg hon
      exact exchange_wp (Or.inl ⟨rfl, rfl⟩) hid rfl rfl
    · refine mem_wp fun node _ => ?_
      simp only
      split_ifs
      · exact mem_wp fun _ _ => rfl
      · exact rfl

/-- The walk of `send_data`: the clients that are still to come keep their descriptors. -/
theorem sendDataFrom_wp {data topic : List Byte} {bytes : ℤ} {fuel : ℕ} {curr : Option Addr}
    {list : LinkedList ClientStructure} {todo : List (Addr × ClientStructure)}
    (hs : Seg list.heap curr todo none)
    (hg : ∀ n ∈ todo, n.2.online = true → ∃ id, g n.2.sock = .settled id) :
    (sendDataFrom data topic bytes fuel curr list).wp (sessions k) (some g)
      (Program.post (fun _ _ => True) ServerStop) := by
  induction todo generalizing fuel curr list with
  | nil =>
    obtain rfl := hs
    cases fuel <;> exact trivial
  | cons n todo ih =>
    obtain ⟨a, c⟩ := n
    have hnd := hs.nodup
    obtain ⟨rfl, nx, hget, hs⟩ := hs
    cases fuel with
    | zero => exact trivial
    | succ fuel =>
      have hd : deref list.heap (some a) = .ok (a, ⟨c, nx⟩) := by rw [deref, hget]
      unfold sendDataFrom
      rw [hd, mem_ok, Program.ret_bind]
      simp only
      rw [Program.wp_bind]
      refine (sendToClient_wp (hg _ List.mem_cons_self)).mono fun g' o ho => ?_
      cases o with
      | error e => exact ho
      | ok client =>
        obtain rfl := ho
        rw [Program.andThen_ok]
        refine mem_wp fun list' hlist' => ?_
        have hheap : list'.heap = list.heap.set a ⟨client, nx⟩ := by
          rw [LinkedList.modifyData, hd] at hlist'
          rw [← Except.ok.inj hlist']
        rw [List.map_cons, List.nodup_cons] at hnd
        refine ih ?_ fun n hn => hg n (List.mem_cons_of_mem _ hn)
        rw [hheap]
        exact hs.set_out hnd.1 ⟨_, hget⟩

theorem emptyQueueLoop_wp {fuel : ℕ} {queue : LinkedList QueueElement} (hg : g fd = .settled id) :
    (emptyQueueLoop fd fuel queue).wp (sessions k) (some g)
      (Program.post (fun g' _ => g' = some g) ServerStop) := by
  induction fuel generalizing queue with
  | zero =>
    unfold emptyQueueLoop
    cases queue.head with
    | none => exact rfl
    | some a => exact trivial
  | succ fuel ih =>
    unfold emptyQueueLoop
    cases queue.head with
    | none => exact rfl
    | some a =>
      simp only
      refine mem_wp fun first _ => ?_
      refine mem_wp fun node _ => ?_
      exact mem_wp fun _ _ => exchange_wp (Or.inr ⟨rfl, rfl⟩) hg rfl ih

theorem udpBranch_wp {s : ServerState} (hl : s.Lists)
    (hg : ∀ c ∈ s.clientsContainer.toList, c.online = true → ∃ id, g c.sock = .settled id) :
    (udpBranch k s).wp (sessions k) (some g) (Program.post (fun _ _ => True) ServerStop) := by
  unfold udpBranch
  rw [wp_recvfrom]
  refine ⟨⟨g, rfl, trivial⟩, fun ret hret => ?_⟩
  obtain ⟨datagram, addr, rfl, hne⟩ := hret g rfl
  simp only
  rw [wp_dieCall]
  refine ⟨fun h => absurd (List.length_eq_zero_iff.mp (by simpa using h)) hne, fun _ => ?_⟩
  rw [wp_indeterminate]
  refine ⟨⟨g, rfl, trivial⟩, fun bytes _ => ?_⟩
  refine mem_wp fun msg _ => ?_
  rw [wp_indeterminate]
  refine ⟨⟨g, rfl, trivial⟩, fun slack _ => ?_⟩
  rw [wp_indeterminate]
  refine ⟨⟨g, rfl, trivial⟩, fun padding _ => ?_⟩
  refine mem_wp fun buf _ => ?_
  rw [Program.wp_bind]
  have hs : Seg s.clientsContainer.heap s.clientsContainer.head s.clientsContainer.nodes none :=
    hl.registry.repr
  refine (sendDataFrom_wp hs fun n hn => hg n.2 (List.mem_map_of_mem hn)).mono ?_
  intro g' o ho
  cases o with
  | error e => exact ho
  | ok list => exact trivial

theorem receivedId_reply {svCl : CharArray serverHdrSize} {m : List Byte}
    (hm : m.length = clientHdrSize + idLen) : (receivedId svCl (some m)).str = replyId m := by
  have hbuf : ((idReply svCl (some m)).drop clientHdrSize).take idLen =
      (m.drop clientHdrSize).take idLen := by
    have hlen : (5 :: svCl.bytes.drop 1).length = serverHdrSize := by
      rw [List.length_cons, List.length_drop, svCl.length_eq]
      rfl
    have hle : m.length ≤ serverHdrSize := by rw [hm]; decide
    unfold idReply overlay
    rw [Option.getD_some, hlen, List.take_of_length_le hle,
      List.drop_append_of_le_length (by rw [hm]; decide),
      List.take_append_of_le_length (by rw [List.length_drop, hm]; decide)]
  rw [receivedId, hbuf, replyId]

theorem idReply_type {svCl : CharArray serverHdrSize} {m : List Byte}
    (hm : m.length = clientHdrSize + idLen) : (idReply svCl (some m)).getD 0 0 = msgType m := by
  cases m with
  | nil => cases hm
  | cons b m => rfl

theorem manageConnectionRequest_wp {s : ServerState} (hl : s.Lists)
    (hn : (onlineSocks s.clientsContainer.toList).Nodup)
    (hg : g = views s.clientsContainer.toList) :
    (manageConnectionRequest k.tcp s).wp (sessions k) (some g)
      (Program.post (fun _ _ => True) ServerStop) := by
  unfold manageConnectionRequest
  rw [wp_accept]
  refine ⟨⟨g, rfl, trivial⟩, ?_⟩
  rintro ⟨fd, addr⟩ hfd
  obtain ⟨h0, -, hunused⟩ : 0 ≤ fd ∧ k.Client fd ∧ g fd = .unused := hfd g rfl
  rw [wp_dieCall]
  refine ⟨fun h => absurd (show fd = -1 by simpa using h) (by omega), fun _ => ?_⟩
  rw [wp_indeterminate]
  refine ⟨⟨_, rfl, trivial⟩, fun svCl _ => ?_⟩
  rw [wp_send]
  refine ⟨⟨_, rfl, Function.update_self _ _ _, rfl⟩, fun sent hsent => ?_⟩
  obtain rfl : sent = true := hsent _ rfl
  rw [wp_dieCall]
  refine ⟨fun h => absurd h (by decide), fun _ => ?_⟩
  rw [wp_recv]
  refine ⟨⟨_, rfl, Function.update_self _ _ _⟩, fun ret hret => ?_⟩
  obtain ⟨m, rfl, hlen, htype⟩ := hret _ rfl
  rw [wp_dieCall]
  refine ⟨fun h => absurd h (by simp), fun _ => ?_⟩
  rw [wp_dieType]
  refine ⟨fun h => ?_, fun _ => ?_⟩
  · have h2 : ((idReply svCl (some m)).getD 0 0 != 2) = true := h
    exact absurd ((idReply_type hlen).trans htype) (bne_iff_ne.mp h2)
  have hnext : ∀ v₁ v₂ : ServerView, (sessions k).next
      (some (Function.update (Function.update g fd v₁) fd v₂)) (.recv .idReply fd maxLenBuf)
        (some m) = some (Function.update g fd (.settled (replyId m))) := by
    intro v₁ v₂
    show some (Function.update (Function.update (Function.update g fd v₁) fd v₂) fd _) = _
    rw [Function.update_idem, Function.update_idem]
    rfl
  have hstate : (sessions k).next ((sessions k).next ((sessions k).next ((sessions k).next (some g)
      (.accept k.tcp) (fd, addr)) (.indeterminate serverHdrSize) svCl)
        (.send .idRequest fd (5 :: svCl.bytes.drop 1)) true) (.recv .idReply fd maxLenBuf)
          (some m) = some (Function.update g fd (.settled (replyId m))) := hnext _ _
  rw [hstate]
  have hsettled : Function.update g fd (.settled (replyId m)) fd = .settled (replyId m) :=
    Function.update_self _ _ _
  refine mem_wp fun old hold => ?_
  rcases getClientById_spec hl.registry (receivedId svCl (some m)) with
    ⟨hnone, -⟩ | ⟨xs, a, c, ys, hc, hid, hsome⟩
  · obtain rfl := Except.ok.inj (hnone.symm.trans hold)
    simp only
    rw [wp_printf]
    refine ⟨⟨_, rfl, trivial⟩, fun _ _ => ?_⟩
    exact mem_wp fun _ _ => trivial
  · obtain rfl := Except.ok.inj (hsome.symm.trans hold)
    obtain ⟨nx, hd⟩ := hl.registry.repr.deref_mem (a := a) (x := c) (by rw [hc]; simp)
    simp only [hd, mem_ok, Program.ret_bind]
    split_ifs with hon
    · -- the client that is already online holds the ID
      have hmem : c ∈ s.clientsContainer.toList := by
        rw [LinkedList.toList_of_nodes hc]
        simp
      have hview : g c.sock = .settled (replyId m) := by
        rw [hg, views_of_mem hn hmem hon, hid, receivedId_reply hlen]
      have hne : c.sock ≠ fd := fun he => by
        rw [he, hunused] at hview
        cases hview
      rw [wp_printf]
      refine ⟨⟨_, rfl, trivial⟩, fun _ _ => ?_⟩
      rw [wp_send]
      refine ⟨⟨_, rfl, ⟨_, c.sock, hne, hsettled, ?_⟩, rfl⟩, fun sent _ => ?_⟩
      · rw [Function.update_of_ne hne, hview]
      rw [wp_close]
      refine ⟨⟨_, rfl, [], Function.update_self _ _ _⟩, fun _ _ => ?_⟩
      exact trivial
    · rw [wp_printf]
      refine ⟨⟨_, rfl, trivial⟩, fun _ _ => ?_⟩
      unfold emptyQueue
      rw [Program.wp_bind, Program.wp_bind]
      refine (emptyQueueLoop_wp hsettled).mono fun g' o ho => ?_
      cases o with
      | error e => exact ho
      | ok queue =>
        rw [Program.andThen_ok, Program.pure_eq, Program.wp_ret, Program.andThen_ok]
        exact mem_wp fun _ _ => trivial

theorem commandHdr_type (ret : Option (List Byte)) :
    (commandHdr ret).type = msgType (ret.getD []) := by
  unfold commandHdr msgType ClientToServerHdr.decode
  cases ret.getD [] <;> rfl

theorem mem_answering {α β : Type} {e : Except Fault α} {f : α → Proc β} {v : Option Views}
    {Q : Option Views × Bool → β → Prop}
    (h : ∀ a, (f a).wp (answering k) (v, false)
      (Program.post Q fun g e => g.2 = false ∧ ServerStop g.1 e)) :
    (mem e >>= f).wp (answering k) (v, false)
      (Program.post Q fun g e => g.2 = false ∧ ServerStop g.1 e) :=
  wp_mem.mpr ⟨fun _ _ => ⟨rfl, trivial⟩, fun a _ => h a⟩

/-- The descriptor is to be closed exactly after the command `exit`. -/
theorem manageCommandFromClient_wp {s : ServerState} {i : ℤ} (hg : g i = .settled id) :
    (manageCommandFromClient i s).wp (answering k) (some g, false)
      (Program.post (fun g' r => ∃ m, g' = (some (Function.update g i (.executing id m)), false) ∧
        r.1 = if msgType m = 3 then i else -1) fun g' e => g'.2 = false ∧ ServerStop g'.1 e) := by
  unfold manageCommandFromClient
  rw [wp_recv]
  refine ⟨⟨rfl, g, rfl, id, hg⟩, fun ret hret => ?_⟩
  have hnext : (answering k).next (some g, false) (.recv .command i maxLenBuf) ret =
      (some (Function.update g i (.executing id (ret.getD []))), false) := by
    show (((g i).got (ret.getD []) .command).map _, false) = _
    rw [hg]
    rfl
  have htype : (ClientToServerHdr.decode (pad maxLenBuf (ret.getD []))).type =
      msgType (ret.getD []) := commandHdr_type ret
  rw [hnext]
  simp only [htype]
  split_ifs with h0 h1 h3
  · refine mem_answering fun client => mem_answering fun node => mem_answering fun topics =>
      mem_answering fun list => ⟨ret.getD [], rfl, by rw [h0]; rfl⟩
  · refine mem_answering fun client => mem_answering fun node => mem_answering fun topics =>
      mem_answering fun list => ⟨ret.getD [], rfl, by rw [h1]; rfl⟩
  · refine mem_answering fun client => mem_answering fun node => ?_
    rw [wp_printf]
    exact ⟨⟨rfl, _, rfl, trivial⟩, fun _ _ => mem_answering fun list =>
      ⟨ret.getD [], rfl, (if_pos h3).symm⟩⟩
  · exact ⟨ret.getD [], rfl, (if_neg h3).symm⟩

/-- A command is answered, and behind the answer only the end of the connection is left. -/
theorem commandBranch_wp {s : ServerState} {i : ℤ} (hg : g i = .settled id) :
    (commandBranch i s).wp (answering k) (some g, false)
      (Program.post (fun _ _ => True) fun g' e => g'.2 = false ∧ ServerStop g'.1 e) := by
  unfold commandBranch
  rw [Program.wp_bind]
  refine (manageCommandFromClient_wp hg).mono fun g' o ho => ?_
  match o with
  | .error e => exact ho
  | .ok (closeFd, s') =>
    obtain ⟨m, rfl, hclose⟩ := ho
    simp only at hclose
    rw [Program.andThen_ok]
    simp only
    rw [wp_indeterminate]
    refine ⟨⟨rfl, _, rfl, trivial⟩, fun svCl _ => ?_⟩
    rw [wp_send]
    refine ⟨⟨rfl, _, rfl, ⟨id, m, Function.update_self _ _ _⟩, rfl⟩, fun sent hsent => ?_⟩
    obtain rfl : sent = true := hsent _ rfl
    rw [wp_dieCall]
    refine ⟨fun h => absurd h (by decide), fun _ => ?_⟩
    split_ifs with hfd
    · obtain ⟨h3, rfl⟩ : msgType m = 3 ∧ closeFd = i := by
        rw [hclose] at hfd ⊢
        split_ifs at hfd ⊢ with h3
        · exact ⟨h3, rfl⟩
        · exact absurd rfl hfd
      have hanswers : Views.answers (Function.update g closeFd (.executing id m))
          (.send .response closeFd (6 :: svCl.bytes.drop 1 ++ [0])) = false := by
        simp [Views.answers, h3]
      rw [wp_close]
      refine ⟨⟨hanswers, _, rfl, m, ?_⟩, fun _ _ => trivial⟩
      rw [Function.update_self, Function.update_self]
      exact if_pos h3
    · exact trivial

/-- The body of every ready descriptor follows the protocol. -/
theorem mainBody_wp {gk : Kernel} {s : ServerState} {i : ℤ} (hl : s.Lists)
    (hr : Registry k gk s.clientsContainer.toList s.readFds)
    (hready : k.Client i → i ∈ onlineSocks s.clientsContainer.toList) :
    (mainBody k s i).wp (sessions k) (some (views s.clientsContainer.toList))
      (Program.post (fun _ _ => True) ServerStop) := by
  have hviews : ∀ c ∈ s.clientsContainer.toList, c.online = true →
      ∃ id, views s.clientsContainer.toList c.sock = .settled id :=
    fun c hc hon => ⟨_, views_of_mem hr.socks hc hon⟩
  have hdone : ∀ g' (o : Except Halt ServerState), Program.post (fun _ _ => True) ServerStop g' o →
      Program.andThen (sessions k) (fun s => pure (s, Flow.next))
        (Program.post (fun _ _ => True) ServerStop) g' o := by
    intro g' o ho
    cases o with
    | error e => exact ho
    | ok s' => exact trivial
  unfold mainBody
  split_ifs with htcp hudp h0
  · rw [Program.wp_bind]
    exact (manageConnectionRequest_wp hl hr.socks rfl).mono hdone
  · rw [Program.wp_bind]
    exact (udpBranch_wp hl hviews).mono hdone
  · -- no line arrives at the console
    unfold stdinBranch
    rw [LawfulMonad.bind_assoc, wp_read]
    exact ⟨⟨_, rfl, trivial⟩, fun ret hret => (hret _ rfl).elim⟩
  · rw [Program.wp_bind]
    obtain ⟨c, hc, hon, rfl⟩ := mem_onlineSocks.mp (hready ⟨htcp, hudp, h0⟩)
    obtain ⟨id, hid⟩ := hviews c hc hon
    have hallowed : ∀ d c, (answering k).Allowed d c → (sessions k).Allowed d.1 c :=
      fun _ _ h => h.2
    have hw : (commandBranch c.sock s).wp (sessions k) (some (views s.clientsContainer.toList))
        (fun g o => ∃ d : Option Views × Bool, g = d.1 ∧ Program.post (fun _ _ => True)
          (fun g' e => g'.2 = false ∧ ServerStop g'.1 e) d o) :=
      Program.wp.map (f := Prod.fst) hallowed (fun _ _ _ h => h) (fun _ _ _ => rfl)
        (commandBranch_wp hid)
    refine hw.mono fun g' o ho => hdone g' o ?_
    obtain ⟨d, rfl, hd⟩ := ho
    cases o with
    | error e => exact hd.2
    | ok s' => trivial

end Bodies

end TopicServer
