import TopicServer.Steps

/-!
# Runs of the server

The kernel keeps the table of open descriptors: `accept` returns one that is not open, and `close`
takes it out. `kernel` is this protocol, with the ID that last arrived on each descriptor.
`ServerRun` are the runs of the server against it. Whatever happens, they keep the lists in a
state that can be walked (`ServerRun.lists`).
-/

namespace TopicServer

open Interactive Linked Memory

/-- The open descriptors, the last request for an ID, and the ID last read on a descriptor. -/
structure Kernel where
  opened : Finset ℤ
  request : List Byte
  identified : ℤ → List Byte

/-- The ID read from a reply that overwrites the buffer of the request. -/
def Kernel.idOf (g : Kernel) (ret : Option (List Byte)) : CharArray idLen :=
  .ofList idLen (((overlay (ret.getD []) g.request).drop clientHdrSize).take idLen)

/-- The answers of the kernel. -/
def Kernel.Expected (g : Kernel) : (c : Call) → Answer c → Prop
  | .accept _, r => r.1 = -1 ∨ 0 ≤ r.1 ∧ r.1 ∉ g.opened
  | _, _ => True

/-- The kernel after a call. -/
def Kernel.next (g : Kernel) : (c : Call) → Answer c → Kernel
  | .accept _, r => if r.1 = -1 then g else { g with opened := insert r.1 g.opened }
  | .close fd, _ => { g with opened := g.opened.erase fd }
  | .send .idRequest _ buf, _ => { g with request := buf }
  | .recv .idReply fd _, ret =>
    { g with identified := Function.update g.identified fd (g.idOf ret).str }
  | _, _ => g

def kernel : Protocol Sys Kernel where
  Allowed _ _ := True
  Expected := Kernel.Expected
  next := Kernel.next

/-- The descriptors that are open before the loop. -/
def kernelInit (k : Sockets) : Kernel where
  opened := {0, k.tcp, k.udp}
  request := []
  identified _ := []

/-- The runs of the server, from the state before its loop. -/
def ServerRun (k : Sockets) :
    Kernel → Point ServerState → List (Handled Sys ServerState) → Prop :=
  (server k).Run kernel (kernelInit k) (.select (serverInit k))

instance (g : Kernel) : (c : Sys.Call) → (r : Sys.Answer c) → Decidable (kernel.Expected g c r)
  | .accept _, r => inferInstanceAs (Decidable (r.1 = -1 ∨ 0 ≤ r.1 ∧ r.1 ∉ g.opened))
  | .send .., _ => .isTrue trivial
  | .recv .., _ => .isTrue trivial
  | .recvfrom .., _ => .isTrue trivial
  | .read .., _ => .isTrue trivial
  | .close _, _ => .isTrue trivial
  | .printf _, _ => .isTrue trivial
  | .indeterminate _, _ => .isTrue trivial

/-- The first client of the registry on a descriptor. -/
def ServerState.clientOn (s : ServerState) (i : ℤ) : Option ClientStructure :=
  s.clientsContainer.toList.find? fun c => c.sock == i

theorem clientOn_eq {s : ServerState} {i : ℤ} {xs ys : List (Addr × ClientStructure)} {a : Addr}
    {c : ClientStructure} (hn : s.clientsContainer.nodes = xs ++ (a, c) :: ys)
    (hxs : ∀ n ∈ xs, n.2.sock ≠ i) (hc : c.sock = i) : s.clientOn i = some c := by
  have hno : (xs.map Prod.snd).find? (fun c => c.sock == i) = none := by
    rw [List.find?_eq_none]
    intro c' hc'
    obtain ⟨n, hn', rfl⟩ := List.mem_map.mp hc'
    simpa using hxs n hn'
  rw [ServerState.clientOn, LinkedList.toList, hn, List.map_append, List.find?_append, hno,
    Option.none_or, List.map_cons, List.find?_cons_of_pos (by simpa using hc)]

theorem clientOn_split {s : ServerState} {i : ℤ} {c : ClientStructure}
    (h : s.clientOn i = some c) : ∃ xs a ys, s.clientsContainer.nodes = xs ++ (a, c) :: ys ∧
      (∀ n ∈ xs, n.2.sock ≠ i) ∧ c.sock = i := by
  rw [ServerState.clientOn, List.find?_eq_some_iff_append, LinkedList.toList] at h
  obtain ⟨hc, as, bs, hsplit, has⟩ := h
  obtain ⟨xs, zs, hn, rfl, hzs⟩ := List.map_eq_append_iff.mp hsplit
  obtain ⟨⟨a, d⟩, ys, rfl, rfl, rfl⟩ := List.map_eq_cons_iff.mp hzs
  exact ⟨xs, a, ys, hn, fun n hn => by simpa using has n.2 (List.mem_map_of_mem hn),
    by simpa using hc⟩

/-! ## The lists along a run -/

/-- Replacing one entry keeps what holds of all. -/
theorem forall_replace {α : Type} {p : α → Prop} {xs ys : List (Addr × α)} {a : Addr} {x y : α}
    (h : ∀ n ∈ xs ++ (a, x) :: ys, p n.2) (hy : p y) : ∀ n ∈ xs ++ (a, y) :: ys, p n.2 := by
  intro n hn
  rw [List.mem_append, List.mem_cons] at hn
  rcases hn with hn | rfl | hn
  · exact h n (by simp [hn])
  · exact hy
  · exact h n (by simp [hn])

/-- Replacing the data of one node keeps what holds of all of them. -/
theorem forall_nodes_replace {α : Type} {p : α → Prop} {l l' : LinkedList α}
    {xs ys : List (Addr × α)} {a : Addr} {x y : α} (h : ∀ n ∈ l.nodes, p n.2)
    (hn : l.nodes = xs ++ (a, x) :: ys) (hn' : l'.nodes = xs ++ (a, y) :: ys) (hy : p x → p y) :
    ∀ n ∈ l'.nodes, p n.2 := by
  rw [hn] at h
  rw [hn']
  exact forall_replace h (hy (h (a, x) (by simp)))

/-- Replacing one client keeps what holds of all clients. -/
theorem forall_clients_replace {P : ClientStructure → Prop} {s s' : ServerState}
    {xs ys : List (Addr × ClientStructure)} {a : Addr} {c c' : ClientStructure}
    (h : ∀ c ∈ s.clientsContainer.toList, P c)
    (hn : s.clientsContainer.nodes = xs ++ (a, c) :: ys)
    (hn' : s'.clientsContainer.nodes = xs ++ (a, c') :: ys) (hc : P c → P c') :
    ∀ c ∈ s'.clientsContainer.toList, P c := by
  rw [LinkedList.toList, List.forall_mem_map] at h ⊢
  exact forall_nodes_replace h hn hn' hc

section Lists

variable {k : Sockets} {s : ServerState} {i : ℤ} {evs : List (Event Sys)} {r : ServerState × Flow}

theorem lists_newClient (id : CharArray idLen) (sock : ℤ) : (newClient id sock).Lists :=
  ⟨LinkedList.wellFormed_initList.walkable, LinkedList.wellFormed_initList⟩

theorem subscribeBranch_walkable {l l' : LinkedList TopicStructure} {hdr : ClientToServerHdr}
    (h : l.Walkable) (hl : subscribeBranch l hdr = .ok l') : l'.Walkable := by
  rcases subscribeBranch_spec h hdr with
    ⟨_, _, _, _, l₁, _, _, _, he, hw, _⟩ | ⟨_, ⟨_, l₁, he, hw, _⟩ | ⟨_, _, he⟩⟩
  · obtain rfl := Except.ok.inj (he.symm.trans hl)
    exact hw
  · obtain rfl := Except.ok.inj (he.symm.trans hl)
    exact hw
  · rw [he] at hl
    cases hl

theorem unsubscribeBranch_walkable {l l' : LinkedList TopicStructure} {hdr : ClientToServerHdr}
    (h : l.Walkable) (hl : unsubscribeBranch l hdr = .ok l') : l'.Walkable := by
  rcases unsubscribeBranch_spec h hdr with ⟨he, _⟩ | ⟨_, _, _, _, l₁, _, _, _, he, hw, _⟩
  · obtain rfl := Except.ok.inj (he.symm.trans hl)
    exact h
  · obtain rfl := Except.ok.inj (he.symm.trans hl)
    exact hw

theorem Effect.lists (he : Effect k s i evs r) (h : s.Lists) : r.1.Lists := by
  cases he with
  | registered _ _ _ hw hn =>
    refine ⟨hw, fun n hn' => ?_⟩
    rw [hn, List.mem_append, List.mem_singleton] at hn'
    rcases hn' with hn' | rfl
    · exact h.clients n hn'
    · exact lists_newClient _ _
  | refused => exact h
  | reconnected _ _ hn _ _ _ hq _ hw hn' =>
    exact ⟨hw, forall_nodes_replace h.clients hn hn' fun hold => ⟨hold.topics, hq⟩⟩
  | published _ _ hw hrel =>
    refine ⟨hw, fun n' hn' => ?_⟩
    obtain ⟨n, hn, -, es, hr⟩ := hrel.source hn'
    obtain ⟨queue, hc, hq, -⟩ := hr.queue (h.clients n hn).queue
    rw [hc]
    exact ⟨(h.clients n hn).topics, hq⟩
  | ignored => exact h
  | stopped => exact h
  | subscribed _ _ hn _ _ ht hw hn' =>
    refine ⟨hw, forall_nodes_replace h.clients hn hn' fun hold => ?_⟩
    exact ⟨subscribeBranch_walkable hold.topics ht, hold.queue⟩
  | unsubscribed _ _ hn _ _ ht hw hn' =>
    refine ⟨hw, forall_nodes_replace h.clients hn hn' fun hold => ?_⟩
    exact ⟨unsubscribeBranch_walkable hold.topics ht, hold.queue⟩
  | disconnected _ _ hn _ _ hw hn' =>
    exact ⟨hw, forall_nodes_replace h.clients hn hn' fun hold => ⟨hold.topics, hold.queue⟩⟩
  | unknown => exact h

theorem lists_serverInit (k : Sockets) : (serverInit k).Lists :=
  ⟨LinkedList.wellFormed_initList, fun _ hn => by cases hn⟩

/-- In every run the lists can be walked, and only subscriptions have a stale tail. -/
theorem ServerRun.lists {g : Kernel} {p : Point ServerState} {hs : List (Handled Sys ServerState)}
    (h : ServerRun k g p hs) : p.state.Lists := by
  refine h.invariant (fun _ p => p.state.Lists) (lists_serverInit k) ?_ ?_ ?_ ?_
  · exact fun _ _ _ hs _ => hs
  · exact fun _ _ _ _ hs _ => hs
  · exact fun _ _ _ _ hs => hs
  · intro g s tmp i evs r hs _ he _
    rw [Point.state_following]
    exact (mainBody_effect hs he).lists hs

end Lists

/-! ## Calls that do not concern the table of descriptors -/

/-- A call that leaves the kernel as it is. -/
def Quiet (e : Event Sys) : Prop := ∀ g, kernel.next g e.call e.answer = g

theorem after_quiet {evs : List (Event Sys)} (h : ∀ e ∈ evs, Quiet e) (g : Kernel) :
    kernel.after g evs = g := by
  induction evs with
  | nil => rfl
  | cons e evs ih =>
    obtain ⟨c, r⟩ := e
    rw [Protocol.after_cons, h _ List.mem_cons_self g]
    exact ih fun e he => h e (List.mem_cons_of_mem _ he)

/-! ## The calls of a shutdown -/

/-- A call that takes leave of a client. -/
def LeaveCall : Call → Prop
  | .send .shutdown _ _ => True
  | .recv .shutdownAck _ len => len = maxLenBuf
  | .close _ => True
  | .indeterminate _ => True
  | _ => False

theorem closeFrom_calls {list : LinkedList ClientStructure} {fuel : ℕ} {curr : Option Addr} :
    (closeFrom list fuel curr).Calls LeaveCall := by
  induction fuel generalizing curr with
  | zero => cases curr <;> trivial
  | succ fuel ih =>
    cases curr with
    | none => trivial
    | some a =>
      unfold closeFrom
      refine calls_mem fun node => calls_ask trivial fun svCl => calls_ask trivial fun _ => ?_
      exact calls_ask rfl fun ret => calls_die (calls_ask trivial fun _ => ih)

/-! ## Scripted runs -/

/-- The ID reply of a subscriber. -/
def idMessage (id : List Byte) : List Byte := 2 :: List.replicate 51 0 ++ id

/-- A command of a subscriber. -/
def commandMessage (type sf : Byte) (topic : List Byte) : List Byte := type :: sf :: topic

/-- The sockets of a server that was started with three open descriptors. -/
def sockets : Sockets where
  tcp := 3
  udp := 4
  tcp_pos := by decide
  udp_pos := by decide
  tcp_ne_udp := by decide

/-- The state after the descriptors of a script were handled. -/
def serveScript (script : List (ℤ × ((c : Call) → Answer c))) : Option (Kernel × ServerState) :=
  (server sockets).serve kernel script (kernelInit sockets) (serverInit sockets)

theorem serveScript_run {script : List (ℤ × ((c : Call) → Answer c))} {g : Kernel}
    {s : ServerState} (h : serveScript script = some (g, s)) :
    ∃ hs, ServerRun sockets g (.select s) hs ∧
      ∀ x ∈ hs, ∃ entry ∈ script, ∀ e ∈ x.events, e = ⟨e.call, entry.2 e.call⟩ := by
  obtain ⟨hs, hrun, -, hall⟩ := SelectLoop.Run.serve .start h
  exact ⟨hs, hrun, fun x hx => (hall x hx).resolve_left (List.not_mem_nil)⟩

/-- A check of the state after a script holds of a state that a run reaches. -/
theorem serveScript_check (script : List (ℤ × ((c : Call) → Answer c)))
    (check : Kernel × ServerState → Bool) (h : (serveScript script).any check = true) :
    ∃ g s hs, ServerRun sockets g (.select s) hs ∧ check (g, s) = true := by
  rw [Option.any_eq_true_iff_get] at h
  obtain ⟨hsome, hcheck⟩ := h
  obtain ⟨hs, hrun, -⟩ := serveScript_run (Option.some_get hsome).symm
  exact ⟨_, _, hs, hrun, hcheck⟩

/-- The calls of the run that a script leads to. -/
theorem serveScript_trace (script : List (ℤ × ((c : Call) → Answer c)))
    (h : (serveScript script).isSome = true) :
    ∃ g s hs, ServerRun sockets g (.select s) hs ∧
      hs.map Handled.events = (server sockets).trace script (serverInit sockets) := by
  obtain ⟨hs, hrun, htrace, -⟩ := SelectLoop.Run.serve .start (Option.some_get h).symm
  exact ⟨_, _, hs, hrun, htrace⟩

end TopicServer
