import TopicServer.Kernel
import TopicServer.Subscriber

/-!
# The server and its subscribers

The server and any number of subscribers, one call at a time. A connection is two queues of
messages: what one `send` puts in, one `recv` takes out. A process that has ended has closed its
sockets, and `recv` on an empty queue whose other end is closed returns no bytes; on an empty queue
that is still open it waits. On a descriptor that was accepted and not closed, the server's `send`
always succeeds and its `recv` never fails; so do those of a subscriber on its socket. Behind a
fault nothing is known, so there the process stands still. The environment gives the lines typed at
the subscribers, the datagrams, of which none is empty, the fresh descriptors and the contents of
memory that was not written; it types nothing at the console of the server.
-/

namespace TopicServer

open Interactive Memory

/-- A process that has ended. -/
def ended {σ : Type} : Phase Sys Halt σ → Bool
  | .stopped (.fault _) => false
  | .stopped _ => true
  | .finished => true
  | _ => false

/-- The server's end of a connection: in the backlog, on a descriptor, or closed. -/
inductive Conn
  | pending
  | accepted (fd : ℤ)
  | closed
  deriving DecidableEq

/-- A subscriber with its connection. `sent` are the commands that it sent, `acknowledged` those
for which it took a message for the answer. -/
structure Peer where
  id : List Byte
  sockfd : ℤ
  phase : Phase Sys Halt SubscriberState
  conn : Conn
  toServer : List (List Byte)
  toClient : List (List Byte)
  sent : List (List Byte)
  acknowledged : List (List Byte)

namespace Peer

/-- A subscriber that has connected. -/
def init (id : List Byte) (sockfd : ℤ) : Peer where
  id := id
  sockfd := sockfd
  phase := SelectLoop.start (subscriberStart id sockfd)
  conn := .pending
  toServer := []
  toClient := []
  sent := []
  acknowledged := []

/-- The ID under which the server knows a subscriber. -/
def key (p : Peer) : List Byte := p.id.take idLen

/-- The subscriber sends a message. -/
def put (p : Peer) (site : Site) (buf : List Byte) : Peer :=
  { p with
    toServer := p.toServer ++ [buf]
    sent := if site = .putCommand ∨ site = .putExit then p.sent ++ [buf] else p.sent }

/-- The subscriber takes the message `m`, with `rest` behind it. -/
def get (p : Peer) (site : Site) (m : List Byte) (rest : List (List Byte)) : Peer :=
  { p with
    toClient := rest
    acknowledged := if site = .getCommandAck ∧ msgType m = 6 then
      p.acknowledged ++ p.sent.getLast?.toList else p.acknowledged }

/-- The answer to a call of the subscriber; `shut` tells that the server closed the connection. -/
def answer (shut : Bool) (inputs : (c : Call) → Answer c) (p : Peer) :
    (c : Call) → Option (Answer c × Peer)
  | .send site fd buf => if fd = p.sockfd then some (true, p.put site buf) else some (false, p)
  | .recv site fd len =>
    if fd = p.sockfd then
      match p.toClient with
      | m :: rest => some (some (m.take len), p.get site m rest)
      | [] => if shut then some (some [], p) else none
    else some (none, p)
  | .read fd len => (inputs (.read fd len)).map fun line => (some line, p)
  | .close _ => some ((), p)
  | .printf _ => some ((), p)
  | .indeterminate n => some (inputs (.indeterminate n), p)
  | _ => none

end Peer

/-- The server, the kernel with its backlog and table of descriptors, the subscribers, and what the
server has handled, with the subscriber on each descriptor. -/
structure Config where
  server : Phase Sys Halt ServerState
  kernel : Kernel
  backlog : List ℕ
  fds : ℤ → Option ℕ
  peers : ℕ → Option Peer
  handled : List (Option ℕ × Handled Sys ServerState)

/-- What a process does next: `select` returns, the loop moves on, or a call is answered. -/
inductive Move
  | wake (tmp : Finset ℤ)
  | advance
  | call (inputs : (c : Call) → Answer c)

/-- A subscriber connects, or one of the processes moves. -/
inductive Action
  | connect (n : ℕ) (id : List Byte) (sockfd : ℤ)
  | server (move : Move)
  | subscriber (n : ℕ) (move : Move)

namespace Peer

/-- Whether a descriptor of the subscriber is ready. -/
def ready (shut : Bool) (p : Peer) (i : ℤ) : Bool :=
  i == 0 || (i == p.sockfd && (!p.toClient.isEmpty || shut))

def step (shut : Bool) (p : Peer) : Move → Option Peer
  | .wake tmp =>
    if ∀ i ∈ tmp, p.ready shut i then
      ((subscriber p.sockfd).wake tmp p.phase).map fun phase => { p with phase := phase }
    else none
  | .advance => ((subscriber p.sockfd).advance p.phase).map fun r => { p with phase := r.1 }
  | .call inputs =>
    match (subscriber p.sockfd).ask p.phase with
    | none => none
    | some ⟨c, next⟩ =>
      (p.answer shut inputs c).map fun (r, p) => { p with phase := (next r).1 }

end Peer

namespace Config

variable (cfg : Config)

/-- Before any subscriber connects. -/
def init (k : Sockets) : Config where
  server := .between (.select (serverInit k))
  kernel := kernelInit k
  backlog := []
  fds _ := none
  peers _ := none
  handled := []

def modify (n : ℕ) (f : Peer → Peer) : Config :=
  { cfg with peers := Function.update cfg.peers n ((cfg.peers n).map f) }

/-- The answer to a call of the server. -/
def answer (inputs : (c : Call) → Answer c) : (c : Call) → Option (Answer c × Config)
  | .accept sockfd =>
    match cfg.backlog with
    | [] => none
    | n :: backlog =>
      let fd := (inputs (.accept sockfd)).1
      if 0 ≤ fd ∧ fd ∉ cfg.kernel.opened then
        some (inputs (.accept sockfd),
          { cfg.modify n fun p => { p with conn := .accepted fd } with
            backlog := backlog, fds := Function.update cfg.fds fd (some n) })
      else none
  | .send _ fd buf =>
    match cfg.fds fd with
    | none => some (false, cfg)
    | some n => some (true, cfg.modify n fun p => { p with toClient := p.toClient ++ [buf] })
  | .recv _ fd len =>
    match cfg.fds fd with
    | none => some (none, cfg)
    | some n => (cfg.peers n).bind fun p =>
      match p.toServer with
      | m :: rest => some (some (m.take len), cfg.modify n fun p => { p with toServer := rest })
      | [] => if ended p.phase then some (some [], cfg) else none
  | .recvfrom fd len =>
    match inputs (.recvfrom fd len) with
    | none => none
    | some (datagram, addr) => if datagram = [] then none else some (some (datagram, addr), cfg)
  | .read .. => none
  | .close fd =>
    match cfg.fds fd with
    | none => some ((), cfg)
    | some n => some ((), { cfg.modify n fun p => { p with conn := .closed } with
        fds := Function.update cfg.fds fd none })
  | .printf _ => some ((), cfg)
  | .indeterminate n => some (inputs (.indeterminate n), cfg)

/-- Whether a descriptor of the server is ready. -/
def ready (k : Sockets) (i : ℤ) : Bool :=
  if i = k.tcp then !cfg.backlog.isEmpty
  else if i = k.udp then true
  else if i = 0 then false
  else ((cfg.fds i).bind cfg.peers).any fun p => !p.toServer.isEmpty || ended p.phase

/-- What the server handled, with the subscriber on the descriptor. -/
def tagged (hs : List (Handled Sys ServerState)) : List (Option ℕ × Handled Sys ServerState) :=
  hs.map fun h => (cfg.fds h.fd, h)

def serverStep (k : Sockets) : Move → Option Config
  | .wake tmp =>
    if ∀ i ∈ tmp, cfg.ready k i then
      ((TopicServer.server k).wake tmp cfg.server).map fun phase => { cfg with server := phase }
    else none
  | .advance =>
    ((TopicServer.server k).advance cfg.server).map fun (phase, hs) =>
      { cfg with server := phase, handled := cfg.handled ++ cfg.tagged hs }
  | .call inputs =>
    match (TopicServer.server k).ask cfg.server with
    | none => none
    | some ⟨c, next⟩ =>
      (cfg.answer inputs c).map fun (r, cfg') =>
        { cfg' with
          server := (next r).1
          kernel := TopicServer.kernel.next cfg.kernel c r
          handled := cfg.handled ++ cfg.tagged (next r).2 }

/-- Whether the server has closed a connection. -/
def shut (p : Peer) : Bool := ended cfg.server || p.conn == .closed

def step (k : Sockets) : Action → Option Config
  | .connect n id sockfd =>
    if (cfg.peers n).isNone ∧ 0 ∉ id ∧ 0 < sockfd then
      some { cfg with
        peers := Function.update cfg.peers n (some (.init id sockfd))
        backlog := cfg.backlog ++ [n] }
    else none
  | .server move => cfg.serverStep k move
  | .subscriber n move =>
    (cfg.peers n).bind fun p =>
      (p.step (cfg.shut p) move).map fun p =>
        { cfg with peers := Function.update cfg.peers n (some p) }

/-- The configuration after the actions, while each passes the check. -/
def run (k : Sockets) (check : Config → Action → Bool) (cfg : Config) (as : List Action) :
    Option Config :=
  as.foldlM (fun cfg a => if check cfg a then cfg.step k a else none) cfg

end Config

/-- A message that is a command; the end of a stream is none. -/
def issued (m : List Byte) : List (List Byte) := if m = [] then [] else [m]

@[simp] theorem issued_nil : issued [] = [] := rfl

/-- The command that a body of the server read. -/
def commandsOf (evs : List (Event Sys)) : List (List Byte) :=
  match evs with
  | ⟨.recv .command _ _, ret⟩ :: _ => issued (ret.getD [])
  | _ => []

/-- The commands of a subscriber that the server has executed. -/
def Config.executed (cfg : Config) (n : ℕ) : List (List Byte) :=
  cfg.handled.flatMap fun x => if x.1 = some n then commandsOf x.2.events else []

/-- The runs of the system in which every step meets a condition on the state before it. -/
inductive SystemRun (k : Sockets) (C : Config → Action → Prop) : Config → Prop
  | init : SystemRun k C (.init k)
  | step {cfg cfg' : Config} {a : Action} : SystemRun k C cfg → C cfg a →
      cfg.step k a = some cfg' → SystemRun k C cfg'

/-- Playing actions leads to a state that the system reaches. -/
theorem SystemRun.play {k : Sockets} {C : Config → Action → Prop} {check : Config → Action → Bool}
    (hC : ∀ cfg a, check cfg a = true → C cfg a) {cfg cfg' : Config} {as : List Action}
    (h : SystemRun k C cfg) (hrun : cfg.run k check as = some cfg') : SystemRun k C cfg' := by
  induction as generalizing cfg with
  | nil =>
    cases hrun
    exact h
  | cons a as ih =>
    unfold Config.run at hrun
    rw [List.foldlM_cons] at hrun
    obtain ⟨cfg₁, hstep, hrest⟩ := Option.bind_eq_some_iff.mp hrun
    split_ifs at hstep with hcheck
    exact ih (h.step (hC cfg a hcheck) hstep) hrest

end TopicServer
