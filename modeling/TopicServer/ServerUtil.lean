import TopicServer.Util
import TopicServer.Lib.SelectLoop

/-!
# The functions of the server

The functions of `server_util.c` over the server's state: the clients, the watched descriptors and
`fdmax`. The buffers that they share with `main` are zeroed or overwritten before every use, so
each function has its own.
-/

namespace TopicServer

open Interactive Linked Memory

structure TopicStructure where
  topic : CharArray stringLen
  sf : Byte
  deriving DecidableEq

structure QueueElement where
  data : List Byte
  len : ℤ
  deriving DecidableEq

structure ClientStructure where
  id : CharArray idLen
  subscribedTopics : LinkedList TopicStructure
  sock : ℤ
  online : Bool
  queue : LinkedList QueueElement
  deriving DecidableEq

/-- A message from the UDP socket: the string at `topic`, the block at `data` if it is not
null. -/
structure Message where
  topic : List Byte
  type : Byte
  bytes : ℤ
  data : Option (List Byte)
  deriving DecidableEq

structure ServerState where
  clientsContainer : LinkedList ClientStructure
  readFds : Finset ℤ
  fdmax : ℤ

/-! ## Looking up clients -/

def getClientById (list : LinkedList ClientStructure) (id : CharArray idLen) :
    Except Fault (Option Addr) := do
  let found ← list.find fun client => .ok (strncmp client.id.bytes id.bytes idLen == 0)
  .ok (found.map Prod.snd)

def getClientBySock (list : LinkedList ClientStructure) (sock : ℤ) :
    Except Fault (Option Addr) := do
  let found ← list.find fun client => .ok (client.sock == sock)
  .ok (found.map Prod.snd)

/-- Unlink the client with an ID. The server does not call it. -/
def removeById (list : LinkedList ClientStructure) (id : CharArray idLen) :
    Except Fault (LinkedList ClientStructure) := do
  let found ← list.find fun client => .ok (strncmp client.id.bytes id.bytes idLen == 0)
  match found with
  | none => .ok list
  | some (prev, curr) => list.unlink prev curr

/-! ## Relaying a publication -/

/-- Split a datagram of `bytes` bytes, read into the zeroed `buf`, into `msg`. A type above 3
leaves `msg.bytes` as it is. -/
def buildMsg (buf : List Byte) (msg : Message) (bytes : ℤ) : Except Fault Message :=
  if 0 ∉ buf then .error .outOfBounds else
  let type := buf.getD stringLen 0
  let msg := { msg with topic := cstr buf, type := type, data := none }
  if type = 0 then
    let raw := swap32 (load32 (buf.drop (stringLen + 2)))
    -- the negation wraps at the smallest integer
    let intVal := if buf.getD (stringLen + 1) 0 = 1 then -raw else raw
    .ok { msg with data := some (store32 (swap32 intVal)), bytes := 4 }
  else if type = 1 then
    .ok { msg with data := some ((buf.drop (stringLen + 1)).take 2), bytes := 2 }
  else if type = 2 then
    .ok { msg with data := some ((buf.drop (stringLen + 1)).take 6), bytes := 6 }
  else if type = 3 then
    let n := bytes - stringLen - 1
    if n < 0 ∨ buf.length < bytes then .error .outOfBounds
    else .ok { msg with data := some ((buf.drop (stringLen + 1)).take n.toNat), bytes := n }
  else .ok msg

/-- The frame for a message. The copy of the topic takes 50 bytes from a block that may be
shorter; `slack` is the memory behind it. -/
def buildSentBuffer (msg : Message) (fromUdpStation : SockAddrIn) (slack : List Byte)
    (padding : CharArray 3) : Except Fault (List Byte) :=
  let svHdr : ServerToClientHdr := {
    type := msg.type
    padding := padding
    udpIp := swap32 fromUdpStation.sAddr
    udpPort := fromUdpStation.sinPort
    topic := .ofList stringLen ((msg.topic ++ 0 :: slack).take stringLen)
    bytes := UInt32.ofNat (msg.bytes % 2 ^ 32).toNat }
  match msg.data with
  | none => if msg.bytes = 0 then .ok (pad maxLenBuf svHdr.encode) else .error .nullPointer
  | some data =>
    if msg.bytes < 0 ∨ data.length < msg.bytes ∨ maxLenBuf < serverHdrSize + msg.bytes then
      .error .outOfBounds
    else .ok (pad maxLenBuf (svHdr.encode ++ data.take msg.bytes.toNat))

/-- The type byte of a message received into a zeroed buffer. -/
def replyType (ret : Option (List Byte)) : Byte := (ret.getD []).getD 0 0

/-- The comparison of a subscription with the topic string of a publication. -/
def topicAccepted (topic : List Byte) (t : TopicStructure) : Except Fault Bool :=
  let len : ℤ := if stringLen < topic.length then stringLen else topic.length
  match memcmp t.topic.bytes (topic ++ [0]) (sizeT (len - 1)) with
  | none => .error .outOfBounds
  | some r => .ok (r == 0)

/-- The inner loop of `send_data`, for one client. -/
def sendToClient (data topic : List Byte) (bytes : ℤ) (client : ClientStructure) :
    Proc ClientStructure := do
  match ← mem (client.subscribedTopics.find (topicAccepted topic)) with
  | none => pure client
  | some (_, curr) =>
    if client.online then
      let ret ← send .data client.sock (data.take bytes.toNat)
      dieCall (!ret) sendSubErr
      let ret ← recv .dataAck client.sock maxLenBuf
      dieCall ret.isNone lackAck
      dieType (replyType ret != 4) lackAck
      pure client
    else
      let (_, node) ← mem (deref client.subscribedTopics.heap (some curr))
      if node.data.sf ≠ 0 then
        let queue ← mem (client.queue.addLastImproved ⟨data.take bytes.toNat, bytes⟩)
        pure { client with queue := queue }
      else pure client

/-- The outer loop of `send_data`, over the clients from `curr`. -/
def sendDataFrom (data topic : List Byte) (bytes : ℤ) :
    ℕ → Option Addr → LinkedList ClientStructure → Proc (LinkedList ClientStructure)
  | _, none, list => pure list
  | 0, some _, _ => .stop (.fault .endless)
  | fuel + 1, some a, list => do
    let (_, node) ← mem (deref list.heap (some a))
    let client ← sendToClient data topic bytes node.data
    let list ← mem (list.modifyData a fun _ => client)
    sendDataFrom data topic bytes fuel node.next list

def sendData (data topic : List Byte) (clientsContainer : LinkedList ClientStructure)
    (bytes : ℤ) : Proc (LinkedList ClientStructure) :=
  sendDataFrom data topic bytes clientsContainer.heap.size clientsContainer.head clientsContainer

/-! ## Connections -/

/-- The loop of `empty_queue`; every round takes one of the `fuel` cells off the queue. -/
def emptyQueueLoop (sock : ℤ) :
    ℕ → LinkedList QueueElement → Proc (LinkedList QueueElement)
  | fuel, queue =>
    match queue.head, fuel with
    | none, _ => pure queue
    | some _, 0 => .stop (.fault .endless)
    | some _, fuel + 1 => do
      let (curr, queue) ← mem queue.removeFirst
      let (_, node) ← mem (deref queue.heap curr)
      mem (if node.data.len < 0 ∨ buflen < node.data.len then .error .outOfBounds else .ok ())
      let ret ← send .queued sock (node.data.data.take node.data.len.toNat)
      dieCall (!ret) queueErr
      let ret ← recv .queuedAck sock buflen
      dieCall ret.isNone lackAck
      dieType (replyType ret != 4) lackAck
      emptyQueueLoop sock fuel queue

def emptyQueue (client : ClientStructure) : Proc ClientStructure := do
  let queue ← emptyQueueLoop client.sock client.queue.heap.size client.queue
  pure { client with queue := queue }

def manageConnectionRequest (sockfdTcp : ℤ) (s : ServerState) : Proc ServerState := do
  let (newSockfd, cliAddr) ← accept sockfdTcp
  dieCall (newSockfd == -1) idReqErrMsg
  -- of `sv_cl` only the type is set
  let svCl ← indeterminate serverHdrSize
  let ret ← send .idRequest newSockfd (5 :: svCl.bytes.drop 1)
  dieCall (!ret) idReqErrMsg
  let ret ← recv .idReply newSockfd maxLenBuf
  dieCall ret.isNone idRepErrMsg
  let buf := overlay (ret.getD []) (5 :: svCl.bytes.drop 1)
  dieType (buf.getD 0 0 != 2) idRepErrMsg
  let id : CharArray idLen := .ofList idLen ((buf.drop clientHdrSize).take idLen)
  match ← mem (getClientById s.clientsContainer id) with
  | none =>
    printf (.newConn id cliAddr)
    let list ← mem (s.clientsContainer.addLastImproved {
      id := id, subscribedTopics := .initList, sock := newSockfd, online := true,
      queue := .initList })
    pure { clientsContainer := list, readFds := insert newSockfd s.readFds, fdmax := s.fdmax + 1 }
  | some oldClient =>
    let (_, node) ← mem (deref s.clientsContainer.heap (some oldClient))
    if node.data.online then
      printf (.conRef node.data.id)
      let _ ← send .refusal newSockfd (4 :: svCl.bytes.drop 1)
      close newSockfd
      pure s
    else
      printf (.newConn node.data.id cliAddr)
      let client ← emptyQueue { node.data with sock := newSockfd, online := true }
      let list ← mem (s.clientsContainer.modifyData oldClient fun _ => client)
      pure { clientsContainer := list, readFds := insert newSockfd s.readFds,
             fdmax := s.fdmax + 1 }

/-- The loop of `close_all_sockets`, over the clients from `curr`. -/
def closeFrom (list : LinkedList ClientStructure) : ℕ → Option Addr → Proc Unit
  | _, none => pure ()
  | 0, some _ => .stop (.fault .endless)
  | fuel + 1, some a => do
    let (_, node) ← mem (deref list.heap (some a))
    let svCl ← indeterminate serverHdrSize
    let _ ← send .shutdown node.data.sock (4 :: svCl.bytes.drop 1)
    let ret ← recv .shutdownAck node.data.sock maxLenBuf
    dieType (replyType ret != 4) lackAck
    close node.data.sock
    closeFrom list fuel node.next

def closeAllSockets (clientsContainer : LinkedList ClientStructure) : Proc Unit :=
  closeFrom clientsContainer clientsContainer.heap.size clientsContainer.head

/-! ## Commands -/

/-- The branch of a subscribe command. -/
def subscribeBranch (subscribedTopics : LinkedList TopicStructure) (clsHdr : ClientToServerHdr) :
    Except Fault (LinkedList TopicStructure) := do
  -- a topic without NUL has its length cut to the array's
  let len : ℤ := clsHdr.topic.str.length
  let found ← subscribedTopics.find fun t =>
    .ok (strncmp t.topic.bytes clsHdr.topic.bytes (sizeT (len - 1)) == 0)
  match found with
  | some (_, curr) => subscribedTopics.modifyData curr fun t => { t with sf := clsHdr.sf }
  | none => subscribedTopics.addLastImproved ⟨clsHdr.topic, clsHdr.sf⟩

/-- The branch of an unsubscribe command. -/
def unsubscribeBranch (subscribedTopics : LinkedList TopicStructure)
    (clsHdr : ClientToServerHdr) : Except Fault (LinkedList TopicStructure) := do
  let found ← subscribedTopics.find fun t =>
    .ok (strncmp t.topic.bytes clsHdr.topic.bytes stringLen == 0)
  match found with
  | none => .ok subscribedTopics
  | some (prev, curr) =>
    let list ← subscribedTopics.modifyData curr fun t => { t with sf := clsHdr.sf }
    list.unlink prev curr

/-- Read a command from descriptor `i` and execute it. The result of `recv` is not looked at: the
buffer stays zeroed where it brings nothing. -/
def manageCommandFromClient (i : ℤ) (s : ServerState) : Proc (ℤ × ServerState) := do
  let ret ← recv .command i maxLenBuf
  let clsHdr := ClientToServerHdr.decode (pad maxLenBuf (ret.getD []))
  if clsHdr.type = 0 then
    let client ← mem (getClientBySock s.clientsContainer i)
    let (a, node) ← mem (deref s.clientsContainer.heap client)
    let topics ← mem (subscribeBranch node.data.subscribedTopics clsHdr)
    let list ← mem (s.clientsContainer.modifyData a fun c => { c with subscribedTopics := topics })
    pure (-1, { s with clientsContainer := list })
  else if clsHdr.type = 1 then
    let client ← mem (getClientBySock s.clientsContainer i)
    let (a, node) ← mem (deref s.clientsContainer.heap client)
    let topics ← mem (unsubscribeBranch node.data.subscribedTopics clsHdr)
    let list ← mem (s.clientsContainer.modifyData a fun c => { c with subscribedTopics := topics })
    pure (-1, { s with clientsContainer := list })
  else if clsHdr.type = 3 then
    let client ← mem (getClientBySock s.clientsContainer i)
    let (a, node) ← mem (deref s.clientsContainer.heap client)
    printf (.disc node.data.id)
    let list ← mem (s.clientsContainer.modifyData a fun c => { c with sock := -1, online := false })
    pure (i, { clientsContainer := list
               readFds := s.readFds.erase node.data.sock
               fdmax := if s.fdmax = node.data.sock then s.fdmax - 1 else s.fdmax })
  else pure (-1, s)

end TopicServer
