import TopicServer.ServerUtil

/-!
# The server

The loop of `server.c`: the body of one ready descriptor (`mainBody`) and the `select` loop around
it (`server`). The listening TCP socket and the UDP socket are opened before the loop.
-/

namespace TopicServer

open Interactive Memory

/-- The sockets opened by `main`, on two descriptors behind the standard input's. -/
structure Sockets where
  tcp : ℤ
  udp : ℤ
  tcp_pos : 0 < tcp
  udp_pos : 0 < udp
  tcp_ne_udp : tcp ≠ udp

/-- A datagram is relayed to the subscribers. -/
def udpBranch (k : Sockets) (s : ServerState) : Proc ServerState := do
  let ret ← recvfrom k.udp maxLenBuf
  match ret with
  | none => .stop (.dieCall udpRecvErr)
  | some (datagram, fromUdpStation) =>
    dieCall (datagram.length == 0) udpRecvErr
    let buf := pad maxLenBuf datagram
    let ret : ℤ := (datagram.take maxLenBuf).length
    -- `msg` is not initialised
    let bytes ← indeterminate 4
    let msg ← mem (buildMsg buf ⟨[], 0, toInt (load32 bytes.bytes), none⟩ ret)
    let slack ← indeterminate stringLen
    let padding ← indeterminate 3
    let buf ← mem (buildSentBuffer msg fromUdpStation slack.bytes padding)
    let list ← sendData buf msg.topic s.clientsContainer (serverHdrSize + msg.bytes)
    pure { s with clientsContainer := list }

/-- A line from the standard input; `exit` ends the server. -/
def stdinBranch (s : ServerState) : Proc Flow := do
  let ret ← read 0 maxLenBuf
  dieCall ret.isNone stdinErr
  if strncmp (pad maxLenBuf (ret.getD [])) exitWord exitWord.length = 0 then
    closeAllSockets s.clientsContainer
    pure .leave
  else pure .next

/-- A command of a connected client, and its acknowledgement. -/
def commandBranch (i : ℤ) (s : ServerState) : Proc ServerState := do
  let (closeFd, s) ← manageCommandFromClient i s
  let svCl ← indeterminate serverHdrSize
  let ret ← send .response i (6 :: svCl.bytes.drop 1 ++ [0])
  dieCall (!ret) ackFail
  if closeFd ≠ -1 then
    close closeFd
    pure s
  else pure s

/-- The body of the loop for the ready descriptor `i`. -/
def mainBody (k : Sockets) (s : ServerState) (i : ℤ) : Proc (ServerState × Flow) :=
  if i = k.tcp then do
    let s ← manageConnectionRequest k.tcp s
    pure (s, .next)
  else if i = k.udp then do
    let s ← udpBranch k s
    pure (s, .next)
  else if i = 0 then do
    let flow ← stdinBranch s
    pure (s, flow)
  else do
    let s ← commandBranch i s
    pure (s, .next)

/-- The server's loop. -/
def server (k : Sockets) : SelectLoop Sys Halt ServerState where
  watched := ServerState.readFds
  bound := ServerState.fdmax
  body := mainBody k
  finish _ := do
    close k.udp
    close k.tcp

/-- The state before the loop. -/
def serverInit (k : Sockets) : ServerState where
  clientsContainer := .initList
  readFds := {0, k.tcp, k.udp}
  fdmax := k.udp

end TopicServer
