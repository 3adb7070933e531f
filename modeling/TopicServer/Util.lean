import TopicServer.Lib.Program
import TopicServer.Lib.Memory
import TopicServer.LinkedList

/-!
# Messages and system calls

The constants and structures of `util.h` with their layout in memory, the reasons why a process
stops, and the calls by which the two programs reach their environment. A call carries the
statement that makes it (`Site`). Memory that the program reads without having written it is
asked of the environment too (`indeterminate`).
-/

namespace TopicServer

open Interactive Memory

/-! ## Constants -/

def stringLen : ℕ := 50
def idLen : ℕ := 10
def commandLen : ℕ := 14
def buflen : ℕ := 1600
def maxLenBuf : ℕ := 1551

def idReqErrMsg : String := "Unable to send ID request\n"
def idRepErrMsg : String := "Unable to receive ID reply\n"
def stdinErr : String := "Error receiving stdin command\n"
def needIdReq : String := "Did not receive ID request\n"
def idRepErr : String := "Failed to send ID reply\n"
def lackAck : String := "Did not receive ACK\n"
def ackFail : String := "Failed to send ack\n"
def queueErr : String := "Failed to send enqueued message\n"
def sendSubErr : String := "Failed to send data to subscriber\n"
def udpRecvErr : String := "Failed to receive UDP message\n"
def discSig : String := "Unable to send disconnection signal\n"
def subRecvErr : String := "Failed to receive subscription data\n"

/-- The bytes of a string constant. -/
def ascii (s : String) : List Byte := s.toList.map fun c => UInt8.ofNat c.toNat

def exitWord : List Byte := ascii "exit"
def subscribeWord : List Byte := ascii "subscribe"
def unsubscribeWord : List Byte := ascii "unsubscribe"

/-! ## Headers -/

/-- The header of a message from the server; `padding` are the bytes that the compiler puts
behind `type`. -/
structure ServerToClientHdr where
  type : Byte
  padding : CharArray 3
  udpIp : UInt32
  udpPort : UInt16
  topic : CharArray stringLen
  bytes : UInt32
  deriving DecidableEq

/-- `sizeof(server_to_client_hdr)`. -/
def serverHdrSize : ℕ := 64

namespace ServerToClientHdr

def encode (h : ServerToClientHdr) : List Byte :=
  h.type :: h.padding.bytes ++ store32 h.udpIp ++ store16 h.udpPort ++ h.topic.bytes ++
    store32 h.bytes

/-- The header laid over a buffer. -/
def decode (buf : List Byte) : ServerToClientHdr where
  type := buf.getD 0 0
  padding := .ofList 3 ((buf.drop 1).take 3)
  udpIp := load32 (buf.drop 4)
  udpPort := load16 (buf.drop 8)
  topic := .ofList stringLen ((buf.drop 10).take stringLen)
  bytes := load32 (buf.drop 60)

@[simp] theorem length_encode (h : ServerToClientHdr) : h.encode.length = serverHdrSize := by
  simp [encode, serverHdrSize, h.padding.length_eq, h.topic.length_eq, stringLen]

theorem decode_encode (h : ServerToClientHdr) (rest : List Byte) : decode (h.encode ++ rest) = h := by
  obtain ⟨type, ⟨padding, hp⟩, udpIp, udpPort, ⟨topic, ht⟩, bytes⟩ := h
  obtain ⟨p₀, p₁, p₂, rfl⟩ := List.length_eq_three.mp hp
  have hbuf : encode ⟨type, ⟨[p₀, p₁, p₂], hp⟩, udpIp, udpPort, ⟨topic, ht⟩, bytes⟩ ++ rest =
      type :: p₀ :: p₁ :: p₂ :: (store32 udpIp ++ (store16 udpPort ++
        (topic ++ (store32 bytes ++ rest)))) := by
    unfold encode
    simp only [List.cons_append, List.nil_append, List.append_assoc]
  have htopic : (topic ++ (store32 bytes ++ rest)).take stringLen = topic := by
    rw [List.take_append_of_le_length ht.ge, List.take_of_length_le ht.le]
  have hbytes : (topic ++ (store32 bytes ++ rest)).drop stringLen = store32 bytes ++ rest := by
    rw [List.drop_append_of_le_length ht.ge, List.drop_of_length_le ht.le, List.nil_append]
  rw [hbuf]
  unfold decode
  congr 1
  · exact load32_store32 udpIp
  · exact load16_store16 udpPort
  · show CharArray.ofList stringLen ((topic ++ (store32 bytes ++ rest)).take stringLen) = _
    rw [htopic]
    exact CharArray.ofList_bytes ⟨topic, ht⟩
  · show load32 ((topic ++ (store32 bytes ++ rest)).drop stringLen) = _
    rw [hbytes]
    exact load32_store32 bytes

/-- A block holds the header that is laid over it. -/
theorem encode_decode {buf : List Byte} (h : serverHdrSize ≤ buf.length) :
    (decode buf).encode = buf.take serverHdrSize := by
  unfold serverHdrSize at *
  match buf, h with
  | t :: p₀ :: p₁ :: p₂ :: i₀ :: i₁ :: i₂ :: i₃ :: q₀ :: q₁ :: rest, h =>
    simp only [List.length_cons] at h
    obtain ⟨topic, more, ht, rfl⟩ : ∃ topic more : List Byte, topic.length = 50 ∧
        rest = topic ++ more :=
      ⟨rest.take 50, rest.drop 50, by rw [List.length_take]; omega,
        (List.take_append_drop _ _).symm⟩
    rw [List.length_append, ht] at h
    match more, (by omega : 4 ≤ more.length) with
    | c₀ :: c₁ :: c₂ :: c₃ :: more, _ =>
      have htake : (topic ++ c₀ :: c₁ :: c₂ :: c₃ :: more).take 50 = topic := by
        rw [List.take_append_of_le_length ht.ge, List.take_of_length_le ht.le]
      have hdrop : (topic ++ c₀ :: c₁ :: c₂ :: c₃ :: more).drop 50 = c₀ :: c₁ :: c₂ :: c₃ :: more := by
        rw [List.drop_append_of_le_length ht.ge, List.drop_of_length_le ht.le, List.nil_append]
      have htake' : (topic ++ c₀ :: c₁ :: c₂ :: c₃ :: more).take 54 = topic ++ [c₀, c₁, c₂, c₃] := by
        rw [List.take_append, List.take_of_length_le (by omega), ht]
        rfl
      have hshow : decode (t :: p₀ :: p₁ :: p₂ :: i₀ :: i₁ :: i₂ :: i₃ :: q₀ :: q₁ ::
          (topic ++ c₀ :: c₁ :: c₂ :: c₃ :: more)) =
          { type := t, padding := .ofList 3 [p₀, p₁, p₂]
            udpIp := load32 (i₀ :: i₁ :: i₂ :: i₃ :: []), udpPort := load16 (q₀ :: q₁ :: [])
            topic := .ofList stringLen ((topic ++ c₀ :: c₁ :: c₂ :: c₃ :: more).take 50)
            bytes := load32 ((topic ++ c₀ :: c₁ :: c₂ :: c₃ :: more).drop 50) } := rfl
      rw [hshow, htake, hdrop]
      unfold encode
      simp only [store32_load32, store16_load16, CharArray.ofList]
      rw [pad_of_length (n := 3) rfl, pad_of_length (n := stringLen) ht]
      simp only [List.take_succ_cons, htake']
      simp

end ServerToClientHdr

/-- The header of a message to the server. -/
structure ClientToServerHdr where
  type : Byte
  sf : Byte
  topic : CharArray stringLen
  deriving DecidableEq

/-- `sizeof(client_to_server_hdr)`. -/
def clientHdrSize : ℕ := 52

namespace ClientToServerHdr

def encode (h : ClientToServerHdr) : List Byte := h.type :: h.sf :: h.topic.bytes

/-- The header laid over a buffer. -/
def decode (buf : List Byte) : ClientToServerHdr where
  type := buf.getD 0 0
  sf := buf.getD 1 0
  topic := .ofList stringLen ((buf.drop 2).take stringLen)

@[simp] theorem length_encode (h : ClientToServerHdr) : h.encode.length = clientHdrSize := by
  simp [encode, clientHdrSize, h.topic.length_eq, stringLen]

theorem decode_encode (h : ClientToServerHdr) (n : ℕ) (hn : clientHdrSize ≤ n) :
    decode (pad n h.encode) = h := by
  have hlen : h.topic.bytes.length = stringLen := h.topic.length_eq
  have he : pad n h.encode = h.type :: h.sf ::
      (h.topic.bytes ++ List.replicate (n - clientHdrSize) 0) := by
    rw [pad, length_encode, List.take_of_length_le]
    · rfl
    · simp only [List.length_append, length_encode, List.length_replicate]
      omega
  unfold decode
  rw [he]
  simp only [List.getD_cons_zero, List.getD_cons_succ, List.drop_succ_cons, List.drop_zero]
  rw [List.take_append_of_le_length hlen.ge, List.take_of_length_le hlen.le,
    CharArray.ofList_bytes]

theorem encode_inj {h h' : ClientToServerHdr} : h.encode = h'.encode ↔ h = h' := by
  refine ⟨fun he => ?_, congrArg _⟩
  rw [← decode_encode h clientHdrSize le_rfl, he, decode_encode h' clientHdrSize le_rfl]

end ClientToServerHdr

/-- The type of a message. -/
def msgType (m : List Byte) : Byte := m.getD 0 0

/-! ## Processes -/

/-- An address and a port as they stand in a `sockaddr_in`, in network order. -/
structure SockAddrIn where
  sAddr : UInt32
  sinPort : UInt16
  deriving DecidableEq

/-- What the subscriber shows for the payload of a message. -/
inductive Shown
  | int (v : ℤ)
  | shortReal (hundredths : ℕ)
  | float (negative : Bool) (mantissa : ℕ) (divisor : ℤ)
  | string (s : List Byte)
  deriving DecidableEq

/-- A message as the subscriber prints it, with the payload block it extracted. -/
structure Display where
  adr : UInt32
  udpPort : UInt16
  topic : CharArray (stringLen + 1)
  val : List Byte
  shown : Shown
  deriving DecidableEq

/-- The lines printed on the standard output. -/
inductive Output
  | newConn (id : CharArray idLen) (sender : SockAddrIn)
  | conRef (id : CharArray idLen)
  | disc (id : CharArray idLen)
  | display (d : Display)
  | subSucc
  | unsubSucc
  | wrongCom
  deriving DecidableEq

/-- The statements that send or receive on a connection. -/
inductive Site
  | idRequest
  | idReply
  | refusal
  | data
  | dataAck
  | queued
  | queuedAck
  | shutdown
  | shutdownAck
  | command
  | response
  | getIdRequest
  | putIdReply
  | putCommand
  | getCommandAck
  | putExit
  | getExitAck
  | getMessage
  | putAck
  deriving DecidableEq

/-- The calls of the two programs. -/
inductive Call
  | accept (sockfd : ℤ)
  | send (site : Site) (fd : ℤ) (buf : List Byte)
  | recv (site : Site) (fd : ℤ) (len : ℕ)
  | recvfrom (fd : ℤ) (len : ℕ)
  | read (fd : ℤ) (len : ℕ)
  | close (fd : ℤ)
  | printf (line : Output)
  | indeterminate (n : ℕ)
  deriving DecidableEq

/-- The answers. `send` tells whether it succeeded; `recv`, `recvfrom` and `read` give the bytes
read, none at the end of the stream, or fail; `accept` returns the new descriptor or `-1`. -/
abbrev Answer : Call → Type
  | .accept _ => ℤ × SockAddrIn
  | .send .. => Bool
  | .recv .. => Option (List Byte)
  | .recvfrom .. => Option (List Byte × SockAddrIn)
  | .read .. => Option (List Byte)
  | .close _ => Unit
  | .printf _ => Unit
  | .indeterminate n => CharArray n

/-- The calls and answers of a process. -/
abbrev Sys : Signature where
  Call := Call
  Answer := Answer

/-- Why a process stops: a `DIE` on a call that failed, a `DIE` on a message of the wrong type, a
fault, or its end. -/
inductive Halt
  | dieCall (description : String)
  | dieType (description : String)
  | fault (f : Fault)
  | exited
  deriving DecidableEq

abbrev Proc (α : Type) := Program Sys Halt α

def accept (sockfd : ℤ) : Proc (ℤ × SockAddrIn) := Program.ask (S := Sys) (.accept sockfd)

def send (site : Site) (fd : ℤ) (buf : List Byte) : Proc Bool :=
  Program.ask (S := Sys) (.send site fd buf)

def recv (site : Site) (fd : ℤ) (len : ℕ) : Proc (Option (List Byte)) :=
  Program.ask (S := Sys) (.recv site fd len)

def recvfrom (fd : ℤ) (len : ℕ) : Proc (Option (List Byte × SockAddrIn)) :=
  Program.ask (S := Sys) (.recvfrom fd len)

def read (fd : ℤ) (len : ℕ) : Proc (Option (List Byte)) :=
  Program.ask (S := Sys) (.read fd len)

def close (fd : ℤ) : Proc Unit := Program.ask (S := Sys) (.close fd)

def printf (line : Output) : Proc Unit := Program.ask (S := Sys) (.printf line)

def indeterminate (n : ℕ) : Proc (CharArray n) := Program.ask (S := Sys) (.indeterminate n)

/-- `DIE` on the result of a call. -/
def dieCall (assertion : Bool) (description : String) : Proc Unit :=
  Program.failIf assertion (.dieCall description)

/-- `DIE` on the type of a message. -/
def dieType (assertion : Bool) (description : String) : Proc Unit :=
  Program.failIf assertion (.dieType description)

/-- A computation on memory. -/
def mem {α : Type} (e : Except Fault α) : Proc α := Program.lift (e.mapError .fault)

@[simp] theorem mem_ok {α : Type} (a : α) : mem (.ok a) = .ret a := rfl

/-- A sequence of computations on memory has a value when both parts have one. -/
theorem bind_ok_iff {α β : Type} {e : Except Fault α} {f : α → Except Fault β} {b : β} :
    (e >>= f) = .ok b ↔ ∃ a, e = .ok a ∧ f a = .ok b := by
  cases e with
  | error err => simp [bind, Except.bind]
  | ok a => simp [bind, Except.bind]

@[simp] theorem mem_error {α : Type} (e : Fault) : (mem (.error e) : Proc α) = .stop (.fault e) := rfl

/-- The answers of an environment that accepts every frame, connects `conn`, and delivers one
datagram and one line or message. -/
def scripted (conn : ℤ) (datagram received : List Byte) : (c : Call) → Answer c
  | .accept _ => (conn, ⟨0, 0⟩)
  | .send .. => true
  | .recv .. => some received
  | .recvfrom .. => some (datagram, ⟨0, 0⟩)
  | .read .. => some received
  | .close _ => ()
  | .printf _ => ()
  | .indeterminate n => .ofList n []

/-! ## Executions of the calls -/

section Exec

variable {α β : Type} {evs : List (Event Sys)} {o : Except Halt β} {b : β}

theorem exec_accept {sockfd : ℤ} {f : ℤ × SockAddrIn → Proc β} :
    (accept sockfd >>= f).Exec evs o ↔
      ∃ r rest, evs = ⟨.accept sockfd, r⟩ :: rest ∧ (f r).Exec rest o := Iff.rfl

theorem exec_send {site : Site} {fd : ℤ} {buf : List Byte} {f : Bool → Proc β} :
    (send site fd buf >>= f).Exec evs o ↔
      ∃ r rest, evs = ⟨.send site fd buf, r⟩ :: rest ∧ (f r).Exec rest o := Iff.rfl

theorem exec_recv {site : Site} {fd : ℤ} {len : ℕ} {f : Option (List Byte) → Proc β} :
    (recv site fd len >>= f).Exec evs o ↔
      ∃ r rest, evs = ⟨.recv site fd len, r⟩ :: rest ∧ (f r).Exec rest o := Iff.rfl

theorem exec_recvfrom {fd : ℤ} {len : ℕ} {f : Option (List Byte × SockAddrIn) → Proc β} :
    (recvfrom fd len >>= f).Exec evs o ↔
      ∃ r rest, evs = ⟨.recvfrom fd len, r⟩ :: rest ∧ (f r).Exec rest o := Iff.rfl

theorem exec_read {fd : ℤ} {len : ℕ} {f : Option (List Byte) → Proc β} :
    (read fd len >>= f).Exec evs o ↔
      ∃ r rest, evs = ⟨.read fd len, r⟩ :: rest ∧ (f r).Exec rest o := Iff.rfl

theorem exec_close {fd : ℤ} {f : Unit → Proc β} :
    (close fd >>= f).Exec evs o ↔
      ∃ r rest, evs = ⟨.close fd, r⟩ :: rest ∧ (f r).Exec rest o := Iff.rfl

theorem exec_printf {line : Output} {f : Unit → Proc β} :
    (printf line >>= f).Exec evs o ↔
      ∃ r rest, evs = ⟨.printf line, r⟩ :: rest ∧ (f r).Exec rest o := Iff.rfl

theorem exec_indeterminate {n : ℕ} {f : CharArray n → Proc β} :
    (indeterminate n >>= f).Exec evs o ↔
      ∃ r rest, evs = ⟨.indeterminate n, r⟩ :: rest ∧ (f r).Exec rest o := Iff.rfl

theorem exec_dieCall {c : Bool} {m : String} {f : Unit → Proc β} :
    (dieCall c m >>= f).Exec evs o ↔
      c = true ∧ evs = [] ∧ o = .error (.dieCall m) ∨ c = false ∧ (f ()).Exec evs o :=
  Program.exec_failIf_bind

theorem exec_dieType {c : Bool} {m : String} {f : Unit → Proc β} :
    (dieType c m >>= f).Exec evs o ↔
      c = true ∧ evs = [] ∧ o = .error (.dieType m) ∨ c = false ∧ (f ()).Exec evs o :=
  Program.exec_failIf_bind

theorem exec_mem {e : Except Fault α} {f : α → Proc β} :
    (mem e >>= f).Exec evs o ↔ (∃ err, e = .error err ∧ evs = [] ∧ o = .error (.fault err)) ∨
      ∃ a, e = .ok a ∧ (f a).Exec evs o := by
  unfold mem
  rw [Program.exec_lift_bind]
  cases e <;> simp [Except.mapError]

theorem exec_dieCall_ok {c : Bool} {m : String} {f : Unit → Proc β} :
    (dieCall c m >>= f).Exec evs (.ok b) ↔ c = false ∧ (f ()).Exec evs (.ok b) := by
  rw [exec_dieCall]
  simp

theorem exec_dieType_ok {c : Bool} {m : String} {f : Unit → Proc β} :
    (dieType c m >>= f).Exec evs (.ok b) ↔ c = false ∧ (f ()).Exec evs (.ok b) := by
  rw [exec_dieType]
  simp

theorem exec_dieCall_fault {c : Bool} {m : String} {f : Unit → Proc β} {e : Fault} :
    (dieCall c m >>= f).Exec evs (.error (.fault e)) ↔
      c = false ∧ (f ()).Exec evs (.error (.fault e)) := by
  rw [exec_dieCall]
  simp

theorem exec_dieType_fault {c : Bool} {m : String} {f : Unit → Proc β} {e : Fault} :
    (dieType c m >>= f).Exec evs (.error (.fault e)) ↔
      c = false ∧ (f ()).Exec evs (.error (.fault e)) := by
  rw [exec_dieType]
  simp

theorem exec_mem_ok {e : Except Fault α} {f : α → Proc β} :
    (mem e >>= f).Exec evs (.ok b) ↔ ∃ a, e = .ok a ∧ (f a).Exec evs (.ok b) := by
  rw [exec_mem]
  simp

end Exec

/-! ## Which calls a process makes -/

section Calls

variable {A : Call → Prop} {α β : Type}

theorem calls_ask {c : Call} {f : Answer c → Proc β} (hc : A c) (hf : ∀ r, (f r).Calls A) :
    (Program.ask (S := Sys) c >>= f : Proc β).Calls A := ⟨hc, hf⟩

theorem calls_mem {e : Except Fault α} {f : α → Proc β} (hf : ∀ a, (f a).Calls A) :
    (mem e >>= f).Calls A := by
  cases e with
  | error err => trivial
  | ok a => exact hf a

theorem calls_mem_ok {e : Except Fault α} {f : α → Proc β}
    (hf : ∀ a, e = .ok a → (f a).Calls A) : (mem e >>= f).Calls A := by
  cases e with
  | error err => trivial
  | ok a => exact hf a rfl

theorem calls_die {b : Bool} {e : Halt} {f : Unit → Proc β} (hf : (f ()).Calls A) :
    (Program.failIf b e >>= f).Calls A := by
  cases b with
  | true => trivial
  | false => exact hf

end Calls

/-! ## Weakest preconditions of the calls -/

section Wp

variable {α β γ : Type} {P : Protocol Sys γ} {g : γ} {Q : γ → Except Halt β → Prop}

theorem wp_accept {sockfd : ℤ} {f : ℤ × SockAddrIn → Proc β} :
    (accept sockfd >>= f).wp P g Q ↔ P.Allowed g (.accept sockfd) ∧
      ∀ r, P.Expected g (.accept sockfd) r → (f r).wp P (P.next g (.accept sockfd) r) Q := Iff.rfl

theorem wp_send {site : Site} {fd : ℤ} {buf : List Byte} {f : Bool → Proc β} :
    (send site fd buf >>= f).wp P g Q ↔ P.Allowed g (.send site fd buf) ∧
      ∀ r, P.Expected g (.send site fd buf) r →
        (f r).wp P (P.next g (.send site fd buf) r) Q := Iff.rfl

theorem wp_recv {site : Site} {fd : ℤ} {len : ℕ} {f : Option (List Byte) → Proc β} :
    (recv site fd len >>= f).wp P g Q ↔ P.Allowed g (.recv site fd len) ∧
      ∀ r, P.Expected g (.recv site fd len) r →
        (f r).wp P (P.next g (.recv site fd len) r) Q := Iff.rfl

theorem wp_recvfrom {fd : ℤ} {len : ℕ} {f : Option (List Byte × SockAddrIn) → Proc β} :
    (recvfrom fd len >>= f).wp P g Q ↔ P.Allowed g (.recvfrom fd len) ∧
      ∀ r, P.Expected g (.recvfrom fd len) r →
        (f r).wp P (P.next g (.recvfrom fd len) r) Q := Iff.rfl

theorem wp_read {fd : ℤ} {len : ℕ} {f : Option (List Byte) → Proc β} :
    (read fd len >>= f).wp P g Q ↔ P.Allowed g (.read fd len) ∧
      ∀ r, P.Expected g (.read fd len) r → (f r).wp P (P.next g (.read fd len) r) Q := Iff.rfl

theorem wp_close {fd : ℤ} {f : Unit → Proc β} :
    (close fd >>= f).wp P g Q ↔ P.Allowed g (.close fd) ∧
      ∀ r, P.Expected g (.close fd) r → (f r).wp P (P.next g (.close fd) r) Q := Iff.rfl

theorem wp_printf {line : Output} {f : Unit → Proc β} :
    (printf line >>= f).wp P g Q ↔ P.Allowed g (.printf line) ∧
      ∀ r, P.Expected g (.printf line) r → (f r).wp P (P.next g (.printf line) r) Q := Iff.rfl

theorem wp_indeterminate {n : ℕ} {f : CharArray n → Proc β} :
    (indeterminate n >>= f).wp P g Q ↔ P.Allowed g (.indeterminate n) ∧
      ∀ r, P.Expected g (.indeterminate n) r →
        (f r).wp P (P.next g (.indeterminate n) r) Q := Iff.rfl

theorem wp_dieCall {c : Bool} {m : String} {f : Unit → Proc β} :
    (dieCall c m >>= f).wp P g Q ↔
      (c = true → Q g (.error (.dieCall m))) ∧ (c = false → (f ()).wp P g Q) := by
  cases c <;> simp [dieCall]

theorem wp_dieType {c : Bool} {m : String} {f : Unit → Proc β} :
    (dieType c m >>= f).wp P g Q ↔
      (c = true → Q g (.error (.dieType m))) ∧ (c = false → (f ()).wp P g Q) := by
  cases c <;> simp [dieType]

theorem wp_mem {e : Except Fault α} {f : α → Proc β} :
    (mem e >>= f).wp P g Q ↔
      (∀ err, e = .error err → Q g (.error (.fault err))) ∧
        ∀ a, e = .ok a → (f a).wp P g Q := by
  cases e <;> simp

end Wp

end TopicServer
