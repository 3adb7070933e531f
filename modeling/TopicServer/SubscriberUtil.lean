import TopicServer.Util

/-!
# The functions of the subscriber

The functions of `subscriber_util.c`. A subscriber carries two variables from one command to the
next, `cls_hdr` and `sf`, which are not initialised; its buffers are zeroed before every use.
-/

namespace TopicServer

open Interactive Memory

/-- The variables of `main` that outlive a round of its loop. -/
structure SubscriberState where
  clsHdr : ClientToServerHdr
  sf : ℤ
  deriving DecidableEq

/-! ## Scanning -/

/-- `isspace`. -/
def isSpace (b : Byte) : Bool := b == 32 || (9 ≤ b && b ≤ 13)

def isDigit (b : Byte) : Bool := 48 ≤ b && b ≤ 57

/-- The string that `%s` converts, if there is one. -/
def scanString (s : List Byte) : Option (List Byte) :=
  let token := (s.dropWhile isSpace).takeWhile fun b => !isSpace b
  if token = [] then none else some token

/-- The number that a sequence of digits begins with. -/
def scanDigits (s : List Byte) : Option ℤ :=
  let digits := s.takeWhile isDigit
  if digits = [] then none
  else some (digits.foldl (fun n b => 10 * n + (b.toNat - 48 : ℕ)) 0)

/-- The `int` that `%d` converts: a number beyond the range of `long` is cut to it, and its low 32
bits are kept. -/
def scanInt (s : List Byte) : Option ℤ :=
  let number := match s.dropWhile isSpace with
    | 45 :: s => (scanDigits s).map (- ·)
    | 43 :: s => scanDigits s
    | s => scanDigits s
  number.map fun n => Int.bmod (max (-2 ^ 63) (min n (2 ^ 63 - 1))) (2 ^ 32)

/-- `sscanf` with `%s` into an array: it writes the token and a NUL, or nothing. -/
def sscanfString {n : ℕ} (s : List Byte) (old : CharArray n) : Except Fault (CharArray n) :=
  match scanString s with
  | none => .ok old
  | some token =>
    if n ≤ token.length then .error .outOfBounds
    else .ok (.ofList n (overlay (token ++ [0]) old.bytes))

/-! ## Commands -/

/-- Read a line and its first word. -/
def readFirstParameter : Proc (List Byte × CharArray commandLen) := do
  let ret ← read 0 buflen
  dieCall ret.isNone stdinErr
  let buffer := pad buflen (ret.getD [])
  -- a line that fills the buffer has no end
  mem (if 0 ∈ buffer then .ok () else .error .outOfBounds)
  let command ← mem (sscanfString (cstr buffer) (.ofList commandLen []))
  pure (buffer, command)

def processSubscribe (sockfd : ℤ) (buffer : List Byte) (command : CharArray commandLen)
    (s : SubscriberState) : Proc SubscriberState := do
  let rest := buffer.drop command.str.length
  let topic ← mem (sscanfString (cstr rest) (.ofList stringLen []))
  let sf := (scanInt (cstr (rest.drop (topic.str.length + 2)))).getD s.sf
  let clsHdr : ClientToServerHdr := ⟨0, UInt8.ofNat (sf % 256).toNat, topic⟩
  let _ ← send .putCommand sockfd clsHdr.encode
  let ret ← recv .getCommandAck sockfd (serverHdrSize + 1)
  dieType ((ret.getD []).getD 0 0 != 6) lackAck
  pure ⟨clsHdr, sf⟩

def processUnsubscribe (sockfd : ℤ) (buffer : List Byte) (command : CharArray commandLen)
    (s : SubscriberState) : Proc SubscriberState := do
  let topic ← mem (sscanfString (cstr (buffer.drop command.str.length)) s.clsHdr.topic)
  let clsHdr := { s.clsHdr with type := 1, topic := topic }
  let _ ← send .putCommand sockfd clsHdr.encode
  let ret ← recv .getCommandAck sockfd (serverHdrSize + 1)
  dieType ((ret.getD []).getD 0 0 != 6) lackAck
  pure { s with clsHdr := clsHdr }

/-! ## Messages -/

/-- The block with the payload of a message, the address and the port of its sender. -/
def extractServerToClientHeader (buffer : List Byte) (svCl : ServerToClientHdr) :
    Except Fault (List Byte × UInt32 × UInt16) :=
  let bytes := toInt svCl.bytes
  -- `malloc` of a negative number of bytes gives a null pointer
  if bytes < 0 then .error .nullPointer
  else if buffer.length < serverHdrSize + bytes then .error .outOfBounds
  else .ok ((buffer.drop serverHdrSize).take bytes.toNat, swap32 svCl.udpIp, swap16 svCl.udpPort)

/-- The power of ten, in the arithmetic of `int`. -/
def myPow : ℕ → ℤ
  | 0 => 1
  | power + 1 => Int.bmod (myPow power * 10) (2 ^ 32)

/-- Answer the request of the server with the ID given on the command line; `idTail` is the memory
behind the argument. -/
def manageId (id : List Byte) (sockfd : ℤ) : Proc Unit := do
  let ret ← recv .getIdRequest sockfd buflen
  dieCall ret.isNone needIdReq
  dieType ((ret.getD []).getD 0 0 != 5) needIdReq
  -- of `cl_sv` only the type is set
  let clSv ← indeterminate clientHdrSize
  let idTail ← indeterminate idLen
  let ret ← send .putIdReply sockfd
    (2 :: clSv.bytes.drop 1 ++ (id ++ 0 :: idTail.bytes).take idLen)
  dieCall (!ret) idRepErr

end TopicServer
