import TopicServer.SystemLog

/-!
# Whose turn it is

What a process owes on its connections, read off its calls alone. The server talks to one
connection at a time (`ServerTurn`): it sends and then waits for a reply, or takes a command and
then answers it. A subscriber has sent a command for which it waits, or holds a message that it
has not answered (`ClientTurn`). Both programs keep to their turns whatever they receive
(`serverTurns_contract`, `clientTurns_contract`); a reply of the wrong type ends the server.
-/

namespace TopicServer

open Interactive Linked Memory

/-! ## The server -/

/-- What the server owes: it has accepted a connection, waits for a reply, has to answer a command
or to close a connection that it refused; `broken` is behind a reply of the wrong type. -/
inductive ServerTurn
  | rest
  | accepted (fd : ℤ)
  | asked (fd : ℤ)
  | owing (fd : ℤ)
  | refusing (fd : ℤ)
  | broken
  deriving DecidableEq

namespace ServerTurn

def Allowed (t : ServerTurn) : Call → Prop
  | .accept _ => t = .rest
  | .send .idRequest fd _ => t = .accepted fd
  | .send .response fd _ => t = .owing fd
  | .send .data .. => t = .rest
  | .send .queued .. => t = .rest
  | .send .shutdown .. => t = .rest
  | .send .refusal .. => t = .rest
  | .send .. => False
  | .recv .command .. => t = .rest
  | .recv .idReply fd _ => t = .asked fd
  | .recv .dataAck fd _ => t = .asked fd
  | .recv .queuedAck fd _ => t = .asked fd
  | .recv .shutdownAck fd _ => t = .asked fd
  | .recv .. => False
  | .close fd => t = .rest ∨ t = .refusing fd
  | _ => t ≠ .broken

/-- The turn behind a call. -/
def next (t : ServerTurn) : (c : Call) → Answer c → ServerTurn
  | .accept _, r => .accepted r.1
  | .send .response .., _ => .rest
  | .send .refusal fd _, _ => .refusing fd
  | .send _ fd _, _ => .asked fd
  | .recv .command fd _, _ => .owing fd
  | .recv .idReply .., ret => if replyType ret = 2 then .rest else .broken
  | .recv .., ret => if replyType ret = 4 then .rest else .broken
  | .close _, _ => .rest
  | _, _ => t

/-- Behind a reply of the wrong type the server has stopped, and not at a fault. -/
def Stop : ServerTurn → Halt → Prop
  | .broken, .fault _ => False
  | _, _ => True

/-- How many messages the server has sent on a descriptor beyond those that it received. -/
def tally (fd : ℤ) : ServerTurn → ℤ
  | .asked i => if i = fd then 1 else 0
  | .refusing i => if i = fd then 1 else 0
  | .owing i => if i = fd then -1 else 0
  | _ => 0

end ServerTurn

/-- The turns of the server, whatever it is answered. -/
def serverTurns : Protocol Sys ServerTurn where
  Allowed := ServerTurn.Allowed
  Expected _ _ _ := True
  next := ServerTurn.next

section Server

variable {k : Sockets} {s : ServerState} {t : ServerTurn} {fd : ℤ}

theorem mem_turns {α β : Type} {e : Except Fault α} {f : α → Proc β} {Q : ServerTurn → β → Prop}
    (ht : t ≠ .broken)
    (h : ∀ a, (f a).wp serverTurns t (Program.post Q ServerTurn.Stop)) :
    (mem e >>= f).wp serverTurns t (Program.post Q ServerTurn.Stop) := by
  refine wp_mem.mpr ⟨fun _ _ => ?_, fun a _ => h a⟩
  cases t with
  | broken => exact absurd rfl ht
  | _ => trivial

theorem dieCall_turns {β : Type} {b : Bool} {m : String} {f : Unit → Proc β}
    {Q : ServerTurn → β → Prop}
    (h : (f ()).wp serverTurns t (Program.post Q ServerTurn.Stop)) :
    (dieCall b m >>= f).wp serverTurns t (Program.post Q ServerTurn.Stop) := by
  refine wp_dieCall.mpr ⟨fun _ => ?_, fun _ => h⟩
  cases t <;> trivial

/-- A reply of the wrong type stops the server. -/
theorem dieType_turns {β : Type} {b : Bool} {m : String} {c : Prop} [Decidable c]
    {f : Unit → Proc β} {Q : ServerTurn → β → Prop} (hc : b = false → c)
    (h : (f ()).wp serverTurns .rest (Program.post Q ServerTurn.Stop)) :
    (dieType b m >>= f).wp serverTurns (if c then .rest else .broken)
      (Program.post Q ServerTurn.Stop) := by
  refine wp_dieType.mpr ⟨fun _ => ?_, fun hb => ?_⟩
  · split_ifs <;> trivial
  · rwa [if_pos (hc hb)]

theorem printf_turns {β : Type} {line : Output} {f : Unit → Proc β}
    {Q : ServerTurn → Except Halt β → Prop} (ht : t ≠ .broken) (h : (f ()).wp serverTurns t Q) :
    (printf line >>= f).wp serverTurns t Q :=
  wp_printf.mpr ⟨ht, fun _ _ => h⟩

theorem indeterminate_turns {β : Type} {n : ℕ} {f : CharArray n → Proc β}
    {Q : ServerTurn → Except Halt β → Prop} (ht : t ≠ .broken)
    (h : ∀ x, (f x).wp serverTurns t Q) : (indeterminate n >>= f).wp serverTurns t Q :=
  wp_indeterminate.mpr ⟨ht, fun x _ => h x⟩

/-- A message and its acknowledgement. -/
theorem exchange_turns {β : Type} {site ack : Site} {buf : List Byte} {len : ℕ} {e₁ e₂ e₃ : String}
    {f : Proc β} {Q : ServerTurn → β → Prop}
    (hsite : site = .data ∧ ack = .dataAck ∨ site = .queued ∧ ack = .queuedAck)
    (hf : f.wp serverTurns .rest (Program.post Q ServerTurn.Stop)) :
    (do
      let ret ← send site fd buf
      dieCall (!ret) e₁
      let ret ← recv ack fd len
      dieCall ret.isNone e₂
      dieType (replyType ret != 4) e₃
      f : Proc β).wp serverTurns .rest (Program.post Q ServerTurn.Stop) := by
  rw [wp_send]
  refine ⟨by rcases hsite with ⟨rfl, -⟩ | ⟨rfl, -⟩ <;> exact rfl, fun sent _ => ?_⟩
  have hsent : serverTurns.next .rest (.send site fd buf) sent = .asked fd := by
    rcases hsite with ⟨rfl, -⟩ | ⟨rfl, -⟩ <;> rfl
  rw [hsent]
  refine dieCall_turns ?_
  rw [wp_recv]
  refine ⟨by rcases hsite with ⟨-, rfl⟩ | ⟨-, rfl⟩ <;> exact rfl, fun ret _ => ?_⟩
  have hgot : serverTurns.next (.asked fd) (.recv ack fd len) ret =
      if replyType ret = 4 then .rest else .broken := by
    rcases hsite with ⟨-, rfl⟩ | ⟨-, rfl⟩ <;> rfl
  rw [hgot]
  refine dieCall_turns ?_
  exact dieType_turns bne_eq_false_iff_eq.mp hf

theorem sendToClient_turns {data topic : List Byte} {bytes : ℤ} {c : ClientStructure} :
    (sendToClient data topic bytes c).wp serverTurns .rest
      (Program.post (fun t _ => t = .rest) ServerTurn.Stop) := by
  unfold sendToClient
  refine mem_turns (by simp) fun found => ?_
  cases found with
  | none => exact rfl
  | some found =>
    obtain ⟨prev, curr⟩ := found
    split_ifs
    · exact exchange_turns (Or.inl ⟨rfl, rfl⟩) rfl
    · refine mem_turns (by simp) fun node => ?_
      dsimp only
      split_ifs
      · exact mem_turns (by simp) fun _ => rfl
      · exact rfl

theorem sendDataFrom_turns {data topic : List Byte} {bytes : ℤ} {fuel : ℕ} {curr : Option Addr}
    {list : LinkedList ClientStructure} :
    (sendDataFrom data topic bytes fuel curr list).wp serverTurns .rest
      (Program.post (fun t _ => t = .rest) ServerTurn.Stop) := by
  induction fuel generalizing curr list with
  | zero =>
    cases curr with
    | none => exact rfl
    | some a => trivial
  | succ fuel ih =>
    cases curr with
    | none => exact rfl
    | some a =>
      unfold sendDataFrom
      refine mem_turns (by simp) fun node => ?_
      rw [Program.wp_bind]
      refine sendToClient_turns.mono fun t o ho => ?_
      cases o with
      | error e => exact ho
      | ok client =>
        obtain rfl := ho
        exact mem_turns (by simp) fun list => ih

theorem udpBranch_turns : (udpBranch k s).wp serverTurns .rest
    (Program.post (fun t _ => t = .rest) ServerTurn.Stop) := by
  unfold udpBranch
  rw [wp_recvfrom]
  refine ⟨by simp [serverTurns, ServerTurn.Allowed], fun ret _ => ?_⟩
  show Program.wp _ _ ServerTurn.rest _
  cases ret with
  | none => trivial
  | some ret =>
    refine dieCall_turns (indeterminate_turns (by simp) fun bytes => ?_)
    refine mem_turns (by simp) fun msg => indeterminate_turns (by simp) fun slack => ?_
    refine indeterminate_turns (by simp) fun padding => mem_turns (by simp) fun buf => ?_
    rw [Program.wp_bind]
    refine sendDataFrom_turns.mono fun t o ho => ?_
    cases o with
    | error e => exact ho
    | ok list => exact ho

theorem emptyQueueLoop_turns {fuel : ℕ} {queue : LinkedList QueueElement} :
    (emptyQueueLoop fd fuel queue).wp serverTurns .rest
      (Program.post (fun t _ => t = .rest) ServerTurn.Stop) := by
  induction fuel generalizing queue with
  | zero =>
    unfold emptyQueueLoop
    cases queue.head with
    | none => exact rfl
    | some a => trivial
  | succ fuel ih =>
    unfold emptyQueueLoop
    cases queue.head with
    | none => exact rfl
    | some a =>
      dsimp only
      refine mem_turns (by simp) fun first => mem_turns (by simp) fun node => ?_
      exact mem_turns (by simp) fun _ => exchange_turns (Or.inr ⟨rfl, rfl⟩) ih

/-- The type of an ID reply is the one that it is received with. -/
theorem idReply_replyType {svCl : CharArray serverHdrSize} {ret : Option (List Byte)}
    (h : (idReply svCl ret).getD 0 0 = 2) : replyType ret = 2 := by
  unfold replyType
  unfold idReply overlay at h
  cases hm : ret.getD [] with
  | nil =>
    rw [hm] at h
    cases h
  | cons b m =>
    rw [hm] at h
    exact h

theorem manageConnectionRequest_turns {sockfd : ℤ} :
    (manageConnectionRequest sockfd s).wp serverTurns .rest
      (Program.post (fun t _ => t = .rest) ServerTurn.Stop) := by
  unfold manageConnectionRequest
  rw [wp_accept]
  refine ⟨rfl, ?_⟩
  rintro ⟨newSockfd, cliAddr⟩ -
  refine dieCall_turns (t := .accepted newSockfd) ?_
  refine indeterminate_turns (by simp) fun svCl => ?_
  rw [wp_send]
  refine ⟨rfl, fun sent _ => dieCall_turns (t := .asked newSockfd) ?_⟩
  rw [wp_recv]
  refine ⟨rfl, fun ret _ => dieCall_turns (t := if replyType ret = 2 then _ else _) ?_⟩
  have hreply : ((idReply svCl ret).getD 0 0 != 2) = false → replyType ret = 2 :=
    fun h => idReply_replyType (bne_eq_false_iff_eq.mp h)
  refine dieType_turns hreply ?_
  refine mem_turns (by simp) fun old => ?_
  cases old with
  | none => exact printf_turns (by simp) (mem_turns (by simp) fun list => rfl)
  | some oldClient =>
    refine mem_turns (by simp) fun node => ?_
    dsimp only
    split_ifs
    · refine printf_turns (by simp) ?_
      rw [wp_send]
      refine ⟨rfl, fun _ _ => ?_⟩
      rw [wp_close]
      exact ⟨Or.inr rfl, fun _ _ => rfl⟩
    · refine printf_turns (by simp) ?_
      unfold emptyQueue
      rw [Program.wp_bind, Program.wp_bind]
      refine emptyQueueLoop_turns.mono fun t o ho => ?_
      cases o with
      | error e => exact ho
      | ok queue =>
        obtain rfl := ho
        exact mem_turns (by simp) fun list => rfl

theorem closeFrom_turns {list : LinkedList ClientStructure} {fuel : ℕ} {curr : Option Addr} :
    (closeFrom list fuel curr).wp serverTurns .rest
      (Program.post (fun t _ => t = .rest) ServerTurn.Stop) := by
  induction fuel generalizing curr with
  | zero =>
    cases curr with
    | none => exact rfl
    | some a => trivial
  | succ fuel ih =>
    cases curr with
    | none => exact rfl
    | some a =>
      unfold closeFrom
      refine mem_turns (by simp) fun node => indeterminate_turns (by simp) fun svCl => ?_
      rw [wp_send]
      refine ⟨rfl, fun _ _ => ?_⟩
      rw [wp_recv]
      refine ⟨rfl, fun ret _ => dieType_turns bne_eq_false_iff_eq.mp ?_⟩
      rw [wp_close]
      exact ⟨Or.inl rfl, fun _ _ => ih⟩

theorem stdinBranch_turns : (stdinBranch s).wp serverTurns .rest
    (Program.post (fun t _ => t = .rest) ServerTurn.Stop) := by
  unfold stdinBranch
  rw [wp_read]
  refine ⟨by simp [serverTurns, ServerTurn.Allowed], fun ret _ => ?_⟩
  refine dieCall_turns (t := .rest) ?_
  split_ifs
  · rw [Program.wp_bind]
    refine closeFrom_turns.mono fun t o ho => ?_
    cases o with
    | error e => exact ho
    | ok u => exact ho
  · exact rfl

/-- A command is taken, and its answer is owed. -/
theorem manageCommandFromClient_turns {i : ℤ} :
    (manageCommandFromClient i s).wp serverTurns .rest
      (Program.post (fun t _ => t = .owing i) ServerTurn.Stop) := by
  unfold manageCommandFromClient
  rw [wp_recv]
  refine ⟨rfl, fun ret _ => ?_⟩
  show Program.wp _ _ (ServerTurn.owing i) _
  dsimp only
  split_ifs
  · exact mem_turns (by simp) fun client => mem_turns (by simp) fun node =>
      mem_turns (by simp) fun topics => mem_turns (by simp) fun list => rfl
  · exact mem_turns (by simp) fun client => mem_turns (by simp) fun node =>
      mem_turns (by simp) fun topics => mem_turns (by simp) fun list => rfl
  · exact mem_turns (by simp) fun client => mem_turns (by simp) fun node =>
      printf_turns (by simp) (mem_turns (by simp) fun list => rfl)
  · exact rfl

theorem commandBranch_turns {i : ℤ} : (commandBranch i s).wp serverTurns .rest
    (Program.post (fun t _ => t = .rest) ServerTurn.Stop) := by
  unfold commandBranch
  rw [Program.wp_bind]
  refine manageCommandFromClient_turns.mono fun t o ho => ?_
  cases o with
  | error e => exact ho
  | ok r =>
    obtain rfl := ho
    refine indeterminate_turns (by simp) fun svCl => ?_
    rw [wp_send]
    refine ⟨rfl, fun sent _ => dieCall_turns (t := .rest) ?_⟩
    split_ifs
    · rw [wp_close]
      exact ⟨Or.inl rfl, fun _ _ => rfl⟩
    · exact rfl

/-- Between two bodies the server owes nothing. -/
def serverTurns_contract (k : Sockets) : (server k).Contract serverTurns where
  At t _ := t = .rest
  Stop := ServerTurn.Stop
  select h _ _ := h
  skip h _ _ := h
  done h _ := h
  body := by
    rintro t s tmp i rfl - -
    have hend : ∀ t (o : Except Halt ServerState),
        Program.post (fun t _ => t = .rest) ServerTurn.Stop t o →
        Program.andThen serverTurns (fun s => pure (s, Flow.next))
          (Program.post (fun t _ => t = .rest) ServerTurn.Stop) t o := by
      intro t o ho
      cases o with
      | error e => exact ho
      | ok s => exact ho
    show Program.wp _ (mainBody k s i) _ _
    unfold mainBody
    split_ifs
    · exact Program.wp_bind.mpr (manageConnectionRequest_turns.mono hend)
    · exact Program.wp_bind.mpr (udpBranch_turns.mono hend)
    · rw [Program.wp_bind]
      refine stdinBranch_turns.mono fun t o ho => ?_
      cases o with
      | error e => exact ho
      | ok flow => exact ho
    · exact Program.wp_bind.mpr (commandBranch_turns.mono hend)
  finish := by
    rintro t s rfl
    show Program.wp _ (close k.udp >>= fun _ => close k.tcp) _ _
    rw [wp_close]
    exact ⟨Or.inl rfl, fun _ _ => ⟨Or.inl rfl, fun _ _ => trivial⟩⟩

end Server

/-! ## The subscribers -/

/-- What a subscriber owes: it waits for the answer to a command, or holds a message that it has
not answered. -/
inductive ClientTurn
  | rest
  | waiting
  | holding
  deriving DecidableEq

namespace ClientTurn

def Allowed (sockfd : ℤ) (t : ClientTurn) : Call → Prop
  | .recv .getIdRequest fd _ => t = .rest ∧ fd = sockfd
  | .recv .getMessage fd _ => t = .rest ∧ fd = sockfd
  | .recv .getCommandAck fd _ => t = .waiting ∧ fd = sockfd
  | .recv .getExitAck fd _ => t = .waiting ∧ fd = sockfd
  | .recv .. => False
  | .send .putIdReply fd _ => t = .holding ∧ fd = sockfd
  | .send .putAck fd _ => t = .holding ∧ fd = sockfd
  | .send .putCommand fd buf => t = .rest ∧ fd = sockfd ∧ Command false buf
  | .send .putExit fd buf => t = .rest ∧ fd = sockfd ∧ Command true buf
  | .send .. => False
  | .accept _ => False
  | .recvfrom .. => False
  | _ => True

/-- The turn behind a call. -/
def next (t : ClientTurn) : (c : Call) → Answer c → ClientTurn
  | .recv .getIdRequest .., _ => .holding
  | .recv .getMessage .., _ => .holding
  | .recv .., _ => .rest
  | .send .putCommand .., _ => .waiting
  | .send .putExit .., _ => .waiting
  | .send .., _ => .rest
  | _, _ => t

/-- How many messages a subscriber has sent beyond those that it received. -/
def tally : ClientTurn → ℤ
  | .rest => 0
  | .waiting => 1
  | .holding => -1

end ClientTurn

/-- The turns of a subscriber, whatever it is answered. -/
def clientTurns (sockfd : ℤ) : Protocol Sys ClientTurn where
  Allowed := ClientTurn.Allowed sockfd
  Expected _ _ _ := True
  next := ClientTurn.next

section Client

variable {sockfd : ℤ} {s : SubscriberState} {t : ClientTurn}

theorem mem_client {α β : Type} {e : Except Fault α} {f : α → Proc β} {Q : ClientTurn → β → Prop}
    (h : ∀ a, (f a).wp (clientTurns sockfd) t (Program.post Q fun _ _ => True)) :
    (mem e >>= f).wp (clientTurns sockfd) t (Program.post Q fun _ _ => True) :=
  wp_mem.mpr ⟨fun _ _ => trivial, fun a _ => h a⟩

theorem die_client {β : Type} {b : Bool} {e : Halt} {f : Unit → Proc β} {Q : ClientTurn → β → Prop}
    (h : (f ()).wp (clientTurns sockfd) t (Program.post Q fun _ _ => True)) :
    (Program.failIf b e >>= f).wp (clientTurns sockfd) t (Program.post Q fun _ _ => True) := by
  cases b with
  | true => trivial
  | false => exact h

theorem subscriberStart_turns {id : List Byte} :
    (subscriberStart id sockfd).wp (clientTurns sockfd) .rest
      (Program.post (fun t _ => t = .rest) fun _ _ => True) := by
  unfold subscriberStart manageId
  rw [wp_indeterminate]
  refine ⟨trivial, fun clsHdr _ => ?_⟩
  rw [wp_indeterminate]
  refine ⟨trivial, fun sf _ => ?_⟩
  simp only [LawfulMonad.bind_assoc]
  rw [wp_recv]
  refine ⟨⟨rfl, rfl⟩, fun ret _ => die_client (die_client ?_)⟩
  rw [wp_indeterminate]
  refine ⟨trivial, fun clSv _ => ?_⟩
  rw [wp_indeterminate]
  refine ⟨trivial, fun idTail _ => ?_⟩
  rw [wp_send]
  exact ⟨⟨rfl, rfl⟩, fun sent _ => die_client rfl⟩

/-- A command and its answer. -/
theorem command_turns {β : Type} {m : List Byte} {f : Proc β} {Q : ClientTurn → β → Prop}
    (hm : Command false m)
    (hf : f.wp (clientTurns sockfd) .rest (Program.post Q fun _ _ => True)) :
    (do
      let _ ← send .putCommand sockfd m
      let ret ← recv .getCommandAck sockfd (serverHdrSize + 1)
      dieType ((ret.getD []).getD 0 0 != 6) lackAck
      f : Proc β).wp (clientTurns sockfd) .rest (Program.post Q fun _ _ => True) := by
  rw [wp_send]
  refine ⟨⟨rfl, rfl, hm⟩, fun sent _ => ?_⟩
  rw [wp_recv]
  exact ⟨⟨rfl, rfl⟩, fun ret _ => die_client hf⟩

theorem exitBranch_turns {α : Type} {Q : ClientTurn → α → Prop} :
    (exitBranch sockfd : Proc α).wp (clientTurns sockfd) .rest
      (Program.post Q fun _ _ => True) := by
  unfold exitBranch
  rw [wp_indeterminate]
  refine ⟨trivial, fun clSv _ => ?_⟩
  have hcommand : Command true (3 :: clSv.bytes.drop 1) := by
    refine ⟨?_, rfl⟩
    rw [List.length_cons, List.length_drop, clSv.length_eq]
    rfl
  rw [wp_send]
  refine ⟨⟨rfl, rfl, hcommand⟩, fun sent _ => die_client ?_⟩
  rw [wp_recv]
  refine ⟨⟨rfl, rfl⟩, fun ret _ => die_client (die_client ?_)⟩
  rw [wp_close]
  exact ⟨trivial, fun _ _ => trivial⟩

theorem processSubscribe_turns {buffer : List Byte} {command : CharArray commandLen} :
    (processSubscribe sockfd buffer command s).wp (clientTurns sockfd) .rest
      (Program.post (fun t _ => t = .rest) fun _ _ => True) := by
  unfold processSubscribe
  exact mem_client fun topic => command_turns (command_encode (Or.inl rfl)) rfl

theorem processUnsubscribe_turns {buffer : List Byte} {command : CharArray commandLen} :
    (processUnsubscribe sockfd buffer command s).wp (clientTurns sockfd) .rest
      (Program.post (fun t _ => t = .rest) fun _ _ => True) := by
  unfold processUnsubscribe
  exact mem_client fun topic => command_turns (command_encode (Or.inr rfl)) rfl

theorem lineBranch_turns : (lineBranch sockfd s).wp (clientTurns sockfd) .rest
    (Program.post (fun t _ => t = .rest) fun _ _ => True) := by
  refine wp_lineBranch trivial fun ret _ => ⟨fun _ => trivial, fun _ => trivial,
    fun buffer command => ?_⟩
  show Program.wp _ _ ClientTurn.rest _
  split_ifs
  · rw [Program.wp_bind]
    refine processSubscribe_turns.mono fun t o ho => ?_
    cases o with
    | error e => exact ho
    | ok s => exact ⟨trivial, fun _ _ => ho⟩
  · rw [Program.wp_bind]
    refine processUnsubscribe_turns.mono fun t o ho => ?_
    cases o with
    | error e => exact ho
    | ok s => exact ⟨trivial, fun _ _ => ho⟩
  · exact exitBranch_turns
  · exact ⟨trivial, fun _ _ => rfl⟩

theorem displayMessage_turns {buffer : List Byte} {svCl : ServerToClientHdr} :
    (displayMessage buffer svCl).wp (clientTurns sockfd) t
      (Program.post (fun t' _ => t' = t) fun _ _ => True) := by
  unfold displayMessage
  split_ifs
  · exact mem_client fun payload => ⟨trivial, fun slack _ => ⟨trivial, fun _ _ => rfl⟩⟩
  · exact rfl

theorem messageBranch_turns : (messageBranch sockfd s).wp (clientTurns sockfd) .rest
    (Program.post (fun t _ => t = .rest) fun _ _ => True) := by
  unfold messageBranch
  rw [wp_recv]
  refine ⟨⟨rfl, rfl⟩, fun ret _ => die_client ?_⟩
  show Program.wp _ _ ClientTurn.holding _
  dsimp only
  rw [Program.wp_bind]
  refine displayMessage_turns.mono fun t o ho => ?_
  cases o with
  | error e => exact ho
  | ok u =>
    obtain rfl := ho
    rw [Program.andThen_ok]
    unfold ackMessage
    rw [LawfulMonad.bind_assoc, wp_send]
    refine ⟨⟨rfl, rfl⟩, fun sent _ => ?_⟩
    cases sent with
    | true => exact rfl
    | false => trivial

/-- Between two bodies a subscriber owes nothing. -/
def clientTurns_contract (sockfd : ℤ) : (subscriber sockfd).Contract (clientTurns sockfd) where
  At t _ := t = .rest
  Stop _ _ := True
  select h _ _ := h
  skip h _ _ := h
  done h _ := h
  body := by
    rintro t s tmp i rfl - -
    show Program.wp _ (subscriberBody sockfd s i) _ _
    unfold subscriberBody
    split_ifs
    · rw [Program.wp_bind]
      refine lineBranch_turns.mono fun t o ho => ?_
      cases o with
      | error e => exact ho
      | ok s => exact ho
    · refine messageBranch_turns.mono fun t o ho => ?_
      cases o with
      | error e => exact ho
      | ok r => exact ho
    · exact rfl
  finish _ := ⟨trivial, fun _ _ => trivial⟩

end Client

end TopicServer
