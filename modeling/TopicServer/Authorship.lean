import TopicServer.History
import TopicServer.InFlight
import TopicServer.Typing

/-!
# What subscribers send

However the system runs, what lies on the way to the server carries the ID of its subscriber, if it
is an ID reply, and has the topic of a line that was typed there, if it is a subscribe command
(`LoggedRun.authored`).
-/

namespace TopicServer

open Interactive Memory

/-! ## What was typed -/

/-- A line that asks for a topic: its first word begins with `subscribe`, and the topic is the word
that is found behind as many bytes of the line as its first word has. -/
def AsksFor (line topic : List Byte) : Prop :=
  subscribeWord <+: commandWord line ∧ FirstWord (behindCommand line) topic

/-- A subscribe command has the topic of a line, or the empty one. -/
def Worded (lines : List (List Byte)) (m : List Byte) : Prop :=
  (commandHdr (some m)).type = 0 → (commandHdr (some m)).topic.str = [] ∨
    ∃ line ∈ lines, AsksFor line (commandHdr (some m)).topic.str

section Lines

variable {sockfd fd i : ℤ} {s : SubscriberState} {line buf id : List Byte}
  {done evs : List (Event Sys)} {lines : List (List Byte)}

theorem Worded.mono {m : List Byte} {lines' : List (List Byte)} (h : Worded lines m)
    (hsub : lines ⊆ lines') : Worded lines' m := by
  intro h0
  refine (h h0).imp_right ?_
  rintro ⟨line, hline, hasks⟩
  exact ⟨line, hsub hline, hasks⟩

/-- The command that is sent for a line has the topic of the line. -/
theorem worded_of_line (h : buf ∈ lineSent s line) (hline : line ∈ lines) : Worded lines buf := by
  intro h0
  by_cases hfit : TokensFit line
  · have hseen : seenCommand buf ∈ (lineSent s line).map seenCommand := List.mem_map_of_mem h
    rw [lineSent_seen hfit] at hseen
    split_ifs at hseen with hsub
    · have htopic : (commandHdr (some buf)).topic.str =
          (scanString (behindCommand line)).getD [] :=
        congrArg (fun x => x.2.1) (List.mem_singleton.mp hseen)
      cases hscan : scanString (behindCommand line) with
      | none =>
        rw [hscan] at htopic
        exact Or.inl htopic
      | some word =>
        rw [hscan] at htopic
        have hword : (commandHdr (some buf)).topic.str = word := htopic
        rw [hword]
        exact Or.inr ⟨line, hline, hsub, scanString_eq_some.mp hscan⟩
    · have htype : (commandHdr (some buf)).type = 1 :=
        congrArg Prod.fst (List.mem_singleton.mp hseen)
      rw [htype] at h0
      exact absurd h0 (by decide)
    · cases hseen
  · rw [lineSent_unfit hfit] at h
    cases h

/-- The body that is about to send a command has read the line of it. -/
theorem subscriberBody_asks {kont : Bool → Proc (SubscriberState × Flow)}
    (h : (subscriberBody sockfd s i).Leads done (.call (.send .putCommand fd buf) kont)) :
    ∃ line ∈ inputs done, buf ∈ lineSent s line := by
  -- the body with some end
  obtain ⟨es, o, he⟩ : ∃ es o, (kont true).Exec es o := ⟨_, _, Program.exec_play
    (fun _ => script [] []) (kont true) 0⟩
  have hrest : (Program.call (Call.send .putCommand fd buf) kont : Proc _).Exec
      (⟨.send .putCommand fd buf, true⟩ :: es) o := ⟨true, es, rfl, he⟩
  have hexec := h.exec hrest
  have hsent : buf ∈ commandsSent (done ++ ⟨.send .putCommand fd buf, true⟩ :: es) := by
    rw [commandsSent_append]
    exact List.mem_append_right _ List.mem_cons_self
  unfold subscriberBody at h hexec
  split_ifs at h hexec with h0 hsock
  · obtain ⟨o', hline⟩ : ∃ o', (lineBranch sockfd s).Exec
        (done ++ ⟨.send .putCommand fd buf, true⟩ :: es) o' := by
      rw [Program.exec_bind] at hexec
      rcases hexec with ⟨e, hline, -⟩ | ⟨es, es', s', hes, hline, rfl, -⟩
      · exact ⟨_, hline⟩
      · rw [hes, List.append_nil]
        exact ⟨_, hline⟩
    obtain ⟨ret, rest, hevs, -⟩ := lineBranch_input hline
    cases done with
    | nil => cases hevs
    | cons e done =>
      cases hevs
      cases ret with
      | none =>
        -- without a line nothing is sent
        unfold lineBranch readFirstParameter at hline
        rw [LawfulMonad.bind_assoc, exec_read] at hline
        obtain ⟨ret, rest, heq, hline⟩ := hline
        cases heq
        rw [LawfulMonad.bind_assoc, exec_dieCall] at hline
        rcases hline with ⟨-, hnil, -⟩ | ⟨hsome, -⟩
        · simp at hnil
        · cases hsome
      | some line =>
        refine ⟨line, List.mem_cons_self, ?_⟩
        rw [← lineBranch_sent hline]
        exact hsent
  · have hquiet : (messageBranch sockfd s).Calls fun c => quiet c = true :=
      messageBranch_calls rfl rfl (fun _ => rfl) fun _ => rfl
    cases (hquiet.leads h).1
  · cases h

theorem subscriberStart_quiet : (subscriberStart id sockfd).Calls fun c => quiet c = true := by
  unfold subscriberStart
  refine calls_ask rfl fun clsHdr => calls_ask rfl fun sf => ?_
  refine Program.Calls.bind ?_ fun _ => trivial
  unfold manageId
  refine calls_ask rfl fun ret => calls_die (calls_die ?_)
  refine calls_ask rfl fun clSv => calls_ask rfl fun idTail => ?_
  refine calls_ask rfl fun sent => ?_
  cases sent <;> trivial

/-- A subscriber that is about to send a command has read the line of it. -/
theorem worded_of_ask {P : Protocol Sys Unit} {g₀ g : Unit}
    {hs : List (Handled Sys SubscriberState)}
    {p : Phase Sys Halt SubscriberState}
    {next : Bool → Phase Sys Halt SubscriberState × List (Handled Sys SubscriberState)}
    (h : Phase.Tracks (subscriber sockfd) P g₀ (subscriberStart id sockfd) g hs evs p)
    (hask : (subscriber sockfd).ask p = some ⟨.send .putCommand fd buf, next⟩) :
    Worded (inputs evs) buf := by
  unfold SelectLoop.ask at hask
  split at hask
  · cases hask
    cases h with
    | starting hlead => cases (subscriberStart_quiet.leads hlead).1
  · cases hask
    cases h with
    | running _ _ _ hlead =>
      obtain ⟨line, hline, hsent⟩ := subscriberBody_asks hlead
      refine worded_of_line hsent ?_
      rw [inputs_append]
      exact List.mem_append_right _ hline
  · cases hask
    cases h with
    | finishing _ hlead =>
      have hquiet : (close sockfd).Calls fun c => quiet c = true := ⟨rfl, fun _ => trivial⟩
      cases (hquiet.leads hlead).1
  · cases hask

end Lines

/-! ## The messages of a subscriber -/

/-- A message of a subscriber with the ID `key` at which the lines were typed. -/
structure Authored (lines : List (List Byte)) (key m : List Byte) : Prop where
  length : m.length ≤ clientHdrSize + idLen
  reply : msgType m = 2 → IdReply key m
  command : Worded lines m

/-- What is sent for another message has a type of its own. -/
def Answering (key : List Byte) : Call → Prop
  | .send .putIdReply _ buf => IdReply key buf
  | .send .putAck _ buf => buf.length = clientHdrSize + 1 ∧ msgType buf = 4
  | _ => True

section Messages

variable {sockfd fd i : ℤ} {s : SubscriberState} {key id buf m : List Byte}
  {evs : List (Event Sys)} {lines lines' : List (List Byte)}

theorem Authored.mono (h : Authored lines key m) (hsub : lines ⊆ lines') :
    Authored lines' key m :=
  ⟨h.length, h.reply, h.command.mono hsub⟩

/-- A message of another type than 0 and 2 says nothing. -/
theorem authored_of_type (hlen : m.length ≤ clientHdrSize + idLen) (h0 : msgType m ≠ 0)
    (h2 : msgType m ≠ 2) : Authored lines key m := by
  refine ⟨hlen, fun h => absurd h h2, fun h => ?_⟩
  rw [commandHdr_type] at h
  exact absurd h h0

theorem subscriberStart_answering (h0 : 0 ∉ id) :
    (subscriberStart id sockfd).Calls (Answering (id.take idLen)) := by
  unfold subscriberStart
  refine calls_ask trivial fun clsHdr => calls_ask trivial fun sf => ?_
  refine Program.Calls.bind ?_ fun _ => trivial
  unfold manageId
  refine calls_ask trivial fun ret => calls_die (calls_die ?_)
  refine calls_ask trivial fun clSv => calls_ask trivial fun idTail => ?_
  refine calls_ask (idReply_of_id h0) fun sent => ?_
  cases sent <;> trivial

theorem subscriberBody_answering : (subscriberBody sockfd s i).Calls (Answering key) := by
  unfold subscriberBody
  split_ifs
  · refine Program.Calls.bind ?_ fun _ => trivial
    obtain ⟨rest, hline, hrest⟩ : ∃ rest, lineBranch sockfd s = .call (.read 0 buflen) rest ∧
      ∀ ret, (rest ret).Calls LineCall := lineBranch_calls
    rw [hline]
    refine ⟨trivial, fun ret => (hrest ret).mono fun c hc => ?_⟩
    cases c with
    | send site fd buf =>
      have hsite : site = .putCommand ∨ site = .putExit := hc
      rcases hsite with rfl | rfl <;> trivial
    | _ => trivial
  · unfold messageBranch
    refine calls_ask trivial fun ret => calls_die ?_
    refine (displayMessage_calls trivial fun _ => trivial).bind fun _ => ?_
    refine Program.Calls.bind ?_ fun _ => trivial
    refine calls_ask ⟨?_, rfl⟩ fun _ => calls_die trivial
    rw [List.length_append, ClientToServerHdr.length_encode]
    rfl
  · trivial

/-- Whatever a subscriber is about to send is a message of its own. -/
theorem authored_of_ask {P : Protocol Sys Unit} {g₀ g : Unit}
    {hs : List (Handled Sys SubscriberState)} {p : Phase Sys Halt SubscriberState} {site : Site}
    {next : Bool → Phase Sys Halt SubscriberState × List (Handled Sys SubscriberState)}
    (h : Phase.Tracks (subscriber sockfd) P g₀ (subscriberStart id sockfd) g hs evs p)
    (h0 : 0 ∉ id) (hask : (subscriber sockfd).ask p = some ⟨.send site fd buf, next⟩) :
    Authored (inputs evs) (id.take idLen) buf := by
  have hsafe : Phase.Safe (clientTurns_contract sockfd) _ p :=
    h.safe (fun _ _ _ => trivial) subscriberStart_turns
  have hturn := (hsafe.ask hask).1
  have hfinish : ∀ s, ((subscriber sockfd).finish s).Calls (Answering (id.take idLen)) :=
    fun _ => calls_ask trivial fun _ => trivial
  have hanswer : Answering (id.take idLen) (.send site fd buf) :=
    h.asks (subscriberStart_answering h0) (fun _ => subscriberBody_answering) hfinish hask
  cases site with
  | putIdReply =>
    have hreply : IdReply (id.take idLen) buf := hanswer
    refine ⟨hreply.length.le, fun _ => hreply, fun hc => ?_⟩
    rw [commandHdr_type, Option.getD_some, hreply.type] at hc
    exact absurd hc (by decide)
  | putAck =>
    have htype : msgType buf = 4 := hanswer.2
    refine authored_of_type ?_ (by rw [htype]; decide) (by rw [htype]; decide)
    rw [hanswer.1]
    decide
  | putCommand =>
    have hcommand : Command false buf := hturn.2.2
    refine ⟨?_, fun h2 => ?_, worded_of_ask h hask⟩
    · rw [hcommand.length]
      decide
    · rcases hcommand.type with ht | ht
      · rw [ht] at h2
        exact absurd h2 (by decide)
      · rw [ht] at h2
        exact absurd h2 (by decide)
  | putExit =>
    have hcommand : Command true buf := hturn.2.2
    have htype : msgType buf = 3 := hcommand.type
    refine authored_of_type ?_ (by rw [htype]; decide) (by rw [htype]; decide)
    rw [hcommand.length]
    decide
  | _ => exact (show False from hturn).elim

end Messages

/-! ## The way to the server -/

section Way

variable {k : Sockets} {C : Config → Action → Prop} {cfg : Config} {log : List Entry} {n : ℕ}
  {p p' : Peer}

theorem AnswerCase.toServer {c : Call} {r : Answer c} (h : AnswerCase p c r p') :
    p'.id = p.id ∧ p'.toServer ⊆ p.toServer := by
  cases h with
  | recv hconn hqueue =>
    refine ⟨rfl, ?_⟩
    rw [hqueue]
    exact List.subset_cons_self _ _
  | _ => exact ⟨rfl, List.Subset.refl _⟩

theorem Peer.answer_toServer {shut : Bool} {inputs : (c : Call) → Answer c} {c : Call}
    {r : Answer c} (h : p.answer shut inputs c = some (r, p')) : p'.toServer = p.toServer ∨
      ∃ site fd buf, c = .send site fd buf ∧ p'.toServer = p.toServer ++ [buf] := by
  cases c with
  | send site fd buf =>
    simp only [Peer.answer] at h
    split_ifs at h
    · cases h
      exact Or.inr ⟨site, fd, buf, rfl, rfl⟩
    · cases h
      exact Or.inl rfl
  | recv site fd len =>
    left
    by_cases hfd : fd = p.sockfd
    · simp only [Peer.answer, if_pos hfd] at h
      split at h
      · cases h
        rfl
      · split_ifs at h
        cases h
        rfl
    · simp only [Peer.answer, if_neg hfd] at h
      cases h
      rfl
  | read fd len =>
    obtain ⟨line, -, heq⟩ := Option.map_eq_some_iff.mp h
    cases heq
    exact Or.inl rfl
  | close fd =>
    cases h
    exact Or.inl rfl
  | printf line =>
    cases h
    exact Or.inl rfl
  | indeterminate m =>
    cases h
    exact Or.inl rfl
  | _ => cases h

/-- The messages on the way from a subscriber are its own. -/
def Underway (log : List Entry) (n : ℕ) (p : Peer) : Prop :=
  0 ∉ p.id ∧ ∀ m ∈ p.toServer, Authored (inputs (callsOf (some n) log)) p.key m

theorem Underway.congr {es : List Entry} (h : Underway log n p) (hid : p'.id = p.id)
    (hsub : p'.toServer ⊆ p.toServer) : Underway (log ++ es) n p' := by
  refine ⟨hid ▸ h.1, fun m hm => ?_⟩
  have hkey : p'.key = p.key := congrArg (List.take idLen) hid
  rw [hkey, callsOf_append, inputs_append]
  exact (h.2 m (hsub hm)).mono (List.subset_append_left _ _)

/-- However the system runs, the messages on the way to the server are those of their
subscribers. -/
theorem LoggedRun.authored (h : LoggedRun k C cfg log) (hp : cfg.peers n = some p) :
    Underway log n p := by
  induction h generalizing p with
  | init => cases hp
  | @step cfg cfg' a log hrun _ hstep ih =>
    have hcases := step_cases hstep
    generalize cfg.entries k a = es at hcases
    -- one subscriber moves
    have hmove : ∀ {i : ℕ} {q : Peer}, Function.update cfg.peers i (some q) n = some p →
        (n = i → Underway (log ++ es) n q) → Underway (log ++ es) n p := by
      intro i q hp hself
      by_cases hi : n = i
      · rw [hi, Function.update_self] at hp
        cases hp
        exact hself hi
      · rw [Function.update_of_ne hi] at hp
        exact (ih hp).congr rfl (List.Subset.refl _)
    cases hcases with
    | connect _ h0 => exact hmove hp fun _ => ⟨h0, fun m hm => (by cases hm)⟩
    | serverWake => exact (ih hp).congr rfl (List.Subset.refl _)
    | serverAdvance => exact (ih hp).congr rfl (List.Subset.refl _)
    | serverCall hask hanswer =>
      have hpeer := answer_peer hanswer n
      cases hq : cfg.peers n with
      | none =>
        rw [hq, show _ = some p from hp] at hpeer
        cases hpeer
      | some q =>
        obtain ⟨q', hq', hcase⟩ := answer_cases hrun.plugged hanswer hq
        obtain rfl : q' = p := Option.some.inj (hq'.symm.trans hp)
        exact (ih hq).congr hcase.toServer.1 hcase.toServer.2
    | peerWake hq =>
      refine hmove hp fun hi => ?_
      subst hi
      have hunder := ih hq
      exact hunder.congr rfl (List.Subset.refl _)
    | peerAdvance hq =>
      refine hmove hp fun hi => ?_
      subst hi
      have hunder := ih hq
      exact hunder.congr rfl (List.Subset.refl _)
    | @peerCall i q inputs' c next r q' hq hask hanswer =>
      refine hmove hp fun hi => ?_
      subst hi
      obtain ⟨hid, -, -⟩ := Peer.answer_kept hanswer
      rcases Peer.answer_toServer hanswer with hsame | ⟨site, fd, buf, rfl, hsent⟩
      · exact (ih hq).congr hid (by rw [← hsame]; exact List.Subset.refl _)
      have hkept : Underway (log ++ [⟨some n, none, ⟨.send site fd buf, r⟩⟩]) n
          { q with phase := (next r).1 } := (ih hq).congr rfl (List.Subset.refl _)
      refine ⟨hid ▸ (ih hq).1, fun m hm => ?_⟩
      have hkey : Peer.key { q' with phase := (next r).1 } = q.key :=
        congrArg (List.take idLen) hid
      have hm : m ∈ q'.toServer := hm
      rw [hsent, List.mem_append, List.mem_singleton] at hm
      rw [hkey]
      rcases hm with hm | rfl
      · exact hkept.2 m hm
      · obtain ⟨hs, htracks⟩ := hrun.subscriber hq
        rw [callsOf_append, inputs_append]
        exact (authored_of_ask htracks (ih hq).1 hask).mono (List.subset_append_left _ _)

end Way

end TopicServer
