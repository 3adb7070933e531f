import TopicServer.Agreement
import TopicServer.Display
import TopicServer.Outgoing
import TopicServer.Screen

/-!
# From the server to the screen

What the server sends to a subscriber is, at any time, what the subscriber took from its connection
followed by what is still on it (`Conveys`). The data frames that it took are displayed in their
order, each once, up to the last one (`delivered`); behind the last message only the end of the
stream is displayed. What a line on the screen shows is the value of the datagram
(`displayed_published`). A subscriber leaves its memory only at a line whose words do not fit, at a
string without a NUL, and at the end of the stream (`subscriber_faults`).
-/

namespace TopicServer

open Interactive Memory

/-- A message received for display is the one that was sent. -/
def TakenAs (a : Site × List Byte) (m : List Byte) : Prop := a.1 = .getMessage → a.2 = m

/-- What the server sent to a subscriber is what was taken and what is on the connection. What
arrived for the screen are the data frames that were taken; the end of the stream is read only
behind the last one. -/
def Conveys (cfg : Config) (n : ℕ) (log : List Entry) : Option Peer → Prop
  | none => messagesTo n log = []
  | some p => ∃ got j, messagesTo n log = got ++ p.toClient ∧
      List.Forall₂ TakenAs (arrivals (callsOf (some n) log))
        (got.filter isData ++ List.replicate j []) ∧
      (j ≠ 0 → cfg.shut p = true ∧ p.toClient = [])

/-- The subscriber has room for every message, and for a whole one where it displays it. -/
def Sized : Call → Prop
  | .recv site _ len => 0 < len ∧ (site = .getMessage → len = buflen)
  | _ => True

/-! ## The calls of a subscriber -/

section Subscriber

variable {sockfd : ℤ} {s : SubscriberState}

theorem subscriberBody_sized {i : ℤ} : (subscriberBody sockfd s i).Calls Sized := by
  unfold subscriberBody
  split_ifs
  · refine Program.Calls.bind ?_ fun _ => trivial
    obtain ⟨rest, hline, hrest⟩ : ∃ rest, lineBranch sockfd s = .call (.read 0 buflen) rest ∧
      ∀ ret, (rest ret).Calls LineCall := lineBranch_calls
    rw [hline]
    refine ⟨trivial, fun ret => (hrest ret).mono fun c hc => ?_⟩
    cases c with
    | recv site fd len =>
      cases site with
      | getCommandAck =>
        obtain rfl : len = serverHdrSize + 1 := hc
        exact ⟨by decide, fun h => by cases h⟩
      | getExitAck =>
        obtain rfl : len = buflen := hc
        exact ⟨by decide, fun h => by cases h⟩
      | _ => cases hc
    | _ => trivial
  · exact messageBranch_calls ⟨by decide, fun _ => rfl⟩ trivial (fun _ => trivial) fun _ => trivial
  · trivial

theorem subscriberStart_sized {id : List Byte} : (subscriberStart id sockfd).Calls Sized := by
  unfold subscriberStart
  refine calls_ask trivial fun clsHdr => calls_ask trivial fun sf => ?_
  refine Program.Calls.bind ?_ fun _ => trivial
  unfold manageId
  refine calls_ask ⟨by decide, fun h => by cases h⟩ fun ret => calls_die (calls_die ?_)
  refine calls_ask trivial fun clSv => calls_ask trivial fun idTail => ?_
  refine calls_ask trivial fun sent => ?_
  cases sent <;> trivial

end Subscriber

/-! ## One message taken -/

section Taken

variable {p p' : Peer} {m : List Byte} {len : ℕ}

theorem msgType_take_pos (h : 0 < len) (m : List Byte) : msgType (m.take len) = msgType m := by
  unfold msgType
  rw [List.getD_eq_getElem?_getD, List.getElem?_take_of_lt h, ← List.getD_eq_getElem?_getD]

/-- A message that is taken arrives as itself, if it is data. -/
theorem arrivals_taken {site : Site} {fd : ℤ} (hm : WellFramed m) (hlen : 0 < len)
    (hwhole : site = .getMessage → len = buflen) :
    List.Forall₂ TakenAs (arrivals [⟨.recv site fd len, some (m.take len)⟩])
      ([m].filter isData) := by
  have hne : m.take len ≠ [] := fun h =>
    (List.take_eq_nil_iff.mp h).elim (fun h0 => absurd h0 (by omega)) hm.ne_nil
  by_cases ht : msgType m ≤ 3
  · have harr : arrivals [⟨.recv site fd len, some (m.take len)⟩] = [(site, m.take len)] :=
      List.filterMap_cons_some (if_pos ⟨by rwa [msgType_take_pos hlen], Or.inl hne⟩)
    have hdata : isData m = true := decide_eq_true ⟨hm.ne_nil, ht⟩
    rw [harr, List.filter_singleton, hdata]
    refine .cons (fun hsite => ?_) .nil
    rw [hwhole hsite]
    exact List.take_of_length_le hm.length_le
  · have harr : arrivals [⟨.recv site fd len, some (m.take len)⟩] = [] :=
      List.filterMap_cons_none (if_neg fun hc => ht (by rw [← msgType_take_pos hlen]; exact hc.1))
    have hdata : isData m = false := decide_eq_false fun hd => ht hd.2
    rw [harr, List.filter_singleton, hdata]
    exact .nil

/-- A call of a subscriber takes the next message, or reads the end of a stream that is closed and
empty. -/
theorem Peer.answer_taken {shut : Bool} {inputs : (c : Call) → Answer c} {c : Call} {r : Answer c}
    (hanswer : p.answer shut inputs c = some (r, p')) (hsized : Sized c)
    (hp : ∀ m ∈ p.toClient, WellFramed m) :
    ∃ taken j, p.toClient = taken ++ p'.toClient ∧
      List.Forall₂ TakenAs (arrivals [⟨c, r⟩]) (taken.filter isData ++ List.replicate j []) ∧
      (j ≠ 0 → shut = true ∧ p.toClient = []) := by
  have hquiet : p'.toClient = p.toClient → arrivals [⟨c, r⟩] = [] →
      ∃ taken j, p.toClient = taken ++ p'.toClient ∧
        List.Forall₂ TakenAs (arrivals [⟨c, r⟩]) (taken.filter isData ++ List.replicate j []) ∧
        (j ≠ 0 → shut = true ∧ p.toClient = []) := by
    intro hsame harr
    refine ⟨[], 0, hsame.symm, ?_, fun h => absurd rfl h⟩
    rw [harr]
    exact .nil
  cases c with
  | send site fd buf =>
    simp only [Peer.answer] at hanswer
    split_ifs at hanswer
    · cases hanswer
      exact hquiet rfl rfl
    · cases hanswer
      exact hquiet rfl rfl
  | recv site fd len =>
    by_cases hfd : fd = p.sockfd
    · simp only [Peer.answer, if_pos hfd] at hanswer
      cases hq : p.toClient with
      | cons m rest =>
        simp only [hq] at hanswer
        cases hanswer
        rw [hq, List.forall_mem_cons] at hp
        refine ⟨[m], 0, rfl, ?_, fun h => absurd rfl h⟩
        rw [List.replicate_zero, List.append_nil]
        exact arrivals_taken hp.1 hsized.1 hsized.2
      | nil =>
        simp only [hq] at hanswer
        split_ifs at hanswer with hshut
        cases hanswer
        by_cases hsite : site = .getMessage
        · refine ⟨[], 1, hq.symm, ?_, fun _ => ⟨hshut, rfl⟩⟩
          have harr : arrivals [⟨.recv site fd len, some []⟩] = [(site, [])] :=
            List.filterMap_cons_some (if_pos ⟨by decide, Or.inr hsite⟩)
          rw [harr]
          exact .cons (fun _ => rfl) .nil
        · have harr : arrivals [⟨.recv site fd len, some []⟩] = [] :=
            List.filterMap_cons_none (if_neg fun hc => hc.2.elim (fun h => h rfl) hsite)
          refine ⟨[], 0, hq.symm, ?_, fun h => absurd rfl h⟩
          rw [harr]
          exact .nil
    · simp only [Peer.answer, if_neg hfd] at hanswer
      cases hanswer
      exact hquiet rfl rfl
  | read fd len =>
    obtain ⟨line, -, heq⟩ := Option.map_eq_some_iff.mp hanswer
    cases heq
    exact hquiet rfl rfl
  | close fd =>
    cases hanswer
    exact hquiet rfl rfl
  | printf line =>
    cases hanswer
    exact hquiet rfl rfl
  | indeterminate m =>
    cases hanswer
    exact hquiet rfl rfl
  | _ => cases hanswer

end Taken

/-! ## One message sent -/

section Sent

variable {k : Sockets} {cfg cfg₁ : Config} {n : ℕ} {p : Peer}

/-- A call of the server puts what it sends on the connection, which is not closed. -/
theorem answer_sent (hplug : Plugged cfg) {inputs : (c : Call) → Answer c} {c : Call} {r : Answer c}
    (hanswer : cfg.answer inputs c = some (r, cfg₁)) (hp : cfg.peers n = some p) :
    ∃ p', cfg₁.peers n = some p' ∧
      p'.toClient = p.toClient ++
        messagesTo n [⟨none, (connectionOf c).bind cfg.fds, ⟨c, r⟩⟩] ∧
      (p.conn = .closed → p'.conn = .closed ∧ p'.toClient = p.toClient) := by
  obtain ⟨p', hp', hcase⟩ := answer_cases hplug hanswer hp
  have hquiet : ∀ {c : Call} {r : Answer c}, (∀ site fd buf, c ≠ .send site fd buf) →
      p.toClient =
        p.toClient ++ messagesTo n [⟨none, (connectionOf c).bind cfg.fds, ⟨c, r⟩⟩] := by
    intro c r hc
    rw [messagesTo_other hc, List.append_nil]
  refine ⟨p', hp', ?_⟩
  cases hcase with
  | accept hpend =>
    refine ⟨hquiet (by simp), fun hc => ?_⟩
    rw [hpend] at hc
    cases hc
  | @send site fd buf hconn =>
    have hpeer : (connectionOf (.send site fd buf)).bind cfg.fds = some n :=
      (hplug.fds n p fd hp).mp hconn
    refine ⟨?_, fun hc => ?_⟩
    · rw [messagesTo_send, if_pos hpeer]
    · rw [hconn] at hc
      cases hc
  | recv => exact ⟨hquiet (by simp), fun hc => ⟨hc, rfl⟩⟩
  | stream => exact ⟨hquiet (by simp), fun hc => ⟨hc, rfl⟩⟩
  | close => exact ⟨hquiet (by simp), fun _ => ⟨rfl, rfl⟩⟩
  | other hno =>
    refine ⟨?_, fun hc => ⟨hc, rfl⟩⟩
    cases c with
    | send site fd buf =>
      rw [messagesTo_send, if_neg, List.append_nil]
      exact fun hfd => hno fd (Or.inl rfl) ((hplug.fds n p fd hp).mpr hfd)
    | _ => exact hquiet (by simp)

end Sent

/-! ## Runs -/

section Runs

variable {k : Sockets} {C : Config → Action → Prop} {cfg cfg' : Config} {log : List Entry} {n : ℕ}
  {p p' : Peer}

/-- A step that leaves the subscriber, its connection and its calls alone. -/
theorem Conveys.congr {es : List Entry} (h : Conveys cfg n log (some p))
    (hpeer : p'.toClient = p.toClient) (hsent : messagesTo n es = [])
    (hcalls : callsOf (some n) es = []) (hshut : cfg.shut p = true → cfg'.shut p' = true) :
    Conveys cfg' n (log ++ es) (some p') := by
  obtain ⟨got, j, hlog, harr, hend⟩ := h
  refine ⟨got, j, ?_, ?_, fun hj => ⟨hshut (hend hj).1, hpeer.trans (hend hj).2⟩⟩
  · rw [messagesTo_append, hsent, List.append_nil, hpeer, hlog]
  · rw [callsOf_append, hcalls, List.append_nil]
    exact harr

/-- What a subscriber has not connected yet stays so. -/
theorem Conveys.absent {es : List Entry} (h : Conveys cfg n log none)
    (hsent : messagesTo n es = []) :
    Conveys cfg' n (log ++ es) none := by
  have h : messagesTo n log = [] := h
  show messagesTo n (log ++ es) = []
  rw [messagesTo_append, h, hsent]
  rfl

/-- What the server sends goes on the connection. -/
theorem Conveys.sends {e : Entry} (h : Conveys cfg n log (some p)) (hparty : e.party = none)
    (hclient : p'.toClient = p.toClient ++ messagesTo n [e])
    (hclosed : p.conn = .closed → p'.conn = .closed ∧ p'.toClient = p.toClient)
    (hrunning : ended cfg.server = false) : Conveys cfg' n (log ++ [e]) (some p') := by
  obtain ⟨got, j, hlog, harr, hend⟩ := h
  refine ⟨got, j, ?_, ?_, fun hj => ?_⟩
  · rw [messagesTo_append, hlog, hclient, List.append_assoc]
  · obtain ⟨party, peer, event⟩ := e
    obtain rfl : party = none := hparty
    rw [callsOf_append, callsOf_other (by simp), List.append_nil]
    exact harr
  · obtain ⟨hshut, hnil⟩ := hend hj
    unfold Config.shut at hshut ⊢
    rw [hrunning, Bool.false_or, beq_iff_eq] at hshut
    obtain ⟨hconn, hsame⟩ := hclosed hshut
    rw [hconn, hsame]
    exact ⟨by simp, hnil⟩

/-- What a subscriber takes comes from the front of its connection. -/
theorem Conveys.takes {e : Event Sys} {taken : List (List Byte)} {j : ℕ}
    (h : Conveys cfg n log (some p)) (hclient : p.toClient = taken ++ p'.toClient)
    (harr : List.Forall₂ TakenAs (arrivals [e]) (taken.filter isData ++ List.replicate j []))
    (hend : j ≠ 0 → cfg.shut p = true ∧ p.toClient = [])
    (hshut : cfg.shut p = true → cfg'.shut p' = true) :
    Conveys cfg' n (log ++ [⟨some n, none, e⟩]) (some p') := by
  obtain ⟨got, j', hlog, hold, hend'⟩ := h
  have hsent : messagesTo n [⟨some n, none, e⟩] = [] := rfl
  refine ⟨got ++ taken, j' + j, ?_, ?_, fun hj => ?_⟩
  · rw [messagesTo_append, hsent, List.append_nil, hlog, hclient, List.append_assoc]
  · have hsplit : (got ++ taken).filter isData ++ List.replicate (j' + j) [] =
        (got.filter isData ++ List.replicate j' []) ++
          (taken.filter isData ++ List.replicate j []) := by
      rw [List.filter_append, List.replicate_add]
      by_cases hj' : j' = 0
      · rw [hj', List.replicate_zero, List.append_nil, List.nil_append, List.append_assoc]
      · obtain ⟨rfl, -⟩ := List.append_eq_nil_iff.mp (hclient.symm.trans (hend' hj').2)
        rw [List.filter_nil, List.append_nil, List.nil_append, List.append_assoc]
    rw [callsOf_append, callsOf_self, arrivals_append, hsplit]
    exact List.rel_append hold harr
  · obtain ⟨h1, h2⟩ : cfg.shut p = true ∧ p.toClient = [] := by
      by_cases hj' : j' = 0
      · exact hend (by omega)
      · exact hend' hj'
    exact ⟨hshut h1, (List.append_eq_nil_iff.mp (hclient.symm.trans h2)).2⟩

/-- In every run each connection is a queue. -/
theorem LoggedRun.conveys (h : LoggedRun k C cfg log) (n : ℕ) :
    Conveys cfg n log (cfg.peers n) := by
  induction h with
  | init => rfl
  | @step cfg cfg' a log hrun _ hstep ih =>
    have hcases := step_cases hstep
    generalize cfg.entries k a = es at hcases
    have hplug := hrun.plugged
    -- the server moves without a call
    have hserver : ∀ {phase hs}, ended cfg.server = false →
        Conveys { cfg with server := phase, handled := hs } n (log ++ []) (cfg.peers n) := by
      intro phase hs hrunning
      cases hp : cfg.peers n with
      | none =>
        rw [hp] at ih
        exact ih.absent rfl
      | some p =>
        rw [hp] at ih
        refine ih.congr rfl rfl rfl fun hshut => ?_
        unfold Config.shut at hshut ⊢
        rw [hrunning, Bool.false_or] at hshut
        rw [hshut, Bool.or_true]
    -- the process of one subscriber moves without a call
    have hpeer : ∀ {m : ℕ} {q q' : Peer}, cfg.peers m = some q → q'.toClient = q.toClient →
        q'.conn = q.conn →
        Conveys { cfg with peers := Function.update cfg.peers m (some q') } n (log ++ [])
          (Function.update cfg.peers m (some q') n) := by
      intro m q q' hq hclient hconn
      by_cases hm : n = m
      · subst hm
        rw [Function.update_self]
        rw [hq] at ih
        refine ih.congr hclient rfl rfl fun hshut => ?_
        unfold Config.shut at hshut ⊢
        rwa [hconn]
      · rw [Function.update_of_ne hm]
        cases hp : cfg.peers n with
        | none =>
          rw [hp] at ih
          exact ih.absent rfl
        | some p =>
          rw [hp] at ih
          exact ih.congr rfl rfl rfl id
    have hrunning : ∀ {x}, (TopicServer.server k).ask cfg.server = some x →
        ended cfg.server = false := by
      intro x hask
      by_contra hc
      rw [ended_ask (eq_true_of_ne_false hc)] at hask
      cases hask
    cases hcases with
    | @connect m id sockfd hm _ _ =>
      show Conveys _ n (log ++ []) (Function.update cfg.peers m _ n)
      by_cases hne : n = m
      · subst hne
        rw [Function.update_self]
        rw [hm] at ih
        have hcalls := hrun.followed n
        rw [hm] at hcalls
        refine ⟨[], 0, ?_, ?_, fun h => absurd rfl h⟩
        · rw [List.append_nil]
          exact ih
        · rw [List.append_nil, show callsOf (some n) log = [] from hcalls]
          exact .nil
      · rw [Function.update_of_ne hne]
        cases hp : cfg.peers n with
        | none =>
          rw [hp] at ih
          exact ih.absent rfl
        | some p =>
          rw [hp] at ih
          exact ih.congr rfl rfl rfl fun hshut => hshut
    | @serverWake tmp phase _ hphase =>
      refine hserver ?_
      by_contra hc
      rw [ended_wake (eq_true_of_ne_false hc)] at hphase
      cases hphase
    | @serverAdvance phase hs hphase =>
      refine hserver ?_
      by_contra hc
      rw [ended_advance (eq_true_of_ne_false hc)] at hphase
      cases hphase
    | @serverCall inputs c next r cfg₁ hask hanswer =>
      cases hp : cfg.peers n with
      | none =>
        rw [hp] at ih
        have hnone := answer_peer hanswer n
        rw [hp, Option.map_none, Option.map_eq_none_iff] at hnone
        show Conveys _ n _ (cfg₁.peers n)
        rw [hnone]
        refine ih.absent ?_
        cases c with
        | send site fd buf =>
          rw [messagesTo_send]
          refine if_neg fun hfd => ?_
          have hsome := (hplug.known n fd hfd).1
          rw [hp] at hsome
          cases hsome
        | _ => exact messagesTo_other fun _ _ _ => by simp
      | some p =>
        rw [hp] at ih
        obtain ⟨p', hp', hclient, hclosed⟩ := answer_sent hplug hanswer hp
        have hpeers : cfg₁.peers n = some p' := hp'
        show Conveys _ n _ (cfg₁.peers n)
        rw [hpeers]
        exact ih.sends rfl hclient hclosed (hrunning hask)
    | peerWake hp => exact hpeer hp rfl rfl
    | peerAdvance hp => exact hpeer hp rfl rfl
    | @peerCall m p inputs c next r p' hp hask hanswer =>
      show Conveys _ n _ (Function.update cfg.peers m _ n)
      by_cases hm : n = m
      · subst hm
        rw [Function.update_self]
        rw [hp] at ih
        obtain ⟨hs, htracks⟩ := hrun.subscriber hp
        have hsized : Sized c := htracks.asks subscriberStart_sized
          (fun _ => subscriberBody_sized) (fun _ => calls_ask trivial fun _ => trivial) hask
        have hframed : ∀ x ∈ p.toClient, WellFramed x := by
          obtain ⟨got, j, hlog, -⟩ := ih
          have hall := sent_issued hrun n
          rw [hlog, List.forall_mem_append] at hall
          exact fun x hx => (hall.2 x hx).wellFramed
        obtain ⟨taken, j, hclient, harr, hend⟩ := Peer.answer_taken hanswer hsized hframed
        refine ih.takes hclient harr hend fun hshut => ?_
        unfold Config.shut at hshut ⊢
        rwa [show ({ p' with phase := (next r).1 } : Peer).conn = p.conn from
          (Peer.answer_kept hanswer).2.2]
      · have hcalls : callsOf (some n) [⟨some m, none, ⟨c, r⟩⟩] = [] :=
          callsOf_other (by simpa using Ne.symm hm)
        rw [Function.update_of_ne hm]
        cases hq : cfg.peers n with
        | none =>
          rw [hq] at ih
          exact ih.absent rfl
        | some q =>
          rw [hq] at ih
          exact ih.congr rfl rfl hcalls id

/-! ## Delivery -/

/-- A frame relays a datagram that was received. -/
def RelaysOneOf (evs : List (Event Sys)) (f : Frame) : Prop :=
  ∃ e ∈ evs, ∃ d, datagramOf e = some d ∧ Relays d.1 d.2 f

/-- The data among the messages issued are frames of datagrams. -/
theorem frames_of_issued {evs : List (Event Sys)} {ms : List (List Byte)}
    (h : ∀ m ∈ ms, Issued evs m) : ∃ frames : List Frame,
      ms.filter isData = frames.map Frame.bytes ∧ ∀ f ∈ frames, RelaysOneOf evs f := by
  induction ms with
  | nil => exact ⟨[], rfl, fun f hf => (by cases hf)⟩
  | cons m ms ih =>
    rw [List.forall_mem_cons] at h
    obtain ⟨frames, hframes, hall⟩ := ih h.2
    rcases h.1.cases with ⟨e, he, d, f, hd, hf, rfl⟩ | ⟨ht, -⟩
    · refine ⟨f :: frames, ?_, List.forall_mem_cons.mpr ⟨⟨e, he, d, hd, hf⟩, hall⟩⟩
      rw [List.filter_cons_of_pos (isData_frame f), hframes]
      rfl
    · refine ⟨frames, ?_, hall⟩
      rw [List.filter_cons_of_neg, hframes]
      intro hdata
      exact absurd ht (UInt8.not_lt.mpr (of_decide_eq_true hdata).2)

/-- What was shown for a part of the messages taken. -/
theorem displayed_of_exhibits {as : List (Site × List Byte)} {ms : List (List Byte)}
    {ds : List Display} (h1 : List.Forall₂ TakenAs as ms) (h2 : List.Forall₂ Exhibits as ds) :
    List.Forall₂ Displayed ms ds := by
  induction h1 generalizing ds with
  | nil =>
    cases h2
    exact .nil
  | cons htaken _ ih =>
    cases h2 with
    | cons hd hrest =>
      refine .cons ?_ (ih hrest)
      rw [← htaken hd.1]
      exact hd.2

/-- Every display has its message. -/
theorem exists_of_forall₂ {ms : List (List Byte)} {ds : List Display} {d : Display}
    (h : List.Forall₂ Displayed ms ds) (hd : d ∈ ds) : ∃ m ∈ ms, Displayed m d := by
  obtain ⟨i, hi, rfl⟩ := List.getElem_of_mem hd
  have hlen := h.length_eq
  exact ⟨_, List.getElem_mem (by omega), List.Forall₂.get h (by omega) hi⟩

theorem shownAs_of_forall {frames : List Frame} {ds : List Display}
    (h : List.Forall₂ Displayed (frames.map Frame.bytes) ds) :
    List.Forall₂ Frame.ShownAs frames ds :=
  (List.forall₂_map_left_iff.mp h).imp fun _ _ => shownAs_of_displayed

/-- A check of the state and of the log after a script holds of a run. -/
theorem play_log (as : List Action) (P : Config × List Entry → Bool)
    (h : (connected.runLog sockets (fun _ _ => true) [] as).any P = true) :
    ∃ cfg log, LoggedRun sockets (fun _ _ => True) cfg log ∧ P (cfg, log) = true := by
  rw [Option.any_eq_true_iff_get] at h
  obtain ⟨hsome, hP⟩ := h
  have hstart : LoggedRun sockets (fun _ _ => True) connected [] :=
    .step (a := .connect 0 [65] 3) .init trivial rfl
  exact ⟨_, _, hstart.play (fun _ _ _ => trivial) (Option.some_get hsome).symm, hP⟩

/-- The messages `got` that a subscriber took, behind them `j` times the end of the stream, and how
many of these wait for its screen. -/
structure Screened (cfg : Config) (log : List Entry) (n : ℕ) (p : Peer) (got : List (List Byte))
    (j waiting : ℕ) : Prop where
  sent : messagesTo n log = got ++ p.toClient
  issued : ∀ m ∈ got, Issued (callsOf none log) m
  ends : j ≠ 0 → cfg.shut p = true ∧ p.toClient = []
  displayed : List.Forall₂ Displayed
    ((got.filter isData ++ List.replicate j []).take (displays (callsOf (some n) log)).length)
    (displays (callsOf (some n) log))
  count : (displays (callsOf (some n) log)).length + waiting = (got.filter isData).length + j
  waiting_le : waiting ≤ 1
  waiting_zero : (∃ pt, p.phase = .between pt) → waiting = 0

theorem LoggedRun.screened (h : LoggedRun k C cfg log) (hp : cfg.peers n = some p) :
    ∃ got j waiting, Screened cfg log n p got j waiting := by
  have hconveys := h.conveys n
  rw [hp] at hconveys
  obtain ⟨got, j, hlog, htaken, hend⟩ := hconveys
  have hissued := sent_issued h n
  rw [hlog, List.forall_mem_append] at hissued
  obtain ⟨hs, htracks⟩ := h.subscriber hp
  have hkept := kept_of_tracks htracks
  obtain ⟨as, held, harr, hshown, hle⟩ := caught_of_kept hkept
  rw [harr] at htaken
  have hcount := htaken.length_eq
  rw [List.length_append, List.length_append, List.length_replicate, hshown.length_eq] at hcount
  have htake := List.forall₂_take as.length htaken
  rw [List.take_left, hshown.length_eq] at htake
  refine ⟨got, j, held.length, hlog, hissued.1, hend, displayed_of_exhibits htake hshown, hcount,
    hle, ?_⟩
  rintro ⟨pt, hpt⟩
  rw [hpt] at hkept
  have hall := List.Forall₂.length_eq (show List.Forall₂ Exhibits _ _ from hkept)
  rw [harr, List.length_append, ← hshown.length_eq] at hall
  omega

/-- The frames that a subscriber has displayed, what it took and has not displayed, what it
displayed for the frames, and what it displayed behind them. -/
structure Delivery (cfg : Config) (log : List Entry) (n : ℕ) (p : Peer) (frames : List Frame)
    (held : List (List Byte)) (ds phantoms : List Display) : Prop where
  sent : (messagesTo n log).filter isData =
    frames.map Frame.bytes ++ held ++ p.toClient.filter isData
  displayed : displays (callsOf (some n) log) = ds ++ phantoms
  shown : List.Forall₂ Frame.ShownAs frames ds
  held_le : held.length ≤ 1
  held_nil : (∃ pt, p.phase = .between pt) → held = []
  phantoms : ∀ d ∈ phantoms, Displayed [] d ∧ held = [] ∧ p.toClient = [] ∧ cfg.shut p = true

/-- The data frames that the server sent to a subscriber are those that it has displayed, each once
and in this order, then at most one that it took and has not displayed, and those that are still on
the connection. What is displayed behind the last frame is the end of the stream. -/
theorem delivered (h : LoggedRun k C cfg log) (hp : cfg.peers n = some p) :
    ∃ frames held ds phantoms, Delivery cfg log n p frames held ds phantoms := by
  obtain ⟨got, j, waiting, hscreen⟩ := h.screened hp
  obtain ⟨frames, hframes, -⟩ := frames_of_issued hscreen.issued
  have hlist : (messagesTo n log).filter isData =
      frames.map Frame.bytes ++ p.toClient.filter isData := by
    rw [hscreen.sent, List.filter_append, hframes]
  have hdisplayed := hscreen.displayed
  have hcount := hscreen.count
  rw [hframes] at hdisplayed
  rw [hframes, List.length_map] at hcount
  have hle := hscreen.waiting_le
  by_cases hfew : (displays (callsOf (some n) log)).length ≤ frames.length
  · -- the last frame may wait for the screen
    rw [List.take_append_of_le_length (by rwa [List.length_map]), ← List.map_take] at hdisplayed
    refine ⟨frames.take (displays (callsOf (some n) log)).length,
      (frames.drop (displays (callsOf (some n) log)).length).map Frame.bytes, _, [], ?_,
      (List.append_nil _).symm, shownAs_of_forall hdisplayed, ?_, fun hpt => ?_,
      fun d hd => (by cases hd)⟩
    · rw [hlist, ← List.map_append, List.take_append_drop]
    · rw [List.length_map, List.length_drop]
      omega
    · have hzero := hscreen.waiting_zero hpt
      rw [List.drop_of_length_le (by omega), List.map_nil]
  · -- the end of the stream was read
    have hj : j ≠ 0 := by omega
    have hlen : (frames.map Frame.bytes).length = frames.length := List.length_map _
    rw [List.take_append, hlen, List.take_of_length_le (by omega)] at hdisplayed
    have hfront := List.forall₂_take frames.length hdisplayed
    have hback := List.forall₂_drop frames.length hdisplayed
    rw [List.take_left' hlen] at hfront
    rw [List.drop_left' hlen] at hback
    refine ⟨frames, [], _, _, by rw [hlist, List.append_nil],
      (List.take_append_drop frames.length _).symm, shownAs_of_forall hfront, Nat.zero_le 1,
      fun _ => rfl, fun d hd => ⟨?_, rfl, (hscreen.ends hj).2, (hscreen.ends hj).1⟩⟩
    obtain ⟨m, hm, hdisplayed⟩ := exists_of_forall₂ hback hd
    rwa [List.eq_of_mem_replicate (List.mem_of_mem_take hm)] at hdisplayed

/-- The publication of a visit is displayed. -/
theorem delivered_visit : ∃ cfg log p frames held ds phantoms,
    LoggedRun sockets (fun _ _ => True) cfg log ∧ cfg.peers 0 = some p ∧
      (displays (callsOf (some 0) log)).length = 1 ∧
      Delivery cfg log 0 p frames held ds phantoms := by
  obtain ⟨cfg, log, hrun, hcheck⟩ := play_log visit (fun x =>
    (x.1.peers 0).isSome && (displays (callsOf (some 0) x.2)).length == 1) (by decide +kernel)
  rw [Bool.and_eq_true, Option.isSome_iff_exists, beq_iff_eq] at hcheck
  obtain ⟨⟨p, hp⟩, hlen⟩ := hcheck
  obtain ⟨frames, held, ds, phantoms, hdelivery⟩ := delivered hrun hp
  exact ⟨cfg, log, p, frames, held, ds, phantoms, hrun, hp, hlen, hdelivery⟩

/-- What stands on the screen of a subscriber is the line for a datagram that the server received,
or for the end of a stream that it has closed. -/
theorem LoggedRun.displayed (h : LoggedRun k C cfg log) (hp : cfg.peers n = some p) {d : Display}
    (hd : d ∈ displays (callsOf (some n) log)) :
    (∃ e ∈ callsOf none log, ∃ datagram addr, datagramOf e = some (datagram, addr) ∧
      d.Of (datagram.take maxLenBuf) addr) ∨
    Displayed [] d ∧ cfg.shut p = true := by
  obtain ⟨got, j, waiting, hscreen⟩ := h.screened hp
  obtain ⟨frames, hframes, hrelayed⟩ := frames_of_issued hscreen.issued
  obtain ⟨m, hm, hdisplayed⟩ := exists_of_forall₂ hscreen.displayed hd
  rcases List.mem_append.mp (List.mem_of_mem_take hm) with hdata | hnil
  · left
    rw [hframes] at hdata
    obtain ⟨f, hf, rfl⟩ := List.mem_map.mp hdata
    obtain ⟨e, he, ⟨datagram, addr⟩, hdatagram, hrel, hfit, slack, padding, rfl⟩ := hrelayed f hf
    obtain ⟨hadr, hport, htopic, hval, behind, hshown⟩ := shownAs_of_displayed hdisplayed
    refine ⟨e, he, datagram, addr, hdatagram, ?_, ?_, ?_, hrel.type_le, ?_, behind, ?_⟩
    · rw [hadr]
      exact swap32_swap32 _
    · rw [hport]
      exact swap16_eq_bigEndian _
    · rw [htopic]
      exact str_relayedTopic hrel.length_le slack
    · rw [hval]
      exact payloadOf_relayed hrel.length_le
    · rw [hshown, hval]
      rfl
  · right
    obtain rfl := List.eq_of_mem_replicate hnil
    refine ⟨hdisplayed, (hscreen.ends ?_).1⟩
    rintro rfl
    cases hnil

/-- Everything on the screen of a subscriber comes from a datagram that the server received, with
its sender, its topic and its value; or it is the end of a stream that the server has closed. -/
theorem displayed_published (h : LoggedRun k C cfg log) (hp : cfg.peers n = some p) {d : Display}
    (hd : d ∈ displays (callsOf (some n) log)) :
    (∃ e ∈ callsOf none log, ∃ datagram addr, datagramOf e = some (datagram, addr) ∧
      d.adr = addr.sAddr ∧ d.udpPort.toNat = bigEndian (store16 addr.sinPort) ∧
      d.topic.str = cstr (datagram.take stringLen) ∧
      (pad maxLenBuf (datagram.take maxLenBuf)).getD stringLen 0 ≤ 3 ∧
      ShowsValue (datagram.take maxLenBuf) d.shown) ∨
    Displayed [] d ∧ cfg.shut p = true := by
  refine (h.displayed hp hd).imp_left ?_
  rintro ⟨e, he, datagram, addr, hdatagram, hof⟩
  refine ⟨e, he, datagram, addr, hdatagram, hof.adr, hof.udpPort, ?_, hof.type_le, hof.showsValue⟩
  rw [hof.topic, List.take_take]
  rfl

/-- What stands on its screen was published. -/
theorem displayed_published_visit : ∃ cfg log p d,
    LoggedRun sockets (fun _ _ => True) cfg log ∧ cfg.peers 0 = some p ∧
      d ∈ displays (callsOf (some 0) log) ∧
      ((∃ e ∈ callsOf none log, ∃ datagram addr, datagramOf e = some (datagram, addr) ∧
        d.adr = addr.sAddr ∧ d.udpPort.toNat = bigEndian (store16 addr.sinPort) ∧
        d.topic.str = cstr (datagram.take stringLen) ∧
        (pad maxLenBuf (datagram.take maxLenBuf)).getD stringLen 0 ≤ 3 ∧
        ShowsValue (datagram.take maxLenBuf) d.shown) ∨
      Displayed [] d ∧ cfg.shut p = true) := by
  obtain ⟨cfg, log, hrun, hcheck⟩ := play_log visit (fun x =>
    (x.1.peers 0).isSome && (displays (callsOf (some 0) x.2)).length == 1) (by decide +kernel)
  rw [Bool.and_eq_true, Option.isSome_iff_exists, beq_iff_eq] at hcheck
  obtain ⟨⟨p, hp⟩, hlen⟩ := hcheck
  obtain ⟨d, hd⟩ := List.exists_mem_of_length_pos (hlen.symm ▸ Nat.one_pos)
  exact ⟨cfg, log, p, d, hrun, hp, hd, displayed_published hrun hp hd⟩

/-- A subscriber stops at a fault right behind a line whose words do not fit. -/
theorem LoggedRun.unfit (h : LoggedRun k C cfg log) (hp : cfg.peers n = some p) {f : Fault}
    (hphase : p.phase = .stopped (.fault f)) : ∃ es block,
      callsOf (some n) log = es ++ [⟨.read 0 buflen, some block⟩] ∧ ¬ TokensFit block := by
  obtain ⟨hs, htracks⟩ := h.subscriber hp
  have hkept := kept_of_tracks htracks
  rw [hphase] at hkept
  rcases hkept.2 f rfl with hline | ⟨es, fd, m, hevs, ht, hex⟩
  · exact hline
  -- the message is one that the server sent, or the end of the stream
  have hconveys := h.conveys n
  rw [hp] at hconveys
  obtain ⟨got, j, hlog, htaken, -⟩ := hconveys
  have harr : arrivals [⟨.recv .getMessage fd buflen, some m⟩] = [(Site.getMessage, m)] :=
    List.filterMap_cons_some (if_pos ⟨ht, Or.inr rfl⟩)
  rw [hevs, arrivals_append, harr] at htaken
  have hmem : m ∈ got.filter isData ++ List.replicate j [] := by
    obtain ⟨i, hi, hget⟩ := List.getElem_of_mem
      (List.mem_append_right (arrivals es) (List.mem_singleton_self (Site.getMessage, m)))
    have htake := List.Forall₂.get htaken hi (by rwa [← htaken.length_eq])
    rw [List.get_eq_getElem, hget] at htake
    have hm : m = _ := htake rfl
    rw [hm]
    exact List.getElem_mem _
  exfalso
  rcases List.mem_append.mp hmem with hdata | hnil
  · have hissued := sent_issued h n m (by
      rw [hlog]
      exact List.mem_append_left _ (List.mem_of_mem_filter hdata))
    rcases hissued.wellFramed with ⟨fr, rfl⟩ | ⟨h3, -⟩
    · rw [decode_frame, extract_frame] at hex
      cases hex
    · exact absurd h3 (UInt8.not_lt.mpr ht)
  · rw [List.eq_of_mem_replicate hnil] at hex
    have hok : (extractServerToClientHeader (pad buflen [])
        (.decode (pad buflen []))).isOk = true := by decide +kernel
    rw [hex] at hok
    cases hok

/-- A subscriber that has given its ID reads a line that fills its buffer. -/
def overlong : List Action :=
  serveReady 3 3 [] ++ List.replicate 6 (.subscriber 0 (.call (script [] []))) ++
    readLine (List.replicate buflen 97) 1

/-- A subscriber leaves its memory only at a line whose words do not fit, which stops it, and where
it prints a string that came without a NUL or the end of a stream that the server has closed. -/
theorem subscriber_faults (h : LoggedRun k C cfg log) (hp : cfg.peers n = some p) :
    (∀ f, p.phase = .stopped (.fault f) → ∃ es block,
      callsOf (some n) log = es ++ [⟨.read 0 buflen, some block⟩] ∧ ¬ TokensFit block) ∧
    ∀ d ∈ displays (callsOf (some n) log), d.Overruns →
      (∃ e ∈ callsOf none log, ∃ datagram addr, datagramOf e = some (datagram, addr) ∧
        d.Of (datagram.take maxLenBuf) addr ∧
        (pad maxLenBuf (datagram.take maxLenBuf)).getD stringLen 0 = 3 ∧
        0 ∉ (datagram.take maxLenBuf).drop (stringLen + 1)) ∨
      Displayed [] d ∧ cfg.shut p = true := by
  refine ⟨fun f hphase => h.unfit hp hphase, fun d hd hover => ?_⟩
  refine (h.displayed hp hd).imp_left ?_
  rintro ⟨e, he, datagram, addr, hdatagram, hof⟩
  exact ⟨e, he, datagram, addr, hdatagram, hof, hof.unended hover⟩

theorem subscriber_faults_overlong : ∃ cfg log p f, LoggedRun sockets (fun _ _ => True) cfg log ∧
    cfg.peers 0 = some p ∧ p.phase = .stopped (.fault f) ∧ ∃ es block,
      callsOf (some 0) log = es ++ [⟨.read 0 buflen, some block⟩] ∧ ¬ TokensFit block := by
  obtain ⟨cfg, log, hrun, hcheck⟩ := play_log overlong
    (fun x => (x.1.peers 0).any fun p => faulty p.phase) (by decide +kernel)
  rw [Option.any_eq_true] at hcheck
  obtain ⟨p, hp, hfaulty⟩ := hcheck
  obtain ⟨f, hphase⟩ := exists_fault hfaulty
  exact ⟨cfg, log, p, f, hrun, hp, hphase, (subscriber_faults hrun hp).1 f hphase⟩

end Runs

end TopicServer
