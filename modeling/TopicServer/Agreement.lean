import TopicServer.Interleaving

/-!
# What the two ends of a connection agree on

While no frame crosses a command, no party reads a message of the wrong type (`no_wrong_type`), and
while none of type 6 does, the commands that were acknowledged are the first of those that were
executed, and these the first of those that were sent (`acknowledged_executed`). One publication
that crosses a command breaks the one, and one whose type byte is 6 the other.
-/

namespace TopicServer

open Interactive Memory

/-- No process has stopped at a message of the wrong type. -/
def NoWrongType (cfg : Config) : Prop :=
  (∀ e, cfg.server ≠ .stopped (.dieType e)) ∧
    ∀ n p, cfg.peers n = some p → ∀ e, p.phase ≠ .stopped (.dieType e)

/-- The acknowledged commands of every subscriber are the first that were executed, the executed
ones are the first that were sent, at most one is not acknowledged, and each was executed on the
entry of the subscriber. -/
def ExecutedOnce (cfg : Config) : Prop :=
  ∀ n p, cfg.peers n = some p →
    p.acknowledged <+: cfg.executed n ∧ cfg.executed n <+: p.sent ∧
      p.sent.length ≤ p.acknowledged.length + 1 ∧
      ∀ hd, (some n, hd) ∈ cfg.handled → ∀ m ∈ commandsOf hd.events, msgType m ≠ 3 →
        ExecutedOn p.key m hd

section Agreement

variable {k : Sockets} {cfg : Config}

/-- While no frame crosses a command, none has type 4 and no two subscribers have the same ID at a
time, no process stops at a message of the wrong type. -/
theorem no_wrong_type (h : SystemRun k (Careful true k) cfg) : NoWrongType cfg := by
  obtain ⟨g, w, hinv⟩ := h.inv
  obtain ⟨hg, hw⟩ := hinv.alive rfl
  constructor
  · intro e he
    have hnone : g = none := server_ended hinv.safe (by rw [he]; rfl)
    rw [hnone] at hg
    cases hg
  · intro n p hp e he
    have hsafe := (hinv.peer n p hp).safe
    rw [he] at hsafe
    have hnone : w n = none := hsafe
    have hsome := hw n (by rw [hp]; rfl)
    rw [hnone] at hsome
    cases hsome

/-- While no frame of type 6 crosses a command, the commands that were acknowledged were executed
once. -/
theorem acknowledged_executed (h : SystemRun k (Careful false k) cfg) : ExecutedOnce cfg := by
  intro n p hp
  obtain ⟨g, w, hinv⟩ := h.inv
  obtain ⟨hacked, hexecuted, hlen⟩ := (hinv.peer n p hp).logs.prefixes
  exact ⟨hacked, hexecuted, hlen, hinv.entries n p hp⟩

end Agreement

/-! ## Scripted runs -/

/-- The connections of subscribers with different IDs. -/
def DistinctIds (cfg : Config) : Action → Prop
  | .connect _ id _ => ∀ n p, cfg.peers n = some p → p.key ≠ id.take idLen
  | _ => True

/-- A check that tells that a move meets `DistinctIds`. -/
def isMove (_ : Config) : Action → Bool
  | .connect .. => false
  | _ => true

instance : (strict : Bool) → (buf : List Byte) → (p : Peer) → Decidable (FrameClear strict buf p)
  | true, buf, p => inferInstanceAs (Decidable (msgType buf ≠ 4 ∧ p.toServer = []))
  | false, buf, p =>
    inferInstanceAs (Decidable (msgType buf = 6 → ∀ m ∈ p.toServer, msgType m = 3))

instance : (strict : Bool) → (site : Site) → (p : Peer) → Decidable (CommandClear strict site p)
  | true, site, p =>
    inferInstanceAs (Decidable (site = .putCommand ∨ site = .putExit → p.toClient = []))
  | false, site, p =>
    inferInstanceAs (Decidable (site = .putCommand → ∀ b ∈ p.toClient, msgType b ≠ 6))

/-- A check that tells that a move meets `Careful`. -/
def isCareful (strict : Bool) (k : Sockets) (cfg : Config) : Action → Bool
  | .connect .. => false
  | .server (.call _) =>
    match cfg.sends k with
    | some (site, buf, p) => decide (site = .data ∨ site = .queued → FrameClear strict buf p)
    | none => true
  | .subscriber n (.call _) =>
    match cfg.peers n with
    | some p =>
      match p.sends with
      | some (site, _) => decide (CommandClear strict site p)
      | none => true
    | none => true
  | _ => true

theorem careful_of_check (strict : Bool) (k : Sockets) (cfg : Config) (a : Action)
    (h : isCareful strict k cfg a = true) : Careful strict k cfg a := by
  match a with
  | .connect .. => cases h
  | .server (.call _) =>
    intro site buf p hsends
    simp only [isCareful, hsends, decide_eq_true_eq] at h
    exact h
  | .subscriber n (.call _) =>
    intro p site buf hp hsends
    simp only [isCareful, hp, hsends, decide_eq_true_eq] at h
    exact h
  | .server (.wake _) | .server .advance => trivial
  | .subscriber n (.wake _) | .subscriber n .advance => trivial

theorem distinct_of_check (cfg : Config) (a : Action) (h : isMove cfg a = true) :
    DistinctIds cfg a := by
  cases a with
  | connect => cases h
  | _ => trivial

/-- The environment of a script: descriptor 5 for a connection, and zeroed memory. -/
def script (datagram line : List Byte) : (c : Call) → Answer c
  | .accept _ => (5, ⟨0, 0⟩)
  | .send .. => true
  | .recv .. => none
  | .recvfrom .. => some (datagram, ⟨0, 0⟩)
  | .read .. => some line
  | .close _ => ()
  | .printf _ => ()
  | .indeterminate n => .ofList n []

/-- The line that subscribes to a topic of one letter. -/
def subscribeLine (topic : Byte) : List Byte := subscribeWord ++ [32, topic, 32, 49, 10]

/-- A datagram with an integer for the topic `T`. -/
def datagramOfType (type : Byte) : List Byte :=
  84 :: List.replicate 49 0 ++ type :: [0, 0, 0, 0, 1]

/-- The server finds descriptor `i` ready and makes `calls` calls. -/
def serveReady (i : ℤ) (calls : ℕ) (datagram : List Byte) : List Action :=
  .server (.wake {i}) :: List.replicate (i.toNat + 1) (.server .advance) ++
    List.replicate calls (.server (.call (script datagram [])))

/-- The subscriber reads a line and makes `calls` calls. -/
def readLine (line : List Byte) (calls : ℕ) : List Action :=
  [.subscriber 0 (.wake {0}), .subscriber 0 .advance] ++
    List.replicate calls (.subscriber 0 (.call (script [] line)))

/-- The state in which a subscriber has connected with an ID of one letter. -/
def connected : Config :=
  { Config.init sockets with
    peers := Function.update (fun _ => none) 0 (some (.init [65] 3))
    backlog := [0] }

/-- The subscriber gives its ID, and subscribes to the topic `T`. -/
def subscription : List Action :=
  serveReady 3 3 [] ++ List.replicate 6 (.subscriber 0 (.call (script [] []))) ++
    List.replicate 2 (.server (.call (script [] []))) ++ List.replicate 3 (.server .advance) ++
    readLine (subscribeLine 84) 2 ++ serveReady 5 3 [] ++ [.server .advance] ++
    List.replicate 2 (.subscriber 0 (.call (script [] []))) ++
    List.replicate 4 (.subscriber 0 .advance)

/-- The subscriber sends a second command, and the server a frame of the type before it reads the
command. -/
def crossing (type : Byte) : List Action :=
  subscription ++ readLine (subscribeLine 85) 2 ++ serveReady 4 5 (datagramOfType type)

/-- A publication is delivered, and the subscriber takes leave. -/
def visit : List Action :=
  subscription ++ serveReady 4 5 (datagramOfType 0) ++ [.subscriber 0 (.wake {3})] ++
    List.replicate 4 (.subscriber 0 .advance) ++
    List.replicate 4 (.subscriber 0 (.call (script [] []))) ++ [.subscriber 0 .advance] ++
    [.server (.call (script [] []))] ++ List.replicate 2 (.server .advance) ++
    readLine (exitWord ++ [10]) 3 ++ serveReady 5 5 [] ++
    List.replicate 2 (.subscriber 0 (.call (script [] [])))

/-- A check of the state after a script holds of a state that the system reaches. -/
theorem play_check {C : Config → Action → Prop} {check : Config → Action → Bool}
    (hC : ∀ cfg a, check cfg a = true → C cfg a)
    (hconnect : C (.init sockets) (.connect 0 [65] 3)) (as : List Action) (P : Config → Bool)
    (h : (connected.run sockets check as).any P = true) :
    ∃ cfg, SystemRun sockets C cfg ∧ P cfg = true := by
  rw [Option.any_eq_true_iff_get] at h
  obtain ⟨hsome, hP⟩ := h
  have hstart : SystemRun sockets C connected := .step .init hconnect rfl
  exact ⟨_, hstart.play hC (Option.some_get hsome).symm, hP⟩

/-- A publication and the two commands of its subscriber, `exit` among them, do not cross. -/
theorem no_wrong_type_visit : ∃ cfg, SystemRun sockets (Careful true sockets) cfg ∧
    (cfg.executed 0).length = 2 ∧ NoWrongType cfg := by
  obtain ⟨cfg, hrun, hlen⟩ := play_check (careful_of_check true sockets)
    (fun _ _ _ hp => by cases hp) visit (fun cfg => decide ((cfg.executed 0).length = 2))
    (by decide +kernel)
  exact ⟨cfg, hrun, of_decide_eq_true hlen, no_wrong_type hrun⟩

/-- A publication crosses the second command of a subscriber. -/
theorem no_wrong_type_fails :
    ¬ ∀ k cfg, SystemRun k DistinctIds cfg → NoWrongType cfg := by
  intro hall
  obtain ⟨cfg, hrun, hdied⟩ := play_check distinct_of_check (fun _ _ hp => by cases hp)
    (crossing 0 ++ [.server (.call (script [] []))])
    (fun cfg => match cfg.server with
      | .stopped (.dieType _) => true
      | _ => false) (by decide +kernel)
  have hno := (hall sockets cfg hrun).1
  split at hdied
  · rename_i e he
    exact hno e he
  · cases hdied

/-- The acknowledged command of `visit` was executed. -/
theorem acknowledged_executed_visit : ∃ cfg, SystemRun sockets (Careful false sockets) cfg ∧
    (cfg.executed 0).length = 2 ∧ ExecutedOnce cfg := by
  obtain ⟨cfg, hrun, hlen⟩ := play_check (careful_of_check false sockets)
    (fun hs => by cases hs) visit (fun cfg => decide ((cfg.executed 0).length = 2))
    (by decide +kernel)
  exact ⟨cfg, hrun, of_decide_eq_true hlen, acknowledged_executed hrun⟩

/-- A frame of type 6 crosses the second command of a subscriber, which takes it for the answer. -/
theorem acknowledged_executed_fails :
    ¬ ∀ k cfg, SystemRun k DistinctIds cfg → ExecutedOnce cfg := by
  intro hall
  obtain ⟨cfg, hrun, hacked⟩ := play_check distinct_of_check (fun _ _ hp => by cases hp)
    (crossing 6 ++ [.subscriber 0 (.call (script [] []))])
    (fun cfg => match cfg.peers 0 with
      | some p => decide (¬ p.acknowledged <+: cfg.executed 0)
      | none => false) (by decide +kernel)
  split at hacked
  · rename_i p hp
    exact of_decide_eq_true hacked (hall sockets cfg hrun 0 p hp).1
  · cases hacked

end TopicServer
