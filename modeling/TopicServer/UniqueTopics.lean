import TopicServer.Subscriptions

/-!
# One entry for a topic

A subscribe command is compared with an entry over fewer bytes than an unsubscribe command, so it
accepts every entry that has its topic: no client ever has two entries with one topic, and the
first entry that an unsubscribe command finds is the only one (`unique_topics`).
-/

namespace TopicServer

open Interactive Linked Memory Entries

/-- The entries of every client are separated. -/
def AllSeparated (s : ServerState) : Prop :=
  ∀ c ∈ s.clientsContainer.toList, Separated c.subscribedTopics.toList

/-- The entries that an unsubscribe command does not find. -/
def otherTopics (topic : CharArray stringLen) (ts : List TopicStructure) : List TopicStructure :=
  ts.filter fun t => strncmp t.topic.bytes topic.bytes stringLen ≠ 0

section Lists

variable {ts : List TopicStructure} {l : LinkedList TopicStructure}

theorem Separated.distinct (h : Separated ts) :
    ts.Pairwise fun t u => strncmp t.topic.bytes u.topic.bytes stringLen ≠ 0 := by
  refine h.imp fun {t u} hno heq => ?_
  exact not_matches_of_eq hno ((strncmp_array _ _ le_rfl).mp heq)

theorem otherTopics_eq (topic : CharArray stringLen) (ts : List TopicStructure) :
    otherTopics topic ts = ts.filter fun t => t.topic.str ≠ topic.str := by
  refine List.filter_congr fun t _ => ?_
  rw [decide_eq_decide, ne_eq, strncmp_array _ _ le_rfl]

/-- An unsubscribe command never fails, and removes the entries with its topic. -/
theorem unsubscribeBranch_separated (h : l.Walkable) (hsep : Separated l.toList)
    (hdr : ClientToServerHdr) :
    ∃ l', unsubscribeBranch l hdr = .ok l' ∧ l'.toList = otherTopics hdr.topic l.toList := by
  rw [otherTopics_eq]
  rcases unsubscribeBranch_spec h hdr with ⟨he, hall⟩ | ⟨xs, a, t, ys, l', hn, -, ht, he, -, hn', -⟩
  · refine ⟨l, he, (List.filter_eq_self.mpr fun t ht => ?_).symm⟩
    exact decide_eq_true (forall_nodes_iff (p := fun t => t.topic.str ≠ hdr.topic.str).mp hall t ht)
  · refine ⟨l', he, ?_⟩
    have hl := LinkedList.toList_of_nodes hn
    rw [hl] at hsep
    rw [hl, LinkedList.toList, hn', List.map_append, ← ht]
    exact (filter_remove hsep.ne_middle).symm

end Lists

section Runs

variable {k : Sockets} {g : Kernel} {p : Point ServerState} {hs : List (Handled Sys ServerState)}
  {s : ServerState} {i : ℤ} {evs : List (Event Sys)} {r : ServerState × Flow}

/-- A step keeps the entries separated. -/
theorem Effect.separated (he : Effect k s i evs r) (hl : s.Lists) (h : AllSeparated s) :
    AllSeparated r.1 := by
  cases he with
  | registered _ _ _ _ hn =>
    intro c hc
    rw [LinkedList.toList, hn, List.map_append, List.mem_append] at hc
    rcases hc with hc | hc
    · exact h c hc
    · obtain rfl := List.mem_singleton.mp hc
      exact List.Pairwise.nil
  | refused => exact h
  | reconnected _ _ hn _ _ _ _ _ _ hn' => exact forall_clients_replace h hn hn' fun hc => hc
  | published _ _ _ hrel =>
    intro c' hc'
    obtain ⟨n', hn', rfl⟩ := List.mem_map.mp hc'
    obtain ⟨n, hn, -, es, hr⟩ := hrel.source hn'
    obtain ⟨queue, hc, -⟩ := hr.queue (hl.clients n hn).queue
    rw [hc]
    exact h n.2 (List.mem_map_of_mem hn)
  | ignored => exact h
  | stopped => exact h
  | @subscribed i ret svCl xs a c ys topics list _ _ hn _ _ ht _ hn' =>
    have hw := (hl.clients (a, c) (by rw [hn]; simp)).topics
    exact forall_clients_replace h hn hn' fun hc => hc.subscribed hw ht
  | @unsubscribed i ret svCl xs a c ys topics list _ _ hn _ _ ht _ hn' =>
    have hw := (hl.clients (a, c) (by rw [hn]; simp)).topics
    exact forall_clients_replace h hn hn' fun hc => hc.unsubscribed hw ht
  | disconnected _ _ hn _ _ _ hn' => exact forall_clients_replace h hn hn' fun hc => hc
  | unknown => exact h

/-- In every run the entries of every client are separated. -/
theorem ServerRun.separated (hrun : ServerRun k g p hs) : AllSeparated p.state := by
  induction hrun with
  | start => exact fun c hc => (by cases hc)
  | select _ _ _ ih => exact ih
  | skip _ _ _ ih => exact ih
  | done _ _ ih => exact ih
  | @handle g s hs tmp i evs r hrun hle hmem he ho ih =>
    have hl : s.Lists := ServerRun.lists hrun
    rw [Point.state_following]
    exact (mainBody_effect hl he).separated hl ih

/-- No client of a reachable state has two entries with one topic, and an unsubscribe command
leaves exactly the entries of its client with other topics, in their order. -/
theorem unique_topics (hrun : ServerRun k g p hs) :
    (∀ c ∈ p.state.clientsContainer.toList, c.subscribedTopics.toList.Pairwise fun t u =>
      strncmp t.topic.bytes u.topic.bytes stringLen ≠ 0) ∧
    ∀ i c ret evs o, p.state.clientOn i = some c → (commandHdr ret).type = 1 →
      (manageCommandFromClient i p.state).Exec (⟨.recv .command i maxLenBuf, ret⟩ :: evs) o →
      ∃ s' xs ys topics, o = .ok (-1, s') ∧
        p.state.clientsContainer.toList = xs ++ c :: ys ∧
        s'.clientsContainer.toList = xs ++ { c with subscribedTopics := topics } :: ys ∧
        topics.toList = otherTopics (commandHdr ret).topic c.subscribedTopics.toList := by
  refine ⟨fun c hc => (hrun.separated c hc).distinct, fun i c ret evs o hc h1 he => ?_⟩
  obtain ⟨xs, a, ys, hn, hxs, hsock⟩ := clientOn_split hc
  have hmem : (a, c) ∈ p.state.clientsContainer.nodes := by rw [hn]; simp
  obtain ⟨topics, hex, htopics⟩ := unsubscribeBranch_separated (hrun.lists.clients _ hmem).topics
    (hrun.separated c (List.mem_map_of_mem hmem)) (commandHdr ret)
  have hexec : execute c.subscribedTopics (commandHdr ret) = .ok topics := by
    rw [execute, if_neg (by rw [h1]; decide), hex]
  obtain ⟨-, ⟨f, hf, -⟩ | ⟨l, list, hl, -, hn', -, rfl⟩⟩ :=
    (receivedCommand_exec hrun.lists hn hxs hsock (Or.inr h1)).mp he
  · rw [hexec] at hf
    cases hf
  · obtain rfl := Except.ok.inj (hexec.symm.trans hl)
    exact ⟨_, xs.map Prod.snd, ys.map Prod.snd, topics, rfl, LinkedList.toList_of_nodes hn,
      LinkedList.toList_of_nodes hn', htopics⟩

/-- A client with two subscriptions takes the first one back. -/
theorem unique_topics_two : ∃ g s hs c, ServerRun sockets g (.select s) hs ∧
    s.clientOn 5 = some c ∧ c.subscribedTopics.toList.length = 2 ∧
    ∃ evs s' topics, (manageCommandFromClient 5 s).Exec
        (⟨.recv .command 5 maxLenBuf, some (commandMessage 1 0 [97])⟩ :: evs) (.ok (-1, s')) ∧
      { c with subscribedTopics := topics } ∈ s'.clientsContainer.toList ∧
      topics.toList = otherTopics (.ofList stringLen [97]) c.subscribedTopics.toList := by
  obtain ⟨g, s, hs, hrun, hcheck⟩ := serveScript_check
    [(3, scripted 5 [] (idMessage [65])), (5, scripted 0 [] (commandMessage 0 1 [97])),
      (5, scripted 0 [] (commandMessage 0 0 [98, 99]))]
    (fun x => (x.2.clientOn 5).any fun c => c.subscribedTopics.toList.length == 2)
    (by decide +kernel)
  rw [Option.any_eq_true] at hcheck
  obtain ⟨c, hc, hlen⟩ := hcheck
  have hexec := Program.exec_play (fun _ => scripted 0 [] (commandMessage 1 0 [97]))
    (manageCommandFromClient 5 s) 0
  obtain ⟨evs, hevs⟩ : ∃ evs, (Program.play (fun _ => scripted 0 [] (commandMessage 1 0 [97])) 0
      (manageCommandFromClient 5 s)).1 =
        ⟨.recv .command 5 maxLenBuf, some (commandMessage 1 0 [97])⟩ :: evs := ⟨_, rfl⟩
  rw [hevs] at hexec
  obtain ⟨s', xs, ys, topics, ho, -, hs', ht⟩ :=
    (unique_topics hrun).2 5 c _ evs _ hc (by decide +kernel) hexec
  rw [ho] at hexec
  have htopic : (commandHdr (some (commandMessage 1 0 [97]))).topic = .ofList stringLen [97] := by
    decide +kernel
  rw [htopic] at ht
  refine ⟨g, s, hs, c, hrun, hc, beq_iff_eq.mp hlen, evs, s', topics, hexec, ?_, ht⟩
  rw [hs']
  simp

end Runs

end TopicServer
