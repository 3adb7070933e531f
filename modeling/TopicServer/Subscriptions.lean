import TopicServer.ListInvariant
import TopicServer.Lib.Entries

/-!
# Subscriptions as a map from topics

A sequence of commands of one client should do to its subscriptions what it does to a map from
topics to flags (`topicMap`). `manage_command_from_client` compares the topic of a subscribe
command without its last byte, and it appends through a tail that an unsubscribe command may have
freed; a step goes right when neither matters (`Good`), and a sequence refines the map exactly when
all its steps are good.
-/

namespace TopicServer

open Interactive Linked Memory Entries

/-! ## Commands on a list -/

/-- A subscribe or unsubscribe command that names a topic. -/
def ClientToServerHdr.OnTopic (hdr : ClientToServerHdr) : Prop :=
  (hdr.type = 0 ∨ hdr.type = 1) ∧ hdr.topic.str ≠ []

/-- The branch of `manage_command_from_client` for a command on a topic. -/
def execute (l : LinkedList TopicStructure) (hdr : ClientToServerHdr) :
    Except Fault (LinkedList TopicStructure) :=
  if hdr.type = 0 then subscribeBranch l hdr else unsubscribeBranch l hdr

/-- What a command should do to the map from topics to flags. -/
def execTopic (m : List Byte → Option Byte) (hdr : ClientToServerHdr) : List Byte → Option Byte :=
  if hdr.type = 0 then Function.update m hdr.topic.str (some hdr.sf)
  else Function.update m hdr.topic.str none

/-- The map after a sequence of commands. -/
def topicMap (cmds : List ClientToServerHdr) : List Byte → Option Byte :=
  cmds.foldl execTopic fun _ => none

/-- The entries of a list are the graph of the map. -/
def Reflects (l : LinkedList TopicStructure) (m : List Byte → Option Byte) : Prop :=
  Represents (fun t : TopicStructure => t.topic.str) TopicStructure.sf l.toList m

/-- A step goes right: the first entry that a subscribe command accepts has its topic, or there is
none and the tail is not freed. -/
def GoodOn (l : LinkedList TopicStructure) (hdr : ClientToServerHdr) : Prop :=
  hdr.type = 0 →
    match l.toList.find? fun t => SubscribeMatches hdr.topic.str t.topic.str with
    | some t => t.topic.str = hdr.topic.str
    | none => l.toList = [] ∨ ¬ l.TailFreed

/-- No entry stands before another that its comparison would have accepted. -/
def Separated (ts : List TopicStructure) : Prop :=
  ts.Pairwise fun t u => ¬ SubscribeMatches u.topic.str t.topic.str

section Step

variable {l l' : LinkedList TopicStructure} {hdr : ClientToServerHdr}
  {m : List Byte → Option Byte} {xs ys : List TopicStructure} {t u : TopicStructure}

theorem not_matches_of_eq {T : List Byte} (hno : ¬ SubscribeMatches T t.topic.str) :
    t.topic.str ≠ T := fun he => hno (he ▸ subscribeMatches_self T)

/-- The topics of separated entries differ. -/
theorem Separated.ne_middle (h : Separated (xs ++ t :: ys)) :
    ∀ u ∈ xs ++ ys, u.topic.str ≠ t.topic.str := by
  unfold Separated at h
  rw [List.pairwise_append, List.pairwise_cons] at h
  obtain ⟨-, ⟨hys, -⟩, hxs⟩ := h
  intro u hu
  rcases List.mem_append.mp hu with hu | hu
  · exact not_matches_of_eq (hxs u hu t List.mem_cons_self)
  · exact (not_matches_of_eq (hys u hu)).symm

theorem Separated.replace (h : Separated (xs ++ t :: ys)) (he : u.topic = t.topic) :
    Separated (xs ++ u :: ys) := by
  unfold Separated at *
  rw [List.pairwise_append, List.pairwise_cons] at *
  refine ⟨h.1, ⟨by rw [he]; exact h.2.1.1, h.2.1.2⟩, fun v hv w hw => ?_⟩
  rcases List.mem_cons.mp hw with rfl | hw
  · rw [he]
    exact h.2.2 v hv t List.mem_cons_self
  · exact h.2.2 v hv w (List.mem_cons_of_mem _ hw)

theorem Separated.append (h : Separated xs)
    (hno : ∀ u ∈ xs, ¬ SubscribeMatches t.topic.str u.topic.str) : Separated (xs ++ [t]) := by
  unfold Separated at *
  rw [List.pairwise_append]
  refine ⟨h, List.pairwise_singleton _ _, fun u hu v hv => ?_⟩
  rw [List.mem_singleton.mp hv]
  exact hno u hu

theorem Separated.remove (h : Separated (xs ++ t :: ys)) : Separated (xs ++ ys) :=
  h.sublist ((List.sublist_cons_self _ _).append_left _)

/-- An entry that a command accepts by mistake hides that its topic is missing. -/
theorem Separated.absent (h : Separated (xs ++ t :: ys))
    (hxs : ∀ u ∈ xs, ¬ SubscribeMatches hdr.topic.str u.topic.str)
    (ht : SubscribeMatches hdr.topic.str t.topic.str) (hne : t.topic.str ≠ hdr.topic.str) :
    ∀ u ∈ xs ++ t :: ys, u.topic.str ≠ hdr.topic.str := by
  unfold Separated at h
  rw [List.pairwise_append, List.pairwise_cons] at h
  obtain ⟨-, ⟨hys, -⟩, -⟩ := h
  intro u hu he
  rw [List.mem_append, List.mem_cons] at hu
  rcases hu with hu | rfl | hu
  · exact not_matches_of_eq (hxs u hu) he
  · exact hne he
  · exact hys u hu (he ▸ ht)

theorem forall_nodes_iff {p : TopicStructure → Prop} :
    (∀ n ∈ l.nodes, p n.2) ↔ ∀ t ∈ l.toList, p t := by
  unfold LinkedList.toList
  rw [List.forall_mem_map]

/-- The separation of the entries survives a subscribe command that does not fail. -/
theorem Separated.subscribed (h : Separated l.toList) (hw : l.Walkable)
    (he : subscribeBranch l hdr = .ok l') : Separated l'.toList := by
  rcases subscribeBranch_spec hw hdr with
    ⟨us, b, t, vs, l₁, hn, -, -, he₁, -, hn', -⟩ | ⟨hall, ⟨-, l₁, he₁, -, hn', -⟩ | ⟨-, -, he₁⟩⟩
  · obtain rfl := Except.ok.inj (he₁.symm.trans he)
    rw [LinkedList.toList_of_nodes hn] at h
    rw [LinkedList.toList_of_nodes hn']
    exact h.replace rfl
  · obtain rfl := Except.ok.inj (he₁.symm.trans he)
    rw [LinkedList.toList, hn', List.map_append]
    exact h.append (forall_nodes_iff.mp hall)
  · rw [he₁] at he
    cases he

/-- The separation of the entries survives an unsubscribe command. -/
theorem Separated.unsubscribed (h : Separated l.toList) (hw : l.Walkable)
    (he : unsubscribeBranch l hdr = .ok l') : Separated l'.toList := by
  rcases unsubscribeBranch_spec hw hdr with
    ⟨he₁, -⟩ | ⟨us, b, t, vs, l₁, hn, -, -, he₁, -, hn', -⟩
  · obtain rfl := Except.ok.inj (he₁.symm.trans he)
    exact h
  · obtain rfl := Except.ok.inj (he₁.symm.trans he)
    rw [LinkedList.toList_of_nodes hn] at h
    rw [LinkedList.toList, hn', List.map_append]
    exact h.remove

theorem execTopic_subscribe (h0 : hdr.type = 0) :
    execTopic m hdr = Function.update m hdr.topic.str (some hdr.sf) := if_pos h0

theorem execTopic_unsubscribe (h0 : hdr.type ≠ 0) :
    execTopic m hdr = Function.update m hdr.topic.str none := if_neg h0

/-- A subscribe command that accepts an entry goes right when the entry has its topic. -/
theorem goodOn_found (h0 : hdr.type = 0) (hl : l.toList = xs ++ t :: ys)
    (hxs : ∀ u ∈ xs, ¬ SubscribeMatches hdr.topic.str u.topic.str)
    (ht : SubscribeMatches hdr.topic.str t.topic.str) :
    GoodOn l hdr ↔ t.topic.str = hdr.topic.str := by
  have hfind : l.toList.find? (fun t => SubscribeMatches hdr.topic.str t.topic.str) = some t := by
    rw [hl, List.find?_append, List.find?_eq_none.mpr (by simpa using hxs), Option.none_or,
      List.find?_cons_of_pos (by simpa using ht)]
  unfold GoodOn
  rw [hfind]
  exact ⟨fun h => h h0, fun h _ => h⟩

/-- A subscribe command that accepts no entry goes right when its append does. -/
theorem goodOn_missing (h0 : hdr.type = 0)
    (hall : ∀ u ∈ l.toList, ¬ SubscribeMatches hdr.topic.str u.topic.str) :
    GoodOn l hdr ↔ l.toList = [] ∨ ¬ l.TailFreed := by
  have hfind : l.toList.find? (fun t => SubscribeMatches hdr.topic.str t.topic.str) = none :=
    List.find?_eq_none.mpr (by simpa using hall)
  unfold GoodOn
  rw [hfind]
  exact ⟨fun h => h h0, fun h _ => h⟩

theorem toList_eq_nil_iff : l.toList = [] ↔ l.nodes = [] := by
  unfold LinkedList.toList
  exact List.map_eq_nil_iff

/-- Setting the flag of the entry that has the topic sets it in the map. -/
theorem Reflects.set_flag (h0 : hdr.type = 0) (hsep : Separated l.toList)
    (hl : l.toList = xs ++ t :: ys) (hl' : l'.toList = xs ++ { t with sf := hdr.sf } :: ys)
    (heq : t.topic.str = hdr.topic.str) (hm : Reflects l m) :
    Reflects l' (execTopic m hdr) := by
  rw [execTopic_subscribe h0]
  unfold Reflects at hm ⊢
  rw [hl] at hm hsep
  rw [hl', ← heq]
  exact hm.set rfl hsep.ne_middle

/-- Setting the flag of an entry that has another topic leaves the topic missing. -/
theorem not_reflects_set_flag (h0 : hdr.type = 0) (hsep : Separated l.toList)
    (hl : l.toList = xs ++ t :: ys) (hl' : l'.toList = xs ++ { t with sf := hdr.sf } :: ys)
    (hxs : ∀ u ∈ xs, ¬ SubscribeMatches hdr.topic.str u.topic.str)
    (ht : SubscribeMatches hdr.topic.str t.topic.str) (hne : t.topic.str ≠ hdr.topic.str) :
    ¬ Reflects l' (execTopic m hdr) := by
  rw [execTopic_subscribe h0]
  intro hm
  rw [hl] at hsep
  have habs := (hsep.replace (u := { t with sf := hdr.sf }) rfl).absent hxs ht hne
  rw [← hl'] at habs
  obtain ⟨u, hu, hut⟩ := hm.isSome_iff.mp (by rw [Function.update_self]; rfl)
  exact habs u hu hut

/-- Appending an entry for a topic that is missing adds it to the map. -/
theorem Reflects.append_entry (h0 : hdr.type = 0)
    (hall : ∀ u ∈ l.toList, ¬ SubscribeMatches hdr.topic.str u.topic.str)
    (hl' : l'.toList = l.toList ++ [⟨hdr.topic, hdr.sf⟩]) (hm : Reflects l m) :
    Reflects l' (execTopic m hdr) := by
  rw [execTopic_subscribe h0]
  unfold Reflects at hm ⊢
  rw [hl']
  exact hm.append (e := ⟨hdr.topic, hdr.sf⟩) fun d hd => not_matches_of_eq (hall d hd)

/-- Removing the entry that has the topic removes the topic from the map. -/
theorem Reflects.remove_entry (h0 : hdr.type ≠ 0) (hsep : Separated l.toList)
    (hl : l.toList = xs ++ t :: ys) (hl' : l'.toList = xs ++ ys)
    (heq : t.topic.str = hdr.topic.str) (hm : Reflects l m) :
    Reflects l' (execTopic m hdr) := by
  rw [execTopic_unsubscribe h0]
  unfold Reflects at hm ⊢
  rw [hl] at hm hsep
  rw [hl', ← heq]
  exact hm.remove hsep.ne_middle

/-- The cases of a command on a list whose entries are separated: it goes right, and does to the
list what it does to the map; or it was not good, and then it fails or misses its topic. -/
theorem execute_spec (hw : l.Walkable) (hsep : Separated l.toList) (hty : hdr.OnTopic) :
    (GoodOn l hdr ∧ ∃ l', execute l hdr = .ok l' ∧ l'.Walkable ∧ Separated l'.toList ∧
      ∀ m, Reflects l m → Reflects l' (execTopic m hdr)) ∨
    ¬ GoodOn l hdr ∧ ((∃ f, execute l hdr = .error f) ∨
      ∃ l', execute l hdr = .ok l' ∧ ∀ m, ¬ Reflects l' (execTopic m hdr)) := by
  rcases hty.1 with h0 | h1
  · -- a subscribe command
    have hex : execute l hdr = subscribeBranch l hdr := if_pos h0
    simp only [hex]
    rcases subscribeBranch_spec hw hdr with
      ⟨xs, a, t, ys, l', hn, hxs, ht, he, hw', hn', -, -⟩ | ⟨hall, hcases⟩
    · have hl := LinkedList.toList_of_nodes hn
      have hl' := LinkedList.toList_of_nodes hn'
      have hxs' : ∀ u ∈ xs.map Prod.snd, ¬ SubscribeMatches hdr.topic.str u.topic.str := by
        rw [List.forall_mem_map]
        exact hxs
      have hgood := goodOn_found h0 hl hxs' ht
      by_cases heq : t.topic.str = hdr.topic.str
      · refine Or.inl ⟨hgood.mpr heq, l', he, hw', ?_, fun m hm => hm.set_flag h0 hsep hl hl' heq⟩
        rw [hl] at hsep
        rw [hl']
        exact hsep.replace rfl
      · exact Or.inr ⟨mt hgood.mp heq, Or.inr ⟨l', he, fun m =>
          not_reflects_set_flag h0 hsep hl hl' hxs' ht heq⟩⟩
    · have hall' : ∀ t ∈ l.toList, ¬ SubscribeMatches hdr.topic.str t.topic.str :=
        forall_nodes_iff.mp hall
      have hgood := goodOn_missing h0 hall'
      rcases hcases with ⟨htail, l', he, hw', hn', -, -⟩ | ⟨hne, hst, he⟩
      · have hl' : l'.toList = l.toList ++ [⟨hdr.topic, hdr.sf⟩] := by
          rw [LinkedList.toList, hn', List.map_append]
          rfl
        refine Or.inl ⟨hgood.mpr ?_, l', he, hw', ?_, fun m hm => hm.append_entry h0 hall' hl'⟩
        · by_cases hempty : l.nodes = []
          · exact Or.inl (toList_eq_nil_iff.mpr hempty)
          · exact Or.inr (htail.not_freed hw.repr hempty)
        · rw [hl']
          exact hsep.append hall'
      · refine Or.inr ⟨fun h => ?_, Or.inl ⟨_, he⟩⟩
        rcases hgood.mp h with hempty | hno
        · exact hne (toList_eq_nil_iff.mp hempty)
        · exact hno hst
  · -- an unsubscribe command
    have h0 : hdr.type ≠ 0 := by rw [h1]; decide
    have hex : execute l hdr = unsubscribeBranch l hdr := if_neg h0
    have hgood : GoodOn l hdr := fun h => absurd h h0
    simp only [hex]
    rcases unsubscribeBranch_spec hw hdr with
      ⟨he, hall⟩ | ⟨xs, a, t, ys, l', hn, -, ht, he, hw', hn', -⟩
    · have hall' : ∀ t ∈ l.toList, t.topic.str ≠ hdr.topic.str := forall_nodes_iff.mp hall
      refine Or.inl ⟨hgood, l, he, hw, hsep, fun m hm => ?_⟩
      rw [execTopic_unsubscribe h0]
      exact hm.remove_absent hall'
    · have hl := LinkedList.toList_of_nodes hn
      have hl' : l'.toList = xs.map Prod.snd ++ ys.map Prod.snd := by
        rw [LinkedList.toList, hn', List.map_append]
      refine Or.inl ⟨hgood, l', he, hw', ?_, fun m hm => hm.remove_entry h0 hsep hl hl' ht⟩
      rw [hl] at hsep
      exact hl' ▸ hsep.remove

end Step

/-! ## Sequences of commands -/

/-- `manage_command_from_client` processes the commands that arrive on a descriptor, up to the
first failure. -/
inductive Processed (i : ℤ) :
    ServerState → List ClientToServerHdr → Except Halt ServerState → Prop
  | nil {s} : Processed i s [] (.ok s)
  | snoc {s cmds s' hdr r s''} : Processed i s cmds (.ok s') →
      (manageCommandFromClient i s').Exec [⟨.recv .command i maxLenBuf, some hdr.encode⟩]
        (.ok (r, s'')) → Processed i s (cmds ++ [hdr]) (.ok s'')
  | fail {s cmds s' hdr e} : Processed i s cmds (.ok s') →
      (manageCommandFromClient i s').Exec [⟨.recv .command i maxLenBuf, some hdr.encode⟩]
        (.error e) → Processed i s (cmds ++ [hdr]) (.error e)

section Sequences

variable {i : ℤ} {s s' : ServerState} {xs ys : List (Addr × ClientStructure)} {a : Addr}
  {c : ClientStructure} {hdr : ClientToServerHdr} {cmds : List ClientToServerHdr}

/-- A received command is executed on the list of the client on the descriptor. -/
theorem receivedCommand_exec {ret : Option (List Byte)} {evs : List (Event Sys)}
    {o : Except Halt (ℤ × ServerState)} (h : s.Lists)
    (hn : s.clientsContainer.nodes = xs ++ (a, c) :: ys) (hxs : ∀ n ∈ xs, n.2.sock ≠ i)
    (hsock : c.sock = i) (hty : (commandHdr ret).type = 0 ∨ (commandHdr ret).type = 1) :
    (manageCommandFromClient i s).Exec (⟨.recv .command i maxLenBuf, ret⟩ :: evs) o ↔ evs = [] ∧
      ((∃ f, execute c.subscribedTopics (commandHdr ret) = .error f ∧ o = .error (.fault f)) ∨
      ∃ l list, execute c.subscribedTopics (commandHdr ret) = .ok l ∧ list.WellFormed ∧
        list.nodes = xs ++ (a, { c with subscribedTopics := l }) :: ys ∧
        s.clientsContainer.modifyData a (fun c => { c with subscribedTopics := l }) = .ok list ∧
        o = .ok (-1, { s with clientsContainer := list })) := by
  unfold manageCommandFromClient execute
  rw [exec_recv]
  have hrest {p : Option (List Byte) → Proc (ℤ × ServerState)} :
      (∃ r rest, (⟨.recv .command i maxLenBuf, ret⟩ : Event Sys) :: evs =
        ⟨.recv .command i maxLenBuf, r⟩ :: rest ∧ (p r).Exec rest o) ↔ (p ret).Exec evs o := by
    constructor
    · rintro ⟨r, rest, hev, he⟩
      cases hev
      exact he
    · intro he
      exact ⟨_, _, rfl, he⟩
  have hhdr : ClientToServerHdr.decode (pad maxLenBuf (ret.getD [])) = commandHdr ret := rfl
  rw [hrest, hhdr]
  rcases hty with h0 | h1
  · rw [if_pos h0, if_pos h0]
    exact updateTopics_exec (f := fun l => subscribeBranch l (commandHdr ret)) h hn hxs hsock
  · have h0 : (commandHdr ret).type ≠ 0 := by rw [h1]; decide
    rw [if_neg h0, if_neg h0, if_pos h1]
    exact updateTopics_exec (f := fun l => unsubscribeBranch l (commandHdr ret)) h hn hxs hsock

/-- The command is executed on the list of the client on the descriptor. -/
theorem manageCommand_exec {o : Except Halt (ℤ × ServerState)} (h : s.Lists)
    (hn : s.clientsContainer.nodes = xs ++ (a, c) :: ys) (hxs : ∀ n ∈ xs, n.2.sock ≠ i)
    (hsock : c.sock = i) (hty : hdr.type = 0 ∨ hdr.type = 1) :
    (manageCommandFromClient i s).Exec [⟨.recv .command i maxLenBuf, some hdr.encode⟩] o ↔
      (∃ f, execute c.subscribedTopics hdr = .error f ∧ o = .error (.fault f)) ∨
      ∃ l list, execute c.subscribedTopics hdr = .ok l ∧ list.WellFormed ∧
        list.nodes = xs ++ (a, { c with subscribedTopics := l }) :: ys ∧
        s.clientsContainer.modifyData a (fun c => { c with subscribedTopics := l }) = .ok list ∧
        o = .ok (-1, { s with clientsContainer := list }) := by
  have hdec : commandHdr (some hdr.encode) = hdr := hdr.decode_encode _ (by decide)
  have hty' : (commandHdr (some hdr.encode)).type = 0 ∨ (commandHdr (some hdr.encode)).type = 1 := by
    rwa [hdec]
  rw [receivedCommand_exec h hn hxs hsock hty', hdec]
  exact and_iff_right rfl

/-- A state that commands of one client lead to: its list `l` stands at its old place. -/
structure ProcessedTo (i : ℤ) (xs : List (Addr × ClientStructure)) (a : Addr)
    (c : ClientStructure) (ys : List (Addr × ClientStructure)) (s : ServerState)
    (l : LinkedList TopicStructure) : Prop where
  lists : s.Lists
  nodes : s.clientsContainer.nodes = xs ++ (a, { c with subscribedTopics := l }) :: ys
  before : ∀ n ∈ xs, n.2.sock ≠ i
  sock : c.sock = i
  separated : Separated l.toList

namespace ProcessedTo

variable {l l' : LinkedList TopicStructure}

theorem walkable (h : ProcessedTo i xs a c ys s l) : l.Walkable :=
  (h.lists.clients _ (by rw [h.nodes]; exact List.mem_append_right _ List.mem_cons_self)).topics

theorem clientOn (h : ProcessedTo i xs a c ys s l) :
    s.clientOn i = some { c with subscribedTopics := l } :=
  clientOn_eq h.nodes h.before h.sock

theorem init (h : s.Lists) (hc : s.clientOn i = some c)
    (hfresh : c.subscribedTopics = .initList) : ∃ xs a ys, ProcessedTo i xs a c ys s .initList := by
  obtain ⟨xs, a, ys, hn, hxs, hsock⟩ := clientOn_split hc
  rw [← hfresh]
  refine ⟨xs, a, ys, h, hn, hxs, hsock, ?_⟩
  rw [hfresh]
  exact List.Pairwise.nil

/-- The separation of the entries survives every command that does not fail. -/
theorem separated_execute (h : ProcessedTo i xs a c ys s l) (hty : hdr.OnTopic)
    (he : execute l hdr = .ok l') : Separated l'.toList := by
  rcases hty.1 with h0 | h1
  · rw [execute, if_pos h0] at he
    exact h.separated.subscribed h.walkable he
  · rw [execute, if_neg (by rw [h1]; decide)] at he
    exact h.separated.unsubscribed h.walkable he

/-- A command takes the state of its client's list to the next one. -/
theorem step (h : ProcessedTo i xs a c ys s l) (hty : hdr.OnTopic)
    (he : execute l hdr = .ok l') {list : LinkedList ClientStructure} (hw : list.WellFormed)
    (hn : list.nodes = xs ++ (a, { c with subscribedTopics := l' }) :: ys) :
    ProcessedTo i xs a c ys { s with clientsContainer := list } l' where
  lists := by
    have hwalk : l'.Walkable := by
      rcases hty.1 with h0 | h1
      · rw [execute, if_pos h0] at he
        exact subscribeBranch_walkable h.walkable he
      · rw [execute, if_neg (by rw [h1]; decide)] at he
        exact unsubscribeBranch_walkable h.walkable he
    refine ⟨hw, ?_⟩
    exact forall_nodes_replace h.lists.clients h.nodes hn fun hold => ⟨hwalk, hold.queue⟩
  nodes := hn
  before := h.before
  sock := h.sock
  separated := h.separated_execute hty he

end ProcessedTo

/-- The client's list after commands that did not fail. -/
theorem Processed.processedTo {l : LinkedList TopicStructure} (h : ProcessedTo i xs a c ys s l)
    (hcmds : ∀ hdr ∈ cmds, hdr.OnTopic) (hp : Processed i s cmds (.ok s')) :
    ∃ l', ProcessedTo i xs a c ys s' l' := by
  generalize ho : (Except.ok s' : Except Halt ServerState) = o at hp
  induction hp generalizing s' with
  | nil =>
    cases ho
    exact ⟨l, h⟩
  | @snoc cmds s₁ hdr r s₂ hp he ih =>
    cases ho
    rw [List.forall_mem_append, List.forall_mem_singleton] at hcmds
    obtain ⟨l₁, h₁⟩ := ih hcmds.1 rfl
    rcases (manageCommand_exec h₁.lists h₁.nodes h₁.before h₁.sock hcmds.2.1).mp he with
      ⟨f, -, ho⟩ | ⟨l₂, list, hl₂, hw, hn, -, ho⟩
    · cases ho
    · cases ho
      exact ⟨l₂, h₁.step hcmds.2 hl₂ hw hn⟩
  | fail => cases ho

/-- A command extends a sequence by what it does to the client's list. -/
theorem Processed.extend {l : LinkedList TopicStructure} (h : ProcessedTo i xs a c ys s' l)
    (hp : Processed i s cmds (.ok s')) (hty : hdr.OnTopic) :
    (∀ f, execute l hdr = .error f → Processed i s (cmds ++ [hdr]) (.error (.fault f))) ∧
    ∀ l', execute l hdr = .ok l' →
      ∃ s'', Processed i s (cmds ++ [hdr]) (.ok s'') ∧ ProcessedTo i xs a c ys s'' l' := by
  have hex := fun o => manageCommand_exec (o := o) h.lists h.nodes h.before h.sock hty.1
  constructor
  · intro f hf
    exact .fail hp ((hex _).mpr (Or.inl ⟨f, hf, rfl⟩))
  · intro l' hl'
    obtain ⟨list, hm, hw, hn⟩ := h.lists.registry.modifyData h.nodes
      fun c => { c with subscribedTopics := l' }
    exact ⟨_, .snoc hp ((hex _).mpr (Or.inr ⟨l', list, hl', hw, hn, hm, rfl⟩)),
      h.step hty hl' hw hn⟩

/-- Commands that do not fail on the empty list do not fail on the client's. -/
theorem Processed.of_foldlM {l : LinkedList TopicStructure}
    (h : ProcessedTo i xs a c ys s .initList) (hcmds : ∀ hdr ∈ cmds, hdr.OnTopic)
    (hl : cmds.foldlM execute .initList = .ok l) :
    ∃ s', Processed i s cmds (.ok s') ∧ ProcessedTo i xs a c ys s' l := by
  induction cmds using List.reverseRecOn generalizing l with
  | nil =>
    cases hl
    exact ⟨s, .nil, h⟩
  | append_singleton cmds hdr ih =>
    rw [List.forall_mem_append, List.forall_mem_singleton] at hcmds
    rw [List.foldlM_append] at hl
    cases hl₁ : cmds.foldlM execute .initList with
    | error f =>
      rw [hl₁] at hl
      cases hl
    | ok l₁ =>
      rw [hl₁] at hl
      have he : (execute l₁ hdr >>= pure) = .ok l := hl
      rw [bind_pure] at he
      obtain ⟨s₁, hp, hto⟩ := ih hcmds.1 hl₁
      exact (hp.extend hto hcmds.2).2 l he

end Sequences

/-- A sequence of commands did not fail, and the client's entries are the graph of the map. -/
def MatchesMap (i : ℤ) (cmds : List ClientToServerHdr) (o : Except Halt ServerState) : Prop :=
  ∃ s c, o = .ok s ∧ s.clientOn i = some c ∧ Reflects c.subscribedTopics (topicMap cmds)

/-- A command goes right on the list of the client on a descriptor. -/
def Good (i : ℤ) (s : ServerState) (hdr : ClientToServerHdr) : Prop :=
  ∃ c, s.clientOn i = some c ∧ GoodOn c.subscribedTopics hdr

/-- The subscriptions of a client refine the map along a sequence of commands exactly when every
step of the sequence goes right. -/
theorem subscriptions_refine_map {k : Sockets} {g : Kernel} {p : Point ServerState}
    {hs : List (Handled Sys ServerState)} {i : ℤ} {c : ClientStructure}
    {cmds : List ClientToServerHdr} (h : ServerRun k g p hs) (hc : p.state.clientOn i = some c)
    (hfresh : c.subscribedTopics = .initList) (hcmds : ∀ hdr ∈ cmds, hdr.OnTopic) :
    (∀ pre o, pre <+: cmds → Processed i p.state pre o → MatchesMap i pre o) ↔
      ∀ pre hdr s, pre ++ [hdr] <+: cmds → Processed i p.state pre (.ok s) → Good i s hdr := by
  obtain ⟨xs, a, ys, hinit⟩ := ProcessedTo.init h.lists hc hfresh
  have hpre : ∀ {pre}, pre <+: cmds → ∀ hdr ∈ pre, hdr.OnTopic := fun hp hdr hm =>
    hcmds hdr (hp.subset hm)
  have hmap : ∀ pre hdr, topicMap (pre ++ [hdr]) = execTopic (topicMap pre) hdr := fun pre hdr => by
    rw [topicMap, List.foldl_append]
    rfl
  constructor
  · intro hall pre hdr s hpref hp
    have hty : hdr.OnTopic := hpre hpref hdr (by simp)
    obtain ⟨l, hl⟩ := hp.processedTo hinit (hpre ((List.prefix_append _ _).trans hpref))
    refine ⟨_, hl.clientOn, ?_⟩
    obtain ⟨hfail, hgo⟩ := hp.extend hl hty
    rcases execute_spec hl.walkable hl.separated hty with ⟨hgood, -⟩ | ⟨-, ⟨f, hf⟩ | ⟨l', hl', hno⟩⟩
    · exact hgood
    · obtain ⟨s', c', ho, -⟩ := hall _ _ hpref (hfail f hf)
      cases ho
    · obtain ⟨s', hp', hl''⟩ := hgo l' hl'
      obtain ⟨s₁, c₁, ho, hc₁, hm⟩ := hall _ _ hpref hp'
      cases ho
      obtain rfl := Option.some.inj (hl''.clientOn.symm.trans hc₁)
      rw [hmap] at hm
      exact absurd hm (hno _)
  · intro hgood pre o hpref hp
    suffices hsuff : ∃ s l, o = .ok s ∧ ProcessedTo i xs a c ys s l ∧
        Reflects l (topicMap pre) by
      obtain ⟨s, l, rfl, hl, hm⟩ := hsuff
      exact ⟨s, _, rfl, hl.clientOn, hm⟩
    have hstep : ∀ {pre s hdr l}, pre ++ [hdr] <+: cmds → Processed i p.state pre (.ok s) →
        ProcessedTo i xs a c ys s l → Reflects l (topicMap pre) →
        ∃ l', execute l hdr = .ok l' ∧ Reflects l' (topicMap (pre ++ [hdr])) := by
      intro pre s hdr l hpref hp hl hm
      obtain ⟨c', hc', hg⟩ := hgood pre hdr s hpref hp
      obtain rfl := Option.some.inj (hl.clientOn.symm.trans hc')
      rcases execute_spec hl.walkable hl.separated (hpre hpref hdr (by simp)) with
        ⟨-, l', hl', -, -, hm'⟩ | ⟨hno, -⟩
      · exact ⟨l', hl', by rw [hmap]; exact hm' _ hm⟩
      · exact absurd hg hno
    induction hp with
    | nil => exact ⟨_, _, rfl, hinit, represents_nil⟩
    | @snoc pre s₁ hdr r s₂ hp he ih =>
      obtain ⟨s, l, ho, hl, hm⟩ := ih ((List.prefix_append _ _).trans hpref)
      cases ho
      obtain ⟨l', hl', hm'⟩ := hstep hpref hp hl hm
      have hty : hdr.OnTopic := hpre hpref hdr (by simp)
      rcases (manageCommand_exec hl.lists hl.nodes hl.before hl.sock hty.1).mp he with
        ⟨f, hf, -⟩ | ⟨l'', list, hl'', hw, hn, -, ho⟩
      · rw [hl'] at hf
        cases hf
      · obtain rfl := Except.ok.inj (hl'.symm.trans hl'')
        cases ho
        exact ⟨_, _, rfl, hl.step hty hl' hw hn, hm'⟩
    | @fail pre s₁ hdr e hp he ih =>
      obtain ⟨s, l, ho, hl, hm⟩ := ih ((List.prefix_append _ _).trans hpref)
      cases ho
      obtain ⟨l', hl', -⟩ := hstep hpref hp hl hm
      have hty : hdr.OnTopic := hpre hpref hdr (by simp)
      rcases (manageCommand_exec hl.lists hl.nodes hl.before hl.sock hty.1).mp he with
        ⟨f, hf, -⟩ | ⟨l'', list, -, -, -, -, ho⟩
      · rw [hl'] at hf
        cases hf
      · cases ho

/-- A command on a topic. -/
def topicCommand (type sf : Byte) (topic : List Byte) : ClientToServerHdr :=
  ⟨type, sf, .ofList stringLen topic⟩

/-- A connected client without subscriptions. -/
theorem connected_run : ∃ g s hs c, ServerRun sockets g (.select s) hs ∧
    s.clientOn 5 = some c ∧ c.subscribedTopics = .initList := by
  obtain ⟨g, s, hs, hrun, hcheck⟩ := serveScript_check
    [(3, scripted 5 [] (idMessage [65]))]
    (fun x => (x.2.clientOn 5).any fun c => c.subscribedTopics = .initList) (by decide +kernel)
  rw [Option.any_eq_true] at hcheck
  obtain ⟨c, hc, hfresh⟩ := hcheck
  exact ⟨g, s, hs, c, hrun, hc, of_decide_eq_true hfresh⟩

/-- Two topics that differ in their last byte. -/
def closeTopics : List ClientToServerHdr := [topicCommand 0 1 [97, 98], topicCommand 0 0 [97, 99]]

theorem closeTopics_onTopic : ∀ hdr ∈ closeTopics, hdr.OnTopic := by
  unfold ClientToServerHdr.OnTopic
  decide +kernel

theorem closeTopics_processed {s : ServerState} {i : ℤ} {c : ClientStructure} (h : s.Lists)
    (hc : s.clientOn i = some c) (hfresh : c.subscribedTopics = .initList) :
    ∃ o, Processed i s closeTopics o ∧ ¬ MatchesMap i closeTopics o := by
  obtain ⟨xs, a, ys, hinit⟩ := ProcessedTo.init h hc hfresh
  obtain ⟨l, hl, hlen⟩ : ∃ l, closeTopics.foldlM execute .initList = .ok l ∧
      ∀ t ∈ l.toList, t.topic.str ≠ [97, 99] := by
    have hcheck : (match closeTopics.foldlM execute .initList with
      | .ok l => l.toList.all fun t => t.topic.str ≠ [97, 99]
      | .error _ => false) = true := by decide +kernel
    cases hl : closeTopics.foldlM execute .initList with
    | error f =>
      rw [hl] at hcheck
      cases hcheck
    | ok l =>
      rw [hl] at hcheck
      exact ⟨l, rfl, by simpa using hcheck⟩
  obtain ⟨s', hp, hto⟩ := Processed.of_foldlM hinit closeTopics_onTopic hl
  refine ⟨_, hp, ?_⟩
  rintro ⟨s₁, c₁, ho, hc₁, hm⟩
  cases ho
  obtain rfl := Option.some.inj (hto.clientOn.symm.trans hc₁)
  obtain ⟨t, ht, hstr, -⟩ := (hm [97, 99] 0).mpr (by decide +kernel)
  exact hlen t ht hstr

theorem subscriptions_refine_map_close : ∃ g s hs, ServerRun sockets g (.select s) hs ∧
    ∃ pre hdr s', pre ++ [hdr] <+: closeTopics ∧ Processed 5 s pre (.ok s') ∧ ¬ Good 5 s' hdr := by
  obtain ⟨g, s, hs, c, hrun, hc, hfresh⟩ := connected_run
  refine ⟨g, s, hs, hrun, ?_⟩
  obtain ⟨o, hp, hno⟩ := closeTopics_processed hrun.lists hc hfresh
  by_contra hgood
  push Not at hgood
  have hall := (subscriptions_refine_map hrun hc hfresh closeTopics_onTopic).mpr hgood
  exact hno (hall _ _ List.prefix_rfl hp)

/-- Commands on topics that differ in their last byte are taken for each other, and an append after
the last entry was removed writes to freed memory. -/
theorem subscriptions_refine_map_fails :
    ∃ g s hs c, ServerRun sockets g (.select s) hs ∧ s.clientOn 5 = some c ∧
      c.subscribedTopics = .initList ∧
      (∃ o, Processed 5 s closeTopics o ∧ ¬ MatchesMap 5 closeTopics o) ∧
      Processed 5 s [topicCommand 0 1 [97, 97], topicCommand 0 1 [98, 98],
        topicCommand 1 0 [98, 98], topicCommand 0 1 [99, 99]]
        (.error (.fault .useAfterFree)) := by
  obtain ⟨g, s, hs, c, hrun, hc, hfresh⟩ := connected_run
  refine ⟨g, s, hs, c, hrun, hc, hfresh, closeTopics_processed hrun.lists hc hfresh, ?_⟩
  obtain ⟨xs, a, ys, hinit⟩ := ProcessedTo.init hrun.lists hc hfresh
  have hty : ∀ hdr ∈ [topicCommand 0 1 [97, 97], topicCommand 0 1 [98, 98],
      topicCommand 1 0 [98, 98], topicCommand 0 1 [99, 99]], hdr.OnTopic := by
    unfold ClientToServerHdr.OnTopic
    decide +kernel
  obtain ⟨l, hl, hfail⟩ : ∃ l, [topicCommand 0 1 [97, 97], topicCommand 0 1 [98, 98],
      topicCommand 1 0 [98, 98]].foldlM execute .initList = .ok l ∧
      execute l (topicCommand 0 1 [99, 99]) = .error .useAfterFree := by
    refine ⟨_, rfl, ?_⟩
    decide +kernel
  obtain ⟨s', hp, hto⟩ := Processed.of_foldlM hinit
    (fun hdr hm => hty hdr (by simp only [List.mem_cons] at hm ⊢; tauto)) hl
  exact (hp.extend hto (hty _ (by simp))).1 _ hfail

end TopicServer
