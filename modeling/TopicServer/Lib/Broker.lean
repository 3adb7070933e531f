import Mathlib.Tactic

/-!
# Brokers

A broker keeps one session for each of its clients: the state of its subscriptions, whether it is
online, and the messages that wait for it. A `Policy` says how commands change the subscriptions
and which publications they ask for. The session of a client moves with the operations that concern
it and with no others (`Policy.run_filter`), it is sent only what its subscriptions asked for
(`Policy.run_message`), and policies that answer alike on related subscriptions have related runs
(`Policy.run_simulates`).
-/

namespace PubSub

/-- How commands change the state of the subscriptions, and whether a publication on a topic is for
a client with them: sent at once when it is online, kept when it is offline. -/
structure Policy (S C T : Type) where
  init : S
  exec : C → S → S
  wanted : T → S → Bool
  kept : T → S → Bool

/-- What a broker keeps for a client. -/
structure Session (S M : Type) where
  subs : S
  online : Bool
  queue : List M

/-- What happens to a broker, with clients `K`, commands `C`, topics `T` and messages `M`. -/
inductive Op (K C T M : Type)
  | connect (k : K)
  | leave (k : K)
  | command (k : K) (c : C)
  | publish (t : T) (m : M)
  deriving DecidableEq

variable {K S S' C T M : Type}

/-- Whether an operation concerns a client. -/
def Op.concerns [DecidableEq K] (k : K) : Op K C T M → Bool
  | .connect k' => k' = k
  | .leave k' => k' = k
  | .command k' _ => k' = k
  | .publish .. => true

namespace Policy

variable {P : Policy S C T} {P' : Policy S' C T} {k : K} {ops : List (Op K C T M)} {op : Op K C T M}

/-- The session of a client after an operation that concerns it, and the messages that it is sent.
A client that is online already is not connected a second time. -/
def react (P : Policy S C T) :
    Op K C T M → Option (Session S M) → Option (Session S M) × List M
  | .connect _, none => (some ⟨P.init, true, []⟩, [])
  | .connect _, some s =>
    if s.online then (some s, []) else (some { s with online := true, queue := [] }, s.queue)
  | .leave _, s => (s.map fun s => { s with online := false }, [])
  | .command _ c, s => (s.map fun s => { s with subs := P.exec c s.subs }, [])
  | .publish _ _, none => (none, [])
  | .publish t m, some s =>
    if s.online then (some s, if P.wanted t s.subs then [m] else [])
    else (some { s with queue := s.queue ++ if P.kept t s.subs then [m] else [] }, [])

theorem react_connect (s : Session S M) : P.react (.connect k : Op K C T M) (some s) =
    if s.online then (some s, []) else (some { s with online := true, queue := [] }, s.queue) := rfl

theorem react_publish (t : T) (m : M) (s : Session S M) :
    P.react (.publish t m : Op K C T M) (some s) =
      if s.online then (some s, if P.wanted t s.subs then [m] else [])
      else (some { s with queue := s.queue ++ if P.kept t s.subs then [m] else [] }, []) := rfl

variable [DecidableEq K]

/-- One step of the session of a client. -/
def step (P : Policy S C T) (k : K) (op : Op K C T M) (s : Option (Session S M)) :
    Option (Session S M) × List M :=
  if op.concerns k then P.react op s else (s, [])

/-- The session of a client after some operations, and all messages that it was sent. -/
def run (P : Policy S C T) (k : K) (ops : List (Op K C T M)) : Option (Session S M) × List M :=
  ops.foldl (fun r op => ((P.step k op r.1).1, r.2 ++ (P.step k op r.1).2)) (none, [])

@[simp] theorem run_nil : (P.run k ([] : List (Op K C T M))) = (none, []) := rfl

theorem run_snoc : P.run k (ops ++ [op]) =
    ((P.step k op (P.run k ops).1).1, (P.run k ops).2 ++ (P.step k op (P.run k ops).1).2) := by
  unfold run
  rw [List.foldl_append]
  rfl

theorem step_of_not_concerns {s : Option (Session S M)} (h : op.concerns k = false) :
    P.step k op s = (s, []) := by
  unfold step
  rw [h]
  rfl

/-- A client sees the operations that concern it, and no others. -/
theorem run_filter (P : Policy S C T) (k : K) (ops : List (Op K C T M)) :
    P.run k (ops.filter (Op.concerns k)) = P.run k ops := by
  induction ops using List.reverseRecOn with
  | nil => rfl
  | append_singleton ops op ih =>
    rw [List.filter_append, run_snoc]
    cases h : op.concerns k with
    | true => rw [List.filter_cons_of_pos h, List.filter_nil, run_snoc, ih]
    | false =>
      rw [List.filter_cons_of_neg (by simp [h]), List.filter_nil, List.append_nil, ih,
        step_of_not_concerns h, List.append_nil]

section Provenance

variable {s : Session S M} {m : M}

/-- What holds at first, survives other operations and is kept by the commands of a client holds of
its subscriptions. -/
theorem run_invariant {I : List (Op K C T M) → S → Prop} (hinit : ∀ ops, I ops P.init)
    (hgrow : ∀ ops op s, I ops s → I (ops ++ [op]) s)
    (hexec : ∀ ops c s, I ops s → I (ops ++ [.command k c]) (P.exec c s))
    (h : (P.run k ops).1 = some s) : I ops s.subs := by
  induction ops using List.reverseRecOn generalizing s with
  | nil => cases h
  | append_singleton ops op ih =>
    rw [run_snoc] at h
    simp only at h
    cases hc : op.concerns k with
    | false =>
      rw [step_of_not_concerns hc] at h
      exact hgrow _ _ _ (ih h)
    | true =>
      unfold step at h
      rw [if_pos hc] at h
      cases hold : (P.run k ops).1 with
      | none =>
        rw [hold] at h
        cases op with
        | connect k' =>
          cases h
          exact hinit _
        | leave k' => cases h
        | command k' c => cases h
        | publish t m => cases h
      | some s₀ =>
        have hs₀ : I ops s₀.subs := ih hold
        rw [hold] at h
        cases op with
        | connect k' =>
          rw [react_connect] at h
          split_ifs at h <;> cases h <;> exact hgrow _ _ _ hs₀
        | leave k' =>
          cases h
          exact hgrow _ _ _ hs₀
        | command k' c =>
          obtain rfl : k' = k := of_decide_eq_true hc
          cases h
          exact hexec _ _ _ hs₀
        | publish t m =>
          rw [react_publish] at h
          split_ifs at h <;> cases h <;> exact hgrow _ _ _ hs₀

/-- A message that a step sends or keeps is published by it, or was kept before. -/
theorem step_message {s₀ : Option (Session S M)}
    (h : m ∈ (P.step k op s₀).2 ∨ ∃ s, (P.step k op s₀).1 = some s ∧ m ∈ s.queue) :
    (∃ s, s₀ = some s ∧ m ∈ s.queue) ∨
    ∃ t s, op = .publish t m ∧ s₀ = some s ∧ (P.wanted t s.subs = true ∨ P.kept t s.subs = true) := by
  cases hc : op.concerns k with
  | false =>
    rw [step_of_not_concerns hc] at h
    rcases h with h | h
    · cases h
    · exact Or.inl h
  | true =>
    unfold step at h
    rw [if_pos hc] at h
    cases s₀ with
    | none =>
      cases op with
      | connect k' =>
        rcases h with h | ⟨s, hs, hm⟩
        · cases h
        · cases hs
          cases hm
      | _ =>
        rcases h with h | ⟨s, hs, -⟩
        · cases h
        · cases hs
    | some s =>
      cases op with
      | connect k' =>
        rw [react_connect] at h
        split_ifs at h
        · rcases h with h | h
          · cases h
          · exact Or.inl h
        · rcases h with h | ⟨s', hs', hm⟩
          · exact Or.inl ⟨s, rfl, h⟩
          · cases hs'
            cases hm
      | leave k' | command k' c =>
        rcases h with h | ⟨s', hs', hm⟩
        · cases h
        · cases hs'
          exact Or.inl ⟨s, rfl, hm⟩
      | publish t m' =>
        rw [react_publish] at h
        split_ifs at h with hon hw hk
        · rcases h with h | h
          · obtain rfl := List.mem_singleton.mp h
            exact Or.inr ⟨t, s, rfl, rfl, Or.inl hw⟩
          · exact Or.inl h
        · rcases h with h | h
          · cases h
          · exact Or.inl h
        · rcases h with h | ⟨s', hs', hm⟩
          · cases h
          cases hs'
          rcases List.mem_append.mp hm with hm | hm
          · exact Or.inl ⟨s, rfl, hm⟩
          · obtain rfl := List.mem_singleton.mp hm
            exact Or.inr ⟨t, s, rfl, rfl, Or.inr hk⟩
        · rcases h with h | ⟨s', hs', hm⟩
          · cases h
          cases hs'
          exact Or.inl ⟨s, rfl, by simpa using hm⟩

/-- Whatever a client was sent, and what is kept for it, was published while its subscriptions
asked for it. -/
theorem run_message
    (h : m ∈ (P.run k ops).2 ∨ ∃ s, (P.run k ops).1 = some s ∧ m ∈ s.queue) :
    ∃ pre t post s, ops = pre ++ .publish t m :: post ∧ (P.run k pre).1 = some s ∧
      (P.wanted t s.subs = true ∨ P.kept t s.subs = true) := by
  induction ops using List.reverseRecOn with
  | nil =>
    rcases h with h | ⟨s, hs, -⟩
    · cases h
    · cases hs
  | append_singleton ops op ih =>
    have hold : (m ∈ (P.run k ops).2 ∨ ∃ s, (P.run k ops).1 = some s ∧ m ∈ s.queue) →
        ∃ pre t post s, ops ++ [op] = pre ++ .publish t m :: post ∧ (P.run k pre).1 = some s ∧
          (P.wanted t s.subs = true ∨ P.kept t s.subs = true) := by
      intro hm
      obtain ⟨pre, t, post, s, rfl, hs, hasked⟩ := ih hm
      exact ⟨pre, t, post ++ [op], s, by rw [List.append_assoc]; rfl, hs, hasked⟩
    rw [run_snoc, List.mem_append, or_assoc] at h
    rcases h with h | h
    · exact hold (Or.inl h)
    rcases step_message h with h | ⟨t, s, rfl, hs, hasked⟩
    · exact hold (Or.inr h)
    · exact ⟨ops, t, [], s, rfl, hs, hasked⟩

end Provenance

/-- Sessions with related subscriptions that agree otherwise. -/
def Related (R : S → S' → Prop) (s : Option (Session S M)) (s' : Option (Session S' M)) : Prop :=
  Option.Rel (fun s s' => R s.subs s'.subs ∧ s.online = s'.online ∧ s.queue = s'.queue) s s'

theorem Related.mono {R R' : S → S' → Prop} {s : Option (Session S M)}
    {s' : Option (Session S' M)} (hR : ∀ s s', R s s' → R' s s') (h : Related R s s') :
    Related R' s s' := by
  cases h with
  | none => exact .none
  | some h => exact .some ⟨hR _ _ h.1, h.2⟩

section Simulates

variable {R : S → S' → Prop}

/-- A step takes related sessions to related ones, and sends the same messages. -/
theorem step_simulates (hinit : R P.init P'.init)
    (hexec : ∀ k c s s', op = .command k c → R s s' → R (P.exec c s) (P'.exec c s'))
    (hpublish : ∀ t m s s', op = .publish t m → R s s' →
      P.wanted t s = P'.wanted t s' ∧ P.kept t s = P'.kept t s')
    {s : Option (Session S M)} {s' : Option (Session S' M)} (h : Related R s s') :
    Related R (P.step k op s).1 (P'.step k op s').1 ∧ (P.step k op s).2 = (P'.step k op s').2 := by
  unfold step
  split_ifs with hc
  swap
  · exact ⟨h, rfl⟩
  cases h with
  | none =>
    cases op with
    | connect k' => exact ⟨.some ⟨hinit, rfl, rfl⟩, rfl⟩
    | leave k' => exact ⟨.none, rfl⟩
    | command k' c => exact ⟨.none, rfl⟩
    | publish t m => exact ⟨.none, rfl⟩
  | @some s s' h =>
    obtain ⟨subs, online, queue⟩ := s
    obtain ⟨subs', online', queue'⟩ := s'
    obtain ⟨hR, rfl, rfl⟩ := h
    cases op with
    | connect k' =>
      rw [react_connect, react_connect]
      split_ifs
      · exact ⟨.some ⟨hR, rfl, rfl⟩, rfl⟩
      · exact ⟨.some ⟨hR, rfl, rfl⟩, rfl⟩
    | leave k' => exact ⟨.some ⟨hR, rfl, rfl⟩, rfl⟩
    | command k' c => exact ⟨.some ⟨hexec k' c _ _ rfl hR, rfl, rfl⟩, rfl⟩
    | publish t m =>
      obtain ⟨hw, hk⟩ := hpublish t m _ _ rfl hR
      rw [react_publish, react_publish, hw, hk]
      split_ifs
      all_goals exact ⟨.some ⟨hR, rfl, rfl⟩, rfl⟩

/-- Policies that answer alike on related subscriptions, for the operations of a run, have related
runs, in which every client is sent the same. -/
theorem run_simulates (hinit : R P.init P'.init)
    (hexec : ∀ k c s s', .command k c ∈ ops → R s s' → R (P.exec c s) (P'.exec c s'))
    (hpublish : ∀ t m s s', .publish t m ∈ ops → R s s' →
      P.wanted t s = P'.wanted t s' ∧ P.kept t s = P'.kept t s') :
    Related R (P.run k ops).1 (P'.run k ops).1 ∧ (P.run k ops).2 = (P'.run k ops).2 := by
  induction ops using List.reverseRecOn with
  | nil => exact ⟨.none, rfl⟩
  | append_singleton ops op ih =>
    obtain ⟨hrel, hsent⟩ := ih
      (fun k c s s' hmem => hexec k c s s' (List.mem_append_left _ hmem))
      (fun t m s s' hmem => hpublish t m s s' (List.mem_append_left _ hmem))
    have hlast : op ∈ ops ++ [op] := by simp
    obtain ⟨hrel', hsent'⟩ := step_simulates (k := k) hinit
      (fun k c s s' he => hexec k c s s' (he ▸ hlast))
      (fun t m s s' he => hpublish t m s s' (he ▸ hlast)) hrel
    rw [run_snoc, run_snoc]
    exact ⟨hrel', by rw [hsent, hsent']⟩

end Simulates

end Policy

end PubSub
