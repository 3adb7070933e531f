import TopicServer.Lib.Program

/-!
# Loops around `select`

A `SelectLoop` waits until some of the descriptors that it watches are ready, keeps a copy of the
ready ones, and treats them in increasing order while the index stays within its bound; the
watched set and the bound may change meanwhile, the copy does not. `Run` runs the body of one
descriptor at a time against a protocol and records what was handled; `Run.invariant` is its
induction rule. A `Phase` is the same loop one call at a time, for a loop that shares its
environment with other parties; a `Contract` says what holds between the bodies, and `Phase.Safe`
is what follows for every phase.
-/

namespace Interactive

/-- What the body asks of the loop: go on with the next descriptor, or leave. -/
inductive Flow
  | next
  | leave
  deriving DecidableEq

/-- A loop around `select` on a state `σ`. -/
structure SelectLoop (S : Signature) (ε σ : Type) where
  watched : σ → Finset ℤ
  bound : σ → ℤ
  body : σ → ℤ → Program S ε (σ × Flow)
  finish : σ → Program S ε Unit

/-- A point between two bodies: before `select`, at index `i` of a scan of the ready descriptors
`tmp`, or behind the loop. -/
inductive Point (σ : Type)
  | select (s : σ)
  | scan (s : σ) (tmp : Finset ℤ) (i : ℤ)
  | left (s : σ)

namespace Point

variable {σ : Type}

def state : Point σ → σ
  | .select s => s
  | .scan s _ _ => s
  | .left s => s

@[simp] theorem state_select (s : σ) : (select s).state = s := rfl

@[simp] theorem state_scan (s : σ) (tmp : Finset ℤ) (i : ℤ) : (scan s tmp i).state = s := rfl

@[simp] theorem state_left (s : σ) : (left s).state = s := rfl

/-- The point after the body of descriptor `i`. -/
def following (tmp : Finset ℤ) (i : ℤ) : σ × Flow → Point σ
  | (s, .next) => .scan s tmp (i + 1)
  | (s, .leave) => .left s

@[simp] theorem following_next (tmp : Finset ℤ) (i : ℤ) (s : σ) :
    following tmp i (s, .next) = .scan s tmp (i + 1) := rfl

@[simp] theorem following_leave (tmp : Finset ℤ) (i : ℤ) (s : σ) :
    following tmp i (s, .leave) = .left s := rfl

@[simp] theorem state_following (tmp : Finset ℤ) (i : ℤ) (r : σ × Flow) :
    (following tmp i r).state = r.1 := by
  obtain ⟨s, fl⟩ := r
  cases fl <;> rfl

end Point

/-- One descriptor that was handled: the state before, the descriptor, the calls made with their
answers, and the state after. -/
structure Handled (S : Signature) (σ : Type) where
  pre : σ
  fd : ℤ
  events : List (Event S)
  post : σ

namespace SelectLoop

variable {S : Signature} {ε σ γ : Type} (L : SelectLoop S ε σ)

/-- The runs of the loop from `p₀`, with what they handled. -/
inductive Run (P : Protocol S γ) (g₀ : γ) (p₀ : Point σ) :
    γ → Point σ → List (Handled S σ) → Prop
  | start : Run P g₀ p₀ g₀ p₀ []
  | select {g s hs tmp} : Run P g₀ p₀ g (.select s) hs → tmp ⊆ L.watched s →
      (∀ j ∈ tmp, 0 ≤ j ∧ j ≤ L.bound s) → Run P g₀ p₀ g (.scan s tmp 0) hs
  | skip {g s hs tmp i} : Run P g₀ p₀ g (.scan s tmp i) hs → i ≤ L.bound s → i ∉ tmp →
      Run P g₀ p₀ g (.scan s tmp (i + 1)) hs
  | done {g s hs tmp i} : Run P g₀ p₀ g (.scan s tmp i) hs → L.bound s < i →
      Run P g₀ p₀ g (.select s) hs
  | handle {g s hs tmp i evs r} : Run P g₀ p₀ g (.scan s tmp i) hs → i ≤ L.bound s → i ∈ tmp →
      (L.body s i).Exec evs (.ok r) → P.Obeys g evs →
      Run P g₀ p₀ (P.after g evs) (Point.following tmp i r) (hs ++ [⟨s, i, evs, r.1⟩])

/-- An invariant of the points of the loop holds along its runs, when every body keeps it. -/
theorem Run.invariant {L : SelectLoop S ε σ} {P : Protocol S γ} {g₀ : γ} {p₀ : Point σ}
    (I : γ → Point σ → Prop) (h0 : I g₀ p₀)
    (hselect : ∀ g s tmp, I g (.select s) → tmp ⊆ L.watched s → I g (.scan s tmp 0))
    (hskip : ∀ g s tmp i, I g (.scan s tmp i) → i ∉ tmp → I g (.scan s tmp (i + 1)))
    (hdone : ∀ g s tmp i, I g (.scan s tmp i) → I g (.select s))
    (hbody : ∀ g s tmp i evs r, I g (.scan s tmp i) → i ∈ tmp →
      (L.body s i).Exec evs (.ok r) → P.Obeys g evs → I (P.after g evs) (Point.following tmp i r))
    {g : γ} {p : Point σ} {hs : List (Handled S σ)} (h : L.Run P g₀ p₀ g p hs) : I g p := by
  induction h with
  | start => exact h0
  | select _ hsub _ ih => exact hselect _ _ _ ih hsub
  | skip _ _ hi ih => exact hskip _ _ _ _ ih hi
  | done _ _ ih => exact hdone _ _ _ _ ih
  | handle _ _ hmem he ho ih => exact hbody _ _ _ _ _ _ ih hmem he ho

/-- What is handled decides where the protocol stands. -/
theorem Run.after_eq {L : SelectLoop S ε σ} {P : Protocol S γ} {g₀ g : γ} {p₀ p : Point σ}
    {hs : List (Handled S σ)} (h : L.Run P g₀ p₀ g p hs) :
    (hs.map Handled.events).foldl P.after g₀ = g := by
  induction h with
  | start => rfl
  | select _ _ _ ih => exact ih
  | skip _ _ _ ih => exact ih
  | done _ _ ih => exact ih
  | handle _ _ _ _ _ ih => rw [List.map_append, List.foldl_append, ih]; rfl

/-- A run against a protocol with fewer answers is one against the other. -/
theorem Run.mono {L : SelectLoop S ε σ} {P O : Protocol S γ} {g₀ g : γ} {p₀ p : Point σ}
    {hs : List (Handled S σ)} (hn : ∀ g c r, P.next g c r = O.next g c r)
    (hE : ∀ g c r, P.Expected g c r → O.Expected g c r) (h : L.Run P g₀ p₀ g p hs) :
    L.Run O g₀ p₀ g p hs := by
  induction h with
  | start => exact .start
  | select _ hsub hle ih => exact ih.select hsub hle
  | skip _ hle hi ih => exact ih.skip hle hi
  | done _ hlt ih => exact ih.done hlt
  | @handle g s hs tmp i evs r _ hle hmem he ho ih =>
    have hafter : P.after g evs = O.after g evs :=
      (Protocol.after_map (f := id) (fun d c r => (hn d c r).symm) g evs).symm
    rw [hafter]
    exact ih.handle hle hmem he
      (Protocol.obeys_map (f := id) (fun d c r => (hn d c r).symm) (fun d c r => hE d c r) ho)

/-! ## Scripted runs -/

section Serve

variable {L : SelectLoop S ε σ} {P : Protocol S γ} {g₀ g g' : γ} {p₀ : Point σ} {s s' : σ}
  {hs : List (Handled S σ)}

/-- The index passes the descriptors that are not ready. -/
theorem Run.skipTo {tmp : Finset ℤ} {i : ℤ} (n : ℕ) (h : L.Run P g₀ p₀ g (.scan s tmp i) hs)
    (hle : i + n ≤ L.bound s + 1) (hno : ∀ j, i ≤ j → j < i + n → j ∉ tmp) :
    L.Run P g₀ p₀ g (.scan s tmp (i + n)) hs := by
  induction n with
  | zero => simpa using h
  | succ n ih =>
    have hprev := ih (by push_cast at hle; omega) fun j h1 h2 => hno j h1 (by push_cast; omega)
    have hstep := hprev.skip (by push_cast at hle; omega) (hno _ (by omega) (by push_cast; omega))
    rwa [Nat.cast_succ, ← add_assoc]

/-- One round in which a single descriptor is ready. -/
theorem Run.round {i : ℤ} {evs : List (Event S)} (h : L.Run P g₀ p₀ g (.select s) hs)
    (hi : i ∈ L.watched s) (h0 : 0 ≤ i) (hle : i ≤ L.bound s)
    (he : (L.body s i).Exec evs (.ok (s', .next))) (ho : P.Obeys g evs) :
    L.Run P g₀ p₀ (P.after g evs) (.select s') (hs ++ [⟨s, i, evs, s'⟩]) := by
  obtain ⟨n, rfl⟩ : ∃ n : ℕ, i = n := ⟨i.toNat, by omega⟩
  have hscan : L.Run P g₀ p₀ g (.scan s {(n : ℤ)} 0) hs :=
    h.select (Finset.singleton_subset_iff.mpr hi)
      fun j hj => by rw [Finset.mem_singleton.mp hj]; exact ⟨h0, hle⟩
  have hat := hscan.skipTo n (by omega) fun j _ hj hmem => by
    rw [Finset.mem_singleton] at hmem
    omega
  rw [zero_add] at hat
  have hdone := hat.handle hle (Finset.mem_singleton_self _) he ho
  rw [Point.following_next] at hdone
  rcases lt_or_ge (L.bound s') (n + 1) with hlt | hge
  · exact hdone.done hlt
  · obtain ⟨m, hm⟩ : ∃ m : ℕ, L.bound s' = n + m := ⟨(L.bound s' - n).toNat, by omega⟩
    refine (hdone.skipTo m (by omega) fun j hj _ hmem => ?_).done (by omega)
    rw [Finset.mem_singleton] at hmem
    omega

variable [∀ g c r, Decidable (P.Expected g c r)]

/-- Handle one descriptor after the other, each with its answers to the calls of the body. -/
def serve (L : SelectLoop S ε σ) (P : Protocol S γ) [∀ g c r, Decidable (P.Expected g c r)] :
    List (ℤ × ((c : S.Call) → S.Answer c)) → γ → σ → Option (γ × σ)
  | [], g, s => some (g, s)
  | (i, answers) :: script, g, s =>
    let r := (L.body s i).play (fun _ => answers) 0
    match r.2 with
    | .ok (s', .next) =>
      if i ∈ L.watched s ∧ 0 ≤ i ∧ i ≤ L.bound s ∧ P.Obeys g r.1 then
        L.serve P script (P.after g r.1) s'
      else none
    | _ => none

/-- The calls of a script, descriptor by descriptor. -/
def trace (L : SelectLoop S ε σ) :
    List (ℤ × ((c : S.Call) → S.Answer c)) → σ → List (List (Event S))
  | [], _ => []
  | (i, answers) :: script, s =>
    let r := (L.body s i).play (fun _ => answers) 0
    r.1 :: match r.2 with
    | .ok (s', _) => L.trace script s'
    | .error _ => []

/-- The script leads to a run with its calls, and every event in it has an answer of the script. -/
theorem Run.serve {script : List (ℤ × ((c : S.Call) → S.Answer c))}
    (h : L.Run P g₀ p₀ g (.select s) hs) (hserve : L.serve P script g s = some (g', s')) :
    ∃ hs', L.Run P g₀ p₀ g' (.select s') hs' ∧
      hs'.map Handled.events = hs.map Handled.events ++ L.trace script s ∧ ∀ x ∈ hs', x ∈ hs ∨
        ∃ entry ∈ script, ∀ e ∈ x.events, e = ⟨e.call, entry.2 e.call⟩ := by
  induction script generalizing g s hs with
  | nil =>
    cases hserve
    exact ⟨hs, h, (List.append_nil _).symm, fun x hx => Or.inl hx⟩
  | cons entry script ih =>
    obtain ⟨i, answers⟩ := entry
    have he := Program.exec_play (fun _ => answers) (L.body s i) 0
    have hanswers : ∀ e ∈ ((L.body s i).play (fun _ => answers) 0).1, e = ⟨e.call, answers e.call⟩ :=
      fun e he => Program.mem_play he
    unfold SelectLoop.serve at hserve
    unfold SelectLoop.trace
    simp only at hserve ⊢
    split at hserve
    · rename_i s₁ ho
      rw [ho] at he ⊢
      split_ifs at hserve with hc
      obtain ⟨hs', hrun, htrace, hall⟩ := ih (h.round hc.1 hc.2.1 hc.2.2.1 he hc.2.2.2) hserve
      refine ⟨hs', hrun, ?_, fun x hx => ?_⟩
      · rw [htrace, List.map_append, List.map_singleton, List.append_assoc]
        rfl
      rcases hall x hx with hx | ⟨entry, hmem, hx⟩
      · rcases List.mem_append.mp hx with hx | hx
        · exact Or.inl hx
        · obtain rfl := List.mem_singleton.mp hx
          exact Or.inr ⟨_, List.mem_cons_self, hanswers⟩
      · exact Or.inr ⟨entry, List.mem_cons_of_mem _ hmem, hx⟩
    · cases hserve

end Serve

end SelectLoop

/-! ## One call at a time -/

/-- Where a process with a loop stands: before the loop, at a point of the loop, in the body of
descriptor `i` behind the calls of `done`, behind the loop, or at its end. -/
inductive Phase (S : Signature) (ε σ : Type)
  | starting (rest : Program S ε σ)
  | between (p : Point σ)
  | running (s : σ) (tmp : Finset ℤ) (i : ℤ) (done : List (Event S))
      (rest : Program S ε (σ × Flow))
  | finishing (rest : Program S ε Unit)
  | stopped (e : ε)
  | finished

namespace SelectLoop

variable {S : Signature} {ε σ γ : Type} (L : SelectLoop S ε σ)

/-- The phase of a process that has `p` to do before the loop. -/
def start : Program S ε σ → Phase S ε σ
  | .ret s => .between (.select s)
  | .stop e => .stopped e
  | p => .starting p

/-- The phase of a process that has `p` to do behind the loop. -/
def close : Program S ε Unit → Phase S ε σ
  | .ret _ => .finished
  | .stop e => .stopped e
  | p => .finishing p

/-- The phase of a process that has `p` to do in the body of descriptor `i`, and what it handled
if that is nothing. -/
def settle (s : σ) (tmp : Finset ℤ) (i : ℤ) (done : List (Event S)) :
    Program S ε (σ × Flow) → Phase S ε σ × List (Handled S σ)
  | .ret (s', .next) => (.between (.scan s' tmp (i + 1)), [⟨s, i, done, s'⟩])
  | .ret (s', .leave) => (SelectLoop.close (L.finish s'), [⟨s, i, done, s'⟩])
  | .stop e => (.stopped e, [])
  | p => (.running s tmp i done p, [])

theorem settle_ret {s s' : σ} {tmp : Finset ℤ} {i : ℤ} {done : List (Event S)} {flow : Flow} :
    (L.settle s tmp i done (.ret (s', flow))).2 = [⟨s, i, done, s'⟩] := by
  cases flow <;> rfl

/-- `select` returns the ready descriptors `tmp`. -/
def wake (tmp : Finset ℤ) : Phase S ε σ → Option (Phase S ε σ)
  | .between (.select s) =>
    if tmp ⊆ L.watched s ∧ ∀ j ∈ tmp, 0 ≤ j ∧ j ≤ L.bound s then some (.between (.scan s tmp 0))
    else none
  | _ => none

/-- The loop moves to the next descriptor, into the body of a ready one, or back to `select`. -/
def advance : Phase S ε σ → Option (Phase S ε σ × List (Handled S σ))
  | .between (.scan s tmp i) =>
    if L.bound s < i then some (.between (.select s), [])
    else if i ∈ tmp then some (L.settle s tmp i [] (L.body s i))
    else some (.between (.scan s tmp (i + 1)), [])
  | _ => none

/-- The call that a process makes, and how it goes on with the answer. -/
def ask : Phase S ε σ →
    Option ((c : S.Call) × (S.Answer c → Phase S ε σ × List (Handled S σ)))
  | .starting (.call c k) => some ⟨c, fun r => (SelectLoop.start (k r), [])⟩
  | .running s tmp i done (.call c k) =>
    some ⟨c, fun r => L.settle s tmp i (done ++ [⟨c, r⟩]) (k r)⟩
  | .finishing (.call c k) => some ⟨c, fun r => (SelectLoop.close (k r), [])⟩
  | _ => none

/-- What a loop keeps between its bodies (`At`) and where it stops (`Stop`). -/
structure Contract (P : Protocol S γ) where
  At : γ → Point σ → Prop
  Stop : γ → ε → Prop
  select : ∀ {g s tmp}, At g (.select s) → tmp ⊆ L.watched s →
    (∀ j ∈ tmp, 0 ≤ j ∧ j ≤ L.bound s) → At g (.scan s tmp 0)
  skip : ∀ {g s tmp i}, At g (.scan s tmp i) → i ≤ L.bound s → i ∉ tmp →
    At g (.scan s tmp (i + 1))
  done : ∀ {g s tmp i}, At g (.scan s tmp i) → L.bound s < i → At g (.select s)
  body : ∀ {g s tmp i}, At g (.scan s tmp i) → i ≤ L.bound s → i ∈ tmp →
    (L.body s i).wp P g (Program.post (fun g r => At g (Point.following tmp i r)) Stop)
  finish : ∀ {g s}, At g (.left s) → (L.finish s).wp P g (Program.post (fun _ _ => True) Stop)

end SelectLoop

namespace Phase

variable {S : Signature} {ε σ γ : Type} {L : SelectLoop S ε σ} {P : Protocol S γ}

/-- A process in the ghost state `g` that keeps the contract: it holds between two bodies, and a
running body began where it held. -/
def Safe (C : L.Contract P) (g : γ) : Phase S ε σ → Prop
  | .starting rest => rest.wp P g (Program.post (fun g s => C.At g (.select s)) C.Stop)
  | .between p => C.At g p
  | .running s tmp i done rest => ∃ g₀, C.At g₀ (.scan s tmp i) ∧ i ≤ L.bound s ∧ i ∈ tmp ∧
    (L.body s i).Leads done rest ∧ P.Obeys g₀ done ∧ g = P.after g₀ done
  | .finishing rest =>
    (∃ g₀ s, C.At g₀ (.left s)) ∧ rest.wp P g (Program.post (fun _ _ => True) C.Stop)
  | .stopped e => C.Stop g e
  | .finished => ∃ g₀ s, C.At g₀ (.left s)

section Safe

variable {C : L.Contract P} {g : γ} {p p' : Phase S ε σ} {hs : List (Handled S σ)}

theorem safe_start {rest : Program S ε σ}
    (h : rest.wp P g (Program.post (fun g s => C.At g (.select s)) C.Stop)) :
    Safe C g (SelectLoop.start rest) := by
  cases rest <;> exact h

theorem safe_close {rest : Program S ε Unit} (hleft : ∃ g₀ s, C.At g₀ (.left s))
    (h : rest.wp P g (Program.post (fun _ _ => True) C.Stop)) :
    Safe C g (SelectLoop.close rest) := by
  cases rest with
  | ret a => exact hleft
  | stop e => exact h
  | call c k => exact ⟨hleft, h⟩

/-- What is left of a body keeps the contract. -/
theorem Safe.rest {s : σ} {tmp : Finset ℤ} {i : ℤ} {done : List (Event S)}
    {rest : Program S ε (σ × Flow)} (h : Safe C g (.running s tmp i done rest)) :
    rest.wp P g (Program.post (fun g r => C.At g (Point.following tmp i r)) C.Stop) := by
  obtain ⟨g₀, h0, hle, hmem, hlead, ho, rfl⟩ := h
  exact (C.body h0 hle hmem).leads hlead ho

theorem safe_settle {s : σ} {tmp : Finset ℤ} {i : ℤ} {done : List (Event S)}
    {rest : Program S ε (σ × Flow)}
    (h : Safe C g (.running s tmp i done rest)) : Safe C g (L.settle s tmp i done rest).1 := by
  have hw := h.rest
  match rest with
  | .ret (s', .next) => exact hw
  | .ret (s', .leave) => exact safe_close ⟨g, s', hw⟩ (C.finish hw)
  | .stop e => exact hw
  | .call c k => exact h

theorem Safe.wake {tmp : Finset ℤ} (h : Safe C g p) (hw : L.wake tmp p = some p') :
    Safe C g p' := by
  unfold SelectLoop.wake at hw
  split at hw
  · split_ifs at hw with hc
    cases hw
    exact C.select h hc.1 hc.2
  · cases hw

theorem Safe.advance (h : Safe C g p) (ha : L.advance p = some (p', hs)) : Safe C g p' := by
  unfold SelectLoop.advance at ha
  split at ha
  · rename_i s tmp i
    split_ifs at ha with hdone hmem
    · cases ha
      exact C.done h hdone
    · have hrun : Safe C g (.running s tmp i [] (L.body s i)) :=
        ⟨g, h, not_lt.mp hdone, hmem, .nil, trivial, rfl⟩
      have hp := safe_settle hrun
      rwa [Option.some.inj ha] at hp
    · cases ha
      exact C.skip h (not_lt.mp hdone) hmem
  · cases ha

/-- A call of a process that keeps its contract is allowed, and any expected answer keeps it. -/
theorem Safe.ask {c : S.Call} {k : S.Answer c → Phase S ε σ × List (Handled S σ)}
    (h : Safe C g p) (ha : L.ask p = some ⟨c, k⟩) :
    P.Allowed g c ∧ ∀ r, P.Expected g c r → Safe C (P.next g c r) (k r).1 := by
  unfold SelectLoop.ask at ha
  split at ha
  · cases ha
    exact ⟨h.1, fun r hr => safe_start (h.2 r hr)⟩
  · cases ha
    have hw := h.rest
    obtain ⟨g₀, h0, hle, hmem, hlead, ho, rfl⟩ := h
    refine ⟨hw.1, fun r hr => safe_settle ⟨g₀, h0, hle, hmem, hlead.snoc r, ?_, ?_⟩⟩
    · exact (P.obeys_append).mpr ⟨ho, hr, trivial⟩
    · rw [P.after_append]
      rfl
  · cases ha
    exact ⟨h.2.1, fun r hr => safe_close h.1 (h.2.2 r hr)⟩
  · cases ha

end Safe

/-- Every call that a process has left satisfies `A`. -/
def Only (A : S.Call → Prop) : Phase S ε σ → Prop
  | .starting rest => rest.Calls A
  | .running _ _ _ _ rest => rest.Calls A
  | .finishing rest => rest.Calls A
  | _ => True

section Only

variable {A : S.Call → Prop} {p p' : Phase S ε σ} {hs : List (Handled S σ)}

theorem only_start {rest : Program S ε σ} (h : rest.Calls A) : Only A (SelectLoop.start rest) := by
  cases rest <;> exact h

theorem only_close {rest : Program S ε Unit} (h : rest.Calls A) :
    Only A (SelectLoop.close (σ := σ) rest) := by
  cases rest <;> exact h

theorem only_settle (hfinish : ∀ s, (L.finish s).Calls A) {s : σ} {tmp : Finset ℤ} {i : ℤ}
    {done : List (Event S)} {rest : Program S ε (σ × Flow)} (h : rest.Calls A) :
    Only A (L.settle s tmp i done rest).1 := by
  match rest with
  | .ret (s', .next) => trivial
  | .ret (s', .leave) => exact only_close (hfinish s')
  | .stop e => trivial
  | .call c k => exact h

theorem Only.wake {tmp : Finset ℤ} (hw : L.wake tmp p = some p') : Only A p' := by
  unfold SelectLoop.wake at hw
  split at hw
  · split_ifs at hw
    cases hw
    trivial
  · cases hw

theorem Only.advance (hbody : ∀ s i, (L.body s i).Calls A) (hfinish : ∀ s, (L.finish s).Calls A)
    (ha : L.advance p = some (p', hs)) : Only A p' := by
  unfold SelectLoop.advance at ha
  split at ha
  · rename_i s tmp i
    split_ifs at ha
    · cases ha
      trivial
    · have hp : Only A (L.settle s tmp i [] (L.body s i)).1 := only_settle hfinish (hbody s i)
      rwa [Option.some.inj ha] at hp
    · cases ha
      trivial
  · cases ha

theorem Only.ask (hfinish : ∀ s, (L.finish s).Calls A) {c : S.Call}
    {k : S.Answer c → Phase S ε σ × List (Handled S σ)} (h : Only A p)
    (ha : L.ask p = some ⟨c, k⟩) : A c ∧ ∀ r, Only A (k r).1 := by
  unfold SelectLoop.ask at ha
  split at ha
  · cases ha
    exact ⟨h.1, fun r => only_start (h.2 r)⟩
  · cases ha
    exact ⟨h.1, fun r => only_settle hfinish (h.2 r)⟩
  · cases ha
    exact ⟨h.1, fun r => only_close (h.2 r)⟩
  · cases ha

end Only

/-- A process that is behind what it does before its loop. -/
def Started : Phase S ε σ → Prop
  | .starting _ => False
  | _ => True

section Started

variable {p p' : Phase S ε σ} {hs : List (Handled S σ)}

theorem started_close {rest : Program S ε Unit} :
    Started (SelectLoop.close (σ := σ) rest) := by
  cases rest <;> trivial

theorem started_settle {s : σ} {tmp : Finset ℤ} {i : ℤ} {done : List (Event S)}
    {rest : Program S ε (σ × Flow)} : Started (L.settle s tmp i done rest).1 := by
  match rest with
  | .ret (s', .next) => trivial
  | .ret (s', .leave) => exact started_close
  | .stop e => trivial
  | .call c k => trivial

theorem Started.wake {tmp : Finset ℤ} (hw : L.wake tmp p = some p') : Started p' := by
  unfold SelectLoop.wake at hw
  split at hw
  · split_ifs at hw
    cases hw
    trivial
  · cases hw

theorem Started.advance (ha : L.advance p = some (p', hs)) : Started p' := by
  unfold SelectLoop.advance at ha
  split at ha
  · rename_i s tmp i
    split_ifs at ha
    · cases ha
      trivial
    · have hp : Started (L.settle s tmp i [] (L.body s i)).1 := started_settle
      rwa [Option.some.inj ha] at hp
    · cases ha
      trivial
  · cases ha

theorem Started.ask {c : S.Call} {k : S.Answer c → Phase S ε σ × List (Handled S σ)}
    (h : Started p) (ha : L.ask p = some ⟨c, k⟩) (r : S.Answer c) : Started (k r).1 := by
  unfold SelectLoop.ask at ha
  split at ha
  · exact h.elim
  · cases ha
    exact started_settle
  · cases ha
    exact started_close
  · cases ha

/-- What is handled carries the calls of its body. -/
theorem settle_handled {s : σ} {tmp : Finset ℤ} {i : ℤ} {done : List (Event S)}
    {rest : Program S ε (σ × Flow)} :
    ∀ h ∈ (L.settle s tmp i done rest).2, h.events = done := by
  intro h hh
  cases rest with
  | ret r =>
    rw [SelectLoop.settle_ret] at hh
    rw [List.mem_singleton.mp hh]
  | stop e => cases hh
  | call c k => cases hh

/-- A body that is over without a call has no events. -/
theorem advance_handled (ha : L.advance p = some (p', hs)) : ∀ h ∈ hs, h.events = [] := by
  unfold SelectLoop.advance at ha
  split at ha
  · rename_i s tmp i
    split_ifs at ha
    · cases ha
      simp
    · have hp : ∀ h ∈ (L.settle s tmp i [] (L.body s i)).2, h.events = [] := settle_handled
      rwa [Option.some.inj ha] at hp
    · cases ha
      simp
  · cases ha

end Started

end Phase

end Interactive
