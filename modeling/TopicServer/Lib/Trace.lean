import TopicServer.Lib.SelectLoop

/-!
# The calls behind a phase

A process that is taken one call at a time has made some calls already. `Tracks` says which ones
lead to a phase, and that what was handled is a run of its loop; it is kept by every move, with
one event more for every call (`Tracks.ask`). So whatever is known of the runs of a loop is known
of a process among others.
-/

namespace Interactive

namespace SelectLoop

variable {S : Signature} {ε σ γ : Type} (L : SelectLoop S ε σ)

/-- A loop that is entered behind `init` comes to the point `p` by the calls `evs`. -/
def Arrives (P : Protocol S γ) (g₀ : γ) (init : Program S ε σ) (g : γ) (p : Point σ)
    (hs : List (Handled S σ)) (evs : List (Event S)) : Prop :=
  ∃ es s₀, init.Exec es (.ok s₀) ∧ P.Obeys g₀ es ∧ L.Run P (P.after g₀ es) (.select s₀) g p hs ∧
    evs = es ++ hs.flatMap Handled.events

section Arrives

variable {L : SelectLoop S ε σ} {P : Protocol S γ} {g₀ g : γ} {init : Program S ε σ}
  {p p' : Point σ} {hs : List (Handled S σ)} {evs done : List (Event S)}

/-- A step of the loop without calls. -/
theorem Arrives.mono (h : L.Arrives P g₀ init g p hs evs)
    (hstep : ∀ {g₁ p₁}, L.Run P g₁ p₁ g p hs → L.Run P g₁ p₁ g p' hs) :
    L.Arrives P g₀ init g p' hs evs := by
  obtain ⟨es, s₀, hstart, hobeys, hrun, hev⟩ := h
  exact ⟨es, s₀, hstart, hobeys, hstep hrun, hev⟩

/-- The body of a ready descriptor. -/
theorem Arrives.handle {s : σ} {tmp : Finset ℤ} {i : ℤ} {r : σ × Flow}
    (h : L.Arrives P g₀ init g (.scan s tmp i) hs evs) (hle : i ≤ L.bound s) (hmem : i ∈ tmp)
    (he : (L.body s i).Exec done (.ok r)) (ho : P.Obeys g done) :
    L.Arrives P g₀ init (P.after g done) (.following tmp i r) (hs ++ [⟨s, i, done, r.1⟩])
      (evs ++ done) := by
  obtain ⟨es, s₀, hstart, hobeys, hrun, rfl⟩ := h
  refine ⟨es, s₀, hstart, hobeys, hrun.handle hle hmem he ho, ?_⟩
  rw [List.flatMap_append, List.flatMap_singleton, List.append_assoc]

end Arrives

end SelectLoop

namespace Phase

variable {S : Signature} {ε σ γ : Type}

/-- By the calls `evs` a process comes to a phase, and has handled `hs`. -/
inductive Tracks (L : SelectLoop S ε σ) (P : Protocol S γ) (g₀ : γ) (init : Program S ε σ) :
    γ → List (Handled S σ) → List (Event S) → Phase S ε σ → Prop
  | starting {done c k} : init.Leads done (.call c k) → P.Obeys g₀ done →
      Tracks L P g₀ init (P.after g₀ done) [] done (.starting (.call c k))
  | between {g p hs evs} : L.Arrives P g₀ init g p hs evs → (∀ s, p ≠ .left s) →
      Tracks L P g₀ init g hs evs (.between p)
  | running {g s tmp i hs evs done c k} : L.Arrives P g₀ init g (.scan s tmp i) hs evs →
      i ≤ L.bound s → i ∈ tmp → (L.body s i).Leads done (.call c k) → P.Obeys g done →
      Tracks L P g₀ init (P.after g done) hs (evs ++ done) (.running s tmp i done (.call c k))
  | finishing {g s hs evs done c k} : L.Arrives P g₀ init g (.left s) hs evs →
      (L.finish s).Leads done (.call c k) → P.Obeys g done →
      Tracks L P g₀ init (P.after g done) hs (evs ++ done) (.finishing (.call c k))
  | finished {g s hs evs done} : L.Arrives P g₀ init g (.left s) hs evs →
      (L.finish s).Exec done (.ok ()) → P.Obeys g done →
      Tracks L P g₀ init (P.after g done) hs (evs ++ done) .finished
  | failedStart {done e} : init.Exec done (.error e) → P.Obeys g₀ done →
      Tracks L P g₀ init (P.after g₀ done) [] done (.stopped e)
  | failed {g s tmp i hs evs done e} : L.Arrives P g₀ init g (.scan s tmp i) hs evs →
      i ≤ L.bound s → i ∈ tmp → (L.body s i).Exec done (.error e) → P.Obeys g done →
      Tracks L P g₀ init (P.after g done) hs (evs ++ done) (.stopped e)
  | failedFinish {g s hs evs done e} : L.Arrives P g₀ init g (.left s) hs evs →
      (L.finish s).Exec done (.error e) → P.Obeys g done →
      Tracks L P g₀ init (P.after g done) hs (evs ++ done) (.stopped e)

variable {L : SelectLoop S ε σ} {P : Protocol S γ} {g₀ g : γ} {init : Program S ε σ}
  {p p' : Phase S ε σ} {hs hs' : List (Handled S σ)} {evs done : List (Event S)}

/-- The program before the loop has made the calls of `done`. -/
theorem tracks_start {rest : Program S ε σ} (h : init.Leads done rest) (ho : P.Obeys g₀ done) :
    Tracks L P g₀ init (P.after g₀ done) [] done (SelectLoop.start rest) := by
  cases rest with
  | ret s =>
    have he := h.exec (o := .ok s) ⟨rfl, rfl⟩
    rw [List.append_nil] at he
    exact .between ⟨done, s, he, ho, .start, (List.append_nil _).symm⟩ nofun
  | stop e =>
    have he := h.exec (o := .error e) ⟨rfl, rfl⟩
    rw [List.append_nil] at he
    exact .failedStart he ho
  | call c k => exact .starting h ho

/-- The program behind the loop has made the calls of `done`. -/
theorem tracks_close {s : σ} {rest : Program S ε Unit}
    (ha : L.Arrives P g₀ init g (.left s) hs evs) (h : (L.finish s).Leads done rest)
    (ho : P.Obeys g done) :
    Tracks L P g₀ init (P.after g done) hs (evs ++ done) (SelectLoop.close rest) := by
  cases rest with
  | ret u =>
    have he := h.exec (o := .ok u) ⟨rfl, rfl⟩
    rw [List.append_nil] at he
    exact .finished ha he ho
  | stop e =>
    have he := h.exec (o := .error e) ⟨rfl, rfl⟩
    rw [List.append_nil] at he
    exact .failedFinish ha he ho
  | call c k => exact .finishing ha h ho

/-- The body of a ready descriptor has made the calls of `done`. -/
theorem tracks_settle {s : σ} {tmp : Finset ℤ} {i : ℤ} {rest : Program S ε (σ × Flow)}
    (ha : L.Arrives P g₀ init g (.scan s tmp i) hs evs) (hle : i ≤ L.bound s) (hmem : i ∈ tmp)
    (h : (L.body s i).Leads done rest) (ho : P.Obeys g done) :
    Tracks L P g₀ init (P.after g done) (hs ++ (L.settle s tmp i done rest).2) (evs ++ done)
      (L.settle s tmp i done rest).1 := by
  match rest with
  | .ret (s', .next) =>
    have he := h.exec (o := .ok (s', .next)) ⟨rfl, rfl⟩
    rw [List.append_nil] at he
    exact .between (ha.handle hle hmem he ho) nofun
  | .ret (s', .leave) =>
    have he := h.exec (o := .ok (s', .leave)) ⟨rfl, rfl⟩
    rw [List.append_nil] at he
    have hclose := tracks_close (ha.handle hle hmem he ho) .nil trivial
    rwa [List.append_nil] at hclose
  | .stop e =>
    have he := h.exec (o := .error e) ⟨rfl, rfl⟩
    rw [List.append_nil] at he
    show Tracks L P g₀ init _ (hs ++ []) _ _
    rw [List.append_nil]
    exact .failed ha hle hmem he ho
  | .call c k =>
    show Tracks L P g₀ init _ (hs ++ []) _ _
    rw [List.append_nil]
    exact .running ha hle hmem h ho

theorem Tracks.wake {tmp : Finset ℤ} (h : Tracks L P g₀ init g hs evs p)
    (hw : L.wake tmp p = some p') : Tracks L P g₀ init g hs evs p' := by
  unfold SelectLoop.wake at hw
  split at hw
  · split_ifs at hw with hc
    cases hw
    cases h with
    | between ha => exact .between (ha.mono fun hrun => hrun.select hc.1 hc.2) nofun
  · cases hw

theorem Tracks.advance (h : Tracks L P g₀ init g hs evs p) (ha : L.advance p = some (p', hs')) :
    Tracks L P g₀ init g (hs ++ hs') evs p' := by
  unfold SelectLoop.advance at ha
  split at ha
  · rename_i s tmp i
    cases h with
    | between harr =>
      split_ifs at ha with hdone hmem
      · cases ha
        rw [List.append_nil]
        exact .between (harr.mono fun hrun => hrun.done hdone) nofun
      · have hsettle := tracks_settle harr (not_lt.mp hdone) hmem .nil trivial
        rw [Option.some.inj ha, List.append_nil] at hsettle
        exact hsettle
      · cases ha
        rw [List.append_nil]
        exact .between (harr.mono fun hrun => hrun.skip (not_lt.mp hdone) hmem) nofun
  · cases ha

/-- A call adds one event, with any answer that is expected. -/
theorem Tracks.ask {c : S.Call} {k : S.Answer c → Phase S ε σ × List (Handled S σ)}
    (h : Tracks L P g₀ init g hs evs p) (ha : L.ask p = some ⟨c, k⟩) {r : S.Answer c}
    (hr : P.Expected g c r) :
    Tracks L P g₀ init (P.next g c r) (hs ++ (k r).2) (evs ++ [⟨c, r⟩]) (k r).1 := by
  unfold SelectLoop.ask at ha
  split at ha
  · cases ha
    cases h with
    | starting hlead ho =>
      have hobeys : P.Obeys g₀ (evs ++ [⟨c, r⟩]) := P.obeys_append.mpr ⟨ho, hr, trivial⟩
      have hstart := tracks_start (L := L) (hlead.snoc r) hobeys
      rw [P.after_append] at hstart
      exact hstart
  · rename_i s tmp i done _ _
    cases ha
    cases h with
    | @running g _ _ _ hs evs _ _ _ harr hle hmem hlead ho =>
      have hobeys : P.Obeys g (done ++ [⟨c, r⟩]) := P.obeys_append.mpr ⟨ho, hr, trivial⟩
      have hsettle := tracks_settle harr hle hmem (hlead.snoc r) hobeys
      rw [P.after_append, ← List.append_assoc] at hsettle
      exact hsettle
  · cases ha
    cases h with
    | @finishing g s hs evs done _ _ harr hlead ho =>
      have hobeys : P.Obeys g (done ++ [⟨c, r⟩]) := P.obeys_append.mpr ⟨ho, hr, trivial⟩
      have hclose := tracks_close harr (hlead.snoc r) hobeys
      rw [P.after_append, ← List.append_assoc] at hclose
      show Tracks L P g₀ init _ (hs ++ []) _ _
      rw [List.append_nil]
      exact hclose
  · cases ha

/-- The call that a process makes is one of those of its program, of the body of a descriptor of a
run, or of what it does behind the loop. -/
theorem Tracks.asks {A : S.Call → Prop} {c : S.Call}
    {k : S.Answer c → Phase S ε σ × List (Handled S σ)} (h : Tracks L P g₀ init g hs evs p)
    (hinit : init.Calls A)
    (hbody : ∀ {g s tmp i hs evs}, L.Arrives P g₀ init g (.scan s tmp i) hs evs →
      (L.body s i).Calls A)
    (hfinish : ∀ s, (L.finish s).Calls A) (ha : L.ask p = some ⟨c, k⟩) : A c := by
  unfold SelectLoop.ask at ha
  split at ha
  · cases ha
    cases h with
    | starting hlead ho => exact (hinit.leads hlead).1
  · cases ha
    cases h with
    | running harr _ _ hlead _ => exact ((hbody harr).leads hlead).1
  · cases ha
    cases h with
    | finishing _ hlead _ => exact ((hfinish _).leads hlead).1
  · cases ha

end Phase

/-! ## Contracts -/

theorem Protocol.obeys_of_all {S : Signature} {δ : Type} {O : Protocol S δ}
    (hE : ∀ d c r, O.Expected d c r) (d : δ) (evs : List (Event S)) : O.Obeys d evs := by
  induction evs generalizing d with
  | nil => trivial
  | cons e evs ih => exact ⟨hE _ _ _, ih _⟩

section Contracts

variable {S : Signature} {ε σ γ δ : Type} {L : SelectLoop S ε σ} {P : Protocol S γ} {g₀ g : γ}
  {init : Program S ε σ} {hs : List (Handled S σ)} {evs : List (Event S)} {O : Protocol S δ}
  {C : L.Contract O} {d : δ}

/-- A contract against a protocol that expects any answer is kept by what a process calls. -/
theorem SelectLoop.Arrives.contract {p : Point σ} (h : L.Arrives P g₀ init g p hs evs)
    (hE : ∀ d c r, O.Expected d c r)
    (hinit : init.wp O d (Program.post (fun d s => C.At d (.select s)) C.Stop)) :
    C.At (O.after d evs) p := by
  obtain ⟨es, s₀, hstart, -, hrun, rfl⟩ := h
  induction hrun with
  | start =>
    rw [List.flatMap_nil, List.append_nil]
    exact hinit.exec hstart (Protocol.obeys_of_all hE _ _)
  | select _ hsub hle ih => exact C.select ih hsub hle
  | skip _ hle hi ih => exact C.skip ih hle hi
  | done _ hlt ih => exact C.done ih hlt
  | handle _ hle hmem he _ ih =>
    rw [List.flatMap_append, List.flatMap_singleton, ← List.append_assoc, O.after_append]
    exact (C.body ih hle hmem).exec he (Protocol.obeys_of_all hE _ _)

theorem Phase.Tracks.safe {p : Phase S ε σ} (h : Phase.Tracks L P g₀ init g hs evs p)
    (hE : ∀ d c r, O.Expected d c r)
    (hinit : init.wp O d (Program.post (fun d s => C.At d (.select s)) C.Stop)) :
    Phase.Safe C (O.after d evs) p := by
  have hobeys := fun d evs => Protocol.obeys_of_all (O := O) hE d evs
  cases h with
  | starting hlead _ => exact hinit.leads hlead (hobeys _ _)
  | between harr => exact harr.contract hE hinit
  | running harr hle hmem hlead _ =>
    rw [O.after_append]
    exact ⟨_, harr.contract hE hinit, hle, hmem, hlead, hobeys _ _, rfl⟩
  | finishing harr hlead _ =>
    rw [O.after_append]
    have hat := harr.contract hE hinit
    exact ⟨⟨_, _, hat⟩, (C.finish hat).leads hlead (hobeys _ _)⟩
  | finished harr _ _ => exact ⟨_, _, harr.contract hE hinit⟩
  | failedStart he _ => exact hinit.exec he (hobeys _ _)
  | failed harr hle hmem he _ =>
    rw [O.after_append]
    exact (C.body (harr.contract hE hinit) hle hmem).exec he (hobeys _ _)
  | failedFinish harr he _ =>
    rw [O.after_append]
    exact (C.finish (harr.contract hE hinit)).exec he (hobeys _ _)

/-- In a state in which nothing may be called and no body may begin a process is over. -/
theorem Phase.Tracks.over {p : Phase S ε σ} (h : Phase.Tracks L P g₀ init g hs evs p)
    (hsafe : Phase.Safe C d p) (hallowed : ∀ c, ¬ O.Allowed d c) (hat : ∀ q, ¬ C.At d q) :
    p = .finished ∨ ∃ e, p = .stopped e ∧ C.Stop d e := by
  cases h with
  | starting => exact absurd hsafe.1 (hallowed _)
  | between => exact absurd hsafe (hat _)
  | running => exact absurd hsafe.rest.1 (hallowed _)
  | finishing => exact absurd hsafe.2.1 (hallowed _)
  | finished => exact Or.inl rfl
  | failedStart => exact Or.inr ⟨_, rfl, hsafe⟩
  | failed => exact Or.inr ⟨_, rfl, hsafe⟩
  | failedFinish => exact Or.inr ⟨_, rfl, hsafe⟩

end Contracts

/-! ## What is kept of the calls -/

namespace Protocol

variable {S : Signature}

/-- The history of the calls; `A` says which call may follow which history. -/
def watching (A : List (Event S) → S.Call → Prop) : Protocol S (List (Event S)) where
  Allowed := A
  Expected _ _ _ := True
  next es c r := es ++ [⟨c, r⟩]

variable {A : List (Event S) → S.Call → Prop}

@[simp] theorem after_watching (es evs : List (Event S)) :
    (watching A).after es evs = es ++ evs := by
  induction evs generalizing es with
  | nil => exact (List.append_nil es).symm
  | cons e evs ih =>
    obtain ⟨c, r⟩ := e
    rw [after_cons, ih]
    exact List.append_assoc es [⟨c, r⟩] evs

theorem obeys_watching (es evs : List (Event S)) : (watching A).Obeys es evs := by
  induction evs generalizing es with
  | nil => trivial
  | cons e evs ih => exact ⟨trivial, ih _⟩

end Protocol

namespace Program

variable {S : Signature} {ε α : Type} {A : List (Event S) → S.Call → Prop} {p q : Program S ε α}
  {es evs : List (Event S)}

theorem wp.watched {Q : List (Event S) → Except ε α → Prop} (h : p.wp (.watching A) es Q)
    (hlead : p.Leads evs q) : q.wp (.watching A) (es ++ evs) Q := by
  have hq := h.leads hlead (Protocol.obeys_watching es evs)
  rwa [Protocol.after_watching] at hq

theorem wp.ends {Q : List (Event S) → Except ε α → Prop} {o : Except ε α}
    (h : p.wp (.watching A) es Q) (he : p.Exec evs o) : Q (es ++ evs) o := by
  have hq := h.exec he (Protocol.obeys_watching es evs)
  rwa [Protocol.after_watching] at hq

/-- Calls that may follow any history which begins with `es`. -/
theorem Calls.watching {D : S.Call → Prop} (h : p.Calls D)
    (hA : ∀ evs c, D c → A (es ++ evs) c) :
    p.wp (.watching A) es (Program.post (fun _ _ => True) fun _ _ => True) := by
  induction p generalizing es with
  | ret a => trivial
  | stop e => trivial
  | call c k ih =>
    refine ⟨?_, fun r _ => ih r (h.2 r) fun evs c' hc => ?_⟩
    · have hc := hA [] c h.1
      rwa [List.append_nil] at hc
    · show A (es ++ [⟨c, r⟩] ++ evs) c'
      rw [List.append_assoc]
      exact hA _ c' hc

end Program

section Keeps

variable {S : Signature} {ε σ γ : Type} {L : SelectLoop S ε σ} {P : Protocol S γ} {g₀ g : γ}
  {init : Program S ε σ} {hs : List (Handled S σ)} {evs : List (Event S)}
  {A : List (Event S) → S.Call → Prop} {B F : List (Event S) → Prop}
  {E : List (Event S) → ε → Prop}

/-- Between two bodies holds what the program before the loop and every body leave behind. -/
theorem SelectLoop.Arrives.keeps {p : Point σ} (h : L.Arrives P g₀ init g p hs evs)
    (hinit : init.wp (.watching A) [] (Program.post (fun es _ => B es) E))
    (hbody : ∀ {g s tmp i hs es}, L.Arrives P g₀ init g (.scan s tmp i) hs es → B es →
      (L.body s i).wp (.watching A) es (Program.post (fun es _ => B es) E)) : B evs := by
  obtain ⟨es, s₀, hstart, hobeys, hrun, rfl⟩ := h
  induction hrun with
  | start =>
    rw [List.flatMap_nil, List.append_nil]
    exact hinit.ends hstart
  | select _ _ _ ih => exact ih
  | skip _ _ _ ih => exact ih
  | done _ _ ih => exact ih
  | handle hrun _ _ he _ ih =>
    have hpost := (hbody ⟨es, s₀, hstart, hobeys, hrun, rfl⟩ ih).ends he
    rwa [List.flatMap_append, List.flatMap_singleton, ← List.append_assoc]

/-- What is known of the calls of a process in its phase: `B` between two bodies, `E` where it
stops, `F` at its end, and what it calls may follow what it called. -/
def Phase.Kept (A : List (Event S) → S.Call → Prop) (B : List (Event S) → Prop)
    (E : List (Event S) → ε → Prop) (F : List (Event S) → Prop) (evs : List (Event S)) :
    Phase S ε σ → Prop
  | .starting rest => rest.wp (.watching A) evs (Program.post (fun es _ => B es) E)
  | .between _ => B evs
  | .running _ _ _ _ rest => rest.wp (.watching A) evs (Program.post (fun es _ => B es) E)
  | .finishing rest => rest.wp (.watching A) evs (Program.post (fun es _ => F es) E)
  | .stopped e => E evs e
  | .finished => F evs

/-- What the program before the loop and every body keep of the calls is known of a process. -/
theorem Phase.Tracks.keeps {p : Phase S ε σ} (h : Phase.Tracks L P g₀ init g hs evs p)
    (hinit : init.wp (.watching A) [] (Program.post (fun es _ => B es) E))
    (hbody : ∀ {g s tmp i hs es}, L.Arrives P g₀ init g (.scan s tmp i) hs es → B es →
      (L.body s i).wp (.watching A) es (Program.post (fun es _ => B es) E))
    (hfinish : ∀ es s, B es →
      (L.finish s).wp (.watching A) es (Program.post (fun es _ => F es) E)) :
    Phase.Kept A B E F evs p := by
  cases h with
  | starting hlead _ => exact hinit.watched hlead
  | between harr => exact harr.keeps hinit hbody
  | running harr _ _ hlead _ => exact (hbody harr (harr.keeps hinit hbody)).watched hlead
  | finishing harr hlead _ => exact (hfinish _ _ (harr.keeps hinit hbody)).watched hlead
  | finished harr he _ => exact (hfinish _ _ (harr.keeps hinit hbody)).ends he
  | failedStart he _ => exact hinit.ends he
  | failed harr _ _ he _ => exact (hbody harr (harr.keeps hinit hbody)).ends he
  | failedFinish harr he _ => exact (hfinish _ _ (harr.keeps hinit hbody)).ends he

theorem Phase.Kept.asks {p : Phase S ε σ} {c : S.Call}
    {k : S.Answer c → Phase S ε σ × List (Handled S σ)} (h : Phase.Kept A B E F evs p)
    (hask : L.ask p = some ⟨c, k⟩) : A evs c := by
  unfold SelectLoop.ask at hask
  split at hask
  · cases hask
    exact h.1
  · cases hask
    exact h.1
  · cases hask
    exact h.1
  · cases hask

end Keeps

end Interactive
