import Mathlib.Tactic

/-!
# Programs that call their environment

A `Program` is a finite tree of calls: it returns a value, stops with a reason, or makes a call
and goes on with the answer. `Exec` says which calls and answers lead a program to which
outcome. A `Protocol` adds a ghost state that every call moves, with the calls a program may make
in it and the answers it may get; `wp` is the weakest precondition of a program against a
protocol, with its rules for `bind`, folds over a list, and executions (`wp.exec`).
-/

namespace Interactive

/-- The calls of a program and the type of the answer to each. -/
structure Signature where
  Call : Type
  Answer : Call → Type

/-- A call together with its answer. -/
structure Event (S : Signature) where
  call : S.Call
  answer : S.Answer call

/-- A program over `S` that ends with an `α` or stops with an `ε`. -/
inductive Program (S : Signature) (ε α : Type) : Type
  | ret (a : α)
  | stop (e : ε)
  | call (c : S.Call) (k : S.Answer c → Program S ε α)

namespace Program

variable {S : Signature} {ε α β : Type}

def bind : Program S ε α → (α → Program S ε β) → Program S ε β
  | .ret a, f => f a
  | .stop e, _ => .stop e
  | .call c k, f => .call c fun r => (k r).bind f

instance : Monad (Program S ε) where
  pure := .ret
  bind := bind

@[simp] theorem pure_eq (a : α) : (pure a : Program S ε α) = .ret a := rfl

@[simp] theorem ret_bind (a : α) (f : α → Program S ε β) : (Program.ret a >>= f) = f a := rfl

@[simp] theorem stop_bind (e : ε) (f : α → Program S ε β) :
    (Program.stop e >>= f) = .stop e := rfl

@[simp] theorem call_bind (c : S.Call) (k : S.Answer c → Program S ε α) (f : α → Program S ε β) :
    (Program.call c k >>= f) = .call c fun r => k r >>= f := rfl

theorem bind_ret (p : Program S ε α) : (p >>= Program.ret) = p := by
  induction p with
  | ret a => rfl
  | stop e => rfl
  | call c k ih =>
    rw [call_bind]
    exact congrArg (Program.call c) (funext ih)

theorem bind_assoc {δ : Type} (p : Program S ε α) (f : α → Program S ε β)
    (h : β → Program S ε δ) : (p >>= f >>= h) = p >>= fun a => f a >>= h := by
  induction p with
  | ret a => rfl
  | stop e => rfl
  | call c k ih =>
    simp only [call_bind]
    exact congrArg (Program.call c) (funext ih)

instance : LawfulMonad (Program S ε) :=
  LawfulMonad.mk' (Program S ε) (fun p => bind_ret p) (fun _ _ => rfl) bind_assoc

/-- One call, whose answer is the result. -/
def ask (c : S.Call) : Program S ε (S.Answer c) := .call c .ret

@[simp] theorem ask_bind (c : S.Call) (f : S.Answer c → Program S ε β) :
    (ask c >>= f) = .call c f := rfl

/-- Stop with `e` when `b` holds. -/
def failIf (b : Bool) (e : ε) : Program S ε Unit := if b then .stop e else .ret ()

@[simp] theorem failIf_true (e : ε) : (failIf true e : Program S ε Unit) = .stop e := rfl

@[simp] theorem failIf_false (e : ε) : (failIf false e : Program S ε Unit) = .ret () := rfl

/-- A computation without calls, whose failure stops the program. -/
def lift : Except ε α → Program S ε α
  | .ok a => .ret a
  | .error e => .stop e

@[simp] theorem lift_ok (a : α) : (lift (.ok a) : Program S ε α) = .ret a := rfl

@[simp] theorem lift_error (e : ε) : (lift (.error e) : Program S ε α) = .stop e := rfl

/-! ## Executions -/

/-- `Exec p evs o`: making the calls of `evs` with their answers, `p` ends in `o`. -/
def Exec : Program S ε α → List (Event S) → Except ε α → Prop
  | .ret a, evs, o => evs = [] ∧ o = .ok a
  | .stop e, evs, o => evs = [] ∧ o = .error e
  | .call c k, evs, o => ∃ r rest, evs = ⟨c, r⟩ :: rest ∧ Exec (k r) rest o

@[simp] theorem exec_ret {a : α} {evs : List (Event S)} {o : Except ε α} :
    Exec (.ret a) evs o ↔ evs = [] ∧ o = .ok a := Iff.rfl

@[simp] theorem exec_stop {e : ε} {evs : List (Event S)} {o : Except ε α} :
    Exec (.stop e) evs o ↔ evs = [] ∧ o = .error e := Iff.rfl

theorem exec_call {c : S.Call} {k : S.Answer c → Program S ε α} {evs : List (Event S)}
    {o : Except ε α} :
    Exec (.call c k) evs o ↔ ∃ r rest, evs = ⟨c, r⟩ :: rest ∧ Exec (k r) rest o := Iff.rfl

/-- A sequence runs its first part, and the second one behind it unless the first stopped. -/
theorem exec_bind {p : Program S ε α} {f : α → Program S ε β} {evs : List (Event S)}
    {o : Except ε β} :
    Exec (p >>= f) evs o ↔ (∃ e, Exec p evs (.error e) ∧ o = .error e) ∨
      ∃ es es' a, evs = es ++ es' ∧ Exec p es (.ok a) ∧ Exec (f a) es' o := by
  induction p generalizing evs with
  | ret a =>
    rw [ret_bind]
    constructor
    · intro h
      exact Or.inr ⟨[], evs, a, rfl, ⟨rfl, rfl⟩, h⟩
    · rintro (⟨e, ⟨-, he⟩, -⟩ | ⟨es, es', b, rfl, ⟨rfl, hb⟩, h⟩)
      · cases he
      · cases hb
        exact h
  | stop e =>
    rw [stop_bind]
    constructor
    · rintro ⟨rfl, rfl⟩
      exact Or.inl ⟨e, ⟨rfl, rfl⟩, rfl⟩
    · rintro (⟨e', ⟨rfl, he⟩, rfl⟩ | ⟨es, es', b, -, ⟨-, hb⟩, -⟩)
      · cases he
        exact ⟨rfl, rfl⟩
      · cases hb
  | call c k ih =>
    rw [call_bind, exec_call]
    constructor
    · rintro ⟨r, rest, rfl, h⟩
      rcases (ih r).mp h with ⟨e, hp, rfl⟩ | ⟨es, es', b, rfl, hp, hf⟩
      · exact Or.inl ⟨e, ⟨r, rest, rfl, hp⟩, rfl⟩
      · exact Or.inr ⟨⟨c, r⟩ :: es, es', b, rfl, ⟨r, es, rfl, hp⟩, hf⟩
    · rintro (⟨e, ⟨r, rest, rfl, hp⟩, rfl⟩ | ⟨es, es', b, rfl, ⟨r, rest, rfl, hp⟩, hf⟩)
      · exact ⟨r, rest, rfl, (ih r).mpr (Or.inl ⟨e, hp, rfl⟩)⟩
      · exact ⟨r, rest ++ es', rfl, (ih r).mpr (Or.inr ⟨rest, es', b, rfl, hp, hf⟩)⟩

theorem exec_bind_ok {p : Program S ε α} {f : α → Program S ε β} {evs : List (Event S)} {b : β} :
    Exec (p >>= f) evs (.ok b) ↔
      ∃ es es' a, evs = es ++ es' ∧ Exec p es (.ok a) ∧ Exec (f a) es' (.ok b) := by
  rw [exec_bind, or_iff_right]
  rintro ⟨e, -, he⟩
  cases he

theorem exec_failIf_bind {b : Bool} {e : ε} {f : Unit → Program S ε β} {evs : List (Event S)}
    {o : Except ε β} :
    Exec (failIf b e >>= f) evs o ↔
      b = true ∧ evs = [] ∧ o = .error e ∨ b = false ∧ Exec (f ()) evs o := by
  cases b <;> simp

theorem exec_lift_bind {e : Except ε α} {f : α → Program S ε β} {evs : List (Event S)}
    {o : Except ε β} :
    Exec (lift e >>= f) evs o ↔ (∃ err, e = .error err ∧ evs = [] ∧ o = .error err) ∨
      ∃ a, e = .ok a ∧ Exec (f a) evs o := by
  cases e <;> simp

/-- Making the calls of `evs` with their answers, `p` comes to `q`. -/
inductive Leads : Program S ε α → List (Event S) → Program S ε α → Prop
  | nil {p} : Leads p [] p
  | cons {c k r evs q} : Leads (k r) evs q → Leads (.call c k) (⟨c, r⟩ :: evs) q

theorem Leads.snoc {p : Program S ε α} {evs : List (Event S)} {c : S.Call}
    {k : S.Answer c → Program S ε α} (h : Leads p evs (.call c k)) (r : S.Answer c) :
    Leads p (evs ++ [⟨c, r⟩]) (k r) := by
  generalize hq : Program.call c k = q at h
  induction h with
  | nil =>
    rw [← hq]
    exact .cons .nil
  | cons _ ih => exact .cons (ih hq)

theorem Leads.exec {p q : Program S ε α} {evs es : List (Event S)} {o : Except ε α}
    (h : Leads p evs q) (he : Exec q es o) : Exec p (evs ++ es) o := by
  induction h with
  | nil => exact he
  | cons _ ih => exact ⟨_, _, rfl, ih he⟩

/-- Every call that a program may make satisfies `A`. -/
def Calls (A : S.Call → Prop) : Program S ε α → Prop
  | .ret _ => True
  | .stop _ => True
  | .call c k => A c ∧ ∀ r, Calls A (k r)

theorem Calls.bind {A : S.Call → Prop} {p : Program S ε α} {f : α → Program S ε β}
    (hp : Calls A p) (hf : ∀ a, Calls A (f a)) : Calls A (p >>= f) := by
  induction p with
  | ret a => exact hf a
  | stop e => trivial
  | call c k ih => exact ⟨hp.1, fun r => ih r (hp.2 r)⟩

theorem Calls.mono {A B : S.Call → Prop} {p : Program S ε α} (hp : Calls A p)
    (h : ∀ c, A c → B c) : Calls B p := by
  induction p with
  | ret a => trivial
  | stop e => trivial
  | call c k ih => exact ⟨h c hp.1, fun r => ih r (hp.2 r)⟩

theorem Calls.exec {A : S.Call → Prop} {p : Program S ε α} {evs : List (Event S)}
    {o : Except ε α} (hp : Calls A p) (he : Exec p evs o) : ∀ e ∈ evs, A e.call := by
  induction p generalizing evs with
  | ret a =>
    obtain ⟨rfl, -⟩ := he
    simp
  | stop e =>
    obtain ⟨rfl, -⟩ := he
    simp
  | call c k ih =>
    obtain ⟨r, rest, rfl, he⟩ := he
    intro e hmem
    rcases List.mem_cons.mp hmem with rfl | hmem
    · exact hp.1
    · exact ih r (hp.2 r) he e hmem

theorem Calls.leads {A : S.Call → Prop} {p q : Program S ε α} {evs : List (Event S)}
    (hp : Calls A p) (h : Leads p evs q) : Calls A q := by
  induction h with
  | nil => exact hp
  | cons _ ih => exact ih (hp.2 _)

/-- The events and the outcome of `p` when the environment gives the `n`-th call the answer
`answers n`. -/
def play (answers : ℕ → (c : S.Call) → S.Answer c) :
    ℕ → Program S ε α → List (Event S) × Except ε α
  | _, .ret a => ([], .ok a)
  | _, .stop e => ([], .error e)
  | n, .call c k =>
    let r := play answers (n + 1) (k (answers n c))
    (⟨c, answers n c⟩ :: r.1, r.2)

theorem exec_play (answers : ℕ → (c : S.Call) → S.Answer c) (p : Program S ε α) (n : ℕ) :
    Exec p (play answers n p).1 (play answers n p).2 := by
  induction p generalizing n with
  | ret a => exact ⟨rfl, rfl⟩
  | stop e => exact ⟨rfl, rfl⟩
  | call c k ih => exact ⟨answers n c, _, rfl, ih _ _⟩

/-- Every event of a play has the answer that the environment gives to its call. -/
theorem mem_play {answers : (c : S.Call) → S.Answer c} {p : Program S ε α} {n : ℕ} {e : Event S}
    (he : e ∈ (play (fun _ => answers) n p).1) : e = ⟨e.call, answers e.call⟩ := by
  induction p generalizing n with
  | ret a => cases he
  | stop x => cases he
  | call c k ih =>
    rcases List.mem_cons.mp he with rfl | he
    · rfl
    · exact ih _ he

end Program

/-! ## Protocols and weakest preconditions -/

/-- A ghost state `γ` moved by every call: the calls allowed in it, the answers expected to them,
and the state after the answer. -/
structure Protocol (S : Signature) (γ : Type) where
  Allowed : γ → S.Call → Prop
  Expected : γ → (c : S.Call) → S.Answer c → Prop
  next : γ → (c : S.Call) → S.Answer c → γ

namespace Protocol

variable {S : Signature} {γ : Type}

/-- The ghost state after the events. -/
def after (P : Protocol S γ) : γ → List (Event S) → γ
  | g, [] => g
  | g, ⟨c, r⟩ :: evs => P.after (P.next g c r) evs

/-- Every answer is one that the protocol expects. -/
def Obeys (P : Protocol S γ) : γ → List (Event S) → Prop
  | _, [] => True
  | g, ⟨c, r⟩ :: evs => P.Expected g c r ∧ P.Obeys (P.next g c r) evs

variable (P : Protocol S γ)

instance decidableObeys [∀ g c r, Decidable (P.Expected g c r)] :
    (g : γ) → (evs : List (Event S)) → Decidable (P.Obeys g evs)
  | _, [] => .isTrue trivial
  | g, ⟨c, r⟩ :: evs => @instDecidableAnd _ _ _ (decidableObeys (P.next g c r) evs)

@[simp] theorem after_nil (g : γ) : P.after g [] = g := rfl

@[simp] theorem after_cons (g : γ) (c : S.Call) (r : S.Answer c) (evs : List (Event S)) :
    P.after g (⟨c, r⟩ :: evs) = P.after (P.next g c r) evs := rfl

@[simp] theorem obeys_nil (g : γ) : P.Obeys g [] := trivial

@[simp] theorem obeys_cons (g : γ) (c : S.Call) (r : S.Answer c) (evs : List (Event S)) :
    P.Obeys g (⟨c, r⟩ :: evs) ↔ P.Expected g c r ∧ P.Obeys (P.next g c r) evs := Iff.rfl

theorem after_append (g : γ) (es es' : List (Event S)) :
    P.after g (es ++ es') = P.after (P.after g es) es' := by
  induction es generalizing g with
  | nil => rfl
  | cons e es ih => exact ih _

theorem obeys_append {g : γ} {es es' : List (Event S)} :
    P.Obeys g (es ++ es') ↔ P.Obeys g es ∧ P.Obeys (P.after g es) es' := by
  induction es generalizing g with
  | nil => simp
  | cons e es ih =>
    obtain ⟨c, r⟩ := e
    rw [List.cons_append, obeys_cons, obeys_cons, ih, after_cons, and_assoc]

section Map

variable {δ : Type} {P : Protocol S γ} {O : Protocol S δ} {f : δ → γ}

/-- A protocol whose ghost state carries more moves it in the same way. -/
theorem after_map (hn : ∀ d c r, f (O.next d c r) = P.next (f d) c r) (d : δ)
    (evs : List (Event S)) : f (O.after d evs) = P.after (f d) evs := by
  induction evs generalizing d with
  | nil => rfl
  | cons e evs ih => rw [after_cons, ih, hn, ← after_cons]

theorem obeys_map (hn : ∀ d c r, f (O.next d c r) = P.next (f d) c r)
    (hE : ∀ d c r, P.Expected (f d) c r → O.Expected d c r) {d : δ} {evs : List (Event S)}
    (h : P.Obeys (f d) evs) : O.Obeys d evs := by
  induction evs generalizing d with
  | nil => trivial
  | cons e evs ih =>
    obtain ⟨c, r⟩ := e
    refine ⟨hE _ _ _ h.1, ih ?_⟩
    rw [hn]
    exact h.2

end Map

/-- Two protocols side by side. -/
def prod {δ : Type} (P : Protocol S γ) (Q : Protocol S δ) : Protocol S (γ × δ) where
  Allowed g c := P.Allowed g.1 c ∧ Q.Allowed g.2 c
  Expected g c r := P.Expected g.1 c r ∧ Q.Expected g.2 c r
  next g c r := (P.next g.1 c r, Q.next g.2 c r)

theorem after_prod {δ : Type} (P : Protocol S γ) (Q : Protocol S δ) (g : γ × δ)
    (evs : List (Event S)) : (P.prod Q).after g evs = (P.after g.1 evs, Q.after g.2 evs) := by
  induction evs generalizing g with
  | nil => rfl
  | cons e evs ih => exact ih _

theorem obeys_prod {δ : Type} {P : Protocol S γ} {Q : Protocol S δ} {g : γ × δ}
    {evs : List (Event S)} :
    (P.prod Q).Obeys g evs ↔ P.Obeys g.1 evs ∧ Q.Obeys g.2 evs := by
  induction evs generalizing g with
  | nil => simp
  | cons e evs ih =>
    obtain ⟨c, r⟩ := e
    simp only [obeys_cons, ih]
    exact and_and_and_comm

end Protocol

namespace Program

variable {S : Signature} {ε α β γ : Type} {P : Protocol S γ}

/-- Every call of `p` is allowed, and whatever expected answers it gets, it ends in `Q`. -/
def wp (P : Protocol S γ) : Program S ε α → γ → (γ → Except ε α → Prop) → Prop
  | .ret a, g, Q => Q g (.ok a)
  | .stop e, g, Q => Q g (.error e)
  | .call c k, g, Q => P.Allowed g c ∧ ∀ r, P.Expected g c r → wp P (k r) (P.next g c r) Q

/-- The postcondition that leaves `Q` to the rest `f` of the program. -/
def andThen (P : Protocol S γ) (f : α → Program S ε β) (Q : γ → Except ε β → Prop) :
    γ → Except ε α → Prop
  | g, .ok a => wp P (f a) g Q
  | g, .error e => Q g (.error e)

@[simp] theorem andThen_ok (f : α → Program S ε β) (Q : γ → Except ε β → Prop) (g : γ) (a : α) :
    andThen P f Q g (.ok a) ↔ wp P (f a) g Q := Iff.rfl

@[simp] theorem andThen_error (f : α → Program S ε β) (Q : γ → Except ε β → Prop) (g : γ)
    (e : ε) : andThen P f Q g (.error e) ↔ Q g (.error e) := Iff.rfl

@[simp] theorem wp_ret {a : α} {g : γ} {Q : γ → Except ε α → Prop} :
    wp P (.ret a) g Q ↔ Q g (.ok a) := Iff.rfl

@[simp] theorem wp_stop {e : ε} {g : γ} {Q : γ → Except ε α → Prop} :
    wp P (.stop e) g Q ↔ Q g (.error e) := Iff.rfl

theorem wp.mono {p : Program S ε α} {g : γ} {Q Q' : γ → Except ε α → Prop}
    (h : wp P p g Q) (hQ : ∀ g o, Q g o → Q' g o) : wp P p g Q' := by
  induction p generalizing g with
  | ret a => exact hQ _ _ h
  | stop e => exact hQ _ _ h
  | call c k ih => exact ⟨h.1, fun r hr => ih r (h.2 r hr)⟩

/-- The rule of sequential composition. -/
theorem wp_bind {p : Program S ε α} {f : α → Program S ε β} {g : γ}
    {Q : γ → Except ε β → Prop} : wp P (p >>= f) g Q ↔ wp P p g (andThen P f Q) := by
  induction p generalizing g with
  | ret a => rfl
  | stop e => rfl
  | call c k ih => exact and_congr_right fun _ => forall₂_congr fun r _ => ih r

/-- The postcondition that asks `Q` of a result and `E` of a stop. -/
def post (Q : γ → α → Prop) (E : γ → ε → Prop) : γ → Except ε α → Prop
  | g, .ok a => Q g a
  | g, .error e => E g e

@[simp] theorem post_ok (Q : γ → α → Prop) (E : γ → ε → Prop) (g : γ) (a : α) :
    post Q E g (.ok a) ↔ Q g a := Iff.rfl

@[simp] theorem post_error (Q : γ → α → Prop) (E : γ → ε → Prop) (g : γ) (e : ε) :
    post Q E g (.error e) ↔ E g e := Iff.rfl

/-- What is left of a program keeps what the program promised. -/
theorem wp.leads {p q : Program S ε α} {g : γ} {Q : γ → Except ε α → Prop}
    {evs : List (Event S)} (h : wp P p g Q) (hq : Leads p evs q) (ho : P.Obeys g evs) :
    wp P q (P.after g evs) Q := by
  induction hq generalizing g with
  | nil => exact h
  | cons _ ih => exact ih (h.2 _ ho.1) ho.2

/-- A postcondition may speak about the execution that leads to it. -/
theorem wp.along {p : Program S ε α} {g : γ} {Q : γ → Except ε α → Prop} (h : wp P p g Q) :
    wp P p g fun g' o => Q g' o ∧ ∃ evs, Exec p evs o ∧ P.Obeys g evs ∧ g' = P.after g evs := by
  induction p generalizing g with
  | ret a => exact ⟨h, [], ⟨rfl, rfl⟩, trivial, rfl⟩
  | stop e => exact ⟨h, [], ⟨rfl, rfl⟩, trivial, rfl⟩
  | call c k ih =>
    refine ⟨h.1, fun r hr => (ih r (h.2 r hr)).mono ?_⟩
    rintro g' o ⟨hQ, evs, he, ho, rfl⟩
    exact ⟨hQ, ⟨c, r⟩ :: evs, ⟨r, evs, rfl, he⟩, ⟨hr, ho⟩, rfl⟩

/-- What holds against a protocol whose ghost state carries more holds against the other. -/
theorem wp.map {δ : Type} {O : Protocol S δ} {f : δ → γ}
    (hA : ∀ d c, O.Allowed d c → P.Allowed (f d) c)
    (hE : ∀ d c r, P.Expected (f d) c r → O.Expected d c r)
    (hn : ∀ d c r, f (O.next d c r) = P.next (f d) c r) {p : Program S ε α} {d : δ}
    {Q : δ → Except ε α → Prop} (h : wp O p d Q) :
    wp P p (f d) fun g o => ∃ d, g = f d ∧ Q d o := by
  induction p generalizing d with
  | ret a => exact ⟨d, rfl, h⟩
  | stop e => exact ⟨d, rfl, h⟩
  | call c k ih =>
    refine ⟨hA _ _ h.1, fun r hr => ?_⟩
    rw [← hn]
    exact ih r (h.2 r (hE _ _ _ hr))

/-- A protocol that allows every call adds nothing to be proved. -/
theorem wp.prod {δ : Type} {O : Protocol S δ} (hO : ∀ d c, O.Allowed d c) {p : Program S ε α}
    {g : γ} {Q : γ → Except ε α → Prop} (h : wp P p g Q) (d : δ) :
    wp (O.prod P) p (d, g) fun g' o => Q g'.2 o := by
  induction p generalizing g d with
  | ret a => exact h
  | stop e => exact h
  | call c k ih => exact ⟨⟨hO d c, h.1⟩, fun r hr => ih r (h.2 r hr.2) _⟩

/-- A weakest precondition holds of every execution that obeys the protocol. -/
theorem wp.exec {p : Program S ε α} {g : γ} {Q : γ → Except ε α → Prop} (h : wp P p g Q)
    {evs : List (Event S)} {o : Except ε α} (he : Exec p evs o) (ho : P.Obeys g evs) :
    Q (P.after g evs) o := by
  induction p generalizing g evs with
  | ret a => obtain ⟨rfl, rfl⟩ := he; exact h
  | stop e => obtain ⟨rfl, rfl⟩ := he; exact h
  | call c k ih =>
    obtain ⟨r, rest, rfl, he⟩ := he
    exact ih r (h.2 r ho.1) he ho.2

/-- The calls of an execution that obeys the protocol are allowed. -/
theorem wp.allowed {A : S.Call → Prop} (hA : ∀ g c, P.Allowed g c → A c) {p : Program S ε α} {g : γ}
    {Q : γ → Except ε α → Prop} (h : wp P p g Q) {evs : List (Event S)} {o : Except ε α}
    (he : Exec p evs o) (ho : P.Obeys g evs) : ∀ e ∈ evs, A e.call := by
  induction p generalizing g evs with
  | ret a =>
    obtain ⟨rfl, -⟩ := he
    simp
  | stop e =>
    obtain ⟨rfl, -⟩ := he
    simp
  | call c k ih =>
    obtain ⟨r, rest, rfl, he⟩ := he
    intro e hmem
    rcases List.mem_cons.mp hmem with rfl | hmem
    · exact hA _ _ h.1
    · exact ih r (h.2 r ho.1) he ho.2 e hmem

end Program

end Interactive
