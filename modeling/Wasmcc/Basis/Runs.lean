import Mathlib.Data.List.Basic
import Mathlib.Logic.Function.Basic

/-!
# Stateful operations that throw, and runs of calls

An `Effect ε σ α` is an operation on a state that may throw. Unlike `ExceptT` over a reader of
input, what it wrote before it threw stays written: whether an operation is atomic is a question
about it and not a feature of the monad.

A component that answers calls one after the other is a `step` function on its states. `EachStep`
says something of every call of a run, in the state that it is made in; `EachStep.keeps` is the rule
for invariants, and `EachStep.congr` compares two properties of steps under one. `sideBySide` puts
components together that have nothing to do with each other.
-/

namespace Basis

/-- An operation on states `σ` that returns an `α` or throws an `ε`. -/
def Effect (ε σ α : Type) := σ → Except ε α × σ

namespace Effect

variable {ε σ α β : Type}

instance : Monad (Effect ε σ) where
  pure a := fun s => (.ok a, s)
  bind p f := fun s =>
    match p s with
    | (.ok a, s') => f a s'
    | (.error e, s') => (.error e, s')

def get : Effect ε σ σ := fun s => (.ok s, s)

def modify (f : σ → σ) : Effect ε σ Unit := fun s => (.ok (), f s)

def fail (e : ε) : Effect ε σ α := fun s => (.error e, s)

/-- The operation throws in this state. -/
def Throws (p : Effect ε σ α) (s : σ) : Prop := ∃ e, (p s).1 = .error e

@[simp] theorem pure_apply (a : α) (s : σ) : (pure a : Effect ε σ α) s = (.ok a, s) := rfl

@[simp] theorem get_apply (s : σ) : (get : Effect ε σ σ) s = (.ok s, s) := rfl

@[simp] theorem modify_apply (f : σ → σ) (s : σ) :
    (modify f : Effect ε σ Unit) s = (.ok (), f s) := rfl

@[simp] theorem fail_apply (e : ε) (s : σ) : (fail e : Effect ε σ α) s = (.error e, s) := rfl

variable {p : Effect ε σ α} {s s' : σ}

theorem bind_of_ok {a : α} (h : p s = (.ok a, s')) (f : α → Effect ε σ β) :
    (p >>= f) s = f a s' := by
  show (match p s with
    | (.ok a, s') => f a s'
    | (.error e, s') => (.error e, s')) = _
  rw [h]

theorem bind_of_error {e : ε} (h : p s = (.error e, s')) (f : α → Effect ε σ β) :
    (p >>= f) s = (.error e, s') := by
  show (match p s with
    | (.ok a, s') => f a s'
    | (.error e, s') => (.error e, s')) = _
  rw [h]

@[simp] theorem get_bind (f : σ → Effect ε σ β) (s : σ) : (get >>= f) s = f s s := rfl

@[simp] theorem modify_bind (g : σ → σ) (f : Unit → Effect ε σ β) (s : σ) :
    (modify g >>= f) s = f () (g s) := rfl

/-- What follows an operation and only answers changes nothing but the answer. -/
theorem bind_pure_apply (p : Effect ε σ α) (f : α → β) (s : σ) :
    (p >>= fun a => pure (f a)) s = ((p s).1.map f, (p s).2) := by
  show (match p s with
    | (.ok a, s') => ((Except.ok (f a) : Except ε β), s')
    | (.error e, s') => (.error e, s')) = _
  cases p s with
  | mk r s' => cases r <;> rfl

theorem snd_bind_pure (p : Effect ε σ α) (f : α → β) (s : σ) :
    ((p >>= fun a => pure (f a)) s).2 = (p s).2 := congrArg Prod.snd (bind_pure_apply p f s)

theorem not_throws_of_ok {a : α} (h : p s = (.ok a, s')) : ¬p.Throws s := by
  rintro ⟨e, he⟩
  rw [h] at he
  cases he

theorem throws_of_error {e : ε} (h : p s = (.error e, s')) : p.Throws s := ⟨e, by rw [h]⟩

end Effect

/-! ### Runs -/

section Runs

variable {σ α : Type} (step : σ → α → σ)

/-- The state after these calls. -/
def runCalls (s : σ) (calls : List α) : σ := calls.foldl step s

/-- `P` holds of every call of the run, in the state before it. -/
def EachStep (P : σ → α → Prop) : σ → List α → Prop
  | _, [] => True
  | s, c :: calls => P s c ∧ EachStep P (step s c) calls

variable {step} {P Q : σ → α → Prop} {Inv : σ → Prop} {s : σ} {calls : List α}

/-- **The simulation rule.** What every step of two components keeps between them holds after the
same calls. -/
theorem runCalls_simulates {τ : Type} {step' : τ → α → τ} {R : σ → τ → Prop}
    (hstep : ∀ s t c, R s t → R (step s c) (step' t c)) {t : τ} (h : R s t) (calls : List α) :
    R (runCalls step s calls) (runCalls step' t calls) := by
  induction calls generalizing s t with
  | nil => exact h
  | cons c calls ih => exact ih (hstep s t c h)

instance instDecidableEachStep [∀ s c, Decidable (P s c)] :
    ∀ (s : σ) (calls : List α), Decidable (EachStep step P s calls)
  | _, [] => .isTrue trivial
  | s, c :: calls =>
    have := instDecidableEachStep (step s c) calls
    inferInstanceAs (Decidable (P s c ∧ EachStep step P (step s c) calls))

theorem EachStep.append {as bs : List α} :
    EachStep step P s (as ++ bs) ↔
      EachStep step P s as ∧ EachStep step P (runCalls step s as) bs := by
  induction as generalizing s with
  | nil => exact ⟨fun h => ⟨trivial, h⟩, fun h => h.2⟩
  | cons c as ih =>
    show P s c ∧ EachStep step P (step s c) (as ++ bs) ↔ (P s c ∧ _) ∧ _
    rw [ih, and_assoc]
    rfl

/-- What holds of every call of a run holds of a call after any of its beginnings. -/
theorem eachStep_iff_forall : EachStep step P s calls ↔
    ∀ pre c, pre ++ [c] <+: calls → P (runCalls step s pre) c := by
  induction calls generalizing s with
  | nil =>
    refine ⟨fun _ pre c hpre => ?_, fun _ => trivial⟩
    cases List.append_ne_nil_of_right_ne_nil pre (List.cons_ne_nil c []) (List.prefix_nil.mp hpre)
  | cons c calls ih =>
    show P s c ∧ EachStep step P (step s c) calls ↔ _
    rw [ih]
    constructor
    · rintro ⟨hc, hcalls⟩ pre d hpre
      -- the first call has no others in front of it
      cases pre with
      | nil =>
        obtain ⟨rfl, -⟩ := List.cons_prefix_cons.mp hpre
        exact hc
      | cons b pre =>
        obtain ⟨rfl, hrest⟩ := List.cons_prefix_cons.mp hpre
        exact hcalls pre d hrest
    · intro h
      exact ⟨h [] c (List.cons_prefix_cons.mpr ⟨rfl, List.nil_prefix⟩),
        fun pre d hpre => h (c :: pre) d (List.cons_prefix_cons.mpr ⟨rfl, hpre⟩)⟩

/-- **The invariant rule.** What every step that is allowed keeps holds in all states of a run whose
steps are allowed. -/
theorem EachStep.keeps (hstep : ∀ s c, Inv s → P s c → Inv (step s c)) (hs : Inv s)
    (h : EachStep step P s calls) :
    Inv (runCalls step s calls) ∧ EachStep step (fun s c => Inv s ∧ P s c) s calls := by
  induction calls generalizing s with
  | nil => exact ⟨hs, trivial⟩
  | cons c calls ih =>
    obtain ⟨hend, hall⟩ := ih (hstep s c hs h.1) h.2
    exact ⟨hend, ⟨hs, h.1⟩, hall⟩

/-- Two properties of steps that agree under an invariant, which the steps with the second one keep,
hold of the same runs. -/
theorem EachStep.congr (hstep : ∀ s c, Inv s → Q s c → Inv (step s c))
    (hiff : ∀ s c, Inv s → (P s c ↔ Q s c)) (hs : Inv s) :
    EachStep step P s calls ↔ EachStep step Q s calls := by
  induction calls generalizing s with
  | nil => exact Iff.rfl
  | cons c calls ih =>
    show P s c ∧ _ ↔ Q s c ∧ _
    rw [hiff s c hs]
    exact and_congr_right fun hq => ih (hstep s c hs hq)

/-- **The rule for all states of a run.** If, from a state with `Q` and under an invariant, an
allowed step leads to a state with `Q` exactly if it has `P`, then all states of a run of allowed
steps have `Q` exactly if all its steps have `P`. -/
theorem forall_states_iff {A : σ → α → Prop} {Q : σ → Prop}
    (hstep : ∀ s c, Inv s → A s c → Inv (step s c))
    (hiff : ∀ s c, Inv s → A s c → Q s → (Q (step s c) ↔ P s c)) (hs : Inv s) (hq : Q s)
    (hallowed : EachStep step A s calls) :
    (∀ pre, pre <+: calls → Q (runCalls step s pre)) ↔ EachStep step P s calls := by
  induction calls generalizing s with
  | nil =>
    refine ⟨fun _ => trivial, fun _ pre hpre => ?_⟩
    obtain rfl := List.prefix_nil.mp hpre
    exact hq
  | cons c calls ih =>
    obtain ⟨hc, hrest⟩ := hallowed
    constructor
    · intro h
      -- the state after the first call has `Q`, so the call has `P`
      have hnext : Q (step s c) := h [c] (List.cons_prefix_cons.mpr ⟨rfl, List.nil_prefix⟩)
      refine ⟨(hiff s c hs hc hq).mp hnext,
        (ih (hstep s c hs hc) hnext hrest).mp fun pre hpre => ?_⟩
      exact h (c :: pre) (List.cons_prefix_cons.mpr ⟨rfl, hpre⟩)
    · rintro ⟨hP, hPs⟩ pre hpre
      cases pre with
      | nil => exact hq
      | cons d pre =>
        obtain ⟨rfl, hpre'⟩ := List.cons_prefix_cons.mp hpre
        have hnext := (hiff s d hs hc hq).mpr hP
        exact (ih (hstep s d hs hc) hnext hrest).mpr hPs pre hpre'

end Runs

/-! ### Components side by side -/

section SideBySide

variable {ι σ α : Type} [DecidableEq ι]

/-- The calls of an interleaving on component `i`. -/
def callsOn (i : ι) (calls : List (ι × α)) : List α :=
  (calls.filter fun c => c.1 = i).map Prod.snd

/-- Components that have nothing to do with each other: a call moves the one that it is on. -/
def sideBySide (step : σ → α → σ) (s : ι → σ) (c : ι × α) : ι → σ :=
  Function.update s c.1 (step (s c.1) c.2)

variable {step : σ → α → σ}

/-- In every interleaving, a component comes to where its own calls take it. -/
theorem runCalls_sideBySide (s : ι → σ) (calls : List (ι × α)) (i : ι) :
    runCalls (sideBySide step) s calls i = runCalls step (s i) (callsOn i calls) := by
  induction calls generalizing s with
  | nil => rfl
  | cons c calls ih =>
    refine (ih (sideBySide step s c)).trans ?_
    by_cases hi : c.1 = i
    · subst hi
      -- a call on `i` is a step of its own run
      have hown : callsOn c.1 (c :: calls) = c.2 :: callsOn c.1 calls := by simp [callsOn]
      rw [hown, sideBySide, Function.update_self]
      rfl
    -- a call on another one is not in the run of `i`
    · have hother : callsOn i (c :: calls) = callsOn i calls := by simp [callsOn, hi]
      rw [hother, sideBySide, Function.update_of_ne (Ne.symm hi)]

end SideBySide

end Basis
