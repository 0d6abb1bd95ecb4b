import Mathlib.Data.List.Basic

/-!
# Deciding runs of a relation on abstract states

A relation `step` says which states a label may lead from and to; many states may come after one,
and a search for a run would have to guess them. An algorithm keeps one abstract state instead,
which stands for a set of states, and either steps to the next one or gives up.

`ExactSteps` says that it loses nothing and adds nothing: the states that the next abstract state
stands for are all those that `step` leads to, and it gives up only if there are none. Then the
algorithm decides which runs there are (`ExactSteps.path_iff`).
-/

namespace Basis

variable {σ α ι ε : Type}

/-- A run of `step` over a list of labels. -/
inductive Path (step : ι → σ → σ → Prop) : σ → List ι → σ → Prop
  | nil {s : σ} : Path step s [] s
  | cons {s t u : σ} {i : ι} {is : List ι} (h : step i s t) (hs : Path step t is u) :
      Path step s (i :: is) u

section Path

variable {step : ι → σ → σ → Prop} {s t : σ} {i : ι} {is : List ι}

theorem path_nil_iff : Path step s [] t ↔ s = t := by
  refine ⟨fun h => ?_, ?_⟩
  · cases h
    rfl
  · rintro rfl
    exact .nil

theorem path_cons_iff : Path step s (i :: is) t ↔ ∃ u, step i s u ∧ Path step u is t := by
  refine ⟨fun h => ?_, fun ⟨u, h, hs⟩ => .cons h hs⟩
  cases h with
  | cons h hs => exact ⟨_, h, hs⟩

end Path

theorem foldlM_cons_eq_ok {next : α → ι → Except ε α} {a a' : α} {i : ι} {is : List ι} :
    (i :: is).foldlM next a = .ok a' ↔ ∃ b, next a i = .ok b ∧ is.foldlM next b = .ok a' := by
  rw [List.foldlM_cons]
  cases next a i with
  | error e => simp [bind, Except.bind]
  | ok b => simp [bind, Except.bind]

/-- On abstract states with `Inv` and labels with `P`, `next` computes exactly where `step` leads
from the states that the abstract state `Represents`. -/
structure ExactSteps (Inv : α → Prop) (P : ι → Prop) (Represents : α → σ → Prop)
    (next : α → ι → Except ε α) (step : ι → σ → σ → Prop) : Prop where
  keeps : ∀ a i a', Inv a → P i → next a i = .ok a' → Inv a'
  image : ∀ a i t, Inv a → P i →
    ((∃ a', next a i = .ok a' ∧ Represents a' t) ↔ ∃ s, Represents a s ∧ step i s t)

namespace ExactSteps

variable {Inv : α → Prop} {P : ι → Prop} {Represents : α → σ → Prop} {next : α → ι → Except ε α}
  {step : ι → σ → σ → Prop}

theorem foldlM_keeps (h : ExactSteps Inv P Represents next step) {is : List ι}
    (his : ∀ i ∈ is, P i) : ∀ {a a' : α}, Inv a → is.foldlM next a = .ok a' → Inv a' := by
  induction is with
  | nil =>
    intro a a' ha hrun
    obtain rfl := Except.ok.inj hrun
    exact ha
  | cons i is ih =>
    intro a a' ha hrun
    obtain ⟨b, hb, hrest⟩ := foldlM_cons_eq_ok.mp hrun
    have htail : ∀ j ∈ is, P j := fun j hj => his j (List.mem_cons_of_mem i hj)
    exact ih htail (h.keeps a i b ha (his i List.mem_cons_self) hb) hrest

/-- **Runs on abstract states decide runs.** The run over a list of labels gets through and stands
for `t` in the end if and only if `t` can be reached from one of the states it started with. -/
theorem path_iff (h : ExactSteps Inv P Represents next step) {is : List ι} (his : ∀ i ∈ is, P i)
    {t : σ} : ∀ {a : α}, Inv a →
      ((∃ a', is.foldlM next a = .ok a' ∧ Represents a' t) ↔
        ∃ s, Represents a s ∧ Path step s is t) := by
  induction is with
  | nil =>
    intro a _
    constructor
    · rintro ⟨a', hrun, ht⟩
      obtain rfl := Except.ok.inj hrun
      exact ⟨t, ht, .nil⟩
    · rintro ⟨s, hs, hpath⟩
      obtain rfl := path_nil_iff.mp hpath
      exact ⟨a, rfl, hs⟩
  | cons i is ih =>
    intro a ha
    have hi := his i List.mem_cons_self
    have htail : ∀ j ∈ is, P j := fun j hj => his j (List.mem_cons_of_mem i hj)
    constructor
    · rintro ⟨a', hrun, ht⟩
      obtain ⟨b, hb, hrest⟩ := foldlM_cons_eq_ok.mp hrun
      -- backwards: from a state after the first label to one before it
      obtain ⟨u, hu, hpath⟩ := (ih htail (h.keeps a i b ha hi hb)).mp ⟨a', hrest, ht⟩
      obtain ⟨s, hs, hstep⟩ := (h.image a i u ha hi).mp ⟨b, hb, hu⟩
      exact ⟨s, hs, .cons hstep hpath⟩
    · rintro ⟨s, hs, hpath⟩
      obtain ⟨u, hstep, hrest⟩ := path_cons_iff.mp hpath
      obtain ⟨b, hb, hu⟩ := (h.image a i u ha hi).mpr ⟨s, hs, hstep⟩
      obtain ⟨a', hrun, ht⟩ := (ih htail (h.keeps a i b ha hi hb)).mpr ⟨u, hu, hrest⟩
      exact ⟨a', foldlM_cons_eq_ok.mpr ⟨b, hb, hrun⟩, ht⟩

end ExactSteps

end Basis
