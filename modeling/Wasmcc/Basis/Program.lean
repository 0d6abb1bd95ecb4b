import Mathlib

/-!
# Labelled machine code and how it runs

An instruction set (`Isa`) says what one instruction does to a machine state (fall through, jump to
a label, or halt) and which label, if any, an instruction binds. A program is a list of
instructions; a jump continues at the instruction that binds its label.

* `run` executes a program from a position, with an amount of fuel that bounds the number of steps;
  `call` starts at the first instruction with enough fuel for code whose jumps go forward.
* `Reaches` is the same execution as a relation: the positions and states the program passes
  through. Invariants of whole runs are inductions over it.
* `Executes` is a run up to its end, with the instructions that it executes.
* `execBlock` runs a jump-free block; `Triple` and `Lockstep` are pre- and postconditions of such
  blocks, for one run and for two runs of the same block side by side. They compose along `++`.

`run_block` and `Reaches.block` put a block back into the program it is a part of.
-/

namespace Basis

/-- What one instruction does to the machine. -/
inductive Flow (L σ : Type) where
  | next (s : σ)
  | jump (l : L) (s : σ)
  | halt (s : σ)

/-- The machine after an instruction, wherever the program goes on. -/
def Flow.state {L σ : Type} : Flow L σ → σ
  | .next s => s
  | .jump _ s => s
  | .halt s => s

/-- An instruction set over machine states `σ` with labels `L`. -/
structure Isa (ι L σ : Type) where
  exec : ι → σ → Flow L σ
  /-- The label an instruction binds to its own position. -/
  binds : ι → Option L

namespace Isa

variable {ι L σ : Type} [DecidableEq L] (isa : Isa ι L σ)

/-- The position at which `code` binds `l`. -/
def target (code : List ι) (l : L) : Option ℕ :=
  code.findIdx? fun i => decide (isa.binds i = some l)

/-- At most `fuel` steps of `code` from position `pc`. `none` when it has not halted by then, or has
left the code. -/
def run (code : List ι) : ℕ → ℕ → σ → Option σ
  | 0, _, _ => none
  | fuel + 1, pc, s =>
    match code[pc]? with
    | none => none
    | some i =>
      match isa.exec i s with
      | .next s' => run code fuel (pc + 1) s'
      | .jump l s' =>
        match isa.target code l with
        | none => none
        | some pc' => run code fuel pc' s'
      | .halt s' => some s'

/-- Run `code` from its first instruction, each of its positions being visited at most once. -/
def call (code : List ι) (s : σ) : Option σ := isa.run code code.length 0 s

/-- Running `code` from position `entry` in state `s₀` passes through position `pc` in state `s`. -/
inductive Reaches (code : List ι) (entry : ℕ) (s₀ : σ) : ℕ → σ → Prop
  | start : Reaches code entry s₀ entry s₀
  | next {pc : ℕ} {s s' : σ} {i : ι} : Reaches code entry s₀ pc s → code[pc]? = some i →
      isa.exec i s = .next s' → Reaches code entry s₀ (pc + 1) s'
  | jump {pc pc' : ℕ} {s s' : σ} {i : ι} {l : L} : Reaches code entry s₀ pc s →
      code[pc]? = some i → isa.exec i s = .jump l s' → isa.target code l = some pc' →
      Reaches code entry s₀ pc' s'

/-- Running `code` from position `pc` in state `s` executes these instructions, the last of which
halts in state `e`. -/
inductive Executes (code : List ι) : ℕ → σ → List ι → σ → Prop
  | halt {pc : ℕ} {s e : σ} {i : ι} : code[pc]? = some i → isa.exec i s = .halt e →
      Executes code pc s [i] e
  | next {pc : ℕ} {s s' e : σ} {i : ι} {is : List ι} : code[pc]? = some i →
      isa.exec i s = .next s' → Executes code (pc + 1) s' is e → Executes code pc s (i :: is) e
  | jump {pc pc' : ℕ} {s s' e : σ} {i : ι} {is : List ι} {l : L} : code[pc]? = some i →
      isa.exec i s = .jump l s' → isa.target code l = some pc' → Executes code pc' s' is e →
      Executes code pc s (i :: is) e

/-- Run a block that neither jumps nor halts. -/
def execBlock : List ι → σ → Option σ
  | [], s => some s
  | i :: is, s =>
    match isa.exec i s with
    | .next s' => execBlock is s'
    | .jump _ _ => none
    | .halt _ => none

/-- From `P` the block runs through and establishes `Q`. -/
def Triple (P : σ → Prop) (block : List ι) (Q : σ → Prop) : Prop :=
  ∀ s, P s → ∃ s', isa.execBlock block s = some s' ∧ Q s'

/-- From states related by `R`, two runs of the block both go through and end related by `R'`. -/
def Lockstep (R : σ → σ → Prop) (block : List ι) (R' : σ → σ → Prop) : Prop :=
  ∀ s t, R s t → ∃ s' t', isa.execBlock block s = some s' ∧ isa.execBlock block t = some t' ∧
    R' s' t'

/-! ### Blocks -/

omit [DecidableEq L]

variable {isa}

@[simp] theorem execBlock_nil (s : σ) : isa.execBlock [] s = some s := rfl

theorem execBlock_cons {i : ι} {s s' : σ} (h : isa.exec i s = .next s') (is : List ι) :
    isa.execBlock (i :: is) s = isa.execBlock is s' := by
  rw [execBlock, h]

theorem execBlock_append {a : List ι} {s s' : σ} (h : isa.execBlock a s = some s') (b : List ι) :
    isa.execBlock (a ++ b) s = isa.execBlock b s' := by
  induction a generalizing s with
  | nil =>
    obtain rfl : s = s' := by simpa using h
    rfl
  | cons i is ih =>
    rw [List.cons_append, execBlock]
    rw [execBlock] at h
    -- only an instruction that goes on to the next one lets the block end
    cases hi : isa.exec i s with
    | next s₁ => rw [hi] at h; exact ih h
    | jump l s₁ => rw [hi] at h; cases h
    | halt s₁ => rw [hi] at h; cases h

/-- The instruction at the front of a block that runs through. -/
theorem exec_of_execBlock_cons {i : ι} {is : List ι} {s s' : σ}
    (h : isa.execBlock (i :: is) s = some s') :
    ∃ s₁, isa.exec i s = .next s₁ ∧ isa.execBlock is s₁ = some s' := by
  rw [execBlock] at h
  cases hi : isa.exec i s with
  | next s₁ => rw [hi] at h; exact ⟨s₁, rfl, h⟩
  | jump l s₁ => rw [hi] at h; cases h
  | halt s₁ => rw [hi] at h; cases h

theorem Triple.nil (P : σ → Prop) : isa.Triple P [] P := fun s hs => ⟨s, rfl, hs⟩

theorem Triple.single {P Q : σ → Prop} {i : ι}
    (h : ∀ s, P s → ∃ s', isa.exec i s = .next s' ∧ Q s') : isa.Triple P [i] Q := by
  intro s hs
  obtain ⟨s', hi, hq⟩ := h s hs
  exact ⟨s', by rw [execBlock_cons hi, execBlock_nil], hq⟩

theorem Triple.append {P Q R : σ → Prop} {a b : List ι} (ha : isa.Triple P a Q)
    (hb : isa.Triple Q b R) : isa.Triple P (a ++ b) R := by
  intro s hs
  obtain ⟨s', h1, h2⟩ := ha s hs
  obtain ⟨s'', h3, h4⟩ := hb s' h2
  exact ⟨s'', by rw [execBlock_append h1, h3], h4⟩

theorem Triple.weaken {P P' Q Q' : σ → Prop} {a : List ι} (h : isa.Triple P a Q)
    (hP : ∀ s, P' s → P s) (hQ : ∀ s, Q s → Q' s) : isa.Triple P' a Q' := by
  intro s hs
  obtain ⟨s', h1, h2⟩ := h s (hP s hs)
  exact ⟨s', h1, hQ s' h2⟩

/-- A block each of whose instructions keeps `P`. -/
theorem Triple.each {P : σ → Prop} {block : List ι} (h : ∀ i ∈ block, isa.Triple P [i] P) :
    isa.Triple P block P := by
  induction block with
  | nil => exact .nil P
  | cons i is ih =>
    have hfirst := h i List.mem_cons_self
    exact hfirst.append (ih fun j hj => h j (List.mem_cons_of_mem i hj))

theorem Lockstep.nil (R : σ → σ → Prop) : isa.Lockstep R [] R := fun s t h => ⟨s, t, rfl, rfl, h⟩

theorem Lockstep.single {R R' : σ → σ → Prop} {i : ι}
    (h : ∀ s t, R s t → ∃ s' t', isa.exec i s = .next s' ∧ isa.exec i t = .next t' ∧ R' s' t') :
    isa.Lockstep R [i] R' := by
  intro s t hst
  obtain ⟨s', t', hs, ht, hr⟩ := h s t hst
  exact ⟨s', t', by rw [execBlock_cons hs, execBlock_nil], by rw [execBlock_cons ht, execBlock_nil],
    hr⟩

theorem Lockstep.append {R R' R'' : σ → σ → Prop} {a b : List ι} (ha : isa.Lockstep R a R')
    (hb : isa.Lockstep R' b R'') : isa.Lockstep R (a ++ b) R'' := by
  intro s t hst
  obtain ⟨s', t', h1, h2, h3⟩ := ha s t hst
  obtain ⟨s'', t'', h4, h5, h6⟩ := hb s' t' h3
  exact ⟨s'', t'', by rw [execBlock_append h1, h4], by rw [execBlock_append h2, h5], h6⟩

theorem Lockstep.weaken {R P R' P' : σ → σ → Prop} {a : List ι} (h : isa.Lockstep R a R')
    (hP : ∀ s t, P s t → R s t) (hQ : ∀ s t, R' s t → P' s t) : isa.Lockstep P a P' := by
  intro s t hst
  obtain ⟨s', t', h1, h2, h3⟩ := h s t (hP s t hst)
  exact ⟨s', t', h1, h2, hQ s' t' h3⟩

/-! ### Blocks inside programs -/

theorem getElem?_append_cons (pre post : List ι) (i : ι) :
    (pre ++ i :: post)[pre.length]? = some i := by
  rw [List.getElem?_append_right le_rfl, Nat.sub_self]
  rfl

/-- The first instruction of a block, and the block behind it. -/
theorem block_cons {code pre is post : List ι} {i : ι} (hc : code = pre ++ i :: is ++ post) :
    code[pre.length]? = some i ∧ code = (pre ++ [i]) ++ is ++ post := by
  rw [List.append_assoc] at hc
  constructor
  · rw [hc]
    exact getElem?_append_cons pre (is ++ post) i
  · rw [hc, List.append_assoc, List.append_assoc]
    rfl

variable [DecidableEq L]

theorem run_next {code : List ι} {fuel pc : ℕ} {s s' : σ} {i : ι} (hi : code[pc]? = some i)
    (h : isa.exec i s = .next s') :
    isa.run code (fuel + 1) pc s = isa.run code fuel (pc + 1) s' := by
  rw [run, hi]
  simp only [h]

theorem run_jump {code : List ι} {fuel pc pc' : ℕ} {s s' : σ} {i : ι} {l : L}
    (hi : code[pc]? = some i) (h : isa.exec i s = .jump l s') (hl : isa.target code l = some pc') :
    isa.run code (fuel + 1) pc s = isa.run code fuel pc' s' := by
  rw [run, hi]
  simp only [h, hl]

theorem run_halt {code : List ι} {fuel pc : ℕ} {s s' : σ} {i : ι} (hi : code[pc]? = some i)
    (h : isa.exec i s = .halt s') : isa.run code (fuel + 1) pc s = some s' := by
  rw [run, hi]
  simp only [h]

/-- A program runs through a block of its code like the block alone. -/
theorem run_block {code pre block post : List ι} (hc : code = pre ++ block ++ post) {s s' : σ}
    (h : isa.execBlock block s = some s') (fuel : ℕ) :
    isa.run code (block.length + fuel) pre.length s =
      isa.run code fuel (pre.length + block.length) s' := by
  induction block generalizing pre s with
  | nil =>
    obtain rfl : s = s' := by simpa using h
    simp
  | cons i is ih =>
    obtain ⟨s₁, hi, hs⟩ := exec_of_execBlock_cons h
    -- the rest of the block starts one place further in the same code
    obtain ⟨hget, hsplit⟩ := block_cons hc
    have := ih hsplit hs
    rw [List.length_append, List.length_singleton] at this
    rw [List.length_cons, show is.length + 1 + fuel = is.length + fuel + 1 by omega,
      run_next hget hi, this]
    congr 1
    omega

/-- More fuel does not change a run that has halted. -/
theorem run_mono {code : List ι} {s' : σ} : ∀ {fuel fuel' pc : ℕ} {s : σ}, fuel ≤ fuel' →
    isa.run code fuel pc s = some s' → isa.run code fuel' pc s = some s' := by
  intro fuel
  induction fuel with
  | zero => intro fuel' pc s _ h; cases h
  | succ fuel ih =>
    intro fuel' pc s hle h
    obtain ⟨fuel', rfl⟩ : ∃ k, fuel' = k + 1 := ⟨fuel' - 1, by omega⟩
    rw [run] at h ⊢
    cases hi : code[pc]? with
    | none => rw [hi] at h; cases h
    | some i =>
      simp only [hi] at h ⊢
      cases he : isa.exec i s with
      | next s₁ => simp only [he] at h ⊢; exact ih (by omega) h
      | jump l s₁ =>
        -- only a step that is taken uses up fuel
        simp only [he] at h ⊢
        cases ht : isa.target code l with
        | none => rw [ht] at h; cases h
        | some pc' => simp only [ht] at h ⊢; exact ih (by omega) h
      | halt s₁ => simp only [he] at h ⊢; exact h

/-- Code behind a program does not change a run of it that has halted. -/
theorem run_append {code : List ι} (more : List ι) {s' : σ} : ∀ {fuel pc : ℕ} {s : σ},
    isa.run code fuel pc s = some s' → isa.run (code ++ more) fuel pc s = some s' := by
  intro fuel
  induction fuel with
  | zero => intro pc s h; cases h
  | succ fuel ih =>
    intro pc s h
    rw [run] at h ⊢
    cases hi : code[pc]? with
    | none => rw [hi] at h; cases h
    | some i =>
      rw [List.getElem?_append_left (List.getElem?_eq_some_iff.mp hi).1]
      simp only [hi] at h ⊢
      cases he : isa.exec i s with
      | next s₁ => simp only [he] at h ⊢; exact ih h
      | jump l s₁ =>
        simp only [he] at h ⊢
        cases ht : isa.target code l with
        | none => rw [ht] at h; cases h
        | some pc' =>
          -- the label is bound in the program already
          have ht' : isa.target (code ++ more) l = some pc' := by
            unfold target at ht ⊢
            rw [List.findIdx?_append, ht]
            rfl
          simp only [ht, ht'] at h ⊢
          exact ih h
      | halt s₁ => simp only [he] at h ⊢; exact h

theorem call_prefix {code code' : List ι} (h : code <+: code') {s s' : σ}
    (hcall : isa.call code s = some s') : isa.call code' s = some s' := by
  obtain ⟨more, rfl⟩ := h
  refine run_mono ?_ (run_append more hcall)
  rw [List.length_append]
  exact Nat.le_add_right _ _

/-- The label bound by the instruction after `pre`, when nothing in `pre` binds it. -/
theorem target_append {pre post : List ι} {i : ι} {l : L} (hi : isa.binds i = some l)
    (hpre : ∀ j ∈ pre, isa.binds j ≠ some l) :
    isa.target (pre ++ i :: post) l = some pre.length := by
  unfold target
  rw [List.findIdx?_append, List.findIdx?_eq_none_iff.mpr (by simpa using hpre)]
  simp [List.findIdx?_cons, hi]

/-- **Code that jumps over a part of itself.** Run `a`, jump from `j` over `d` to the label bound at
the front of `b`, run `b` and halt at `h`. -/
theorem call_jump {a d b : List ι} {j h : ι} {l : L} {s s₁ s₂ s₃ s₄ : σ}
    (ha : isa.execBlock a s = some s₁) (hj : isa.exec j s₁ = .jump l s₂)
    (hl : isa.target (a ++ j :: d ++ b ++ [h]) l = some (a.length + 1 + d.length))
    (hb : isa.execBlock b s₂ = some s₃) (hh : isa.exec h s₃ = .halt s₄) :
    isa.call (a ++ j :: d ++ b ++ [h]) s = some s₄ := by
  set code := a ++ j :: d ++ b ++ [h] with hcode
  have hlen : code.length = a.length + (d.length + 1) + b.length + 1 := by
    simp [hcode]; omega
  have hgetj : code[a.length]? = some j := by
    rw [hcode, List.append_assoc, List.append_assoc]
    exact getElem?_append_cons a _ j
  have hgeth : code[(a ++ j :: d).length + b.length]? = some h := by
    rw [hcode, ← List.length_append]
    exact getElem?_append_cons _ [] h
  -- up to the jump, and from its target on
  have h1 := run_block (show code = [] ++ a ++ (j :: d ++ b ++ [h]) by simp [hcode]) ha
    (b.length + 1 + 1)
  have h2 := run_block (show code = (a ++ j :: d) ++ b ++ [h] from hcode) hb 1
  have hpos : a.length + 1 + d.length = (a ++ j :: d).length := by simp; omega
  refine run_mono (show a.length + (b.length + 1 + 1) ≤ code.length by omega) ?_
  rw [List.length_nil, Nat.zero_add] at h1
  rw [h1, run_jump hgetj hj hl, hpos, h2, run_halt hgeth hh]

/-- **Straight-line code.** Run `a` and halt at `h`. -/
theorem call_block {a : List ι} {h : ι} {s s₁ s₂ : σ} (ha : isa.execBlock a s = some s₁)
    (hh : isa.exec h s₁ = .halt s₂) : isa.call (a ++ [h]) s = some s₂ := by
  have h1 := run_block (show a ++ [h] = [] ++ a ++ [h] by simp) ha 1
  have hget : (a ++ [h])[a.length]? = some h := getElem?_append_cons a [] h
  rw [List.length_nil, Nat.zero_add] at h1
  unfold call
  rw [List.length_append, List.length_singleton, h1, run_halt hget hh]

/-- A run that reaches the front of a block reaches every instruction of the block. -/
theorem Reaches.block {code pre block post : List ι} (hc : code = pre ++ block ++ post)
    {entry : ℕ} {s₀ s s' : σ} (hr : isa.Reaches code entry s₀ pre.length s)
    (h : isa.execBlock block s = some s') :
    isa.Reaches code entry s₀ (pre.length + block.length) s' := by
  induction block generalizing pre s with
  | nil =>
    obtain rfl : s = s' := by simpa using h
    simpa using hr
  | cons i is ih =>
    obtain ⟨s₁, hi, hs⟩ := exec_of_execBlock_cons h
    obtain ⟨hget, hsplit⟩ := block_cons hc
    -- the first instruction leads in front of the rest of the block
    have hnext : isa.Reaches code entry s₀ (pre ++ [i]).length s₁ := by
      rw [List.length_append]
      exact hr.next hget hi
    have := ih hsplit hnext hs
    rw [List.length_append, List.length_singleton] at this
    rw [List.length_cons, show pre.length + (is.length + 1) = pre.length + 1 + is.length by omega]
    exact this

/-! ### Runs up to their end -/

omit [DecidableEq L] in
/-- The instruction at a position, and what it does in a state. -/
theorem flow_det {code : List ι} {pc : ℕ} {s : σ} {i j : ι} {f g : Flow L σ}
    (hi : code[pc]? = some i) (hf : isa.exec i s = f) (hj : code[pc]? = some j)
    (hg : isa.exec j s = g) : i = j ∧ f = g := by
  obtain rfl := Option.some.inj (hi.symm.trans hj)
  exact ⟨rfl, hf.symm.trans hg⟩

/-- A state has one run. -/
theorem Executes.det {code : List ι} {pc : ℕ} {s e e' : σ} {is is' : List ι}
    (h : isa.Executes code pc s is e) (h' : isa.Executes code pc s is' e') :
    is = is' ∧ e = e' := by
  induction h generalizing is' with
  | halt hi hx =>
    cases h' with
    | halt hi' hx' =>
      -- the same instruction is at this place, and has the same effect
      obtain ⟨rfl, hflow⟩ := flow_det hi hx hi' hx'
      exact ⟨rfl, Flow.halt.inj hflow⟩
    | next hi' hx' => cases (flow_det hi hx hi' hx').2
    | jump hi' hx' => cases (flow_det hi hx hi' hx').2
  | next hi hx _ ih =>
    cases h' with
    | halt hi' hx' => cases (flow_det hi hx hi' hx').2
    | next hi' hx' h' =>
      obtain ⟨rfl, hflow⟩ := flow_det hi hx hi' hx'
      obtain rfl := Flow.next.inj hflow
      obtain ⟨rfl, rfl⟩ := ih h'
      exact ⟨rfl, rfl⟩
    | jump hi' hx' => cases (flow_det hi hx hi' hx').2
  | jump hi hx hl _ ih =>
    cases h' with
    | halt hi' hx' => cases (flow_det hi hx hi' hx').2
    | next hi' hx' => cases (flow_det hi hx hi' hx').2
    | jump hi' hx' hl' h' =>
      obtain ⟨rfl, hflow⟩ := flow_det hi hx hi' hx'
      obtain ⟨rfl, rfl⟩ := Flow.jump.inj hflow
      obtain rfl := Option.some.inj (hl.symm.trans hl')
      obtain ⟨rfl, rfl⟩ := ih h'
      exact ⟨rfl, rfl⟩

/-- A run that goes on after a block. -/
theorem Executes.block {code pre block post : List ι} (hc : code = pre ++ block ++ post)
    {s s' e : σ} {is : List ι} (h : isa.execBlock block s = some s')
    (hrest : isa.Executes code (pre.length + block.length) s' is e) :
    isa.Executes code pre.length s (block ++ is) e := by
  induction block generalizing pre s with
  | nil =>
    obtain rfl : s = s' := by simpa using h
    exact hrest
  | cons i block ih =>
    obtain ⟨s₁, hi, hs⟩ := exec_of_execBlock_cons h
    obtain ⟨hget, hsplit⟩ := block_cons hc
    -- what is executed is recorded in front, so this induction builds it from the outside
    refine .next hget hi ?_
    have hpos : (pre ++ [i]).length + block.length = pre.length + (i :: block).length := by
      simp only [List.length_append, List.length_cons, List.length_nil]
      omega
    have htail := ih hsplit hs (hpos ▸ hrest)
    rwa [List.length_append] at htail

/-- Every instruction that a run executes is reached by it. -/
theorem Executes.exists_reaches {code : List ι} {entry pc : ℕ} {s₀ s e : σ} {is : List ι}
    (h : isa.Executes code pc s is e) (hr : isa.Reaches code entry s₀ pc s) :
    ∀ i ∈ is, ∃ pc' s', isa.Reaches code entry s₀ pc' s' ∧ code[pc']? = some i := by
  induction h with
  | halt hi _ =>
    intro j hj
    obtain rfl := List.mem_singleton.mp hj
    exact ⟨_, _, hr, hi⟩
  | next hi hx _ ih =>
    intro j hj
    -- the instruction is at this place, or comes later
    rcases List.mem_cons.mp hj with rfl | hj
    · exact ⟨_, _, hr, hi⟩
    · exact ih (hr.next hi hx) j hj
  | jump hi hx hl _ ih =>
    intro j hj
    rcases List.mem_cons.mp hj with rfl | hj
    · exact ⟨_, _, hr, hi⟩
    · exact ih (hr.jump hi hx hl) j hj

end Isa

end Basis
