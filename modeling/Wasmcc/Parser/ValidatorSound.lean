import Wasmcc.Core.StackMachine
import Wasmcc.Parser.Validator

/-!
# Validated bodies do not go wrong

Before the first `Return` the validator's stack is an exact image of the operand stack: as many
entries, all of them `i32`, since no core instruction pushes anything else (`Models`). One lemma per
visitor says what the visitor demands of the stack machine and that the image is kept; `run_sound`
is the induction over the body, and `validate_sound` the promise of the class comment: a body that
was accepted never pops what is not there and ends with exactly its result values.
-/

open Basis

namespace Wasmcc

namespace FunctionValidator

/-- In reachable code, a stack of `n` operands of type `i32` over locals of the declared types. -/
structure Reachable (v : FunctionValidator) (n : ℕ) : Prop where
  unreachable : v.unreachable = false
  underlying : v.underlying = List.replicate n (.val .i32)

variable {v v' : FunctionValidator} {n : ℕ}

theorem Reachable.push_i32 (h : v.Reachable n) : (v.push (.val .i32)).Reachable (n + 1) :=
  ⟨h.unreachable, by rw [push_underlying, h.underlying, List.replicate_succ]⟩

/-- **Popping in reachable code** finds an `i32` and nothing else. -/
theorem Reachable.pop {vt : ValType} (h : v.Reachable n) (hp : v.pop (.val vt) = .ok v') :
    vt = .i32 ∧ ∃ k, n = k + 1 ∧ v'.Reachable k := by
  cases n with
  | zero =>
    rw [pop_nil h.underlying, h.unreachable] at hp
    -- a pop from the empty stack is refused in live code
    cases hp
  | succ k =>
    have hframe := pop_frame hp
    rw [pop_cons (by rw [h.underlying, List.replicate_succ])] at hp
    by_cases ha : accepts (.val .i32) (.val vt) = true
    · rw [if_pos ha] at hp
      obtain rfl := Except.ok.inj hp
      have hvt : vt = .i32 := by simpa [eq_comm] using accepts_val.mp ha
      exact ⟨hvt, k, rfl, hframe.unreachable.trans h.unreachable, rfl⟩
    · rw [if_neg ha] at hp
      cases hp

/-- Popping a list of types off a stack of `i32` operands: they are all `i32`. -/
theorem Reachable.popAll {vts : List ValType} : ∀ {v v' : FunctionValidator} {n : ℕ},
    v.Reachable n → v.popAll vts = .ok v' →
      ∃ k, n = vts.length + k ∧ vts = List.replicate vts.length .i32 ∧ v'.Reachable k := by
  induction vts with
  | nil =>
    intro v v' n h hp
    obtain rfl := Except.ok.inj hp
    exact ⟨n, by simp, rfl, h⟩
  | cons vt vts ih =>
    intro v v' n h hp
    obtain ⟨v₁, h1, h2⟩ := bind_eq_ok.mp hp
    -- one operand, then the others
    obtain ⟨rfl, j, rfl, hj⟩ := h.pop h1
    obtain ⟨k, rfl, hvts, hk⟩ := ih hj h2
    refine ⟨k, by rw [List.length_cons]; omega, ?_, hk⟩
    rw [List.length_cons, List.replicate_succ, ← hvts]

/-- What `Return` and `Finalize` check in reachable code: the stack is the result values. -/
theorem Reachable.results {vts : List ValType} (h : v.Reachable n)
    (hp : v.popAll vts = .ok v') (he : v'.underlying = []) :
    vts = List.replicate n .i32 := by
  obtain ⟨k, rfl, hvts, hk⟩ := h.popAll hp
  have hk0 : k = 0 := by
    have := congrArg List.length (hk.underlying.symm.trans he)
    simpa using this
  subst hk0
  simpa using hvts

end FunctionValidator

open FunctionValidator

/-- The validator's stack and locals are the types of the machine's, and every operand is an
`i32`. -/
structure Models (v : FunctionValidator) (m : StackMachine) : Prop where
  reachable : v.Reachable m.stack.length
  operands : ∀ w ∈ m.stack, w.type = .i32
  locals : v.locals = m.locals.map WasmValue.type

namespace Models

variable {v v' : FunctionValidator} {m : StackMachine}

theorem top (h : Models v m) {k : ℕ} (hk : m.stack.length = k + 1) :
    ∃ x stack, m.stack = .i32 x :: stack ∧ stack.length = k ∧ ∀ w ∈ stack, w.type = .i32 := by
  obtain ⟨w, stack, hs⟩ := List.exists_cons_of_length_eq_add_one hk
  have hop := h.operands
  rw [hs] at hop hk
  obtain ⟨x, rfl⟩ := WasmValue.eq_i32_of_type (hop w List.mem_cons_self)
  exact ⟨x, stack, hs, by simpa using hk, fun u hu => hop u (List.mem_cons_of_mem _ hu)⟩

theorem localI32 (h : Models v m) {idx : ℕ} (hl : v.locals[idx]? = some .i32) :
    ∃ x, m.locals[idx]? = some (.i32 x) := by
  rw [h.locals, List.getElem?_map, Option.map_eq_some_iff] at hl
  obtain ⟨w, hw, ht⟩ := hl
  obtain ⟨x, rfl⟩ := WasmValue.eq_i32_of_type ht
  exact ⟨x, hw⟩

theorem push (h : Models v m) (x : BitVec 32) : Models (v.push (.val .i32)) (m.push x) where
  reachable := h.reachable.push_i32
  operands := by
    intro w hw
    rcases List.mem_cons.mp hw with rfl | hw
    · rfl
    · exact h.operands w hw
  locals := h.locals

/-- The stack machine does not fault on an instruction whose visitor did not throw, and the image
is kept. -/
theorem step (h : Models v m) {i : Instruction} (hcore : i.isCore = true) (hr : i ≠ .return_)
    (hv : v.visit i = .ok v') : ∃ m', m.step i = .ok m' ∧ Models v' m' := by
  cases i with
  | constI32 value =>
    obtain rfl := Except.ok.inj hv
    exact ⟨_, rfl, h.push value.asI32⟩
  | addI32 =>
    obtain ⟨v₁, h1, h2⟩ := bind_eq_ok.mp hv
    obtain ⟨v₂, h3, h4⟩ := bind_eq_ok.mp h2
    obtain rfl := Except.ok.inj h4
    obtain ⟨-, k, hk, hr1⟩ := h.reachable.pop h1
    obtain ⟨-, j, rfl, hr2⟩ := hr1.pop h3
    obtain ⟨y, below, hs, hlen, hop⟩ := h.top hk
    obtain ⟨w, stack, hb⟩ := List.exists_cons_of_length_eq_add_one hlen
    subst hb
    obtain ⟨x, rfl⟩ := WasmValue.eq_i32_of_type (hop w List.mem_cons_self)
    refine ⟨_, m.step_add hs, ⟨?_, ?_, ?_⟩⟩
    · have hj : stack.length = j := by simpa using hlen
      simpa [hj] using hr2.push_i32
    · intro u hu
      rcases List.mem_cons.mp hu with rfl | hu
      · rfl
      · exact hop u (List.mem_cons_of_mem _ hu)
    · rw [push_locals, (pop_frame h3).locals, (pop_frame h1).locals, h.locals]
  | getLocalI32 idx =>
    obtain ⟨u, h1, h2⟩ := bind_eq_ok.mp hv
    obtain rfl := Except.ok.inj h2
    obtain ⟨x, hx⟩ := h.localI32 (assertLocal_eq_ok.mp h1)
    exact ⟨_, m.step_get hx, h.push x⟩
  | setLocalI32 idx =>
    obtain ⟨v₁, h1, h2⟩ := bind_eq_ok.mp hv
    obtain ⟨u, h3, h4⟩ := bind_eq_ok.mp h2
    obtain rfl := Except.ok.inj h4
    obtain ⟨-, k, hk, hr1⟩ := h.reachable.pop h1
    obtain ⟨x, stack, hs, rfl, hop⟩ := h.top hk
    have hlocals := (pop_frame h1).locals
    obtain ⟨w, hw⟩ := h.localI32 (by rw [← hlocals]; exact assertLocal_eq_ok.mp h3)
    refine ⟨_, m.step_set hs hw, ⟨hr1, hop, ?_⟩⟩
    -- the local keeps its type
    rw [hlocals, h.locals, List.map_set]
    obtain ⟨hi, hget⟩ := List.getElem?_eq_some_iff.mp hw
    conv_lhs => rw [← List.set_getElem_self hi, hget, List.map_set]
    rfl
  | return_ => exact absurd rfl hr
  | label id => cases hcore
  | br id => cases hcore
  | brIf t e => cases hcore

/-- **A validated body runs through**, up to its first `Return` or its end, and leaves exactly
values of the result types. -/
theorem run_sound {body : List Instruction} (hcore : CoreBody body) :
    ∀ {v v₁ v₂ : FunctionValidator} {m : StackMachine}, Models v m →
      v.visitAll body = .ok v₁ → v₁.finalize = .ok v₂ →
      ∃ m', m.run body = .ok m' ∧ m'.results.map WasmValue.type = v.returns := by
  -- what the result check says about the machine it is made for
  have hend : ∀ {v v₁ : FunctionValidator} {m : StackMachine}, Models v m →
      v.popAll v.returns = .ok v₁ → v₁.underlying = [] →
      m.results.map WasmValue.type = v.returns := by
    intro v v₁ m h hp he
    rw [h.reachable.results hp he, StackMachine.results, List.eq_replicate_iff]
    refine ⟨by simp, fun vt hvt => ?_⟩
    obtain ⟨w, hw, rfl⟩ := List.mem_map.mp hvt
    exact h.operands w (List.mem_reverse.mp hw)
  induction body with
  | nil =>
    intro v v₁ v₂ m h hv hf
    obtain rfl := Except.ok.inj hv
    obtain ⟨v₃, h1, h2⟩ := bind_eq_ok.mp hf
    obtain ⟨u, h3, -⟩ := bind_eq_ok.mp h2
    exact ⟨m, rfl, hend h h1 (assertEmpty_eq_ok.mp h3)⟩
  | cons i is ih =>
    intro v v₁ v₂ m h hv hf
    obtain ⟨v', h1, h2⟩ := bind_eq_ok.mp hv
    by_cases hr : i = .return_
    · subst hr
      obtain ⟨v₃, h3, h4⟩ := bind_eq_ok.mp h1
      obtain ⟨u, h5, -⟩ := bind_eq_ok.mp h4
      exact ⟨m, rfl, hend h h3 (assertEmpty_eq_ok.mp h5)⟩
    · obtain ⟨m', hs, h'⟩ := h.step hcore.head hr h1
      obtain ⟨m'', hrun, hres⟩ := ih hcore.tail h' h2 hf
      exact ⟨m'', (m.run_cons hr hs is).trans hrun, hres.trans (visit_signature h1).2⟩

end Models

theorem models_new {ft : BlockType} {locals : List ValType} {values : List WasmValue}
    (h : values.map WasmValue.type = ft.parameterTypes ++ locals) :
    Models (FunctionValidator.new ft locals) ⟨[], values⟩ where
  reachable := ⟨rfl, rfl⟩
  operands := by simp
  locals := h.symm

/-- **Validator soundness.** A body that the validator accepts, run from an empty operand stack with
arguments of the parameter types and any values in the declared locals, does not fault and ends
with exactly values of the result types. -/
theorem validate_sound (ft : BlockType) (locals : List ValType) (body : List Instruction)
    (hcore : CoreBody body) (hvalid : ∃ v, validate ft locals body = .ok v)
    (values : List WasmValue) (hvalues : values.map WasmValue.type = ft.parameterTypes ++ locals) :
    ∃ m, StackMachine.run ⟨[], values⟩ body = .ok m ∧
      m.results.map WasmValue.type = ft.resultTypes := by
  obtain ⟨v, hv⟩ := hvalid
  obtain ⟨v₁, h1, h2⟩ := bind_eq_ok.mp hv
  exact Models.run_sound hcore (models_new hvalues) h1 h2

theorem validate_sound_add :
    ∃ m, StackMachine.run ⟨[], [.i32 1, .i32 2]⟩ [.getLocalI32 0, .getLocalI32 1, .addI32, .return_]
      = .ok m ∧ m.results.map WasmValue.type = [.i32] :=
  validate_sound ⟨[.i32, .i32], [.i32]⟩ []
    [.getLocalI32 0, .getLocalI32 1, .addI32, .return_] (by decide) ⟨_, rfl⟩ [.i32 1, .i32 2] rfl

/-! ### The locals that a body names -/

/-- The local that an instruction names, if it names one, is an `i32`. -/
def Instruction.LocalsI32 (types : List ValType) : Instruction → Prop
  | .getLocalI32 idx | .setLocalI32 idx => types[idx]? = some .i32
  | .constI32 _ | .addI32 | .return_ | .label _ | .br _ | .brIf _ _ => True

namespace FunctionValidator

/-- A visitor only accepts locals that are there and `i32`, in reachable code or not. -/
theorem visit_locals {v v' : FunctionValidator} {i : Instruction} (h : v.visit i = .ok v') :
    i.LocalsI32 v.locals := by
  cases i with
  | constI32 value => trivial
  | addI32 => trivial
  | getLocalI32 idx =>
    obtain ⟨u, h1, -⟩ := bind_eq_ok.mp h
    exact assertLocal_eq_ok.mp h1
  | setLocalI32 idx =>
    obtain ⟨v₁, h1, h2⟩ := bind_eq_ok.mp h
    obtain ⟨u, h3, -⟩ := bind_eq_ok.mp h2
    have hlocal := assertLocal_eq_ok.mp h3
    -- the pop in front of the check leaves the locals alone
    rwa [(pop_frame h1).locals] at hlocal
  | return_ => trivial
  | label id => trivial
  | br id => trivial
  | brIf t e => trivial

theorem visitAll_locals {body : List Instruction} : ∀ {v v' : FunctionValidator},
    v.visitAll body = .ok v' → ∀ i ∈ body, i.LocalsI32 v.locals := by
  induction body with
  | nil => exact fun _ i hi => absurd hi List.not_mem_nil
  | cons j js ih =>
    intro v v' h i hi
    obtain ⟨v₁, h1, h2⟩ := bind_eq_ok.mp h
    rcases List.mem_cons.mp hi with rfl | hi
    · exact visit_locals h1
    · have := ih h2 i hi
      rwa [(visit_signature h1).1] at this

/-- The locals that an accepted body names are `i32`. -/
theorem localsI32_of_validate {m : Function.Metadata} {body : List Instruction}
    {v : FunctionValidator} (hv : validate m.signature m.locals body = .ok v) :
    ∀ i ∈ body, i.LocalsI32 m.localTypes := by
  obtain ⟨v₁, h1, -⟩ := bind_eq_ok.mp hv
  exact fun i hi => visitAll_locals h1 i hi

end FunctionValidator

end Wasmcc
