import Wasmcc.Core.Ast

/-!
# The function validator

`FunctionValidator` of `parser/validator.h`: one visitor per instruction over a stack of
`ValidationType`s, a flag for code after a `Return`, and the running and maximal sizes of the
stack. The byte count is a `size_t`, so it is kept modulo `2 ^ 64`.

The stack is a list with its top first. `validate` is one validator run over a whole body: the
visitor calls in order, then `Finalize`.
-/

open Basis

namespace Wasmcc

/-- A value type, or one of the two polymorphic types. -/
inductive ValidationType where
  | any
  | anyref
  | val (vt : ValType)
deriving DecidableEq, Repr

namespace ValidationType

def isAny : ValidationType → Bool
  | any => true
  | _ => false

def isAnyref : ValidationType → Bool
  | anyref => true
  | _ => false

def isRef : ValidationType → Bool
  | anyref | val .funcRef | val .externRef => true
  | _ => false

/-- The worst case for `any`, a pointer for `anyref`. -/
def sizeBytes : ValidationType → ℕ
  | any => 16
  | anyref => 8
  | val vt => vt.sizeBytes

end ValidationType

structure FunctionValidator where
  locals : List ValType
  returns : List ValType
  unreachable : Bool := false
  underlying : List ValidationType := []
  /-- A `size_t`. -/
  currentMemoryUsage : ℕ := 0
  maxStackSize : ℕ := 0
  /-- A `size_t`. -/
  maxMemoryUsage : ℕ := 0
deriving DecidableEq, Repr

namespace FunctionValidator

/-- The constructor: parameters and declared locals share one index space. -/
def new (ft : BlockType) (locals : List ValType) : FunctionValidator where
  locals := ft.parameterTypes ++ locals
  returns := ft.resultTypes

def maximumStackElements (v : FunctionValidator) : ℕ := v.maxStackSize

def maximumStackSizeBytes (v : FunctionValidator) : ℕ := v.maxMemoryUsage

def push (v : FunctionValidator) (vt : ValidationType) : FunctionValidator :=
  let underlying := vt :: v.underlying
  let currentMemoryUsage := (v.currentMemoryUsage + vt.sizeBytes) % 2 ^ 64
  { v with
    underlying
    currentMemoryUsage
    maxStackSize := max v.maxStackSize underlying.length
    maxMemoryUsage := max v.maxMemoryUsage currentMemoryUsage }

/-- Whether a popped `actual` may stand where `expected` is wanted. -/
def accepts (actual expected : ValidationType) : Bool :=
  if actual.isAny || expected.isAny then true
  else if expected.isAnyref then actual.isRef
  else actual == expected

def pop (v : FunctionValidator) (expected : ValidationType) :
    Except Exception FunctionValidator :=
  match v.underlying with
  | [] =>
    if v.unreachable then
      -- below the bottom of the stack, unreachable code finds whatever it asks for
      .ok { v with currentMemoryUsage :=
        (v.currentMemoryUsage + 2 ^ 64 - ValidationType.any.sizeBytes) % 2 ^ 64 }
    else .error .validation
  | actual :: underlying =>
    if accepts actual expected then
      .ok { v with
        underlying
        currentMemoryUsage := (v.currentMemoryUsage + 2 ^ 64 - actual.sizeBytes) % 2 ^ 64 }
    else .error .validation

def popAll (v : FunctionValidator) : List ValType → Except Exception FunctionValidator
  | [] => .ok v
  | vt :: vts => do
    let v ← v.pop (.val vt)
    v.popAll vts

def assertLocal (v : FunctionValidator) (idx : ℕ) (vt : ValType) : Except Exception Unit :=
  if v.locals[idx]? = some vt then .ok () else .error .validation

def assertEmpty (v : FunctionValidator) : Except Exception Unit :=
  if v.underlying = [] then .ok () else .error .validation

def visitConstI32 (v : FunctionValidator) : FunctionValidator := v.push (.val .i32)

def visitAddI32 (v : FunctionValidator) : Except Exception FunctionValidator := do
  let v ← v.pop (.val .i32)
  let v ← v.pop (.val .i32)
  return v.push (.val .i32)

def visitGetLocalI32 (v : FunctionValidator) (idx : ℕ) : Except Exception FunctionValidator := do
  v.assertLocal idx .i32
  return v.push (.val .i32)

def visitSetLocalI32 (v : FunctionValidator) (idx : ℕ) : Except Exception FunctionValidator := do
  let v ← v.pop (.val .i32)
  v.assertLocal idx .i32
  return v

def visitReturn (v : FunctionValidator) : Except Exception FunctionValidator := do
  let v ← v.popAll v.returns
  v.assertEmpty
  -- the current block is unreachable from here on
  return { v with unreachable := true }

/-- The visitor. `Label`, `Br` and `BrIf` are not handled yet. -/
def visit (v : FunctionValidator) : Instruction → Except Exception FunctionValidator
  | .constI32 _ => .ok v.visitConstI32
  | .addI32 => v.visitAddI32
  | .getLocalI32 idx => v.visitGetLocalI32 idx
  | .setLocalI32 idx => v.visitSetLocalI32 idx
  | .return_ => v.visitReturn
  | .label _ | .br _ | .brIf _ _ => .ok v

def finalize (v : FunctionValidator) : Except Exception FunctionValidator := do
  let v ← v.popAll v.returns
  v.assertEmpty
  return v

/-- The visitor on every instruction of a body, in order. -/
def visitAll (v : FunctionValidator) : List Instruction → Except Exception FunctionValidator
  | [] => .ok v
  | i :: is => do
    let v ← v.visit i
    v.visitAll is

/-- A validator run over a whole body. -/
def validate (ft : BlockType) (locals : List ValType) (body : List Instruction) :
    Except Exception FunctionValidator := do
  let v ← (new ft locals).visitAll body
  v.finalize

end FunctionValidator

/-- The body was accepted for the function's own signature and locals, and the stack sizes are those
that this validator run computed. -/
def Function.IsValidated (f : Function) : Prop :=
  ∃ v, FunctionValidator.validate f.meta_.signature f.meta_.locals f.body = .ok v ∧
    f.meta_.maxStackSizeBytes = BitVec.ofNat 32 v.maximumStackSizeBytes ∧
    f.meta_.maxStackElements = BitVec.ofNat 32 v.maximumStackElements

namespace FunctionValidator

/-! ### What each operation does when it does not throw -/

/-- A type of the language accepts itself and the polymorphic `any` only. -/
theorem accepts_val {actual : ValidationType} {vt : ValType} :
    accepts actual (.val vt) = true ↔ actual = .any ∨ actual = .val vt := by
  cases actual <;> simp [accepts, ValidationType.isAny, ValidationType.isAnyref]

theorem pop_nil {v : FunctionValidator} (h : v.underlying = []) (expected : ValidationType) :
    v.pop expected = if v.unreachable then
      .ok { v with currentMemoryUsage :=
        (v.currentMemoryUsage + 2 ^ 64 - ValidationType.any.sizeBytes) % 2 ^ 64 }
    else .error .validation := by
  rw [pop, h]

theorem pop_cons {v : FunctionValidator} {actual : ValidationType} {below : List ValidationType}
    (h : v.underlying = actual :: below) (expected : ValidationType) :
    v.pop expected = if accepts actual expected then
      .ok { v with
        underlying := below
        currentMemoryUsage := (v.currentMemoryUsage + 2 ^ 64 - actual.sizeBytes) % 2 ^ 64 }
    else .error .validation := by
  rw [pop, h]

theorem assertLocal_eq_ok {v : FunctionValidator} {idx : ℕ} {vt : ValType} {u : Unit} :
    v.assertLocal idx vt = .ok u ↔ v.locals[idx]? = some vt := by
  unfold assertLocal
  split <;> simp_all

theorem assertEmpty_eq_ok {v : FunctionValidator} {u : Unit} :
    v.assertEmpty = .ok u ↔ v.underlying = [] := by
  unfold assertEmpty
  split <;> simp_all

@[simp] theorem push_underlying (v : FunctionValidator) (vt : ValidationType) :
    (v.push vt).underlying = vt :: v.underlying := rfl

@[simp] theorem push_locals (v : FunctionValidator) (vt : ValidationType) :
    (v.push vt).locals = v.locals := rfl

@[simp] theorem push_returns (v : FunctionValidator) (vt : ValidationType) :
    (v.push vt).returns = v.returns := rfl

@[simp] theorem push_unreachable (v : FunctionValidator) (vt : ValidationType) :
    (v.push vt).unreachable = v.unreachable := rfl

@[simp] theorem push_maxStackSize (v : FunctionValidator) (vt : ValidationType) :
    (v.push vt).maxStackSize = max v.maxStackSize (v.underlying.length + 1) := rfl

/-- The parts of a validator that no visitor but `Return` changes. -/
structure SameFrame (v v' : FunctionValidator) : Prop where
  locals : v'.locals = v.locals
  returns : v'.returns = v.returns
  unreachable : v'.unreachable = v.unreachable

theorem SameFrame.trans {v v' v'' : FunctionValidator} (h : SameFrame v v')
    (h' : SameFrame v' v'') : SameFrame v v'' :=
  ⟨h'.locals.trans h.locals, h'.returns.trans h.returns, h'.unreachable.trans h.unreachable⟩

/-- Popping leaves everything but the stack and the current usage as it was. -/
structure PopFrame (v v' : FunctionValidator) : Prop extends SameFrame v v' where
  maxStackSize : v'.maxStackSize = v.maxStackSize
  maxMemoryUsage : v'.maxMemoryUsage = v.maxMemoryUsage

theorem PopFrame.trans {v v' v'' : FunctionValidator} (h : PopFrame v v') (h' : PopFrame v' v'') :
    PopFrame v v'' :=
  ⟨h.toSameFrame.trans h'.toSameFrame, h'.maxStackSize.trans h.maxStackSize,
    h'.maxMemoryUsage.trans h.maxMemoryUsage⟩

theorem pop_frame {v v' : FunctionValidator} {expected : ValidationType}
    (h : v.pop expected = .ok v') : PopFrame v v' := by
  -- only dead code pops from an empty stack, and then the stack stays empty
  cases hu : v.underlying with
  | nil =>
    rw [pop_nil hu] at h
    split at h
    · obtain rfl := Except.ok.inj h
      exact ⟨⟨rfl, rfl, rfl⟩, rfl, rfl⟩
    · cases h
  | cons actual below =>
    rw [pop_cons hu] at h
    split at h
    · obtain rfl := Except.ok.inj h
      exact ⟨⟨rfl, rfl, rfl⟩, rfl, rfl⟩
    · cases h

theorem popAll_frame {vts : List ValType} : ∀ {v v' : FunctionValidator},
    v.popAll vts = .ok v' → PopFrame v v' := by
  induction vts with
  | nil =>
    intro v v' h
    obtain rfl := Except.ok.inj h
    exact ⟨⟨rfl, rfl, rfl⟩, rfl, rfl⟩
  | cons vt vts ih =>
    intro v v' h
    obtain ⟨v₁, h1, h2⟩ := bind_eq_ok.mp h
    exact (pop_frame h1).trans (ih h2)

end FunctionValidator

/-- The operands that an instruction's visitor pops, in a function with these results. -/
def Instruction.popped (returns : List ValType) : Instruction → List ValType
  | .addI32 => [.i32, .i32]
  | .setLocalI32 _ => [.i32]
  | .return_ => returns
  | _ => []

namespace FunctionValidator

/-- What a visitor does when it has popped its operands and checked everything. -/
def leave (v : FunctionValidator) : Instruction → FunctionValidator
  | .constI32 _ | .addI32 | .getLocalI32 _ => v.push (.val .i32)
  | .return_ => { v with unreachable := true }
  | _ => v

/-- **What a visitor that does not throw has done**: popped its operands, and then pushed or marked
the block. -/
theorem visit_eq_ok {v v' : FunctionValidator} {i : Instruction} (h : v.visit i = .ok v') :
    ∃ v₁, v.popAll (i.popped v.returns) = .ok v₁ ∧ v' = v₁.leave i := by
  cases i with
  | addI32 =>
    obtain ⟨v₁, h1, h2⟩ := bind_eq_ok.mp h
    obtain ⟨v₂, h3, h4⟩ := bind_eq_ok.mp h2
    refine ⟨v₂, bind_eq_ok.mpr ⟨v₁, h1, bind_eq_ok.mpr ⟨v₂, h3, rfl⟩⟩, ?_⟩
    exact (Except.ok.inj h4).symm
  | getLocalI32 idx =>
    obtain ⟨u, h1, h2⟩ := bind_eq_ok.mp h
    exact ⟨v, rfl, (Except.ok.inj h2).symm⟩
  | setLocalI32 idx =>
    obtain ⟨v₁, h1, h2⟩ := bind_eq_ok.mp h
    obtain ⟨u, -, h4⟩ := bind_eq_ok.mp h2
    exact ⟨v₁, bind_eq_ok.mpr ⟨v₁, h1, rfl⟩, (Except.ok.inj h4).symm⟩
  -- `Return` pops the results
  | return_ =>
    obtain ⟨v₁, h1, h2⟩ := bind_eq_ok.mp h
    obtain ⟨u, -, h4⟩ := bind_eq_ok.mp h2
    exact ⟨v₁, h1, (Except.ok.inj h4).symm⟩
  | constI32 | label | br | brIf => exact ⟨v, rfl, (Except.ok.inj h).symm⟩

/-- No visitor changes the locals or the result types. -/
theorem visit_signature {v v' : FunctionValidator} {i : Instruction} (h : v.visit i = .ok v') :
    v'.locals = v.locals ∧ v'.returns = v.returns := by
  obtain ⟨v₁, hpop, rfl⟩ := visit_eq_ok h
  have hframe := popAll_frame hpop
  cases i <;> exact ⟨hframe.locals, hframe.returns⟩

end FunctionValidator

end Wasmcc
