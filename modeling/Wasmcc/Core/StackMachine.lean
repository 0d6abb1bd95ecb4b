import Wasmcc.Core.Ast

/-!
# The WebAssembly stack machine

The meaning of the five core instructions on typed values, as the WebAssembly specification gives
it: a constant or a local is pushed, `AddI32` replaces two `i32` by their sum modulo `2 ^ 32`,
`SetLocalI32` pops into a local, and `Return` ends the execution. Everything a body could do wrong
(pop an empty stack, pop a value of another type, name a local that is not there or is no `i32`) is
a `Fault`.

This is what the validator promises about (`Parser/ValidatorSound.lean`) and what compiled code is
compared with (`Compiler/Correct.lean`).
-/

namespace Wasmcc

/-- A typed WebAssembly value; floats by their bits, references by an index. -/
inductive WasmValue where
  | i32 (v : BitVec 32)
  | i64 (v : BitVec 64)
  | f32 (bits : BitVec 32)
  | f64 (bits : BitVec 64)
  | v128 (bits : BitVec 128)
  | funcRef (ref : Option ℕ)
  | externRef (ref : Option ℕ)
deriving DecidableEq, Repr

namespace WasmValue

def type : WasmValue → ValType
  | i32 _ => .i32
  | i64 _ => .i64
  | f32 _ => .f32
  | f64 _ => .f64
  | v128 _ => .v128
  | funcRef _ => .funcRef
  | externRef _ => .externRef

/-- The value a declared local starts with. -/
def zero : ValType → WasmValue
  | .i32 => i32 0
  | .i64 => i64 0
  | .f32 => f32 0
  | .f64 => f64 0
  | .v128 => v128 0
  | .funcRef => funcRef none
  | .externRef => externRef none

@[simp] theorem type_zero (vt : ValType) : (zero vt).type = vt := by
  cases vt <;> rfl

theorem eq_i32_of_type {w : WasmValue} (h : w.type = .i32) : ∃ v, w = i32 v := by
  cases w with
  | i32 v => exact ⟨v, rfl⟩
  | i64 v => cases h
  | f32 bits => cases h
  | f64 bits => cases h
  | v128 bits => cases h
  | funcRef ref => cases h
  | externRef ref => cases h

end WasmValue

/-- What a body that was not validated could do wrong. -/
inductive Fault where
  | stackUnderflow
  | typeMismatch
  | badLocal
  | unsupported
deriving DecidableEq, Repr

/-- The operand stack, its top first, and the locals. -/
structure StackMachine where
  stack : List WasmValue
  locals : List WasmValue
deriving DecidableEq, Repr

namespace StackMachine

def push (m : StackMachine) (v : BitVec 32) : StackMachine := { m with stack := .i32 v :: m.stack }

def popI32 (m : StackMachine) : Except Fault (BitVec 32 × StackMachine) :=
  match m.stack with
  | [] => .error .stackUnderflow
  | .i32 v :: stack => .ok (v, { m with stack })
  | _ :: _ => .error .typeMismatch

def localI32 (m : StackMachine) (idx : ℕ) : Except Fault (BitVec 32) :=
  match m.locals[idx]? with
  | some (.i32 v) => .ok v
  | _ => .error .badLocal

/-- One instruction other than `Return`. -/
def step (m : StackMachine) : Instruction → Except Fault StackMachine
  | .constI32 value => .ok (m.push value.asI32)
  | .addI32 => do
    let (y, m) ← m.popI32
    let (x, m) ← m.popI32
    return m.push (x + y)
  | .getLocalI32 idx => do
    let v ← m.localI32 idx
    return m.push v
  | .setLocalI32 idx => do
    let (v, m) ← m.popI32
    let _ ← m.localI32 idx
    return { m with locals := m.locals.set idx (.i32 v) }
  | .return_ => .ok m
  | .label _ | .br _ | .brIf _ _ => .error .unsupported

/-- A body, up to its first `Return` or its end. -/
def run (m : StackMachine) : List Instruction → Except Fault StackMachine
  | [] => .ok m
  | .return_ :: _ => .ok m
  | i :: is => do
    let m ← m.step i
    m.run is

/-- The instructions after the first `Return`, which are never executed. -/
def deadCode : List Instruction → List Instruction
  | [] => []
  | .return_ :: is => is
  | _ :: is => deadCode is

/-- The state in which a body starts: no operands, the arguments, and zeros. -/
def start (args : List WasmValue) (locals : List ValType) : StackMachine where
  stack := []
  locals := args ++ locals.map WasmValue.zero

/-- The values a body returns, in the order of the result types. -/
def results (m : StackMachine) : List WasmValue := m.stack.reverse

/-! ### Steps on `i32` operands -/

variable (m : StackMachine)

theorem popI32_cons {v : BitVec 32} {stack : List WasmValue} (h : m.stack = .i32 v :: stack) :
    m.popI32 = .ok (v, { m with stack }) := by
  rw [popI32, h]

theorem localI32_of_getElem? {idx : ℕ} {v : BitVec 32} (h : m.locals[idx]? = some (.i32 v)) :
    m.localI32 idx = .ok v := by
  rw [localI32, h]

theorem popI32_eq_ok {m m' : StackMachine} {v : BitVec 32} (h : m.popI32 = .ok (v, m')) :
    m.stack = .i32 v :: m'.stack ∧ m'.locals = m.locals := by
  rw [popI32] at h
  split at h
  · cases h
  next w stack hs =>
    obtain ⟨rfl, rfl⟩ := Prod.mk.inj (Except.ok.inj h)
    exact ⟨hs, rfl⟩
  · cases h

theorem localI32_eq_ok {m : StackMachine} {idx : ℕ} {v : BitVec 32} (h : m.localI32 idx = .ok v) :
    m.locals[idx]? = some (.i32 v) := by
  rw [localI32] at h
  split at h
  next w hs =>
    obtain rfl := Except.ok.inj h
    exact hs
  · cases h

theorem step_add {x y : BitVec 32} {stack : List WasmValue}
    (h : m.stack = .i32 y :: .i32 x :: stack) :
    m.step .addI32 = .ok { m with stack := .i32 (x + y) :: stack } := by
  rw [step, popI32_cons m h]
  rfl

theorem step_get {idx : ℕ} {v : BitVec 32} (h : m.locals[idx]? = some (.i32 v)) :
    m.step (.getLocalI32 idx) = .ok (m.push v) := by
  rw [step, localI32_of_getElem? m h]
  rfl

theorem step_set {idx : ℕ} {v w : BitVec 32} {stack : List WasmValue}
    (hs : m.stack = .i32 v :: stack) (hl : m.locals[idx]? = some (.i32 w)) :
    m.step (.setLocalI32 idx) = .ok ⟨stack, m.locals.set idx (.i32 v)⟩ := by
  rw [step, popI32_cons m hs]
  have hl' : ({ m with stack } : StackMachine).locals[idx]? = some (.i32 w) := hl
  change (do
    let _ ← ({ m with stack } : StackMachine).localI32 idx
    return (⟨stack, m.locals.set idx (.i32 v)⟩ : StackMachine)) = _
  rw [localI32_of_getElem? _ hl']
  rfl

theorem deadCode_cons {i : Instruction} (hi : i ≠ .return_) (is : List Instruction) :
    deadCode (i :: is) = deadCode is := by
  rw [deadCode]
  exact hi

theorem run_cons {i : Instruction} (hi : i ≠ .return_) {m' : StackMachine} (h : m.step i = .ok m')
    (is : List Instruction) : m.run (i :: is) = m'.run is := by
  rw [run, h]
  · rfl
  · exact hi

end StackMachine

end Wasmcc
