import Wasmcc.Compiler.Common

/-!
# The code generator

`Compiler` of `compiler/x64/compiler.cc` and `compiler/arm64/compiler.cc`. The two classes differ
in the registers they use and in the instruction they emit at each place; where and in which order
they emit is the same. An `Assembler` holds what differs, and `Compiler/X64.lean` and
`Compiler/Arm64.lean` fill it in.

Every function returns the instructions it emits, with the state it leaves behind. The functions of
the source that fill in a `RuntimeValue` through a pointer are `ensureInRegister` for a popped copy
and `ensureTopInRegister` for the element that `Peek` points to.
-/

namespace Wasmcc

/-! ### Registers under their two names -/

inductive Width where
  | w32
  | w64
deriving DecidableEq, Repr

def Width.bytes : Width → ℕ
  | w32 => 4
  | w64 => 8

/-- A register under its 32-bit or its 64-bit name. -/
structure Gp where
  width : Width
  id : Reg
deriving DecidableEq, Repr

namespace Reg

def r32 (reg : Reg) : Gp := ⟨.w32, reg⟩

def r64 (reg : Reg) : Gp := ⟨.w64, reg⟩

/-- `Cast`. -/
def cast (reg : Reg) (vt : ValType) : Gp := if vt.is32Bit then r32 reg else r64 reg

@[simp] theorem cast_i32 (reg : Reg) : cast reg .i32 = r32 reg := rfl

@[simp] theorem cast_id (reg : Reg) (vt : ValType) : (cast reg vt).id = reg := by
  rw [cast]
  split <;> rfl

end Reg

/-- The bytes of a register under the name that `Cast` gives it. -/
def ValType.castBytes (vt : ValType) : ℕ := if vt.is32Bit then 4 else 8

theorem Reg.cast_bytes (reg : Reg) (vt : ValType) : (reg.cast vt).width.bytes = vt.castBytes := by
  rw [ValType.castBytes, cast]
  split <;> rfl

theorem ValType.castBytes_le (vt : ValType) : vt.castBytes ≤ 8 := by
  cases vt <;> decide

theorem ValType.castBytes_le_sizeBytes (vt : ValType) : vt.castBytes ≤ vt.sizeBytes := by
  cases vt <;> decide

theorem ValType.castBytes_pos (vt : ValType) : 0 < vt.castBytes := by
  cases vt <;> decide

/-- A label of the assembler, by its id. -/
abbrev Label := ℕ

/-- What one of the two architectures puts at each place of the generated code. Offsets are relative
to the stack pointer. -/
structure Assembler (ι : Type) where
  /-- `kGpCallerSavedRegisters`, the registers that are allocated. -/
  callerSaved : RegisterMask
  /-- `kGpArgs`. -/
  gpArgs : List Reg
  /-- The register a result is returned in. -/
  gpRet : Reg
  /-- Reserve the frame. -/
  enter (size : BitVec 32) : ι
  /-- Release the frame. -/
  leave (size : BitVec 32) : ι
  store (offset : BitVec 32) (src : Gp) : ι
  load (dst : Gp) (offset : BitVec 32) : ι
  const (dst : Reg) (v : BitVec 32) : ι
  /-- `dst += src`. -/
  add (dst src : Reg) : ι
  /-- The instruction that `SetLocalI32` ends with. -/
  setLocal (offset : BitVec 32) (src : Reg) : ι
  move (dst src : Gp) : ι
  jump (label : Label) : ι
  bind (label : Label) : ι
  ret : ι
  /-- An addition finds registers for both of its operands. -/
  twoRegisters : ∃ r₁ r₂, r₁ ≠ r₂ ∧ callerSaved.test r₁ = true ∧ callerSaved.test r₂ = true

/-- The members of a `Compiler` that change while it visits a body. -/
structure CompilerState where
  regTracker : RegisterTracker := {}
  stack : RuntimeStack

namespace Assembler

variable {ι : Type} (a : Assembler ι)

/-! ### Allocating registers -/

/-- The loop of `AllocateRegister`, from the bottom of the stack to its top: the register that it
ends up with, the elements afterwards, and the code. -/
def spill : List RuntimeValue → Option Reg × List RuntimeValue × List ι
  | [] => (none, [], [])
  | v :: below =>
    let (reg, below, code) := spill below
    match v.reg with
    | none => (reg, v :: below, code)
    -- the registers are swapped, and the loop goes on
    | some r => (some r, { v with reg } :: below, code ++ [a.store v.stackPointer (r.cast v.type)])

/-- The loop emits nothing but stores. -/
theorem mem_spill {i : ι} {stack : List RuntimeValue} (h : i ∈ (a.spill stack).2.2) :
    ∃ offset g, i = a.store offset g := by
  induction stack with
  | nil => cases h
  | cons v below ih =>
    rw [spill] at h
    cases hv : v.reg with
    | none =>
      simp only [hv] at h
      exact ih h
    | some r =>
      simp only [hv] at h
      -- a store is put behind those of the entries below
      rcases List.mem_append.mp h with h | h
      · exact ih h
      · exact ⟨_, _, List.mem_singleton.mp h⟩

def allocateRegister (s : CompilerState) : Except Undefined (Reg × CompilerState × List ι) :=
  match s.regTracker.takeUnusedRegister a.callerSaved with
  | some (reg, regTracker) => .ok (reg, { s with regTracker }, [])
  | none =>
    match a.spill s.stack.stack with
    | (some reg, stack, code) => .ok (reg, { s with stack := { s.stack with stack } }, code)
    | (none, _, _) => .error .noRegister

/-- `EnsureInRegister` of a value that was popped. -/
def ensureInRegister (s : CompilerState) (v : RuntimeValue) :
    Except Undefined (Reg × CompilerState × List ι) :=
  match v.reg with
  | some reg => .ok (reg, s, [])
  | none => do
    let (reg, s, code) ← a.allocateRegister s
    return (reg, s, code ++ [a.load (reg.cast v.type) v.stackPointer])

theorem ensureInRegister_of_reg {s : CompilerState} {v : RuntimeValue} {reg : Reg}
    (h : v.reg = some reg) : a.ensureInRegister s v = .ok (reg, s, []) := by
  rw [ensureInRegister, h]

theorem ensureInRegister_of_alloc {s s' : CompilerState} {v : RuntimeValue} {reg : Reg}
    {code : List ι} (h : v.reg = none) (ha : a.allocateRegister s = .ok (reg, s', code)) :
    a.ensureInRegister s v = .ok (reg, s', code ++ [a.load (reg.cast v.type) v.stackPointer]) := by
  rw [ensureInRegister, h]
  simp only [ha]
  rfl

/-- `EnsureInRegister` of the top of the stack. -/
def ensureTopInRegister (s : CompilerState) : Except Undefined (Reg × CompilerState × List ι) := do
  let top ← s.stack.peek
  let (reg, s, code) ← a.ensureInRegister s top
  return (reg, { s with stack := s.stack.setTopReg reg }, code)

theorem ensureTopInRegister_eq {s s' : CompilerState} {top : RuntimeValue} {reg : Reg}
    {code : List ι} (hp : s.stack.peek = .ok top)
    (he : a.ensureInRegister s top = .ok (reg, s', code)) :
    a.ensureTopInRegister s = .ok (reg, { s' with stack := s'.stack.setTopReg reg }, code) := by
  rw [ensureTopInRegister, hp, ok_bind, he]
  rfl

/-! ### The visitors -/

def visitConstI32 (s : CompilerState) (value : Value) :
    Except Undefined (CompilerState × List ι) := do
  let stack ← s.stack.push { type := .i32 }
  let (reg, s, code) ← a.ensureTopInRegister { s with stack }
  return (s, code ++ [a.const reg value.asI32])

def visitAddI32 (s : CompilerState) : Except Undefined (CompilerState × List ι) := do
  let (x2, stack) ← s.stack.pop
  let (x2Reg, s, code2) ← a.ensureInRegister { s with stack } x2
  let (x1Reg, s, code1) ← a.ensureTopInRegister s
  return ({ s with regTracker := s.regTracker.markRegisterUnused x2Reg },
    code2 ++ code1 ++ [a.add x1Reg x2Reg])

def visitGetLocalI32 (frame : FunctionFrame) (s : CompilerState) (idx : ℕ) :
    Except Undefined (CompilerState × List ι) := do
  let stack ← s.stack.push { type := .i32 }
  let (reg, s, code) ← a.allocateRegister { s with stack }
  let offset ← frame.localStackOffset idx
  return ({ s with stack := s.stack.setTopReg reg }, code ++ [a.load (Reg.r32 reg) offset])

def visitSetLocalI32 (frame : FunctionFrame) (s : CompilerState) (idx : ℕ) :
    Except Undefined (CompilerState × List ι) := do
  let (v, stack) ← s.stack.pop
  let (reg, s, code) ← a.ensureInRegister { s with stack } v
  let offset ← frame.localStackOffset idx
  return ({ s with regTracker := s.regTracker.markRegisterUnused reg },
    code ++ [a.setLocal offset reg])

/-- The visitor. `Label`, `Br` and `BrIf` are not handled yet. -/
def visit (frame : FunctionFrame) (exitLabel : Label) (s : CompilerState) :
    Instruction → Except Undefined (CompilerState × List ι)
  | .constI32 value => a.visitConstI32 s value
  | .addI32 => a.visitAddI32 s
  | .getLocalI32 idx => a.visitGetLocalI32 frame s idx
  | .setLocalI32 idx => a.visitSetLocalI32 frame s idx
  | .return_ => .ok (s, [a.jump exitLabel])
  | .label _ | .br _ | .brIf _ _ => .ok (s, [])

/-- The visitor on every instruction of a body, in order. -/
def visitAll (frame : FunctionFrame) (exitLabel : Label) (s : CompilerState) :
    List Instruction → Except Undefined (CompilerState × List ι)
  | [] => .ok (s, [])
  | i :: is => do
    let (s, code) ← a.visit frame exitLabel s i
    let (s, rest) ← visitAll frame exitLabel s is
    return (s, code ++ rest)

/-! ### A whole function -/

/-- The loop of `Prologue` over the parameters from the `i`-th on. -/
def saveParameters (frame : FunctionFrame) : ℕ → List ValType → Except Undefined (List ι)
  | _, [] => .ok []
  | i, vt :: vts => do
    let some reg := a.gpArgs[i]? | .error .argumentIndex
    let offset ← frame.localStackOffset i
    let code ← saveParameters frame (i + 1) vts
    return a.store offset (reg.cast vt) :: code

def prologue (frame : FunctionFrame) : Except Undefined (List ι) := do
  let code ← a.saveParameters frame 0 frame.meta_.signature.parameterTypes
  return a.enter frame.stackSizeBytes :: code

/-- The part of `Epilogue` that moves the result to where it is returned. -/
def moveResult (s : CompilerState) : List ValType → Except Undefined (List ι)
  | [] => .ok []
  | vt :: _ => do
    let resultReg := a.gpRet.cast vt
    let (v, stack) ← s.stack.pop
    let (reg, _, code) ← a.ensureInRegister { s with stack } v
    let stackTopReg := reg.cast v.type
    return if stackTopReg ≠ resultReg then code ++ [a.move resultReg stackTopReg] else code

def epilogue (frame : FunctionFrame) (exitLabel : Label) (s : CompilerState) :
    Except Undefined (List ι) := do
  let code ← a.moveResult s frame.meta_.signature.resultTypes
  return a.bind exitLabel :: code ++ [a.leave frame.stackSizeBytes, a.ret]

/-- Visit a body with a stack of `capacity` elements, then run the epilogue. -/
def compileBody (frame : FunctionFrame) (exitLabel : Label) (capacity : ℕ)
    (body : List Instruction) : Except Undefined (List ι) := do
  let (s, code) ← a.visitAll frame exitLabel { stack := { capacity } } body
  let epilogue ← a.epilogue frame exitLabel s
  return code ++ epilogue

/-- All that a `Compiler` emits for a function. -/
def compile (exitLabel : Label) (f : Function) : Except Undefined (List ι) := do
  let frame := FunctionFrame.new f.meta_
  let prologue ← a.prologue frame
  let code ← a.compileBody frame exitLabel f.meta_.maxStackElements.toNat f.body
  return prologue ++ code

end Assembler

end Wasmcc
