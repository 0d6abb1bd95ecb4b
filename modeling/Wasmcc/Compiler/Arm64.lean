import Wasmcc.Compiler.Machine

/-!
# The arm64 compiler

`compiler/arm64`: the registers of the AArch64 calling convention and the instructions that
`arm64::Compiler` emits, with their AArch64 meaning. None of them sets a flag, and `ret x30` goes
to the address in the link register.
-/

open Basis

namespace Wasmcc.Arm64

/-- `x0` to `x7` and `x9` to `x15`. -/
def kGpCallerSavedRegisters : RegisterMask :=
  .ofList [0, 1, 2, 3, 4, 5, 6, 7, 9, 10, 11, 12, 13, 14, 15]

/-- `x0` to `x7`. -/
def kGpArgs : List Reg := [0, 1, 2, 3, 4, 5, 6, 7]

def x0 : Reg := 0

/-- The link register. -/
def x30 : Reg := 30

inductive Instr where
  /-- `sub sp, sp, imm` -/
  | subSp (imm : BitVec 32)
  /-- `add sp, sp, imm` -/
  | addSp (imm : BitVec 32)
  /-- `str src, [sp, offset]` -/
  | str (src : Gp) (offset : BitVec 32)
  /-- `ldr dst, [sp, offset]` -/
  | ldr (dst : Gp) (offset : BitVec 32)
  /-- `mov dst, imm`, of a 32-bit register -/
  | movImm (dst : Reg) (imm : BitVec 32)
  /-- `mov dst, src` -/
  | mov (dst src : Gp)
  /-- `add dst, lhs, rhs`, of 32-bit registers, `lhs` being `dst` -/
  | add (dst rhs : Reg)
  | b (label : Label)
  /-- A label bound here; no instruction of the processor. -/
  | bind (label : Label)
  /-- `ret x30` -/
  | ret
deriving DecidableEq, Repr

def returnAddress (m : Machine) : BitVec 64 := m.reg x30

def isa : Isa Instr Label Machine where
  exec
    | .subSp imm, m => .next (m.enter false imm)
    | .addSp imm, m => .next (m.leave false imm)
    | .str src offset, m => .next (m.store offset src)
    | .ldr dst offset, m => .next (m.load dst offset)
    | .movImm dst imm, m => .next (m.set (Reg.r32 dst) (imm.setWidth 64))
    | .mov dst src, m => .next (m.set dst (m.get src))
    | .add dst rhs, m => .next (m.add false dst rhs)
    | .b label, m => .jump label m
    | .bind _, m => .next m
    | .ret, m => .halt { m with ip := returnAddress m, sp := m.sp + 0 }
  binds
    | .bind label => some label
    | _ => none

/-- What `arm64::Compiler` emits. -/
def assembler : Assembler Instr where
  callerSaved := kGpCallerSavedRegisters
  gpArgs := kGpArgs
  gpRet := x0
  enter := .subSp
  leave := .addSp
  store offset src := .str src offset
  load := .ldr
  const := .movImm
  add := .add
  -- `ldr`, where x64 has a store
  setLocal offset src := .ldr (Reg.r64 src) offset
  move := .mov
  jump := .b
  bind := .bind
  ret := .ret
  twoRegisters := ⟨0, 1, by decide, by decide, by decide⟩

def target : Target Instr where
  toAssembler := assembler
  isa := isa
  addsCarry := false
  storesLocals := false
  returnAddress := returnAddress
  retPops := 0
  exec_enter _ _ := rfl
  exec_leave _ _ := rfl
  exec_store _ _ _ := rfl
  exec_load _ _ _ := rfl
  exec_const _ _ _ := rfl
  exec_add _ _ _ := rfl
  exec_setLocal _ _ _ := rfl
  exec_move _ _ _ := rfl
  exec_jump _ _ := rfl
  exec_bind _ _ := rfl
  exec_ret _ := rfl
  binds_bind _ := rfl
  binds_other _ _ _ _ _ _ _ _ := by simp [assembler, isa]
  gpRet_pool := by decide
  returnAddress_congr _ _ hreg := hreg x30 (by decide)

/-- `arm64::Compiler` on a whole function. -/
def compile (exitLabel : Label) (f : Function) : Except Undefined (List Instr) :=
  assembler.compile exitLabel f

end Wasmcc.Arm64
