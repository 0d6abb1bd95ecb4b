import Wasmcc.Compiler.Machine

/-!
# The x64 compiler

`compiler/x64`: the registers of the System V calling convention and the instructions that
`x64::Compiler` emits, with their x86-64 meaning. `mov` and `jmp` leave the flags alone, `sub`,
`add` and `adc` set the carry flag, and `ret` pops the return address.
-/

open Basis

namespace Wasmcc.X64

def rax : Reg := 0
def rcx : Reg := 1
def rdx : Reg := 2
def rsi : Reg := 6
def rdi : Reg := 7
def r8 : Reg := 8
def r9 : Reg := 9
def r10 : Reg := 10
def r11 : Reg := 11

def kGpCallerSavedRegisters : RegisterMask :=
  .ofList [rax, rcx, rdx, rsi, rdi, r8, r9, r10, r11]

def kGpArgs : List Reg := [rdi, rsi, rdx, rcx, r8, r9]

inductive Instr where
  /-- `sub rsp, imm` -/
  | subRsp (imm : BitVec 32)
  /-- `add rsp, imm` -/
  | addRsp (imm : BitVec 32)
  /-- `mov [rsp + disp], src` -/
  | movToMem (disp : BitVec 32) (src : Gp)
  /-- `mov dst, [rsp + disp]` -/
  | movFromMem (dst : Gp) (disp : BitVec 32)
  /-- `mov dst, imm`, of a 32-bit register -/
  | movImm (dst : Reg) (imm : BitVec 32)
  /-- `mov dst, src` -/
  | mov (dst src : Gp)
  /-- `adc dst, src`, of 32-bit registers -/
  | adc (dst src : Reg)
  | jmp (label : Label)
  /-- A label bound here; no instruction of the processor. -/
  | bind (label : Label)
  | ret
deriving DecidableEq, Repr

/-- What `ret` pops. -/
def returnAddress (m : Machine) : BitVec 64 := BitVec.ofNat 64 (m.mem.read m.sp 8)

def isa : Isa Instr Label Machine where
  exec
    | .subRsp imm, m => .next (m.enter true imm)
    | .addRsp imm, m => .next (m.leave true imm)
    | .movToMem disp src, m => .next (m.store disp src)
    | .movFromMem dst disp, m => .next (m.load dst disp)
    | .movImm dst imm, m => .next (m.set (Reg.r32 dst) (imm.setWidth 64))
    | .mov dst src, m => .next (m.set dst (m.get src))
    | .adc dst src, m => .next (m.add true dst src)
    | .jmp label, m => .jump label m
    | .bind _, m => .next m
    | .ret, m => .halt { m with ip := returnAddress m, sp := m.sp + 8 }
  binds
    | .bind label => some label
    | _ => none

/-- What `x64::Compiler` emits. -/
def assembler : Assembler Instr where
  callerSaved := kGpCallerSavedRegisters
  gpArgs := kGpArgs
  gpRet := rax
  enter := .subRsp
  leave := .addRsp
  store := .movToMem
  load := .movFromMem
  const := .movImm
  add := .adc
  -- the register is the 64-bit one that was allocated
  setLocal offset src := .movToMem offset (Reg.r64 src)
  move := .mov
  jump := .jmp
  bind := .bind
  ret := .ret
  twoRegisters := ⟨rax, rcx, by decide, by decide, by decide⟩

def target : Target Instr where
  toAssembler := assembler
  isa := isa
  addsCarry := true
  storesLocals := true
  returnAddress := returnAddress
  retPops := 8
  exec_enter _ _ := rfl
  exec_leave _ _ := rfl
  exec_store _ _ _ := rfl
  exec_load _ _ _ := rfl
  exec_const _ _ _ := rfl
  exec_add _ _ _ := rfl
  exec_setLocal _ _ _ := rfl
  exec_move _ _ _ := rfl
  exec_jump _ _ := rfl
  exec_bind _ _ := rfl
  exec_ret _ := rfl
  binds_bind _ := rfl
  binds_other _ _ _ _ _ _ _ _ := by simp [assembler, isa]
  gpRet_pool := by decide
  returnAddress_congr hsp hmem _ := by
    rw [returnAddress, returnAddress, ← hsp, Memory.read_congr (by norm_num) hmem]

/-- `x64::Compiler` on a whole function. -/
def compile (exitLabel : Label) (f : Function) : Except Undefined (List Instr) :=
  assembler.compile exitLabel f

end Wasmcc.X64
