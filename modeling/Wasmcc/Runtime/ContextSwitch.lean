import Wasmcc.Basis.Cpu
import Wasmcc.Runtime.Switch

/-!
# What a context switch is to the runtime

`WasmccSwitch` is assembly, once for x64 and once for arm64. A `SwitchCode` is what the runtime has
of it: its address, the registers of the two arguments and those that a call keeps, and what a
`ThreadStack` in memory holds for the context that is saved in it (`Holds`). Its laws say that a
call goes on with the context of its second argument and saves its own in the first.

An `Origin` is a context: a call of `WasmccSwitch`, by the state of the processor in which it was
made, or the start of a thread on an empty stack. `Arrived` says that the processor goes on there.
-/

open Basis

namespace Wasmcc

/-- Where execution goes on. -/
inductive Origin (R : Type) where
  | caller (c : Cpu R)
  | fresh (thread sp : BitVec 64)

/-- The part of a calling convention that a context switch has to do with. -/
structure SwitchConvention (R : Type) where
  argument₀ : R
  argument₁ : R
  sp : R
  /-- The registers that a called function must not change. -/
  calleeSaved : List R
  /-- Where the function that is entered in a state will return to. -/
  returnAddress : Cpu R → BitVec 64
  /-- What returning adds to the stack pointer. -/
  retPops : BitVec 64
  /-- How many bytes of the stack hold the return address. -/
  stackBytes : ℕ

namespace SwitchConvention

variable {R : Type} (k : SwitchConvention R)

def originSp : Origin R → BitVec 64
  | .caller c => c.reg k.sp
  | .fresh _ sp => sp

/-- The function that was entered in state `c` has returned. -/
structure Returned (c c' : Cpu R) : Prop where
  pc : c'.pc = k.returnAddress c
  sp : c'.reg k.sp = c.reg k.sp + k.retPops
  calleeSaved : ∀ r ∈ k.calleeSaved, c'.reg r = c.reg r

/-- A function was called with an argument and a stack pointer, and nothing to return to. -/
structure Started (function argument sp dummy : BitVec 64) (c' : Cpu R) : Prop where
  pc : c'.pc = function
  argument : c'.reg k.argument₀ = argument
  sp : c'.reg k.sp = sp
  returnAddress : k.returnAddress c' = dummy

/-- The processor goes on with this context. -/
def Arrived (vmThreadStart dummy : BitVec 64) : Origin R → Cpu R → Prop
  | .caller c, c' => k.Returned c c'
  | .fresh thread sp, c' => k.Started vmThreadStart thread sp dummy c'

end SwitchConvention

/-- The assembly of one architecture. -/
structure SwitchCode (R : Type) extends SwitchConvention R where
  wasmccSwitch : BitVec 64
  vmThreadStart : BitVec 64
  dummyReturnAddress : BitVec 64
  /-- `sizeof(ThreadStack)`. -/
  threadStackBytes : ℕ
  /-- A run of the assembly, up to the place where it goes on with other code. -/
  Leaves : Cpu R → Cpu R → Prop
  /-- The address is not one of the assembly. -/
  Outside : BitVec 64 → Prop
  /-- The stack pointer of a thread that has not run yet. -/
  initialSp (stackBase stackSize : BitVec 64) : BitVec 64
  initializeVMThreadStackState (threadStack thread stackBase stackSize : BitVec 64) (m : Memory) :
    Memory
  /-- The `ThreadStack` at an address holds the context. -/
  Holds (m : Memory) (threadStack : BitVec 64) (o : Origin R) : Prop
  unique {c c₁ c₂ : Cpu R} : Leaves c c₁ → Leaves c c₂ → c₁ = c₂
  holds_congr {m m' : Memory} {a : BitVec 64} {o : Origin R} :
    Memory.AgreeOn m m' a threadStackBytes →
    Memory.AgreeOn m m' (toSwitchConvention.originSp o) stackBytes → Holds m a o → Holds m' a o
  holds_initialized {a base size : BitVec 64} (thread : BitVec 64) (m : Memory) :
    Memory.Disjoint (initialSp base size) stackBytes a threadStackBytes →
    Holds (initializeVMThreadStackState a thread base size m) a
      (.fresh thread (initialSp base size))
  initialized_outside {a base size b : BitVec 64} (thread : BitVec 64) (m : Memory) :
    ¬Memory.InRange a threadStackBytes b → ¬Memory.InRange (initialSp base size) stackBytes b →
    initializeVMThreadStackState a thread base size m b = m b
  /-- **A call of `WasmccSwitch`.** -/
  switches {c : Cpu R} {o : Origin R} : c.pc = wasmccSwitch → Holds c.mem (c.reg argument₁) o →
    (∀ d, o = .caller d → Outside (returnAddress d)) →
    Memory.Disjoint (c.reg argument₀) threadStackBytes (c.reg argument₁) threadStackBytes →
    Memory.Disjoint (c.reg argument₀) threadStackBytes (c.reg sp) stackBytes →
    Memory.Disjoint (c.reg argument₀) threadStackBytes (toSwitchConvention.originSp o) stackBytes →
    ∃ c', Leaves c c' ∧ toSwitchConvention.Arrived vmThreadStart dummyReturnAddress o c' ∧
      Holds c'.mem (c.reg argument₀) (.caller c) ∧
      ∀ b, ¬Memory.InRange (c.reg argument₀) threadStackBytes b → c'.mem b = c.mem b

end Wasmcc
