import Wasmcc.Runtime.StackPointer
import Wasmcc.Runtime.OsThread

/-!
# The context switch on x64

The assembly of `thread_x64.cc`: `WasmccSwitch`, `WasmccWrapMain`, and the `ThreadStack` that
`InitializeVMThreadStackState` fills in for a thread that has not run yet.

`WasmccSwitch` stores the stack pointer, the callee-saved registers and an address in the first
`ThreadStack`, loads them from the second one and jumps to the address there. The address that it
stores is computed from `%rip` with a displacement that is written as a number, `0x3d`; that it is
the address of the `ret` at the end depends on how long the instructions in between are.
-/

open Basis

namespace Wasmcc.X64

inductive Register where
  | rax | rcx | rdx | rbx | rsp | rbp | rsi | rdi | r8 | r9 | r10 | r11 | r12 | r13 | r14 | r15
deriving DecidableEq, Repr

/-- The instructions of the assembly, in the order of operands of the source. -/
inductive Asm where
  /-- `leaq disp(%rip), dst` -/
  | leaqRip (disp : ℕ) (dst : Register)
  /-- `movq src, disp(base)` -/
  | movqTo (src : Register) (disp : ℕ) (base : Register)
  /-- `movq disp(base), dst` -/
  | movqFrom (disp : ℕ) (base dst : Register)
  /-- `movq src, dst` -/
  | movq (src dst : Register)
  /-- `jmpq *(base)` -/
  | jmpqMem (base : Register)
  /-- `jmpq *target` -/
  | jmpq (target : Register)
  | ret
deriving DecidableEq, Repr

/-- The encoded length. A displacement of zero takes no byte and one below 128 takes one; `%rdi` and
`%rsi` as a base need no further byte. `jmpq *%r12` has a prefix, `jmpq *(%rsi)` has none. -/
def Asm.size : Asm → ℕ
  | .leaqRip _ _ => 7
  | .movqTo _ disp _ | .movqFrom disp _ _ => if disp = 0 then 3 else 4
  | .movq _ _ => 3
  | .jmpqMem _ => 2
  | .jmpq _ => 3
  | .ret => 1

def Asm.exec : Asm → Cpu Register → Cpu Register
  | .leaqRip disp dst, c => c.set dst (c.pc + BitVec.ofNat 64 disp)
  | .movqTo src disp base, c => c.store (c.reg base + BitVec.ofNat 64 disp) src
  | .movqFrom disp base dst, c => c.load dst (c.reg base + BitVec.ofNat 64 disp)
  | .movq src dst, c => c.set dst (c.reg src)
  | .jmpqMem base, c => c.goto (c.mem.word (c.reg base))
  | .jmpq target, c => c.goto (c.reg target)
  | .ret, c => (c.set .rsp (c.reg .rsp + 8)).goto (c.mem.word (c.reg .rsp))

def encoding : Encoding Asm Register where
  exec := Asm.exec
  size := Asm.size

def wasmccSwitch : List Asm :=
  [.leaqRip 0x3d .rax,
    .movqTo .rax 0 .rdi,
    .movqTo .rsp 8 .rdi,
    .movqTo .rbp 16 .rdi,
    .movqTo .rbx 24 .rdi,
    .movqTo .r12 32 .rdi,
    .movqTo .r13 40 .rdi,
    .movqTo .r14 48 .rdi,
    .movqTo .r15 56 .rdi,
    .movqFrom 56 .rsi .r15,
    .movqFrom 48 .rsi .r14,
    .movqFrom 40 .rsi .r13,
    .movqFrom 32 .rsi .r12,
    .movqFrom 24 .rsi .rbx,
    .movqFrom 16 .rsi .rbp,
    .movqFrom 8 .rsi .rsp,
    .jmpqMem .rsi,
    .ret]

def wasmccWrapMain : List Asm := [.movq .r13 .rdi, .jmpq .r12]

/-- The assembly in the text of the program, and the function that it calls. -/
structure Linked where
  text : Text Asm
  wasmccSwitch : BitVec 64
  wasmccWrapMain : BitVec 64
  vmThreadStart : BitVec 64
  switch_loaded : encoding.Loaded text wasmccSwitch X64.wasmccSwitch
  wrapMain_loaded : encoding.Loaded text wasmccWrapMain X64.wasmccWrapMain
  start_outside : text vmThreadStart = none

namespace Linked

variable (link : Linked)

/-- What a pointer of a new thread points to. -/
def address (thread : BitVec 64) : Target → BitVec 64
  | .wasmccWrapMain => link.wasmccWrapMain
  | .vmThreadStart => link.vmThreadStart
  | .thread => thread

/-- `InitializeVMThreadStackState`, in memory: the return address on the stack, then the members
`rip`, `rsp`, `r12` and `r13`. -/
def initializeVMThreadStackState (threadStack thread stackBase stackSize : BitVec 64) (m : Memory) :
    Memory :=
  let s := X64.initializeVMThreadStackState stackBase stackSize
  let m := m.write s.stored.1 8 s.stored.2.toNat
  let m := m.write threadStack 8 (link.address thread s.rip).toNat
  let m := m.write (threadStack + 8#64) 8 s.rsp.toNat
  let m := m.write (threadStack + 32#64) 8 (link.address thread s.r12).toNat
  m.write (threadStack + 40#64) 8 (link.address thread s.r13).toNat

end Linked

/-! ### What `WasmccSwitch` does -/

/-- The members of a `ThreadStack` after the first, in the order in which they are stored. -/
def saved : Layout Register :=
  [(.rax, 0), (.rsp, 8), (.rbp, 16), (.rbx, 24), (.r12, 32), (.r13, 40), (.r14, 48), (.r15, 56)]

/-- The order in which they are loaded. -/
def restored : Layout Register :=
  [(.r15, 56), (.r14, 48), (.r13, 40), (.r12, 32), (.rbx, 24), (.rbp, 16), (.rsp, 8)]

def stores (l : Layout Register) : List Asm := l.map fun p => .movqTo p.1 p.2 .rdi

def loads (l : Layout Register) : List Asm := l.map fun p => .movqFrom p.2 .rsi p.1

/-- The code between the first instruction and the jump. -/
def body : List Asm := .leaqRip 0x3d .rax :: (stores saved ++ loads restored)

theorem wasmccSwitch_eq : wasmccSwitch = body ++ [.jmpqMem .rsi, .ret] := rfl

theorem saved_fits : saved.Fits 64 where
  within := by decide
  apart := by decide

theorem straight_body : ∀ i ∈ body, encoding.Straight i := by
  intro i hi
  rcases List.mem_cons.mp hi with rfl | hi
  · exact fun _ => rfl
  · rcases List.mem_append.mp hi with hi | hi
    · obtain ⟨p, -, rfl⟩ := List.mem_map.mp hi
      exact fun _ => rfl
    · obtain ⟨p, -, rfl⟩ := List.mem_map.mp hi
      exact fun _ => rfl

theorem runBlock_stores (l : Layout Register) (c : Cpu Register) :
    (encoding.runBlock (stores l) c).reg = c.reg ∧
      (encoding.runBlock (stores l) c).mem = l.save c.mem (c.reg .rdi) c.reg := by
  induction l generalizing c with
  | nil => exact ⟨rfl, rfl⟩
  | cons p l ih =>
    -- a store changes no register, so the others store to the same place
    exact ih (encoding.run (.movqTo p.1 p.2 .rdi) c)

theorem runBlock_loads {l : Layout Register} (h : .rsi ∉ l.map Prod.fst) (c : Cpu Register) :
    (encoding.runBlock (loads l) c).reg = l.restore c.mem (c.reg .rsi) c.reg ∧
      (encoding.runBlock (loads l) c).mem = c.mem := by
  induction l generalizing c with
  | nil => exact ⟨rfl, rfl⟩
  | cons p l ih =>
    rw [List.map_cons, List.mem_cons, not_or] at h
    -- `%rsi` is not loaded, so the others are loaded from the same place
    have hrsi : (encoding.run (.movqFrom p.2 .rsi p.1) c).reg .rsi = c.reg .rsi :=
      Function.update_of_ne h.1 _ _
    obtain ⟨hreg, hmem⟩ := ih h.2 (encoding.run (.movqFrom p.2 .rsi p.1) c)
    rw [hrsi] at hreg
    exact ⟨hreg, hmem⟩

/-- The code in front of the jump stores and loads with the address that `leaq` computes. -/
theorem runBlock_body (c : Cpu Register) :
    (encoding.runBlock body c).mem =
        saved.save c.mem (c.reg .rdi) (Function.update c.reg .rax (c.pc + 7 + 0x3d)) ∧
      (encoding.runBlock body c).reg = restored.restore (encoding.runBlock body c).mem (c.reg .rsi)
        (Function.update c.reg .rax (c.pc + 7 + 0x3d)) := by
  have hlea : encoding.run (.leaqRip 0x3d .rax) c =
      (c.goto (c.pc + 7)).set .rax (c.pc + 7 + 0x3d) := rfl
  rw [body, Encoding.runBlock_cons, hlea, Encoding.runBlock_append]
  obtain ⟨hreg, hmem⟩ := runBlock_stores saved ((c.goto (c.pc + 7)).set .rax (c.pc + 7 + 0x3d))
  obtain ⟨hreg', hmem'⟩ := runBlock_loads (l := restored) (by decide)
    (encoding.runBlock (stores saved) ((c.goto (c.pc + 7)).set .rax (c.pc + 7 + 0x3d)))
  rw [hmem', hreg', hmem, hreg]
  exact ⟨rfl, rfl⟩

/-- Registers that keep their value through the loads of a context. -/
theorem restore_restored {m : Memory} {a : BitVec 64} {f g : Register → BitVec 64}
    (h : ∀ p ∈ restored, m.word (a + BitVec.ofNat 64 p.2) = g p.1) {r : Register}
    (hr : r ∈ restored.map Prod.fst) : restored.restore m a f r = g r := by
  obtain ⟨p, hp, rfl⟩ := List.mem_map.mp hr
  rw [Layout.restore_of_mem (by decide) hp, h p hp]

namespace Linked

variable {link : Linked}

/-- Where `WasmccSwitch` returns. -/
def ret (link : Linked) : BitVec 64 := link.wasmccSwitch + 68

/-- Jump where the loaded context says. -/
theorem steps_jump {c c₁ : Cpu Register} {m : Memory} {f : Register → BitVec 64}
    (hsteps : encoding.Steps link.text c c₁) (hjump : link.text c₁.pc = some (.jmpqMem .rsi))
    (hmem : c₁.mem = m) (hreg : c₁.reg = restored.restore c₁.mem (f .rsi) f) :
    ∃ c', encoding.Steps link.text c c' ∧ c'.mem = m ∧ c'.reg = restored.restore m (f .rsi) f ∧
      c'.pc = m.word (f .rsi) := by
  have hrsi : c₁.reg .rsi = f .rsi := by
    rw [hreg, Layout.restore_of_not_mem (by decide)]
  have hrun : encoding.run (.jmpqMem .rsi) c₁ = ⟨c₁.reg, c₁.mem.word (c₁.reg .rsi), c₁.mem⟩ := rfl
  have hnext := hsteps.trans (Encoding.Steps.single hjump)
  rw [hrun, hrsi, hreg, hmem] at hnext
  exact ⟨_, hnext, rfl, rfl, rfl⟩

/-- **The assembly up to the jump.** The displacement of the first instruction is the distance to
the `ret`. -/
theorem steps_switch {c : Cpu Register} (hpc : c.pc = link.wasmccSwitch) :
    ∃ c' f m, f = Function.update c.reg .rax link.ret ∧ m = saved.save c.mem (c.reg .rdi) f ∧
      encoding.Steps link.text c c' ∧ c'.mem = m ∧ c'.reg = restored.restore m (c.reg .rsi) f ∧
      c'.pc = m.word (c.reg .rsi) := by
  have hload := link.switch_loaded
  rw [← hpc, wasmccSwitch_eq] at hload
  obtain ⟨hsteps, hjump, -⟩ := Encoding.Steps.block hload straight_body
  obtain ⟨hmem, hreg⟩ := runBlock_body c
  have hret : c.pc + 7 + 0x3d = link.ret := by
    rw [hpc, add_assoc, ret, show (7 : BitVec 64) + 0x3d = 68 by decide]
  rw [hret] at hmem hreg
  obtain ⟨c', hc'⟩ := steps_jump hsteps hjump hmem hreg
  exact ⟨c', _, _, rfl, rfl, hc'⟩

theorem text_ret (link : Linked) : link.text link.ret = some .ret := by
  have hload : encoding.Loaded link.text link.wasmccSwitch
      ((body ++ [.jmpqMem .rsi]) ++ [.ret]) := link.switch_loaded
  have hsize : ((body ++ [Asm.jmpqMem .rsi]).map encoding.size).sum = 68 := by decide
  have hret := hload.drop
  rw [hsize] at hret
  exact hret.1

end Linked

/-! ### What a `ThreadStack` holds -/

/-- The part of the System V convention that matters here. -/
def switchConvention : SwitchConvention Register where
  argument₀ := .rdi
  argument₁ := .rsi
  sp := .rsp
  calleeSaved := [.rbx, .rbp, .r12, .r13, .r14, .r15]
  returnAddress c := c.mem.word (c.reg .rsp)
  retPops := 8
  stackBytes := 8

namespace Linked

variable {link : Linked}

/-- A saved context goes on at the `ret` of `WasmccSwitch`, with the registers and the return
address that it had there; a new one at `WasmccWrapMain`. -/
def Holds (link : Linked) (m : Memory) (a : BitVec 64) : Origin Register → Prop
  | .caller c => m.word a = link.ret ∧
      (∀ p ∈ restored, m.word (a + BitVec.ofNat 64 p.2) = c.reg p.1) ∧
      m.word (c.reg .rsp) = c.mem.word (c.reg .rsp)
  | .fresh thread sp => m.word a = link.wasmccWrapMain ∧ m.word (a + 8#64) = sp ∧
      m.word (a + 32#64) = link.vmThreadStart ∧ m.word (a + 40#64) = thread ∧
      m.word sp = kDummyReturnAddress

theorem word_agree {m m' : Memory} {a : BitVec 64} (h : Memory.AgreeOn m m' a 64) {o : ℕ}
    (ho : o + 8 ≤ 64) : m'.word (a + BitVec.ofNat 64 o) = m.word (a + BitVec.ofNat 64 o) :=
  (Memory.word_congr (h.slice ho)).symm

theorem word_agree_zero {m m' : Memory} {a : BitVec 64} (h : Memory.AgreeOn m m' a 64) :
    m'.word a = m.word a := by
  have hslice := word_agree h (show 0 + 8 ≤ 64 by decide)
  rwa [show BitVec.ofNat 64 0 = 0 from rfl, add_zero] at hslice

theorem holds_congr {m m' : Memory} {a : BitVec 64} {o : Origin Register}
    (harea : Memory.AgreeOn m m' a 64)
    (hstack : Memory.AgreeOn m m' (switchConvention.originSp o) 8) (h : link.Holds m a o) :
    link.Holds m' a o := by
  cases o with
  | caller c =>
    obtain ⟨hpc, hregs, hret⟩ := h
    refine ⟨by rw [word_agree_zero harea, hpc], fun p hp => ?_, ?_⟩
    · -- every saved register is within the area
      rw [word_agree harea (saved_fits.within p (by revert p; decide)), hregs p hp]
    · exact (Memory.word_congr hstack).symm.trans hret
  | fresh thread sp =>
    obtain ⟨hpc, hsp, hr12, hr13, hdummy⟩ := h
    refine ⟨by rw [word_agree_zero harea, hpc], ?_, ?_, ?_, ?_⟩
    · exact (word_agree harea (o := 8) (by decide)).trans hsp
    · exact (word_agree harea (o := 32) (by decide)).trans hr12
    · exact (word_agree harea (o := 40) (by decide)).trans hr13
    · exact (Memory.word_congr hstack).symm.trans hdummy

/-! ### New threads -/

/-- The first stack pointer of a thread. -/
def initialSp (stackBase stackSize : BitVec 64) : BitVec 64 :=
  (X64.initializeVMThreadStackState stackBase stackSize).rsp

/-- The members that are filled in, by their number. -/
def members : Layout (Fin 4) := [(0, 0), (1, 8), (2, 32), (3, 40)]

theorem members_fits : members.Fits 64 where
  within := by decide
  apart := by decide

/-- What they are set to. -/
def memberValues (link : Linked) (thread sp : BitVec 64) : Fin 4 → BitVec 64 :=
  ![link.wasmccWrapMain, sp, link.vmThreadStart, thread]

theorem initializeVMThreadStackState_eq (a thread base size : BitVec 64) (m : Memory) :
    link.initializeVMThreadStackState a thread base size m =
      members.save (m.write (initialSp base size) 8 kDummyReturnAddress.toNat) a
        (link.memberValues thread (initialSp base size)) := by
  have ha : a + BitVec.ofNat 64 0 = a := add_zero a
  show _ = Memory.write (Memory.write (Memory.write (Memory.write _ (a + BitVec.ofNat 64 0) 8 _)
    (a + 8#64) 8 _) (a + 32#64) 8 _) (a + 40#64) 8 _
  rw [ha]
  rfl

theorem holds_initialized {a base size : BitVec 64} (thread : BitVec 64) (m : Memory)
    (h : Memory.Disjoint (initialSp base size) 8 a 64) :
    link.Holds (link.initializeVMThreadStackState a thread base size m) a
      (.fresh thread (initialSp base size)) := by
  rw [initializeVMThreadStackState_eq]
  set m₁ := m.write (initialSp base size) 8 kDummyReturnAddress.toNat with hm₁
  set f := link.memberValues thread (initialSp base size)
  have hword (i : Fin 4) (o : ℕ) (hi : (i, o) ∈ members) :
      (members.save m₁ a f).word (a + BitVec.ofNat 64 o) = f i :=
    Layout.word_save members_fits (by norm_num) hi
  refine ⟨?_, hword 1 8 (by decide), hword 2 32 (by decide), hword 3 40 (by decide), ?_⟩
  · have hrip := hword 0 0 (by decide)
    rwa [show BitVec.ofNat 64 0 = 0 from rfl, add_zero] at hrip
  · -- the members are stored somewhere else
    have hkept : Memory.AgreeOn m₁ (members.save m₁ a f) (initialSp base size) 8 :=
      Memory.agreeOn_of_disjoint (fun b hb => Layout.save_outside members_fits hb) h.symm
    rw [← Memory.word_congr hkept, hm₁, Memory.word_write]

theorem initialized_outside {a base size b : BitVec 64} (thread : BitVec 64) (m : Memory)
    (hb : ¬Memory.InRange a 64 b) (hsp : ¬Memory.InRange (initialSp base size) 8 b) :
    link.initializeVMThreadStackState a thread base size m b = m b := by
  rw [initializeVMThreadStackState_eq, Layout.save_outside members_fits hb,
    Memory.write_of_not_inRange m _ hsp]

/-! ### A call -/

/-- The `ret` at the end of a call whose context was loaded. -/
theorem leaves_ret {c c' : Cpu Register} (hpc : c'.pc = link.ret)
    (hregs : ∀ r ∈ restored.map Prod.fst, c'.reg r = c.reg r)
    (hstack : c'.mem.word (c.reg .rsp) = c.mem.word (c.reg .rsp))
    (hout : link.text (c.mem.word (c.reg .rsp)) = none) :
    ∃ c'', encoding.Leaves link.text c' c'' ∧ switchConvention.Returned c c'' ∧
      c''.mem = c'.mem := by
  -- the stack pointer was restored, so `ret` takes the return address of the target
  have hrsp : c'.reg .rsp = c.reg .rsp := hregs .rsp (by decide)
  have hret : link.text c'.pc = some .ret := by rw [hpc, text_ret]
  refine ⟨encoding.run .ret c', ⟨Encoding.Steps.single hret, ?_⟩, ⟨?_, ?_, ?_⟩, rfl⟩
  · show link.text (c'.mem.word (c'.reg .rsp)) = none
    rw [hrsp, hstack, hout]
  · show c'.mem.word (c'.reg .rsp) = c.mem.word (c.reg .rsp)
    rw [hrsp, hstack]
  · show c'.reg .rsp + 8 = c.reg .rsp + 8
    rw [hrsp]
  · intro r hr
    have hne : r ≠ .rsp := by rintro rfl; revert hr; decide
    have hmem : r ∈ restored.map Prod.fst := by revert r; decide
    exact (Function.update_of_ne hne _ _).trans (hregs r hmem)

/-- `WasmccWrapMain`, from a context that was filled in for a new thread. -/
theorem leaves_wrapMain {c : Cpu Register} (hpc : c.pc = link.wasmccWrapMain)
    (hr12 : c.reg .r12 = link.vmThreadStart) {thread sp : BitVec 64} (hr13 : c.reg .r13 = thread)
    (hrsp : c.reg .rsp = sp) (hdummy : c.mem.word sp = kDummyReturnAddress) :
    ∃ c', encoding.Leaves link.text c c' ∧
      switchConvention.Started link.vmThreadStart thread sp kDummyReturnAddress c' ∧
      c'.mem = c.mem := by
  obtain ⟨hmov, hjmp, -⟩ := link.wrapMain_loaded
  rw [← hpc] at hmov hjmp
  -- a move and a jump
  have hsteps := (Encoding.Steps.single hmov).trans (Encoding.Steps.single (e := encoding) hjmp)
  refine ⟨encoding.run (.jmpq .r12) (encoding.run (.movq .r13 .rdi) c), ⟨hsteps, ?_⟩,
    ⟨hr12, hr13, hrsp, ?_⟩, rfl⟩
  · show link.text (c.reg .r12) = none
    rw [hr12, link.start_outside]
  · show c.mem.word (c.reg .rsp) = kDummyReturnAddress
    rw [hrsp, hdummy]

/-- The context of the caller is in the first `ThreadStack`. -/
theorem holds_save {c : Cpu Register} {m : Memory}
    (hm : m = saved.save c.mem (c.reg .rdi) (Function.update c.reg .rax link.ret))
    (hstack : Memory.Disjoint (c.reg .rdi) 64 (c.reg .rsp) 8) :
    link.Holds m (c.reg .rdi) (.caller c) := by
  subst hm
  -- the words of the area do not overlap
  have hword (r : Register) (o : ℕ) (hr : (r, o) ∈ saved) :
      (saved.save c.mem (c.reg .rdi) (Function.update c.reg .rax link.ret)).word
        (c.reg .rdi + BitVec.ofNat 64 o) = Function.update c.reg .rax link.ret r :=
    Layout.word_save saved_fits (by norm_num) hr
  refine ⟨?_, fun p hp => ?_, ?_⟩
  · have hret := hword .rax 0 (by decide)
    rwa [show BitVec.ofNat 64 0 = 0 from rfl, add_zero, Function.update_self] at hret
  · have hsaved : p ∈ saved := by revert p; decide
    have hne : p.1 ≠ .rax := by revert p; decide
    rw [hword p.1 p.2 hsaved, Function.update_of_ne hne]
  · exact (Memory.word_congr (Memory.agreeOn_of_disjoint
      (fun x hx => Layout.save_outside saved_fits hx) hstack)).symm

/-- **A call of `WasmccSwitch` on x64** goes on with the context in its second argument: it returns
from the call that this context was saved by, with the stack pointer and the callee-saved registers
of that call, or starts a new thread. The caller's own context is then in the first argument, and no
other byte of memory has changed. -/
theorem wasmccSwitch_leaves {c : Cpu Register} {o : Origin Register}
    (hpc : c.pc = link.wasmccSwitch) (hholds : link.Holds c.mem (c.reg .rsi) o)
    (hout : ∀ d, o = .caller d → link.text (switchConvention.returnAddress d) = none)
    (hapart : Memory.Disjoint (c.reg .rdi) 64 (c.reg .rsi) 64)
    (hcaller : Memory.Disjoint (c.reg .rdi) 64 (c.reg .rsp) 8)
    (hstack : Memory.Disjoint (c.reg .rdi) 64 (switchConvention.originSp o) 8) :
    ∃ c', encoding.Leaves link.text c c' ∧
      switchConvention.Arrived link.vmThreadStart kDummyReturnAddress o c' ∧
      link.Holds c'.mem (c.reg .rdi) (.caller c) ∧
      ∀ b, ¬Memory.InRange (c.reg .rdi) 64 b → c'.mem b = c.mem b := by
  obtain ⟨c₁, f, m, hf, hm, hsteps, hmem, hreg, hpc₁⟩ := steps_switch hpc
  subst hf
  have hkept : ∀ b, ¬Memory.InRange (c.reg .rdi) 64 b → m b = c.mem b := by
    intro b hb
    rw [hm, Layout.save_outside saved_fits hb]
  -- what is saved does not disturb what is loaded
  have hloaded : link.Holds m (c.reg .rsi) o := holds_congr
    (Memory.agreeOn_of_disjoint hkept hapart) (Memory.agreeOn_of_disjoint hkept hstack) hholds
  have hsaved : link.Holds m (c.reg .rdi) (.caller c) := holds_save hm hcaller
  cases o with
  | caller d =>
    obtain ⟨hword, hregs, hret⟩ := hloaded
    have hregs' : ∀ r ∈ restored.map Prod.fst, c₁.reg r = d.reg r := by
      intro r hr
      rw [hreg, restore_restored hregs hr]
    obtain ⟨c', hleaves, hreturned, hmem'⟩ :=
      leaves_ret (hpc₁.trans hword) hregs' (by rw [hmem, hret]) (hout d rfl)
    rw [hmem] at hmem'
    exact ⟨c', hleaves.of_steps hsteps, hreturned, hmem' ▸ hsaved, hmem' ▸ hkept⟩
  | fresh thread sp =>
    obtain ⟨hword, hsp, hr12, hr13, hdummy⟩ := hloaded
    have hload {r : Register} {o : ℕ} (hr : (r, o) ∈ restored) :
        c₁.reg r = m.word (c.reg .rsi + BitVec.ofNat 64 o) := by
      rw [hreg, Layout.restore_of_mem (by decide) hr]
    obtain ⟨c', hleaves, hstarted, hmem'⟩ := leaves_wrapMain (hpc₁.trans hword)
      ((hload (o := 32) (by decide)).trans hr12) ((hload (o := 40) (by decide)).trans hr13)
      ((hload (o := 8) (by decide)).trans hsp) (by rw [hmem, hdummy])
    rw [hmem] at hmem'
    exact ⟨c', hleaves.of_steps hsteps, hstarted, hmem' ▸ hsaved, hmem' ▸ hkept⟩

/-- What the runtime has of it. -/
def switchCode (link : Linked) : SwitchCode Register where
  toSwitchConvention := switchConvention
  wasmccSwitch := link.wasmccSwitch
  vmThreadStart := link.vmThreadStart
  dummyReturnAddress := kDummyReturnAddress
  threadStackBytes := 64
  Leaves := encoding.Leaves link.text
  Outside a := link.text a = none
  initialSp := initialSp
  initializeVMThreadStackState := link.initializeVMThreadStackState
  Holds := link.Holds
  unique := Encoding.Leaves.unique
  holds_congr := holds_congr
  holds_initialized := holds_initialized
  initialized_outside := initialized_outside
  switches := wasmccSwitch_leaves

/-- **Context switches on x64.** In every run of an OS thread a resume that starts a thread enters
`VMThreadStart` with the thread as its argument, on the thread's own stack; one that goes on with a
suspended thread returns from the call of `WasmccSwitch` that the thread yielded with, whatever was
called in between; and when the thread yields or its function returns, the call that it was resumed
with returns. A call that returns does so with its stack pointer and its callee-saved registers. -/
theorem switches_right_x64 {P : Placement link.switchCode} {h₀ h : OsThread Register}
    (hthreads : h₀.threads = {}) {calls : List ThreadCall}
    (hrun : Basis.Path (OsThread.Step P) h₀ calls h) : h.SwitchesRight P :=
  ((OsThread.Inv.init hthreads).run hrun).switchesRight

/-- The assembly at two addresses, in a text with nothing else. -/
def alone : Linked where
  text := encoding.load (encoding.load (fun _ => none) 0x1000#64 X64.wasmccSwitch) 0x2000#64
    X64.wasmccWrapMain
  wasmccSwitch := 0x1000#64
  wasmccWrapMain := 0x2000#64
  vmThreadStart := 0x3000#64
  switch_loaded := by decide +kernel
  wrapMain_loaded := by decide +kernel
  start_outside := by decide +kernel

/-- The thread of one VM, with its object and its stack. -/
def oneThread : Placement alone.switchCode :=
  .single alone.switchCode (.vm 0) 0x10000#64 0x10040#64 0x20000#64 0x10000#64 0x40000#64
    (Memory.disjoint_of_le (by decide) (by decide)) (Memory.disjoint_of_le (by decide) (by decide))
    (Memory.disjoint_of_le (by decide) (by decide))

/-- The call of `WasmccSwitch` by `Resume`, when the context of the new thread is filled in. -/
def resumes : Cpu Register where
  reg r := if r = .rdi then 0x10040#64 else if r = .rsi then 0x10000#64 else 0x50000#64
  pc := 0x1000#64
  mem := alone.initializeVMThreadStackState 0x10000#64 0x40000#64 0x20000#64 0x10000#64 fun _ => 0#8

/-- The call by `Yield`, from further down on the thread's stack. -/
def yields : Cpu Register where
  reg r := if r = .rdi then 0x10000#64 else if r = .rsi then 0x10040#64 else 0x2ff00#64
  pc := 0x1000#64
  mem := resumes.mem

/-- A return address that no `ThreadStack` is over stays outside of the text. -/
theorem alone_returns {a : BitVec 64} {m : Memory}
    (ha : ∀ p, Memory.Disjoint (oneThread.threadStack p) 64 a 8)
    (hout : alone.text (resumes.mem.word a) = none)
    (hm : oneThread.AgreeElsewhere (.vm 0) resumes.mem m) : alone.text (m.word a) = none := by
  have hword : m.word a = resumes.mem.word a :=
    (Memory.word_congr fun b hb => (hm b fun p _ hin => ha p b hin hb).symm).symm
  rw [hword]
  exact hout

theorem resumes_calls {m : Memory} (hm : oneThread.AgreeElsewhere (.vm 0) resumes.mem m) :
    oneThread.Calls { resumes with mem := m } (.mainThreadState (.vm 0))
      (.myThreadState (.vm 0)) := by
  have hapart (p : ThreadStack) : Memory.Disjoint (oneThread.threadStack p) 64 0x50000#64 8 := by
    cases p with
    | myThreadState t => exact Memory.disjoint_of_le (a := 0x10000#64) (by decide) (by decide)
    | mainThreadState t => exact Memory.disjoint_of_le (a := 0x10040#64) (by decide) (by decide)
  have hout : alone.text (resumes.mem.word 0x50000#64) = none := by decide +kernel
  have hinitial : Memory.Disjoint (initialSp 0x20000#64 0x10000#64) 8 0x50000#64 8 :=
    Memory.disjoint_of_le (by decide) (by decide)
  exact ⟨rfl, rfl, rfl, alone_returns hapart hout hm, fun p _ => hapart p, fun _ _ _ => hinitial⟩

theorem yields_calls {m : Memory} (hm : oneThread.AgreeElsewhere (.vm 0) resumes.mem m) :
    oneThread.Calls { yields with mem := m } (.myThreadState (.vm 0))
      (.mainThreadState (.vm 0)) := by
  have hapart (p : ThreadStack) : Memory.Disjoint (oneThread.threadStack p) 64 0x2ff00#64 8 := by
    cases p with
    | myThreadState t => exact Memory.disjoint_of_le (a := 0x10000#64) (by decide) (by decide)
    | mainThreadState t => exact Memory.disjoint_of_le (a := 0x10040#64) (by decide) (by decide)
  have hout : alone.text (resumes.mem.word 0x2ff00#64) = none := by decide +kernel
  refine ⟨rfl, rfl, rfl, alone_returns hapart hout hm, fun p _ => hapart p, fun t ht hne => ?_⟩
  -- there is no other thread
  obtain rfl : t = .vm 0 := ht
  exact absurd rfl hne

/-- A thread is resumed, yields, and is resumed again. -/
theorem switches_right_x64_resumed : ∃ h : OsThread Register,
    Basis.Path (OsThread.Step oneThread) (OsThread.idle resumes)
      [.resume (.vm 0), .yield, .resume (.vm 0)] h ∧ h.SwitchesRight oneThread := by
  obtain ⟨h, hrun⟩ := OsThread.exists_resume_again (d := yields) (P := oneThread) rfl rfl
    (fun _ hm => resumes_calls hm) fun _ hm => yields_calls hm
  exact ⟨h, hrun, switches_right_x64 rfl hrun⟩

end Linked

end Wasmcc.X64
