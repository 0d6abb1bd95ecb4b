import Wasmcc.Compiler.Common
import Wasmcc.Runtime.OsThread

/-!
# The context switch on arm64

The assembly of `thread_arm64.cc`, with what `InitializeVMThreadStackState` fills in for a thread
that has not run yet. `WasmccSwitch` stores and loads the callee-saved registers in pairs, `d8` to
`d15` among them. It keeps the stack pointer in `x10` and the address to go on at, which is the
return address of the call, in `x11`; so nothing has to be read from the stack.
-/

open Basis

namespace Wasmcc.Arm64

inductive Register where
  | x (n : Fin 31)
  | sp
  | d (n : Fin 32)
deriving DecidableEq, Repr

/-- The instructions of the assembly, in the order of operands of the source. -/
inductive Asm where
  /-- `mov dst, src` -/
  | mov (dst src : Register)
  /-- `stp first, second, [base, #disp]` -/
  | stp (first second base : Register) (disp : ℕ)
  /-- `ldp first, second, [base, #disp]` -/
  | ldp (first second base : Register) (disp : ℕ)
  /-- `br target` -/
  | br (target : Register)
deriving DecidableEq, Repr

def Asm.exec : Asm → Cpu Register → Cpu Register
  | .mov dst src, c => c.set dst (c.reg src)
  | .stp first second base disp, c =>
    (c.store (c.reg base + BitVec.ofNat 64 disp) first).store
      (c.reg base + BitVec.ofNat 64 (disp + 8)) second
  | .ldp first second base disp, c =>
    (c.set first (c.mem.word (c.reg base + BitVec.ofNat 64 disp))).set second
      (c.mem.word (c.reg base + BitVec.ofNat 64 (disp + 8)))
  | .br target, c => c.goto (c.reg target)

def encoding : Encoding Asm Register where
  exec := Asm.exec
  size _ := 4

open Register

def wasmccSwitch : List Asm :=
  [.mov (x 10) sp,
    .mov (x 11) (x 30),
    .stp (x 19) (x 20) (x 0) (0*16),
    .stp (x 21) (x 22) (x 0) (1*16),
    .stp (d 8) (d 9) (x 0) (7*16),
    .stp (x 23) (x 24) (x 0) (2*16),
    .stp (d 10) (d 11) (x 0) (8*16),
    .stp (x 25) (x 26) (x 0) (3*16),
    .stp (d 12) (d 13) (x 0) (9*16),
    .stp (x 27) (x 28) (x 0) (4*16),
    .stp (d 14) (d 15) (x 0) (10*16),
    .stp (x 29) (x 30) (x 0) (5*16),
    .stp (x 10) (x 11) (x 0) (6*16),
    .ldp (x 19) (x 20) (x 1) (0*16),
    .ldp (x 21) (x 22) (x 1) (1*16),
    .ldp (d 8) (d 9) (x 1) (7*16),
    .ldp (x 23) (x 24) (x 1) (2*16),
    .ldp (d 10) (d 11) (x 1) (8*16),
    .ldp (x 25) (x 26) (x 1) (3*16),
    .ldp (d 12) (d 13) (x 1) (9*16),
    .ldp (x 27) (x 28) (x 1) (4*16),
    .ldp (d 14) (d 15) (x 1) (10*16),
    .ldp (x 29) (x 30) (x 1) (5*16),
    .ldp (x 10) (x 11) (x 1) (6*16),
    .mov sp (x 10),
    .br (x 11)]

def wasmccWrapMain : List Asm := [.mov (x 0) (x 19), .mov (x 30) (x 21), .br (x 20)]

/-- The assembly in the text of the program, and the function that it calls. -/
structure Linked where
  text : Text Asm
  wasmccSwitch : BitVec 64
  wasmccWrapMain : BitVec 64
  vmThreadStart : BitVec 64
  switch_loaded : encoding.Loaded text wasmccSwitch Arm64.wasmccSwitch
  wrapMain_loaded : encoding.Loaded text wasmccWrapMain Arm64.wasmccWrapMain
  start_outside : text vmThreadStart = none

def kDummyReturnAddress : BitVec 64 := 0xdeaddeaddeaddead#64

/-- The first stack pointer of a thread. -/
def initialSp (stackBase stackSize : BitVec 64) : BitVec 64 := stackBase + stackSize

namespace Linked

variable (link : Linked)

/-- `InitializeVMThreadStackState`, in memory: the members `x[0]`, `x[1]`, `x[2]`, `sp` and `lr`. -/
def initializeVMThreadStackState (threadStack thread stackBase stackSize : BitVec 64) (m : Memory) :
    Memory :=
  let m := m.write threadStack 8 thread.toNat
  let m := m.write (threadStack + 8#64) 8 link.vmThreadStart.toNat
  let m := m.write (threadStack + 16#64) 8 kDummyReturnAddress.toNat
  let m := m.write (threadStack + 96#64) 8 (initialSp stackBase stackSize).toNat
  m.write (threadStack + 104#64) 8 link.wasmccWrapMain.toNat

end Linked

/-! ### What `WasmccSwitch` does -/

/-- The pairs of registers in a `ThreadStack`, in the order in which they are stored and loaded. -/
def pairs : List (Register × Register × ℕ) :=
  [(x 19, x 20, 0), (x 21, x 22, 16), (d 8, d 9, 112), (x 23, x 24, 32), (d 10, d 11, 128),
    (x 25, x 26, 48), (d 12, d 13, 144), (x 27, x 28, 64), (d 14, d 15, 160), (x 29, x 30, 80),
    (x 10, x 11, 96)]

/-- The two words of each pair. -/
def words (l : List (Register × Register × ℕ)) : Layout Register :=
  l.flatMap fun p => [(p.1, p.2.2), (p.2.1, p.2.2 + 8)]

/-- What is saved in a `ThreadStack`. -/
def saved : Layout Register := words pairs

def stores (l : List (Register × Register × ℕ)) : List Asm :=
  l.map fun p => .stp p.1 p.2.1 (x 0) p.2.2

def loads (l : List (Register × Register × ℕ)) : List Asm :=
  l.map fun p => .ldp p.1 p.2.1 (x 1) p.2.2

/-- The code in front of the jump. -/
def body : List Asm :=
  [.mov (x 10) sp, .mov (x 11) (x 30)] ++ (stores pairs ++ (loads pairs ++ [.mov sp (x 10)]))

theorem wasmccSwitch_eq : wasmccSwitch = body ++ [.br (x 11)] := rfl

theorem saved_fits : saved.Fits 176 where
  within := by decide
  apart := by decide

theorem saved_nodup : (saved.map Prod.fst).Nodup := by decide

theorem straight_body : ∀ i ∈ body, encoding.Straight i := by
  have hmov (r q : Register) : encoding.Straight (.mov r q) := fun _ => rfl
  intro i hi
  simp only [body, List.mem_append, List.mem_cons, List.not_mem_nil, or_false] at hi
  rcases hi with (rfl | rfl) | hi | hi | rfl
  · exact hmov _ _
  · exact hmov _ _
  · obtain ⟨p, -, rfl⟩ := List.mem_map.mp hi
    exact fun _ => rfl
  · obtain ⟨p, -, rfl⟩ := List.mem_map.mp hi
    exact fun _ => rfl
  · exact hmov _ _

theorem runBlock_stores (l : List (Register × Register × ℕ)) (c : Cpu Register) :
    (encoding.runBlock (stores l) c).reg = c.reg ∧
      (encoding.runBlock (stores l) c).mem = (words l).save c.mem (c.reg (x 0)) c.reg := by
  induction l generalizing c with
  | nil => exact ⟨rfl, rfl⟩
  | cons p l ih => exact ih (encoding.run (.stp p.1 p.2.1 (x 0) p.2.2) c)

theorem runBlock_loads {l : List (Register × Register × ℕ)} (h : x 1 ∉ (words l).map Prod.fst)
    (c : Cpu Register) :
    (encoding.runBlock (loads l) c).reg = (words l).restore c.mem (c.reg (x 1)) c.reg ∧
      (encoding.runBlock (loads l) c).mem = c.mem := by
  induction l generalizing c with
  | nil => exact ⟨rfl, rfl⟩
  | cons p l ih =>
    have hsplit : words (p :: l) = [(p.1, p.2.2), (p.2.1, p.2.2 + 8)] ++ words l := rfl
    rw [hsplit, List.map_append, List.mem_append, not_or] at h
    obtain ⟨hpair, htail⟩ := h
    simp only [List.map_cons, List.map_nil, List.mem_cons, List.not_mem_nil, or_false,
      not_or] at hpair
    -- `x1` is not loaded, so the others are loaded from the same place
    have hbase : (encoding.run (.ldp p.1 p.2.1 (x 1) p.2.2) c).reg (x 1) = c.reg (x 1) :=
      (Function.update_of_ne hpair.2 _ _).trans (Function.update_of_ne hpair.1 _ _)
    obtain ⟨hreg, hmem⟩ := ih htail (encoding.run (.ldp p.1 p.2.1 (x 1) p.2.2) c)
    rw [hbase] at hreg
    exact ⟨hreg, hmem⟩

/-- The registers with the stack pointer and the return address in `x10` and `x11`. -/
def kept (f : Register → BitVec 64) : Register → BitVec 64 :=
  Function.update (Function.update f (x 10) (f sp)) (x 11) (f (x 30))

/-- The code in front of the jump stores the registers of one context and loads those of another. -/
theorem runBlock_body (c : Cpu Register) :
    ∃ m f, m = saved.save c.mem (c.reg (x 0)) (kept c.reg) ∧
      f = saved.restore m (c.reg (x 1)) (kept c.reg) ∧ (encoding.runBlock body c).mem = m ∧
      (encoding.runBlock body c).reg = Function.update f sp (f (x 10)) := by
  -- the stack pointer and the return address are copied first, and saved as `x10` and `x11`
  have hmovs : ∃ c₁, encoding.runBlock [.mov (x 10) sp, .mov (x 11) (x 30)] c = c₁ ∧
      c₁.reg = kept c.reg ∧ c₁.mem = c.mem := ⟨_, rfl, rfl, rfl⟩
  obtain ⟨c₁, hrun, hreg₁, hmem₁⟩ := hmovs
  have hmov (c' : Cpu Register) : (encoding.runBlock [.mov sp (x 10)] c').reg =
      Function.update c'.reg sp (c'.reg (x 10)) ∧
      (encoding.runBlock [.mov sp (x 10)] c').mem = c'.mem := ⟨rfl, rfl⟩
  obtain ⟨hreg₂, hmem₂⟩ := runBlock_stores pairs c₁
  obtain ⟨hreg₃, hmem₃⟩ := runBlock_loads (l := pairs) (by decide)
    (encoding.runBlock (stores pairs) c₁)
  have hx0 : kept c.reg (x 0) = c.reg (x 0) := rfl
  have hx1 : kept c.reg (x 1) = c.reg (x 1) := rfl
  rw [hreg₁, hmem₁, hx0] at hmem₂
  rw [hmem₂, hreg₂, hreg₁, hx1] at hreg₃
  refine ⟨_, _, rfl, rfl, ?_, ?_⟩
  · rw [body, Encoding.runBlock_append, hrun, Encoding.runBlock_append, Encoding.runBlock_append,
      (hmov _).2, hmem₃, hmem₂, saved]
  · rw [body, Encoding.runBlock_append, hrun, Encoding.runBlock_append, Encoding.runBlock_append,
      (hmov _).1, hreg₃, saved]

/-! ### What a `ThreadStack` holds -/

/-- The part of the AArch64 convention that matters here: `x19` to `x29` and `d8` to `d15` are
callee-saved, and the return address is in `x30`. -/
def switchConvention : SwitchConvention Register where
  argument₀ := x 0
  argument₁ := x 1
  sp := sp
  calleeSaved := [x 19, x 20, x 21, x 22, x 23, x 24, x 25, x 26, x 27, x 28, x 29,
    d 8, d 9, d 10, d 11, d 12, d 13, d 14, d 15]
  returnAddress c := c.reg (x 30)
  retPops := 0
  stackBytes := 0

namespace Linked

variable {link : Linked}

/-- A saved context goes on where the call returns, with the registers that it had there; a new one
at `WasmccWrapMain`. -/
def Holds (link : Linked) (m : Memory) (a : BitVec 64) : Origin Register → Prop
  | .caller c => ∀ p ∈ saved, m.word (a + BitVec.ofNat 64 p.2) = kept c.reg p.1
  | .fresh thread stack => m.word (a + 0#64) = thread ∧ m.word (a + 8#64) = link.vmThreadStart ∧
      m.word (a + 16#64) = kDummyReturnAddress ∧ m.word (a + 96#64) = stack ∧
      m.word (a + 104#64) = link.wasmccWrapMain

theorem holds_congr {m m' : Memory} {a : BitVec 64} {o : Origin Register}
    (h : Memory.AgreeOn m m' a 176) (hholds : link.Holds m a o) : link.Holds m' a o := by
  -- every word that is asked for is within the area
  have hword (i : ℕ) (hi : i + 8 ≤ 176) :
      m'.word (a + BitVec.ofNat 64 i) = m.word (a + BitVec.ofNat 64 i) :=
    (Memory.word_congr (h.slice hi)).symm
  cases o with
  | caller c =>
    intro p hp
    rw [hword p.2 (saved_fits.within p hp), hholds p hp]
  | fresh thread stack =>
    obtain ⟨h0, h8, h16, h96, h104⟩ := hholds
    exact ⟨(hword 0 (by decide)).trans h0, (hword 8 (by decide)).trans h8,
      (hword 16 (by decide)).trans h16, (hword 96 (by decide)).trans h96,
      (hword 104 (by decide)).trans h104⟩

/-! ### New threads -/

/-- The members that are filled in, by their number. -/
def members : Layout (Fin 5) := [(0, 0), (1, 8), (2, 16), (3, 96), (4, 104)]

theorem members_fits : members.Fits 176 where
  within := by decide
  apart := by decide

/-- What they are set to. -/
def memberValues (link : Linked) (thread stack : BitVec 64) : Fin 5 → BitVec 64 :=
  ![thread, link.vmThreadStart, kDummyReturnAddress, stack, link.wasmccWrapMain]

theorem initializeVMThreadStackState_eq (a thread base size : BitVec 64) (m : Memory) :
    link.initializeVMThreadStackState a thread base size m =
      members.save m a (link.memberValues thread (initialSp base size)) := by
  have ha : a + BitVec.ofNat 64 0 = a := add_zero a
  show _ = Memory.write (Memory.write (Memory.write (Memory.write (Memory.write m
    (a + BitVec.ofNat 64 0) 8 _) (a + 8#64) 8 _) (a + 16#64) 8 _) (a + 96#64) 8 _) (a + 104#64) 8 _
  rw [ha]
  rfl

theorem holds_initialized {a base size : BitVec 64} (thread : BitVec 64) (m : Memory) :
    link.Holds (link.initializeVMThreadStackState a thread base size m) a
      (.fresh thread (initialSp base size)) := by
  rw [initializeVMThreadStackState_eq]
  have hword (i : Fin 5) (o : ℕ) (hi : (i, o) ∈ members) :
      (members.save m a (link.memberValues thread (initialSp base size))).word
        (a + BitVec.ofNat 64 o) = link.memberValues thread (initialSp base size) i :=
    Layout.word_save members_fits (by norm_num) hi
  exact ⟨hword 0 0 (by decide), hword 1 8 (by decide), hword 2 16 (by decide),
    hword 3 96 (by decide), hword 4 104 (by decide)⟩

theorem initialized_outside {a base size b : BitVec 64} (thread : BitVec 64) (m : Memory)
    (hb : ¬Memory.InRange a 176 b) :
    link.initializeVMThreadStackState a thread base size m b = m b := by
  rw [initializeVMThreadStackState_eq, Layout.save_outside members_fits hb]

/-! ### A call -/

/-- The assembly up to its end. -/
theorem steps_switch {c : Cpu Register} (hpc : c.pc = link.wasmccSwitch) :
    ∃ c' m f, m = saved.save c.mem (c.reg (x 0)) (kept c.reg) ∧
      f = saved.restore m (c.reg (x 1)) (kept c.reg) ∧ encoding.Steps link.text c c' ∧
      c'.mem = m ∧ c'.reg = Function.update f sp (f (x 10)) ∧ c'.pc = f (x 11) := by
  have hload := link.switch_loaded
  rw [← hpc, wasmccSwitch_eq] at hload
  obtain ⟨hsteps, hjump, -⟩ := Encoding.Steps.block hload straight_body
  obtain ⟨m, f, hm, hf, hmem, hreg⟩ := runBlock_body c
  have hrun (c₁ : Cpu Register) : encoding.run (.br (x 11)) c₁ =
      ⟨c₁.reg, c₁.reg (x 11), c₁.mem⟩ := rfl
  have hnext := hsteps.trans (Encoding.Steps.single hjump)
  rw [hrun, hreg, hmem] at hnext
  exact ⟨_, m, f, hm, hf, hnext, rfl, rfl, rfl⟩

/-- `WasmccWrapMain`, from a context that was filled in for a new thread. -/
theorem leaves_wrapMain {c : Cpu Register} (hpc : c.pc = link.wasmccWrapMain)
    {thread stack : BitVec 64} (hx19 : c.reg (x 19) = thread)
    (hx20 : c.reg (x 20) = link.vmThreadStart) (hx21 : c.reg (x 21) = kDummyReturnAddress)
    (hsp : c.reg sp = stack) :
    ∃ c', encoding.Leaves link.text c c' ∧
      switchConvention.Started link.vmThreadStart thread stack kDummyReturnAddress c' ∧
      c'.mem = c.mem := by
  obtain ⟨hmov, hmov', hbr, -⟩ := link.wrapMain_loaded
  rw [← hpc] at hmov hmov' hbr
  -- two moves and a branch
  have hsteps := ((Encoding.Steps.single hmov).trans
    (Encoding.Steps.single (e := encoding) hmov')).trans (Encoding.Steps.single (e := encoding) hbr)
  refine ⟨encoding.run (.br (x 20)) (encoding.run (.mov (x 30) (x 21))
    (encoding.run (.mov (x 0) (x 19)) c)), ⟨hsteps, ?_⟩, ⟨hx20, hx19, hsp, hx21⟩, rfl⟩
  show link.text (c.reg (x 20)) = none
  rw [hx20, link.start_outside]

/-- The context of the caller is in the first `ThreadStack`. -/
theorem holds_save {c : Cpu Register} {m : Memory}
    (hm : m = saved.save c.mem (c.reg (x 0)) (kept c.reg)) :
    link.Holds m (c.reg (x 0)) (.caller c) := by
  intro p hp
  rw [hm, Layout.word_save (o := p.2) saved_fits (by norm_num) hp]

/-- **A call of `WasmccSwitch` on arm64** goes on with the context in its second argument: it
returns from the call that this context was saved by, with the stack pointer and the callee-saved
registers of that call, or starts a new thread. The caller's own context is then in the first
argument, and no other byte of memory has changed. -/
theorem wasmccSwitch_leaves {c : Cpu Register} {o : Origin Register}
    (hpc : c.pc = link.wasmccSwitch) (hholds : link.Holds c.mem (c.reg (x 1)) o)
    (hout : ∀ d, o = .caller d → link.text (switchConvention.returnAddress d) = none)
    (hapart : Memory.Disjoint (c.reg (x 0)) 176 (c.reg (x 1)) 176) :
    ∃ c', encoding.Leaves link.text c c' ∧
      switchConvention.Arrived link.vmThreadStart kDummyReturnAddress o c' ∧
      link.Holds c'.mem (c.reg (x 0)) (.caller c) ∧
      ∀ b, ¬Memory.InRange (c.reg (x 0)) 176 b → c'.mem b = c.mem b := by
  obtain ⟨c₁, m, f, hm, hf, hsteps, hmem, hreg, hpc₁⟩ := steps_switch hpc
  have hkept : ∀ b, ¬Memory.InRange (c.reg (x 0)) 176 b → m b = c.mem b := by
    intro b hb
    rw [hm, Layout.save_outside saved_fits hb]
  -- what is saved does not disturb what is loaded
  have hloaded : link.Holds m (c.reg (x 1)) o :=
    holds_congr (Memory.agreeOn_of_disjoint hkept hapart) hholds
  have hsaved : link.Holds m (c.reg (x 0)) (.caller c) := holds_save hm
  have hload {r : Register} {i : ℕ} (hr : (r, i) ∈ saved) :
      f r = m.word (c.reg (x 1) + BitVec.ofNat 64 i) := by
    rw [hf, Layout.restore_of_mem saved_nodup hr]
  have hother {r : Register} (hr : r ≠ sp) : c₁.reg r = f r := by
    rw [hreg, Function.update_of_ne hr]
  have hsp : c₁.reg sp = f (x 10) := by rw [hreg, Function.update_self]
  cases o with
  | caller e =>
    have hback {r : Register} (hr : r ∈ saved.map Prod.fst) : f r = kept e.reg r := by
      obtain ⟨p, hp, rfl⟩ := List.mem_map.mp hr
      rw [hload (i := p.2) hp, hloaded p hp]
    have hret : c₁.pc = e.reg (x 30) := hpc₁.trans (hback (by decide))
    refine ⟨c₁, ⟨hsteps, by rw [hret]; exact hout e rfl⟩, ⟨hret, ?_, fun r hr => ?_⟩, hmem ▸ hsaved,
      hmem ▸ hkept⟩
    · show c₁.reg sp = e.reg sp + 0
      rw [hsp, hback (by decide), add_zero]
      rfl
    · have hne : r ≠ sp := by rintro rfl; revert hr; decide
      have hr' : r ∈ saved.map Prod.fst := by revert r; decide
      have h10 : r ≠ x 10 := by rintro rfl; revert hr; decide
      have h11 : r ≠ x 11 := by rintro rfl; revert hr; decide
      rw [hother hne, hback hr', kept, Function.update_of_ne h11, Function.update_of_ne h10]
  | fresh thread stack =>
    obtain ⟨h0, h8, h16, h96, h104⟩ := hloaded
    obtain ⟨c', hleaves, hstarted, hmem'⟩ := leaves_wrapMain
      (hpc₁.trans ((hload (i := 104) (by decide)).trans h104))
      ((hother (r := x 19) nofun).trans ((hload (i := 0) (by decide)).trans h0))
      ((hother (r := x 20) nofun).trans ((hload (i := 8) (by decide)).trans h8))
      ((hother (r := x 21) nofun).trans ((hload (i := 16) (by decide)).trans h16))
      (hsp.trans ((hload (i := 96) (by decide)).trans h96))
    rw [hmem] at hmem'
    exact ⟨c', hleaves.of_steps hsteps, hstarted, hmem' ▸ hsaved, hmem' ▸ hkept⟩

/-- What the runtime has of it. -/
def switchCode (link : Linked) : SwitchCode Register where
  toSwitchConvention := switchConvention
  wasmccSwitch := link.wasmccSwitch
  vmThreadStart := link.vmThreadStart
  dummyReturnAddress := kDummyReturnAddress
  threadStackBytes := 176
  Leaves := encoding.Leaves link.text
  Outside a := link.text a = none
  initialSp := initialSp
  initializeVMThreadStackState := link.initializeVMThreadStackState
  Holds := link.Holds
  unique := Encoding.Leaves.unique
  holds_congr h _ := holds_congr h
  holds_initialized thread m _ := holds_initialized thread m
  initialized_outside thread m hb _ := initialized_outside thread m hb
  switches hpc hholds hout hapart _ _ := wasmccSwitch_leaves hpc hholds hout hapart

/-- **Context switches on arm64.** In every run of an OS thread a resume that starts a thread enters
`VMThreadStart` with the thread as its argument, at the top of the thread's own stack; one that goes
on with a suspended thread returns from the call of `WasmccSwitch` that the thread yielded with,
whatever was called in between; and when the thread yields or its function returns, the call that it
was resumed with returns. A call that returns does so with its stack pointer and its callee-saved
registers, those of floating point included. -/
theorem switches_right_arm64 {P : Placement link.switchCode} {h₀ h : OsThread Register}
    (hthreads : h₀.threads = {}) {calls : List ThreadCall}
    (hrun : Basis.Path (OsThread.Step P) h₀ calls h) : h.SwitchesRight P :=
  ((OsThread.Inv.init hthreads).run hrun).switchesRight

/-- The assembly at two addresses, in a text with nothing else. -/
def alone : Linked where
  text := encoding.load (encoding.load (fun _ => none) 0x1000#64 Arm64.wasmccSwitch) 0x2000#64
    Arm64.wasmccWrapMain
  wasmccSwitch := 0x1000#64
  wasmccWrapMain := 0x2000#64
  vmThreadStart := 0x3000#64
  switch_loaded := by decide +kernel
  wrapMain_loaded := by decide +kernel
  start_outside := by decide +kernel

/-- The thread of one VM, with its object and its stack. No byte of a stack is read by a switch. -/
def oneThread : Placement alone.switchCode :=
  .single alone.switchCode (.vm 0) 0x10000#64 0x100b0#64 0x20000#64 0x10000#64 0x40000#64
    (Memory.disjoint_of_le (by decide) (by decide)) (fun _ _ => Nat.not_lt_zero _)
    fun _ _ => Nat.not_lt_zero _

/-- The call of `WasmccSwitch` by `Resume`, when the context of the new thread is filled in. -/
def resumes : Cpu Register where
  reg r := if r = x 0 then 0x100b0#64 else if r = x 1 then 0x10000#64 else 0x50000#64
  pc := 0x1000#64
  mem := alone.initializeVMThreadStackState 0x10000#64 0x40000#64 0x20000#64 0x10000#64 fun _ => 0#8

/-- The call by `Yield`. -/
def yields : Cpu Register where
  reg r := if r = x 0 then 0x10000#64 else if r = x 1 then 0x100b0#64 else 0x2ff00#64
  pc := 0x1000#64
  mem := resumes.mem

theorem resumes_calls (m : Memory) :
    oneThread.Calls { resumes with mem := m } (.mainThreadState (.vm 0))
      (.myThreadState (.vm 0)) := by
  have hout : alone.text 0x50000#64 = none := by decide +kernel
  exact ⟨rfl, rfl, rfl, hout, fun _ _ _ _ => Nat.not_lt_zero _, fun _ _ _ _ _ => Nat.not_lt_zero _⟩

theorem yields_calls (m : Memory) :
    oneThread.Calls { yields with mem := m } (.myThreadState (.vm 0))
      (.mainThreadState (.vm 0)) := by
  have hout : alone.text 0x2ff00#64 = none := by decide +kernel
  exact ⟨rfl, rfl, rfl, hout, fun _ _ _ _ => Nat.not_lt_zero _, fun _ _ _ _ _ => Nat.not_lt_zero _⟩

/-- A thread is resumed, yields, and is resumed again. -/
theorem switches_right_arm64_resumed : ∃ h : OsThread Register,
    Basis.Path (OsThread.Step oneThread) (OsThread.idle resumes)
      [.resume (.vm 0), .yield, .resume (.vm 0)] h ∧ h.SwitchesRight oneThread := by
  obtain ⟨h, hrun⟩ := OsThread.exists_resume_again (d := yields) (P := oneThread) rfl rfl
    (fun m _ => resumes_calls m) fun m _ => yields_calls m
  exact ⟨h, hrun, switches_right_arm64 rfl hrun⟩

end Linked

end Wasmcc.Arm64
