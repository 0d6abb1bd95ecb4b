import Wasmcc.Compiler.Spill
import Wasmcc.Compiler.Window
import Wasmcc.Parser.ModuleBuilder

/-!
# What `SetLocalI32` writes on x86-64

The popped value is in a register or is reloaded into one, and the whole 64-bit register is stored.
The local is an `i32`, its slot has four bytes, and slots are packed: the upper half of the register
goes over the first four bytes of the next slot.

`setsOnly_iff` says that the code of `SetLocalI32` changes its own local only exactly if there is no
slot right after it, or if that slot holds these four bytes already. It is about any function whose
locals have offsets below 2 GiB, as they do where the parser lets a function through
(`localTypes_small`), whatever their types and the size of the frame, any point of any body at which
the compiler gets to the instruction, and any machine.
-/

open Basis

namespace Wasmcc

/-! ### The property and the condition -/

/-- What the instruction stores of a popped value: all of its register, or the four bytes that it is
reloaded from. -/
def Machine.stored (m : Machine) (v : RuntimeValue) : BitVec 64 :=
  match v.reg with
  | some r => m.reg r
  | none => BitVec.ofNat 64 (m.read v.stackPointer 4)

namespace FunctionFrame

/-- The slots of all locals but `idx` hold the same in both machines. -/
def OthersKept (frame : FunctionFrame) (idx : ℕ) (m m' : Machine) : Prop :=
  ∀ j type offset, j ≠ idx → frame.meta_.localTypes[j]? = some type →
    frame.localStackOffset j = .ok offset →
    Memory.AgreeOn m.mem m'.mem (m.addr offset) type.sizeBytes

/-- If the slot of the next local follows directly on that of `idx`, it starts with the upper half
of what is stored for `v`. -/
def NextHolds (frame : FunctionFrame) (idx : ℕ) (v : RuntimeValue) (m : Machine) : Prop :=
  ∀ offset next, frame.localStackOffset idx = .ok offset →
    frame.localStackOffset (idx + 1) = .ok next →
    next.signExtend 64 = offset.signExtend 64 + 4 → m.read next 4 = (m.stored v).toNat / 2 ^ 32

end FunctionFrame

/-- The code of `SetLocalI32 idx` runs from `m`, leaves the value that it pops in the slot of the
local and changes no other slot. -/
def X64.SetsOnly (frame : FunctionFrame) (exitLabel : Label) (s : CompilerState) (idx : ℕ)
    (m : Machine) : Prop :=
  ∃ v stack offset s' code m', s.stack.pop = .ok (v, stack) ∧
    frame.localStackOffset idx = .ok offset ∧
    X64.assembler.visit frame exitLabel s (.setLocalI32 idx) = .ok (s', code) ∧
    X64.isa.execBlock code m = some m' ∧ m'.read offset 4 = m.find v ∧
    frame.OthersKept idx m m'

namespace X64

variable {frame : FunctionFrame} {capacity : ℕ} {s : CompilerState}
  {w : Window} {v : RuntimeValue} {stack : RuntimeStack} {idx : ℕ} {offset : BitVec 32}

/-- **What the code does**: one store of eight bytes. -/
theorem visitSetLocalI32_exec (exitLabel : Label) (h : Holds assembler.callerSaved s capacity [] w)
    (hpop : s.stack.pop = .ok (v, stack)) (ho : frame.localStackOffset idx = .ok offset)
    (m : Machine) :
    v.type = .i32 ∧ ∃ s' code m', assembler.visit frame exitLabel s (.setLocalI32 idx) =
        .ok (s', code) ∧ isa.execBlock code m = some m' ∧ m'.sp = m.sp ∧
      m'.mem = m.mem.write (m.addr offset) 8 (m.stored v).toNat := by
  obtain ⟨hv, r, s', code, he, hcode⟩ := Assembler.popped_code h hpop
  have hvisit : assembler.visit frame exitLabel s (.setLocalI32 idx) =
      .ok ({ s' with regTracker := s'.regTracker.markRegisterUnused r },
        code ++ [.movToMem offset (Reg.r64 r)]) :=
    bind_eq_ok.mpr ⟨_, hpop, bind_eq_ok.mpr ⟨_, he, bind_eq_ok.mpr ⟨_, ho, rfl⟩⟩⟩
  obtain ⟨hreg, rfl⟩ | ⟨hreg, rfl⟩ := hcode
  · refine ⟨hv, _, _, m.store offset (Reg.r64 r), hvisit, rfl, rfl, ?_⟩
    rw [Machine.stored, hreg]
    rfl
  · refine ⟨hv, _, _, (m.load (Reg.r32 r) v.stackPointer).store offset (Reg.r64 r), hvisit, rfl,
      m.load_sp _ _, ?_⟩
    -- the reload clears the upper half of the register
    have hload : (m.load (Reg.r32 r) v.stackPointer).reg r = m.stored v := by
      have hlt := m.mem.read_lt (m.addr v.stackPointer) 4
      rw [Machine.load_r32, Machine.stored, hreg]
      apply BitVec.eq_of_toNat_eq
      simp only [BitVec.toNat_setWidth, BitVec.toNat_ofNat, Machine.read]
      omega
    have haddr : (m.load (Reg.r32 r) v.stackPointer).addr offset = m.addr offset := by
      rw [Machine.addr, Machine.load_sp, Machine.addr]
    change Memory.write _ _ 8 (BitVec.toNat _) = _
    rw [Machine.load_mem, haddr]
    exact congrArg (fun b : BitVec 64 => m.mem.write (m.addr offset) 8 b.toNat) hload

/-- The lower half of what is stored is the value. -/
theorem stored_lo (hv : v.type = .i32) (m : Machine) :
    (m.stored v).toNat % 2 ^ 32 = m.find v := by
  rw [Machine.stored, Machine.find, hv]
  cases v.reg with
  | some r => rfl
  | none =>
    have hlt := m.mem.read_lt (m.addr v.stackPointer) 4
    change (BitVec.ofNat 64 (m.read v.stackPointer 4)).toNat % 2 ^ 32 = m.read v.stackPointer 4
    rw [BitVec.toNat_ofNat, Machine.read]
    omega

end X64

/-! ### Which slots a store of eight bytes reaches -/

/-- The eight bytes from the slot of an `i32` on meet no slot but its own and the one that follows
directly. -/
theorem FunctionFrame.slot_disjoint {m : Function.Metadata}
    (hsmall : sizeOfTypes m.localTypes + 16 < 2 ^ 31) {idx j : ℕ} {type : ValType}
    (hidx : m.localTypes[idx]? = some .i32) (hj : m.localTypes[j]? = some type)
    {offset offset' : BitVec 32} (ho : (new m).localStackOffset idx = .ok offset)
    (ho' : (new m).localStackOffset j = .ok offset') (hne : j ≠ idx)
    (hnext : j = idx + 1 → offset'.signExtend 64 ≠ offset.signExtend 64 + 4) (base : BitVec 64) :
    Memory.Disjoint (base + offset.signExtend 64) 8 (base + offset'.signExtend 64)
      type.sizeBytes := by
  have hlt := (List.getElem?_eq_some_iff.mp hidx).1
  have hltj := (List.getElem?_eq_some_iff.mp hj).1
  obtain rfl := Except.ok.inj ((localStackOffset_new m hlt).symm.trans ho)
  obtain rfl := Except.ok.inj ((localStackOffset_new m hltj).symm.trans ho')
  have hafter := sizeOfTypes_take_succ hidx
  have hafterj := sizeOfTypes_take_succ hj
  have hend := (sizeOfTypes_take_mono m.localTypes (show idx + 1 ≤ m.localTypes.length from hlt))
  have hendj := (sizeOfTypes_take_mono m.localTypes (show j + 1 ≤ m.localTypes.length from hltj))
  rw [List.take_length] at hend hendj
  rw [ValType.sizeBytes] at hafter
  refine slots_disjoint base _ (by omega) (by omega) (by norm_num) type.sizeBytes_pos ?_
  -- slots in front end before this one begins; of those behind, only the next is near
  rcases Nat.lt_trichotomy j idx with hbefore | rfl | hbehind
  · have := sizeOfTypes_take_mono m.localTypes (show j + 1 ≤ idx from hbefore)
    omega
  · exact absurd rfl hne
  by_cases hsucc : j = idx + 1
  · refine .inr (.inr ?_)
    have hdist : ((sizeOfTypes (m.localTypes.take j) : ℤ) - sizeOfTypes (m.localTypes.take idx)) =
        4 := by
      rw [hsucc]
      omega
    rw [hdist]
    exact hnext hsucc
  · -- the next slot lies between them
    have hltn : idx + 1 < m.localTypes.length := by omega
    have hafter' := sizeOfTypes_take_succ (List.getElem?_eq_getElem hltn)
    have := m.localTypes[idx + 1].four_le_sizeBytes
    have := sizeOfTypes_take_mono m.localTypes (show idx + 1 + 1 ≤ j by omega)
    omega

/-- **Which slots a store changes**, among those of the other locals. -/
theorem FunctionFrame.othersKept_iff {f : Function.Metadata}
    (hsmall : sizeOfTypes f.localTypes + 16 < 2 ^ 31) {idx : ℕ}
    (hidx : f.localTypes[idx]? = some .i32) {offset : BitVec 32}
    (ho : (new f).localStackOffset idx = .ok offset) {m m' : Machine} {v : RuntimeValue}
    (hmem : m'.mem = m.mem.write (m.addr offset) 8 (m.stored v).toNat) :
    (new f).OthersKept idx m m' ↔ (new f).NextHolds idx v m := by
  have hupper : (m.stored v).toNat / 2 ^ 32 % 256 ^ 4 = (m.stored v).toNat / 2 ^ 32 := by
    have := (m.stored v).isLt
    exact Nat.mod_eq_of_lt (by omega)
  -- the slot that follows directly is where the store ends
  have hfollow {next : BitVec 32} (hnext : next.signExtend 64 = offset.signExtend 64 + 4) {n : ℕ}
      (h4 : 4 ≤ n) (hn : n ≤ 16) : Memory.AgreeOn m.mem m'.mem (m.addr next) n ↔
        m.read next 4 = (m.stored v).toNat / 2 ^ 32 := by
    have haddr : m.addr next = m.addr offset + BitVec.ofNat 64 4 := by
      rw [Machine.addr, hnext, Machine.addr, add_assoc]
      rfl
    have hiff := Memory.agreeOn_write_iff m.mem (m.addr offset) (m.stored v).toNat h4
      (show 4 + n ≤ 2 ^ 64 by omega)
    rw [hmem, Machine.read, haddr, hiff]
    exact Iff.of_eq (congrArg _ hupper)
  constructor
  · intro h offset' next ho' hon hnext
    obtain rfl := Except.ok.inj (ho'.symm.trans ho)
    have hlt := lt_of_localStackOffset hon
    rw [new_localsStackOffset_length] at hlt
    have hkept := h (idx + 1) _ next (by omega) (List.getElem?_eq_getElem hlt) hon
    exact (hfollow hnext (ValType.four_le_sizeBytes _) (ValType.sizeBytes_le _)).mp hkept
  · intro h j type next hne hj hon
    by_cases hnext : j = idx + 1 ∧ next.signExtend 64 = offset.signExtend 64 + 4
    · obtain ⟨rfl, hnext⟩ := hnext
      exact (hfollow hnext type.four_le_sizeBytes type.sizeBytes_le).mpr
        (h offset next ho hon hnext)
    · have hapart := slot_disjoint hsmall hidx hj ho hon hne
        (fun hj' hn => hnext ⟨hj', hn⟩) m.sp
      rw [hmem]
      intro b hb
      exact (Memory.write_of_not_inRange m.mem _ fun hw => hapart b hw hb).symm

/-- The parser's limits on parameters and locals leave room for their offsets. -/
theorem Function.Metadata.localTypes_small {f : Function.Metadata}
    (hparams : f.signature.parameterTypes.length ≤ kMaxFunctionParameters)
    (hlocals : f.locals.length ≤ maxFunctionLocals) : sizeOfTypes f.localTypes + 16 < 2 ^ 31 := by
  have hle := sizeOfTypes_le f.localTypes
  rw [Function.Metadata.localTypes, List.length_append] at hle
  rw [kMaxFunctionParameters] at hparams
  rw [maxFunctionLocals] at hlocals
  rw [Function.Metadata.localTypes]
  omega

namespace X64

/-- **When setting a local changes that local only.** Its code, anywhere in a body, leaves the
popped value in the slot of the local and the other slots alone, exactly if no slot follows directly
on it or the one that does holds the upper half of what is stored. -/
theorem setsOnly_iff {f : Function.Metadata} (hsmall : sizeOfTypes f.localTypes + 16 < 2 ^ 31)
    {exitLabel : Label} {capacity : ℕ} {body : List Instruction} {s : CompilerState}
    {code : List Instr}
    (hbody : assembler.visitAll (.new f) exitLabel { stack := { capacity } } body = .ok (s, code))
    {v : RuntimeValue} {stack : RuntimeStack} (hpop : s.stack.pop = .ok (v, stack)) {idx : ℕ}
    (hidx : f.localTypes[idx]? = some .i32) (m : Machine) :
    SetsOnly (.new f) exitLabel s idx m ↔ (FunctionFrame.new f).NextHolds idx v m := by
  have hlt := (List.getElem?_eq_some_iff.mp hidx).1
  obtain ⟨offset, ho⟩ := FunctionFrame.localStackOffset_of_lt
    ((FunctionFrame.new_localsStackOffset_length f).symm ▸ hlt)
  -- whatever the body has left, the visitor stores the popped value
  obtain ⟨w, hw⟩ := Assembler.visitAll_holds (Holds.new _ capacity) hbody
  obtain ⟨hv, s', code', m', hvisit, hexec, hsp, hmem⟩ :=
    visitSetLocalI32_exec exitLabel hw hpop ho m
  rw [← FunctionFrame.othersKept_iff hsmall hidx ho hmem]
  constructor
  · rintro ⟨v₁, stack₁, offset₁, s₁, code₁, m₁, hpop₁, ho₁, hvisit₁, hexec₁, -, hkept⟩
    obtain ⟨-, rfl⟩ := Prod.mk.inj (Except.ok.inj (hvisit₁.symm.trans hvisit))
    obtain rfl := Option.some.inj (hexec₁.symm.trans hexec)
    exact hkept
  · intro hkept
    refine ⟨v, stack, offset, s', code', m', hpop, ho, hvisit, hexec, ?_, hkept⟩
    have haddr : m'.addr offset = m.addr offset := by rw [Machine.addr, hsp, Machine.addr]
    rw [Machine.read, haddr, hmem, Memory.read_write_first m.mem _ _ (by norm_num) (by norm_num)]
    exact stored_lo hv m

/-- Two locals of type `i32`, no parameters and no results. -/
def twoLocals : Function.Metadata where
  signature := ⟨[], []⟩
  locals := [.i32, .i32]
  maxStackSizeBytes := 4
  maxStackElements := 1

/-- The second of two locals, from any registers. -/
theorem setsOnly_second :
    ∃ s code, assembler.visitAll (.new twoLocals) 0 { stack := { capacity := 1 } }
        [.constI32 (Value.mk 7)] = .ok (s, code) ∧
      SetsOnly (.new twoLocals) 0 s 1
        { Machine.allSet with reg := fun _ => BitVec.allOnes 64 } := by
  have hbody : assembler.visitAll (.new twoLocals) 0 { stack := { capacity := 1 } }
      [.constI32 (Value.mk 7)] = .ok (_, _) := rfl
  have hsmall := twoLocals.localTypes_small (by decide) (by decide)
  refine ⟨_, _, hbody, (setsOnly_iff hsmall hbody rfl rfl _).mpr ?_⟩
  intro offset next _ hnext
  cases hnext

/-- The first of two locals: the zeros that are stored go over the second. -/
theorem first_overwrites_second :
    ∃ s code, assembler.visitAll (.new twoLocals) 0 { stack := { capacity := 1 } }
        [.constI32 (Value.mk 7)] = .ok (s, code) ∧
      ¬SetsOnly (.new twoLocals) 0 s 0 .allSet := by
  refine ⟨_, _, rfl, ?_⟩
  rintro ⟨v, stack, offset, s', code, m', -, -, hvisit, hexec, -, hkept⟩
  obtain ⟨-, rfl⟩ := Prod.mk.inj (Except.ok.inj hvisit)
  obtain rfl := Option.some.inj hexec
  have hbyte := hkept 1 .i32 _ (by decide) rfl rfl (BitVec.ofInt 64 (-12)) (by decide)
  exact absurd hbyte (by decide)

end X64

end Wasmcc
