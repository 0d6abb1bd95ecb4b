import Wasmcc.Basis.Program
import Wasmcc.Compiler.Emit

/-!
# The machine that runs generated code

The part of a processor that the generated code uses: general purpose registers, the stack pointer,
the carry flag and memory. Writing the 32-bit name of a register clears its upper half, on x86-64
and on AArch64 alike.

A `Target` is an assembler together with an instruction set for it. Its laws say what each emitted
instruction does, in terms of operations of the machine; the two architectures differ in three
places, which the fields `addsCarry`, `storesLocals` and `returnAddress` name.
-/

open Basis

namespace Wasmcc

structure Machine where
  reg : Reg → BitVec 64
  sp : BitVec 64
  carry : Bool
  mem : Memory
  /-- The instruction pointer. It only changes when the function returns. -/
  ip : BitVec 64

namespace Machine

/-- The address at an offset from the stack pointer, which is sign-extended. -/
def addr (m : Machine) (offset : BitVec 32) : BitVec 64 := m.sp + offset.signExtend 64

/-- The lower half of a register. -/
def lo (m : Machine) (r : Reg) : BitVec 32 := (m.reg r).setWidth 32

/-- What a register holds under one of its names. -/
def get (m : Machine) (r : Gp) : BitVec 64 :=
  match r.width with
  | .w32 => (m.lo r.id).setWidth 64
  | .w64 => m.reg r.id

/-- Write a register under one of its names. -/
def set (m : Machine) (r : Gp) (v : BitVec 64) : Machine :=
  match r.width with
  | .w32 => { m with reg := Function.update m.reg r.id ((v.setWidth 32).setWidth 64) }
  | .w64 => { m with reg := Function.update m.reg r.id v }

/-- The number in memory at an offset. -/
def read (m : Machine) (offset : BitVec 32) (n : ℕ) : ℕ := m.mem.read (m.addr offset) n

def store (m : Machine) (offset : BitVec 32) (r : Gp) : Machine :=
  { m with mem := m.mem.write (m.addr offset) r.width.bytes (m.reg r.id).toNat }

def load (m : Machine) (r : Gp) (offset : BitVec 32) : Machine :=
  m.set r (BitVec.ofNat 64 (m.read offset r.width.bytes))

/-- Subtract from the stack pointer. The carry flag is the borrow, where it is set at all. -/
def enter (m : Machine) (setsCarry : Bool) (size : BitVec 32) : Machine :=
  { m with
    sp := m.sp - size.signExtend 64
    carry := if setsCarry then m.sp.ult (size.signExtend 64) else m.carry }

def leave (m : Machine) (setsCarry : Bool) (size : BitVec 32) : Machine :=
  { m with
    sp := m.sp + size.signExtend 64
    carry := if setsCarry then decide (2 ^ 64 ≤ m.sp.toNat + (size.signExtend 64).toNat)
      else m.carry }

/-- The sum of two lower halves, as a number. -/
def sum (m : Machine) (addsCarry : Bool) (dst src : Reg) : ℕ :=
  (m.lo dst).toNat + (m.lo src).toNat + (addsCarry && m.carry).toNat

/-- Add a register to another. With `addsCarry` the carry flag is added too, and set. -/
def add (m : Machine) (addsCarry : Bool) (dst src : Reg) : Machine :=
  { m.set (Reg.r32 dst) (BitVec.ofNat 64 (m.sum addsCarry dst src)) with
    carry := if addsCarry then decide (2 ^ 32 ≤ m.sum addsCarry dst src) else m.carry }

/-! ### Frames -/

variable (m : Machine)

@[simp] theorem set_sp (r : Gp) (v : BitVec 64) : (m.set r v).sp = m.sp := by
  unfold set
  split <;> rfl

@[simp] theorem set_mem (r : Gp) (v : BitVec 64) : (m.set r v).mem = m.mem := by
  unfold set
  split <;> rfl

@[simp] theorem set_carry (r : Gp) (v : BitVec 64) : (m.set r v).carry = m.carry := by
  unfold set
  split <;> rfl

theorem set_reg_of_ne (r : Gp) (v : BitVec 64) {q : Reg} (h : q ≠ r.id) :
    (m.set r v).reg q = m.reg q := by
  unfold set
  split <;> exact Function.update_of_ne h _ _

theorem set_r32 (r : Reg) (v : BitVec 64) :
    (m.set (Reg.r32 r) v).reg r = (v.setWidth 32).setWidth 64 := by
  simp [set, Reg.r32]

@[simp] theorem load_sp (r : Gp) (offset : BitVec 32) : (m.load r offset).sp = m.sp :=
  m.set_sp r _

@[simp] theorem load_mem (r : Gp) (offset : BitVec 32) : (m.load r offset).mem = m.mem :=
  m.set_mem r _

@[simp] theorem load_carry (r : Gp) (offset : BitVec 32) : (m.load r offset).carry = m.carry :=
  m.set_carry r _

theorem load_reg_of_ne (r : Gp) (offset : BitVec 32) {q : Reg} (h : q ≠ r.id) :
    (m.load r offset).reg q = m.reg q := m.set_reg_of_ne r _ h

@[simp] theorem store_sp (offset : BitVec 32) (r : Gp) : (m.store offset r).sp = m.sp := rfl

@[simp] theorem store_reg (offset : BitVec 32) (r : Gp) : (m.store offset r).reg = m.reg := rfl

@[simp] theorem store_carry (offset : BitVec 32) (r : Gp) :
    (m.store offset r).carry = m.carry := rfl

@[simp] theorem enter_reg (b : Bool) (size : BitVec 32) : (m.enter b size).reg = m.reg := rfl

@[simp] theorem enter_mem (b : Bool) (size : BitVec 32) : (m.enter b size).mem = m.mem := rfl

@[simp] theorem leave_reg (b : Bool) (size : BitVec 32) : (m.leave b size).reg = m.reg := rfl

@[simp] theorem leave_mem (b : Bool) (size : BitVec 32) : (m.leave b size).mem = m.mem := rfl

@[simp] theorem add_sp (b : Bool) (dst src : Reg) : (m.add b dst src).sp = m.sp :=
  m.set_sp (Reg.r32 dst) (BitVec.ofNat 64 (m.sum b dst src))

@[simp] theorem add_mem (b : Bool) (dst src : Reg) : (m.add b dst src).mem = m.mem :=
  m.set_mem (Reg.r32 dst) (BitVec.ofNat 64 (m.sum b dst src))

theorem add_reg_of_ne (b : Bool) (dst src : Reg) {q : Reg} (h : q ≠ dst) :
    (m.add b dst src).reg q = m.reg q := m.set_reg_of_ne (Reg.r32 dst) _ h

theorem add_reg (b : Bool) (dst src : Reg) :
    (m.add b dst src).reg dst = (BitVec.ofNat 32 (m.sum b dst src)).setWidth 64 := by
  have h : (BitVec.ofNat 64 (m.sum b dst src)).setWidth 32 = BitVec.ofNat 32 (m.sum b dst src) := by
    apply BitVec.eq_of_toNat_eq
    simp only [BitVec.toNat_setWidth, BitVec.toNat_ofNat]
    omega
  have := m.set_r32 dst (BitVec.ofNat 64 (m.sum b dst src))
  rw [h] at this
  exact this

/-- A four-byte load is the number in memory. -/
theorem load_r32 (r : Reg) (offset : BitVec 32) :
    (m.load (Reg.r32 r) offset).reg r = (BitVec.ofNat 32 (m.read offset 4)).setWidth 64 := by
  have h : (BitVec.ofNat 64 (m.read offset 4)).setWidth 32 =
      BitVec.ofNat 32 (m.read offset 4) := by
    apply BitVec.eq_of_toNat_eq
    simp only [BitVec.toNat_setWidth, BitVec.toNat_ofNat]
    omega
  have := m.set_r32 r (BitVec.ofNat 64 (m.read offset 4))
  rw [h] at this
  exact this

end Machine

/-! ### Offsets -/

theorem signExtend_of_lt {S : BitVec 32} (hS : S.toNat < 2 ^ 31) :
    S.signExtend 64 = BitVec.ofNat 64 S.toNat := by
  have hmsb : S.msb = false := by
    rw [BitVec.msb_eq_false_iff_two_mul_lt]
    omega
  rw [BitVec.signExtend_eq_setWidth_of_msb_false hmsb]
  apply BitVec.eq_of_toNat_eq
  rw [BitVec.toNat_setWidth, BitVec.toNat_ofNat]

theorem signExtend_ofNat_sub {x : ℕ} {S : BitVec 32} (hx : x < 2 ^ 31) (hS : S.toNat < 2 ^ 31) :
    (BitVec.ofNat 32 x - S).signExtend 64 = BitVec.ofNat 64 x - BitVec.ofNat 64 S.toNat := by
  apply BitVec.eq_of_toInt_eq
  rw [BitVec.toInt_signExtend_of_le (by norm_num)]
  simp only [BitVec.toInt_eq_toNat_bmod, BitVec.toNat_sub, BitVec.toNat_ofNat, Int.bmod_def]
  omega

/-- Slots are as far apart as they are in the frame, unless the sign bit of the offset changes
between them. -/
theorem signExtend_distance {x y : ℕ} (S : BitVec 32) (hx : x < 2 ^ 31) (hy : y < 2 ^ 31) :
    ∃ c : ℤ, (c = 0 ∨ c = 2 ^ 32 ∨ c = -2 ^ 32) ∧
      (BitVec.ofNat 32 y - S).signExtend 64 - (BitVec.ofNat 32 x - S).signExtend 64 =
        BitVec.ofInt 64 (y - x + c) := by
  -- each difference wraps at most once, so the two differ by one wrap at most
  refine ⟨(BitVec.ofNat 32 y - S).toInt - (BitVec.ofNat 32 x - S).toInt - (y - x), ?_, ?_⟩
  · simp only [BitVec.toInt_eq_toNat_bmod, BitVec.toNat_sub, BitVec.toNat_ofNat, Int.bmod_def]
    have := S.isLt
    omega
  · apply BitVec.eq_of_toInt_eq
    rw [BitVec.toInt_sub, BitVec.toInt_signExtend_of_le (by norm_num),
      BitVec.toInt_signExtend_of_le (by norm_num), BitVec.toInt_ofInt]
    congr 1
    ring

/-- Slots that are apart in the frame are apart in memory, and so are slots that the sign bit
separates. -/
theorem slots_disjoint (base : BitVec 64) (S : BitVec 32) {x y n n' : ℕ} (hx : x + n < 2 ^ 31)
    (hy : y + n' < 2 ^ 31) (hn : 0 < n) (hn' : 0 < n')
    (h : x + n ≤ y ∨ y + n' ≤ x ∨ (BitVec.ofNat 32 y - S).signExtend 64 ≠
      (BitVec.ofNat 32 x - S).signExtend 64 + BitVec.ofInt 64 (y - x)) :
    Memory.Disjoint (base + (BitVec.ofNat 32 x - S).signExtend 64) n
      (base + (BitVec.ofNat 32 y - S).signExtend 64) n' := by
  rw [Memory.disjoint_add_iff]
  obtain ⟨c, hc, hd⟩ := signExtend_distance S (show x < 2 ^ 31 by omega) (show y < 2 ^ 31 by omega)
  -- the distance is that of the numbers, or off by a multiple of `2 ^ 32`
  have hfar : x + n ≤ y ∨ y + n' ≤ x ∨ c ≠ 0 := by
    refine h.imp_right (Or.imp_right fun hne h0 => hne ?_)
    rw [h0, add_zero] at hd
    rw [← hd, add_sub_cancel]
  have hback : (BitVec.ofNat 32 x - S).signExtend 64 - (BitVec.ofNat 32 y - S).signExtend 64 =
      BitVec.ofInt 64 (-(y - x + c)) := by
    rw [BitVec.ofInt_neg, ← hd, neg_sub]
  apply Memory.disjoint_of_le
  · rw [hd, BitVec.toNat_ofInt]
    omega
  · rw [hback, BitVec.toNat_ofInt]
    omega

/-- An architecture: its assembler, and what the emitted instructions do. -/
structure Target (ι : Type) extends Assembler ι where
  isa : Isa ι Label Machine
  /-- The addition adds the carry flag, and additions set it. -/
  addsCarry : Bool
  /-- `setLocal` is a store, and not a load. -/
  storesLocals : Bool
  /-- Where `ret` goes. -/
  returnAddress : Machine → BitVec 64
  /-- What `ret` adds to the stack pointer. -/
  retPops : BitVec 64
  exec_enter (size : BitVec 32) (m : Machine) :
    isa.exec (enter size) m = .next (m.enter addsCarry size)
  exec_leave (size : BitVec 32) (m : Machine) :
    isa.exec (leave size) m = .next (m.leave addsCarry size)
  exec_store (offset : BitVec 32) (r : Gp) (m : Machine) :
    isa.exec (store offset r) m = .next (m.store offset r)
  exec_load (offset : BitVec 32) (r : Gp) (m : Machine) :
    isa.exec (load r offset) m = .next (m.load r offset)
  exec_const (r : Reg) (v : BitVec 32) (m : Machine) :
    isa.exec (const r v) m = .next (m.set (Reg.r32 r) (v.setWidth 64))
  exec_add (dst src : Reg) (m : Machine) :
    isa.exec (add dst src) m = .next (m.add addsCarry dst src)
  exec_setLocal (offset : BitVec 32) (r : Reg) (m : Machine) :
    isa.exec (setLocal offset r) m =
      .next (if storesLocals then m.store offset (Reg.r64 r) else m.load (Reg.r64 r) offset)
  exec_move (dst src : Gp) (m : Machine) : isa.exec (move dst src) m = .next (m.set dst (m.get src))
  exec_jump (l : Label) (m : Machine) : isa.exec (jump l) m = .jump l m
  exec_bind (l : Label) (m : Machine) : isa.exec (bind l) m = .next m
  exec_ret (m : Machine) :
    isa.exec ret m = .halt { m with ip := returnAddress m, sp := m.sp + retPops }
  binds_bind (l : Label) : isa.binds (bind l) = some l
  binds_other (size offset v : BitVec 32) (g g' : Gp) (r r' : Reg) (l : Label) :
    ∀ i ∈ [enter size, leave size, store offset g, load g offset, const r v, add r r',
      setLocal offset r, move g g', jump l, ret], isa.binds i = none
  gpRet_pool : callerSaved.test gpRet = true
  /-- The return address is in memory at the stack pointer or in a register that is never
  allocated. -/
  returnAddress_congr {m m' : Machine} (hsp : m.sp = m'.sp)
    (hmem : Memory.AgreeOn m.mem m'.mem m.sp 8)
    (hreg : ∀ r, callerSaved.test r = false → m.reg r = m'.reg r) :
    returnAddress m = returnAddress m'

end Wasmcc
