import Wasmcc.Compiler.Labels
import Wasmcc.Compiler.Shadow
import Wasmcc.Compiler.StackFit

/-!
# Clear runs are compiled correctly

`Simulates act sh w m` relates a machine state in the middle of a function to the shadow of the
execution: the registers of the window hold the operands, the slots hold what is known of them, and
memory outside the slots is as it was when the function was entered. `Simulates.step` is the step
lemma for one instruction of a clear run and `run_clear` the run lemma; the prologue establishes the
relation and the epilogue returns the result.

A local lies at `4 * i - StackSizeBytes()` from the stack pointer, below it. So its slot is twice
the size of the frame below the stack pointer at entry (`Activation.slot`).
-/

open Basis

namespace Wasmcc

open FunctionValidator

/-- A call of a function: the machine when it was entered, the number of locals, all of them `i32`,
and the size of the frame, which has room for them. -/
structure Activation where
  entry : Machine
  locals : ℕ
  size : BitVec 32
  size_lt : size.toNat < 2 ^ 31
  locals_le : 4 * locals ≤ size.toNat

namespace Activation

variable (act : Activation)

/-- The stack pointer after the prologue. -/
def sp : BitVec 64 := act.entry.sp - BitVec.ofNat 64 act.size.toNat

/-- The slot of local 0. -/
def base : BitVec 64 := act.sp - BitVec.ofNat 64 act.size.toNat

def slot (i : ℕ) : BitVec 64 := act.base + BitVec.ofNat 64 (4 * i)

variable {act}

theorem addr_slot {m : Machine} (hm : m.sp = act.sp) {i : ℕ} (hi : i < act.locals) :
    m.addr (BitVec.ofNat 32 (4 * i) - act.size) = act.slot i := by
  have h1 := act.size_lt
  have h2 := act.locals_le
  rw [Machine.addr, signExtend_ofNat_sub (by omega) h1, hm, slot, base]
  abel

/-- Four bytes in one slot and up to eight bytes in another, or right after it. -/
theorem slot_disjoint {i j n : ℕ} (hi : i < act.locals) (hj : j < act.locals)
    (h : i < j ∨ 4 * j + n ≤ 4 * i) (hn : n ≤ 8) :
    Memory.Disjoint (act.slot i) 4 (act.slot j) n := by
  have h1 := act.size_lt
  have h2 := act.locals_le
  exact Memory.disjoint_of_offsets act.base (by omega) (by omega) (by omega)

/-- The slots, and the four bytes after them that the last store can reach. -/
theorem slot_inRange {i n : ℕ} (hi : i < act.locals) (hn : n ≤ 8) {b : BitVec 64}
    (hb : Memory.InRange (act.slot i) n b) : Memory.InRange act.base (8 * act.locals) b := by
  have h1 := act.size_lt
  have h2 := act.locals_le
  have hb' : (b - act.slot i).toNat < n := hb
  have hsub : b - act.base = (b - act.slot i) + BitVec.ofNat 64 (4 * i) := by
    rw [slot]
    abel
  change (b - act.base).toNat < 8 * act.locals
  rw [hsub, BitVec.toNat_add, BitVec.toNat_ofNat]
  omega

/-- The return address is not among the slots. -/
theorem slots_disjoint_entry :
    Memory.Disjoint act.entry.sp 8 act.base (8 * act.locals) := by
  have h1 := act.size_lt
  have h2 := act.locals_le
  have hsp : act.entry.sp = act.base + BitVec.ofNat 64 (2 * act.size.toNat) := by
    rw [base, sp, Nat.two_mul, BitVec.ofNat_add]
    abel
  have h := Memory.disjoint_of_offsets act.base
    (show 2 * act.size.toNat + 8 ≤ 0 ∨ 0 + 8 * act.locals ≤ 2 * act.size.toNat by omega)
    (by omega) (by omega)
  rw [← hsp] at h
  simpa using h

end Activation

/-! ### The simulation relation -/

variable {ι : Type} {t : Target ι} {act : Activation}

/-- The machine is in the middle of the call, at a point where the shadow and the window are
these. -/
structure Simulates (t : Target ι) (act : Activation) (sh : Shadow) (w : Window) (m : Machine) :
    Prop where
  sp : m.sp = act.sp
  spilled : w.spilled = 0
  /-- Each register of the window holds its operand, with its upper half clear. -/
  regs : w.regs.map m.reg = sh.stack.map fun x => x.setWidth 64
  carry : t.addsCarry = true → m.carry = sh.carry
  slots_length : sh.slots.length = act.locals
  slots : ∀ i v, sh.slots[i]? = some (some v) → m.mem.read (act.slot i) 4 = v.toNat
  mem : ∀ b, ¬Memory.InRange act.base (8 * act.locals) b → m.mem b = act.entry.mem b
  /-- No register but those that are allocated is written. -/
  untouched : ∀ r, t.callerSaved.test r = false → m.reg r = act.entry.reg r

namespace Simulates

variable {sh : Shadow} {w w' : Window} {m m' : Machine} {r : Reg}

theorem depth (h : Simulates t act sh w m) : w.depth = sh.stack.length := by
  have := congrArg List.length h.regs
  rw [List.length_map, List.length_map] at this
  rw [Window.depth, h.spilled, this, Nat.add_zero]

/-- The relation only looks at the registers of the window and at those that are never allocated. -/
theorem of_regs (h : Simulates t act sh w m) (hsp : m'.sp = m.sp) (hmem : m'.mem = m.mem)
    (hcarry : m'.carry = m.carry) (hregs : ∀ q, q ∈ w.regs ∨ t.callerSaved.test q = false →
      m'.reg q = m.reg q) : Simulates t act sh w m' where
  sp := hsp.trans h.sp
  spilled := h.spilled
  regs := by
    rw [← h.regs]
    -- the values on the stack are in registers that stay
    exact List.map_congr_left fun q hq => hregs q (Or.inl hq)
  carry hc := hcarry.trans (h.carry hc)
  slots_length := h.slots_length
  slots i v hv := by rw [hmem]; exact h.slots i v hv
  mem b hb := by rw [hmem]; exact h.mem b hb
  untouched q hq := (hregs q (Or.inr hq)).trans (h.untouched q hq)

/-- A value in a register outside the window is pushed. -/
theorem push (h : Simulates t act sh w m) {x : BitVec 32} (hx : m.reg r = x.setWidth 64) :
    Simulates t act { sh with stack := x :: sh.stack } (w.push r) m where
  sp := h.sp
  spilled := h.spilled
  regs := by
    change m.reg r :: w.regs.map m.reg = _ :: _
    rw [hx, h.regs]
  carry := h.carry
  slots_length := h.slots_length
  slots := h.slots
  mem := h.mem
  untouched := h.untouched

/-- The top operand is popped. -/
theorem pop {x : BitVec 32} {xs : List (BitVec 32)} (h : Simulates t act sh (w.push r) m)
    (hs : sh.stack = x :: xs) :
    m.reg r = x.setWidth 64 ∧ Simulates t act { sh with stack := xs } w m := by
  have hregs : m.reg r :: w.regs.map m.reg = sh.stack.map fun x => x.setWidth 64 := h.regs
  rw [hs, List.map_cons] at hregs
  obtain ⟨h1, h2⟩ := List.cons.inj hregs
  exact ⟨h1, h.sp, h.spilled, h2, h.carry, h.slots_length, h.slots, h.mem, h.untouched⟩

/-- A register of the pool outside the window may change. -/
theorem set_reg (h : Simulates t act sh w m) (hr : r ∉ w.regs) (hp : t.callerSaved.test r = true)
    (hsp : m'.sp = m.sp) (hmem : m'.mem = m.mem) (hcarry : m'.carry = m.carry)
    (hregs : ∀ q, q ≠ r → m'.reg q = m.reg q) : Simulates t act sh w m' := by
  refine h.of_regs hsp hmem hcarry fun q hq => hregs q ?_
  rintro rfl
  rcases hq with hq | hq
  · exact hr hq
  · rw [hp] at hq
    cases hq

/-- A store of the register `r` to the slot of local `idx`, and what is known of the slots after. -/
theorem store (h : Simulates t act sh w m) {idx : ℕ} (hidx : idx < act.locals) {x : BitVec 32}
    (hx : m.reg r = x.setWidth 64) :
    Simulates t act { sh with slots := (sh.slots.set idx (some x)).set (idx + 1) (some 0) } w
      (m.store (BitVec.ofNat 32 (4 * idx) - act.size) (Reg.r64 r)) where
  sp := h.sp
  spilled := h.spilled
  regs := h.regs
  carry := h.carry
  slots_length := by
    change ((sh.slots.set idx (some x)).set (idx + 1) (some 0)).length = _
    rw [List.length_set, List.length_set, h.slots_length]
  slots := by
    intro j v hj
    have haddr := Activation.addr_slot h.sp hidx
    change Memory.read (Memory.write m.mem (m.addr _) 8 (m.reg r).toNat) (act.slot j) 4 = v.toNat
    rw [haddr, hx]
    -- the register has the value in its lower half
    have hxn : (x.setWidth 64).toNat = x.toNat := by
      rw [BitVec.toNat_setWidth]
      omega
    have hjlt : j < act.locals := by
      have := (List.getElem?_eq_some_iff.mp hj).1
      simpa [h.slots_length] using this
    by_cases hj1 : j = idx + 1
    · -- the upper half of the register
      subst hj1
      rw [List.getElem?_set_self (by simpa [h.slots_length] using hjlt)] at hj
      obtain rfl := Option.some.inj (Option.some.inj hj)
      have hslot : act.slot (idx + 1) = act.slot idx + BitVec.ofNat 64 4 := by
        rw [Activation.slot, Activation.slot, Nat.mul_add, BitVec.ofNat_add]
        abel
      rw [hslot, Memory.read_write_slice _ _ _ (by norm_num) (by norm_num), hxn,
        Nat.div_eq_of_lt (by have := x.isLt; omega)]
      rfl
    · rw [List.getElem?_set_ne (by omega)] at hj
      by_cases hj0 : j = idx
      -- the lower half
      · subst hj0
        rw [List.getElem?_set_self (by rw [h.slots_length]; exact hidx)] at hj
        obtain rfl := Option.some.inj (Option.some.inj hj)
        rw [Memory.read_write_first _ _ _ (by norm_num) (by norm_num), hxn, Nat.mod_eq_of_lt]
        have := x.isLt
        omega
      · rw [List.getElem?_set_ne (by omega)] at hj
        -- the other slots are not written
        rw [Memory.read_write_of_disjoint _ _ (by norm_num)
          (Activation.slot_disjoint hjlt hidx (by omega) le_rfl)]
        exact h.slots j v hj
  mem := by
    intro b hb
    have haddr := Activation.addr_slot h.sp hidx
    change Memory.write m.mem (m.addr _) 8 (m.reg r).toNat b = _
    rw [haddr, Memory.write_of_not_inRange _ _ fun hin => hb
      (Activation.slot_inRange hidx (by norm_num) hin)]
    exact h.mem b hb
  untouched := h.untouched

/-- The locals of the activation are where the frame puts them. -/
def LaidOut (act : Activation) (frame : FunctionFrame) : Prop :=
  ∀ idx offset, frame.localStackOffset idx = .ok offset →
    idx < act.locals ∧ offset = BitVec.ofNat 32 (4 * idx) - act.size

variable {frame : FunctionFrame} {exitLabel : Label}

/-- The operands on the stack are as many as the window has registers. -/
theorem stack_cons (h : Simulates t act sh (w.push r) m) : ∃ x xs, sh.stack = x :: xs :=
  List.exists_cons_of_length_pos (by
    rw [← h.depth, Window.push_depth]
    exact Nat.succ_pos _)

/-- **A constant**: the load before it is of a slot that was never written, but the constant
overwrites what it loads. -/
theorem const (h : Simulates t act sh w m) (hr : r ∉ w.regs) (hp : t.callerSaved.test r = true)
    (value : Value) (offset : BitVec 32) :
    ∃ m', t.isa.execBlock [t.load (Reg.r32 r) offset, t.const r value.asI32] m = some m' ∧
      Simulates t act (sh.after t.arch (.constI32 value)) (w.push r) m' := by
  set m₁ := m.load (Reg.r32 r) offset with hm₁
  refine ⟨m₁.set (Reg.r32 r) (value.asI32.setWidth 64), ?_, ?_⟩
  · rw [Isa.execBlock_cons (t.exec_load _ _ _), Isa.execBlock_cons (t.exec_const _ _ _),
      Isa.execBlock_nil]
  · -- neither the load nor the constant touches more than the register
    refine Simulates.push (h.set_reg hr hp ?_ ?_ ?_ fun q hq => ?_) ?_
    · rw [Machine.set_sp, hm₁, Machine.load_sp]
    · rw [Machine.set_mem, hm₁, Machine.load_mem]
    · rw [Machine.set_carry, hm₁, Machine.load_carry]
    · rw [Machine.set_reg_of_ne _ _ _ hq]
      exact m.load_reg_of_ne _ _ hq
    · rw [Machine.set_r32]
      simp

/-- **An addition** of the two topmost operands, the carry flag being clear. -/
theorem add {x1 x2 : Reg} (h : Simulates t act sh ((w.push x1).push x2) m)
    (hw : ((w.push x1).push x2).Valid t.callerSaved)
    (hclear : t.addsCarry = true → sh.carry = false) :
    Simulates t act (sh.after t.arch .addI32) (w.push x1) (m.add t.addsCarry x1 x2) := by
  obtain ⟨y, ys, hs⟩ := h.stack_cons
  obtain ⟨hy, hy'⟩ := h.pop hs
  obtain ⟨x, rest, hys⟩ := hy'.stack_cons
  obtain rfl : ys = x :: rest := hys
  obtain ⟨hx, hx'⟩ := hy'.pop rfl
  obtain ⟨hx1, -⟩ := hw.below.2.below
  have hp : t.callerSaved.test x1 = true := hw.below.2.pool x1 List.mem_cons_self
  have hlo : ∀ {q : Reg} {z : BitVec 32}, m.reg q = z.setWidth 64 → m.lo q = z := by
    intro q z hq
    rw [Machine.lo, hq]
    simp
  -- on x64 the carry flag is added as well
  have hcarry : (t.addsCarry && m.carry) = false := by
    cases hc : t.addsCarry with
    | false => rfl
    | true =>
      rw [h.carry hc, hclear hc]
      rfl
  have hsum : m.sum t.addsCarry x1 x2 = x.toNat + y.toNat := by
    rw [Machine.sum, hlo hx, hlo hy, hcarry]
    rfl
  have hregs : ∀ q, q ≠ x1 → (m.add t.addsCarry x1 x2).reg q = m.reg q := fun q hq =>
    m.add_reg_of_ne _ _ _ hq
  have hnew : (m.add t.addsCarry x1 x2).reg x1 = (x + y).setWidth 64 := by
    rw [Machine.add_reg, hsum, BitVec.ofNat_add, BitVec.ofNat_toNat, BitVec.ofNat_toNat,
      BitVec.setWidth_eq, BitVec.setWidth_eq]
  have hafter : sh.after t.arch .addI32 = { sh with
      stack := (x + y) :: rest
      carry := if t.addsCarry then decide (2 ^ 32 ≤ x.toNat + y.toNat) else sh.carry } := by
    rw [Shadow.after, hs]
    rfl
  have hrest : Simulates t act { sh with
      stack := rest
      carry := if t.addsCarry then decide (2 ^ 32 ≤ x.toNat + y.toNat) else sh.carry } w
      (m.add t.addsCarry x1 x2) := by
    refine ⟨?_, h.spilled, ?_, ?_, h.slots_length, ?_, ?_, ?_⟩
    · rw [Machine.add_sp, h.sp]
    · rw [← hx'.regs]
      exact List.map_congr_left fun q hq => hregs q fun he => hx1 (he ▸ hq)
    · intro hc
      rw [Machine.add, hsum]
      simp only [hc, if_true]
    · intro j v hj
      rw [Machine.add_mem]
      exact h.slots j v hj
    · intro b hb
      rw [Machine.add_mem]
      exact h.mem b hb
    · intro q hq
      refine (hregs q ?_).trans (h.untouched q hq)
      rintro rfl
      rw [hp] at hq
      cases hq
  rw [hafter]
  exact hrest.push hnew

/-- **A local is read** from a slot that is known to hold it. -/
theorem get (h : Simulates t act sh w m) (hr : r ∉ w.regs) (hp : t.callerSaved.test r = true)
    {idx : ℕ} (hidx : idx < act.locals)
    (hslot : sh.slots[idx]? = some (some (sh.locals.getD idx 0))) :
    Simulates t act (sh.after t.arch (.getLocalI32 idx)) (w.push r)
      (m.load (Reg.r32 r) (BitVec.ofNat 32 (4 * idx) - act.size)) := by
  refine Simulates.push (h.set_reg hr hp (m.load_sp _ _) (m.load_mem _ _) (m.load_carry _ _)
    fun q hq => m.load_reg_of_ne _ _ hq) ?_
  rw [Machine.load_r32, Machine.read, Activation.addr_slot h.sp hidx, h.slots idx _ hslot,
    BitVec.ofNat_toNat, BitVec.setWidth_eq]

/-- **A local is set**: by a store of the whole register or, on AArch64, not at all. -/
theorem set (h : Simulates t act sh (w.push r) m) (hw : (w.push r).Valid t.callerSaved) {idx : ℕ}
    (hidx : idx < act.locals) :
    ∃ m', t.isa.exec (t.setLocal (BitVec.ofNat 32 (4 * idx) - act.size) r) m = .next m' ∧
      Simulates t act (sh.after t.arch (.setLocalI32 idx)) w m' := by
  obtain ⟨x, xs, hs⟩ := h.stack_cons
  obtain ⟨hx, hx'⟩ := h.pop hs
  refine ⟨_, t.exec_setLocal _ _ _, ?_⟩
  have hslots (slots : List (Option (BitVec 32))) {m' : Machine}
      (this : Simulates t act { sh with stack := xs, slots } w m') :
      Simulates t act { sh with stack := xs, locals := sh.locals.set idx x, slots } w m' :=
    ⟨this.sp, this.spilled, this.regs, this.carry, this.slots_length, this.slots, this.mem,
      this.untouched⟩
  rw [Shadow.after, hs]
  -- x64 loads from the slot instead
  cases hst : t.storesLocals with
  | true =>
    have harch : t.arch.storesLocals = true := hst
    simp only [harch, if_true]
    exact hslots _ (hx'.store hidx hx)
  | false =>
    have harch : t.arch.storesLocals = false := hst
    simp only [harch, Bool.false_eq_true, if_false]
    exact hslots _ (hx'.set_reg hw.below.1 (hw.pool r List.mem_cons_self) (m.load_sp _ _)
      (m.load_mem _ _) (m.load_carry _ _) fun q hq => m.load_reg_of_ne _ _ hq)

/-- **One instruction of a clear run.** -/
theorem step {capacity : ℕ} {i : Instruction} {code : List ι} (h : Simulates t act sh w m)
    (hw : w.Valid t.callerSaved) (hframe : LaidOut act frame) (hi : i ≠ .return_)
    (hv : t.Visit frame exitLabel w i w' code) (hclear : sh.Clear t.arch capacity i) :
    ∃ m', t.isa.execBlock code m = some m' ∧ Simulates t act (sh.after t.arch i) w' m' ∧
      w'.Valid t.callerSaved := by
  -- while nothing is spilled, all elements are in registers, and one is left
  have hroom (hlt : sh.stack.length < min t.arch.registers capacity) :
      w.depth < t.callerSaved.toList.length := by
    rw [h.depth]
    exact lt_of_lt_of_le hlt (min_le_left _ _)
  cases hv with
  | @const w' r code value hr =>
    obtain ⟨hnot, hp, rfl, rfl⟩ := hr.of_room (hroom hclear)
    obtain ⟨m', he, h'⟩ := h.const hnot hp value (BitVec.ofNat 32 (4 * (w.depth + 1)))
    exact ⟨m', he, h', hw.push hnot hp⟩
  | @add w₁ w₂ x1 x2 code2 code1 h2 h1 =>
    obtain ⟨rfl, rfl⟩ := h2.of_spilled h.spilled
    obtain ⟨rfl, rfl⟩ := h1.of_spilled h.spilled
    exact ⟨_, Isa.execBlock_cons (t.exec_add x1 x2 m) [], h.add hw hclear, hw.below.2⟩
  | @get w' r code idx offset hr ho =>
    obtain ⟨hlt, hslot⟩ : sh.stack.length < min t.arch.registers capacity ∧
      sh.slots[idx]? = some (some (sh.locals.getD idx 0)) := hclear
    obtain ⟨hnot, hp, rfl, rfl⟩ := hr.of_room (hroom hlt)
    obtain ⟨hidx, rfl⟩ := hframe idx offset ho
    exact ⟨_, Isa.execBlock_cons (t.exec_load _ _ m) [], h.get hnot hp hidx hslot,
      hw.push hnot hp⟩
  | @set w' r code idx offset hr ho =>
    obtain ⟨rfl, rfl⟩ := hr.of_spilled h.spilled
    obtain ⟨hidx, rfl⟩ := hframe idx offset ho
    obtain ⟨m', he, h'⟩ := h.set hw hidx
    exact ⟨m', Isa.execBlock_cons he [], h', hw.below.2⟩
  | return_ => exact absurd rfl hi

end Simulates

/-! ### Runs -/

/-- What the code of a clear run does up to the exit: it is `live ++ rest`, and after `live` either
nothing is left, or a jump to the exit label over the code of the dead instructions. -/
structure Exits (t : Target ι) (act : Activation) (frame : FunctionFrame) (exitLabel : Label)
    (capacity results : ℕ) (sh : Shadow) (m : Machine) (w' : Window) (code : List ι)
    (sh' : Shadow) (w₁ : Window) (m' : Machine) (live rest : List ι) : Prop where
  code_eq : code = live ++ rest
  run : t.isa.execBlock live m = some m'
  simulates : Simulates t act sh' w₁ m'
  valid : w₁.Valid t.callerSaved
  rest_eq : rest = [] ∧ w' = w₁ ∨ ∃ dead deadCode, rest = t.jump exitLabel :: deadCode ∧
    t.Visits frame exitLabel w₁ dead w' deadCode ∧
    DeadClear t.arch capacity results sh'.stack.length dead

/-- **A clear run of a body**: its code simulates the stack machine up to the exit. -/
theorem run_clear {frame : FunctionFrame} {exitLabel : Label} {capacity results : ℕ}
    (hframe : Simulates.LaidOut act frame) {body : List Instruction} (hcore : CoreBody body) :
    ∀ {sh : Shadow} {w w' : Window} {m : Machine} {v v₁ v₂ : FunctionValidator} {code : List ι},
      Simulates t act sh w m → w.Valid t.callerSaved → Models v sh.machine →
      v.visitAll body = .ok v₁ → v₁.finalize = .ok v₂ →
      ClearFrom t.arch capacity results sh body → t.Visits frame exitLabel w body w' code →
      ∃ sh' w₁ m' live rest,
        Exits t act frame exitLabel capacity results sh m w' code sh' w₁ m' live rest ∧
        sh.machine.run body = .ok sh'.machine ∧ sh'.stack.length = v.returns.length := by
  have hlen : ∀ sh : Shadow, sh.machine.stack.length = sh.stack.length := fun sh =>
    List.length_map _
  induction body with
  | nil =>
    intro sh w w' m v v₁ v₂ code h hw hm hv hf hclear hvs
    cases hvs
    obtain rfl := Except.ok.inj hv
    exact ⟨sh, w, m, [], [], ⟨rfl, rfl, h, hw, Or.inl ⟨rfl, rfl⟩⟩, rfl,
      (hlen sh).symm.trans (hm.reachable.finalize hf)⟩
  | cons i is ih =>
    intro sh w w' m v v₁ v₂ code h hw hm hv hf hclear hvs
    obtain ⟨v', h1, h2⟩ := bind_eq_ok.mp hv
    cases hvs with
    | @cons _ w₁ _ _ _ code rest hi his =>
    by_cases hr : i = .return_
    · subst hr
      cases hi
      -- a `Return` leaves the rest of the body dead
      exact ⟨sh, w, m, [], _, ⟨rfl, rfl, h, hw, Or.inr ⟨is, rest, rfl, his, hclear⟩⟩, rfl,
        (hlen sh).symm.trans (hm.reachable.visit_return h1)⟩
    · obtain ⟨hci, hcs⟩ := (clearFrom_cons hr is).mp hclear
      obtain ⟨m₁, he, h₁, hw₁⟩ := h.step hw hframe hr hi hci
      -- the validated body does not get stuck either
      obtain ⟨sm, hstep, hm'⟩ := hm.step hcore.head hr h1
      obtain rfl := Shadow.machine_after t.arch hcore.head hstep
      obtain ⟨sh', w₂, m', live, tail, hx, hrun, hl⟩ := ih hcore.tail h₁ hw₁ hm' h2 hf hcs his
      refine ⟨sh', w₂, m', code ++ live, tail, ⟨?_, ?_, hx.simulates, hx.valid, hx.rest_eq⟩,
        (sh.machine.run_cons hr hstep is).trans hrun, hl.trans ?_⟩
      · rw [hx.code_eq, List.append_assoc]
      · rw [Isa.execBlock_append he, hx.run]
      · rw [(visit_signature h1).2]

/-! ### Dead code -/

/-- **An instruction that fits above the result** leaves it in its register. -/
theorem visit_keeps {frame : FunctionFrame} {exitLabel : Label} {room : ℕ}
    (hroom : room ≤ t.callerSaved.toList.length) {w w' : Window} {i : Instruction} {code : List ι}
    {r : Reg} (hv : t.Visit frame exitLabel w i w' code) (h0 : w.spilled = 0)
    (hr : w.regs.getLast? = some r) (hfit : i.FitsAbove room w.depth) :
    w'.spilled = 0 ∧ w'.regs.getLast? = some r := by
  -- the bottom register stays under a push, and under a pop that leaves a value
  have hpush {w : Window} (q : Reg) (hw : w.regs.getLast? = some r) :
      (w.push q).regs.getLast? = some r := by
    rw [Window.push, List.getLast?_cons, hw]
    rfl
  have hpop {w : Window} {q : Reg} (hd : 2 ≤ (w.push q).depth) (h0 : w.spilled = 0)
      (hw : (w.push q).regs.getLast? = some r) : w.regs.getLast? = some r := by
    rw [Window.push_depth, Window.depth, h0] at hd
    obtain ⟨x, xs, hx⟩ := List.exists_cons_of_length_pos (show 0 < w.regs.length by omega)
    rw [Window.push, hx] at hw
    rw [hx, ← hw]
    exact List.getLast?_cons_cons.symm
  cases hv with
  | const value ha =>
    obtain ⟨-, -, rfl, -⟩ := ha.of_room (lt_of_lt_of_le hfit hroom)
    exact ⟨h0, hpush _ hr⟩
  | add h2 h1 =>
    obtain ⟨rfl, -⟩ := h2.of_spilled h0
    obtain ⟨rfl, -⟩ := h1.of_spilled h0
    exact ⟨h0, hpop hfit h0 hr⟩
  | get ha ho =>
    obtain ⟨-, -, rfl, -⟩ := ha.of_room (lt_of_lt_of_le hfit hroom)
    exact ⟨h0, hpush _ hr⟩
  | set hp ho =>
    obtain ⟨rfl, -⟩ := hp.of_spilled h0
    exact ⟨h0, hpop hfit h0 hr⟩
  | return_ => exact ⟨h0, hr⟩

/-- **Dead code that keeps the result** ends with the result alone, in its register. -/
theorem visits_keeps {frame : FunctionFrame} {exitLabel : Label} {room : ℕ}
    (hroom : room ≤ t.callerSaved.toList.length) {dead : List Instruction} {r : Reg} :
    ∀ {w w' : Window} {code : List ι}, t.Visits frame exitLabel w dead w' code →
      w.spilled = 0 → w.regs.getLast? = some r → Instruction.KeepsResult room w.depth dead →
      w' = ⟨[r], 0⟩ := by
  induction dead with
  | nil =>
    intro w w' code hv h0 hr hk
    cases hv
    obtain ⟨regs, k⟩ := w
    have h0' : k = 0 := h0
    subst h0'
    -- one element is left at the end, and it is the lowest
    obtain ⟨q, hq⟩ := List.length_eq_one_iff.mp (show regs.length = 1 from hk)
    subst hq
    obtain rfl := Option.some.inj hr
    rfl
  | cons i is ih =>
    intro w w' code hv h0 hr hk
    cases hv with
    | @cons _ w₁ _ _ _ code rest hi his =>
    obtain ⟨h1, hr1⟩ := visit_keeps hroom hi h0 hr hk.1
    refine ih his h1 hr1 ?_
    rw [hi.depth]
    exact hk.2

/-! ### Entering and leaving -/

/-- The arguments are in their registers, and the frame fits above address 0. -/
structure Enters (t : Target ι) (act : Activation) (args : List (BitVec 32)) : Prop where
  args (i : ℕ) (r : Reg) (x : BitVec 32) :
    t.gpArgs[i]? = some r → args[i]? = some x → act.entry.lo r = x
  room : act.size.toNat ≤ act.entry.sp.toNat

/-- The state after the first `i` parameters were saved. -/
structure Saved (t : Target ι) (act : Activation) (args : List (BitVec 32)) (i : ℕ) (m : Machine) :
    Prop where
  sp : m.sp = act.sp
  reg : m.reg = act.entry.reg
  carry : t.addsCarry = true → m.carry = false
  slots : ∀ j < i, ∀ x, args[j]? = some x → m.mem.read (act.slot j) 4 = x.toNat
  mem : ∀ b, ¬Memory.InRange act.base (8 * act.locals) b → m.mem b = act.entry.mem b

theorem Enters.saved {args : List (BitVec 32)} (h : Enters t act args) :
    Saved t act args 0 (act.entry.enter t.addsCarry act.size) where
  sp := by
    change act.entry.sp - _ = _
    rw [signExtend_of_lt act.size_lt]
    rfl
  reg := rfl
  carry hc := by
    change (if t.addsCarry then act.entry.sp.ult (act.size.signExtend 64) else _) = false
    have h1 := act.size_lt
    have h2 := h.room
    -- the stack has room for the frame, so subtracting its size does not borrow
    rw [hc, if_pos rfl, signExtend_of_lt act.size_lt, BitVec.ult, decide_eq_false_iff_not,
      BitVec.toNat_ofNat]
    omega
  slots j hj := absurd hj (Nat.not_lt_zero j)
  mem b _ := rfl

/-- **One parameter** is saved. -/
theorem Saved.store {args : List (BitVec 32)} (henter : Enters t act args) {i : ℕ} {m : Machine}
    (h : Saved t act args i m) (hidx : i < act.locals) {reg : Reg} {x : BitVec 32}
    (hr : t.gpArgs[i]? = some reg) (hx : args[i]? = some x) :
    Saved t act args (i + 1)
      (m.store (BitVec.ofNat 32 (4 * i) - act.size) (Reg.r32 reg)) where
  sp := h.sp
  reg := h.reg
  carry := h.carry
  slots := by
    intro j hj y hy
    have hval : (m.reg reg).toNat % 256 ^ 4 = x.toNat := by
      have := congrArg BitVec.toNat (henter.args i reg x hr hx)
      rw [Machine.lo, BitVec.toNat_setWidth] at this
      rw [h.reg]
      exact this
    change Memory.read (Memory.write m.mem (m.addr _) 4 (m.reg reg).toNat) (act.slot j) 4 = _
    rw [Activation.addr_slot h.sp hidx]
    -- the slot just written, or an earlier one
    by_cases hji : j = i
    · subst hji
      obtain rfl := Option.some.inj (hx.symm.trans hy)
      rw [Memory.read_write_first _ _ _ le_rfl (by norm_num), hval]
    · rw [Memory.read_write_of_disjoint _ _ (by norm_num)
        (Activation.slot_disjoint (by omega) hidx (by omega) (by norm_num))]
      exact h.slots j (by omega) y hy
  mem := by
    intro b hb
    change Memory.write m.mem (m.addr _) 4 (m.reg reg).toNat b = _
    rw [Activation.addr_slot h.sp hidx, Memory.write_of_not_inRange _ _ fun hin => hb
      (Activation.slot_inRange hidx (by norm_num) hin)]
    exact h.mem b hb

/-- **The loop over the parameters.** -/
theorem saves_run {frame : FunctionFrame} {args : List (BitVec 32)} (henter : Enters t act args)
    (hframe : Simulates.LaidOut act frame) {vts : List ValType} :
    ∀ {i : ℕ} {code : List ι} {m : Machine}, t.Saves frame i vts code →
      (∀ vt ∈ vts, vt = .i32) → Saved t act args i m → i + vts.length = args.length →
      ∃ m', t.isa.execBlock code m = some m' ∧ Saved t act args args.length m' := by
  induction vts with
  | nil =>
    intro i code m hs _ hm hlen
    cases hs
    obtain rfl : i = args.length := hlen
    exact ⟨m, rfl, hm⟩
  | cons vt vts ih =>
    intro i code m hs hi32 hm hlen
    cases hs with
    | @cons _ _ _ reg offset code hr ho hs =>
    rw [List.length_cons] at hlen
    obtain rfl := hi32 vt List.mem_cons_self
    obtain ⟨hidx, rfl⟩ := hframe i offset ho
    -- the parameter has been passed
    obtain ⟨x, hx⟩ : ∃ x, args[i]? = some x := ⟨_, List.getElem?_eq_getElem (by omega)⟩
    obtain ⟨m', he, hm'⟩ := ih hs (fun vt hvt => hi32 vt (List.mem_cons_of_mem _ hvt))
      (hm.store henter hidx hr hx) (by omega)
    exact ⟨m', by rw [Reg.cast_i32, Isa.execBlock_cons (t.exec_store _ _ _), he], hm'⟩

/-- **After the prologue** the arguments are in their slots. -/
theorem Saved.simulates {args : List (BitVec 32)} {m : Machine} {n : ℕ}
    (h : Saved t act args args.length m) (hn : args.length + n = act.locals) :
    Simulates t act (Shadow.start args n) ⟨[], 0⟩ m where
  sp := h.sp
  spilled := rfl
  regs := rfl
  carry := h.carry
  slots_length := by simpa [Shadow.start] using hn
  slots := by
    intro i v hi
    change (args.map some ++ List.replicate n none)[i]? = _ at hi
    -- the slots of the declared locals are not known
    by_cases hlt : i < args.length
    · rw [List.getElem?_append_left (by simpa using hlt), List.getElem?_map,
        Option.map_eq_some_iff] at hi
      obtain ⟨x, hx, hxv⟩ := hi
      obtain rfl := Option.some.inj hxv
      exact h.slots i hlt x hx
    · rw [List.getElem?_append_right (by simpa using hlt), List.getElem?_replicate] at hi
      split at hi
      · cases hi
      · cases hi
  mem := h.mem
  untouched _ _ := by rw [h.reg]

/-- **The result** is moved to where it is returned. -/
theorem moves_run {sh : Shadow} {w : Window} {m : Machine} {results : List ValType}
    {last : List ι} (h : Simulates t act sh w m) (hres : ∀ vt ∈ results, vt = .i32)
    (hm : t.MovesResult w results last) :
    ∃ m', t.isa.execBlock last m = some m' ∧ m'.sp = m.sp ∧ m'.mem = m.mem ∧
      (∀ r, t.callerSaved.test r = false → m'.reg r = m.reg r) ∧
      (results ≠ [] → ∃ x xs, sh.stack = x :: xs ∧ m'.lo t.gpRet = x) := by
  cases hm with
  | nil => exact ⟨m, rfl, rfl, rfl, fun _ _ => rfl, fun hne => absurd rfl hne⟩
  | @cons vt vts r w' code hr =>
    obtain rfl := hres vt List.mem_cons_self
    obtain ⟨rfl, rfl⟩ := hr.of_spilled h.spilled
    obtain ⟨x, xs, hs⟩ := h.stack_cons
    obtain ⟨hx, -⟩ := h.pop hs
    have hlo : m.lo r = x := by
      rw [Machine.lo, hx]
      simp
    -- the result may be in its register already
    by_cases he : Reg.r32 r = t.gpRet.cast .i32
    · have hrr : r = t.gpRet := congrArg Gp.id he
      refine ⟨m, ?_, rfl, rfl, fun _ _ => rfl, fun _ => ⟨x, xs, hs, hrr ▸ hlo⟩⟩
      rw [if_pos he]
      rfl
    · refine ⟨m.set (Reg.r32 t.gpRet) (m.get (Reg.r32 r)), ?_, m.set_sp _ _, m.set_mem _ _,
        fun q hq => m.set_reg_of_ne _ _ ?_, fun _ => ⟨x, xs, hs, ?_⟩⟩
      · rw [if_neg he, List.nil_append, Reg.cast_i32, Isa.execBlock_cons (t.exec_move _ _ _),
          Isa.execBlock_nil]
      · rintro rfl
        rw [show (Reg.r32 t.gpRet).id = t.gpRet from rfl, t.gpRet_pool] at hq
        cases hq
      · rw [Machine.lo, Machine.set_r32]
        change ((((m.lo r).setWidth 64).setWidth 32).setWidth 64).setWidth 32 = x
        rw [hlo]
        simp

/-! ### Whole functions -/

/-- Parameters, declared locals and the optional result are all `i32`. -/
structure Function.IsI32 (f : Function) : Prop where
  parameters : ∀ vt ∈ f.meta_.signature.parameterTypes, vt = .i32
  locals : ∀ vt ∈ f.meta_.locals, vt = .i32
  results : ∀ vt ∈ f.meta_.signature.resultTypes, vt = .i32
  oneResult : f.meta_.signature.resultTypes.length ≤ 1

/-- The locals and the operands take less than `2 ^ 31` bytes, so that offsets do not wrap. -/
def Function.FrameFits (f : Function) : Prop :=
  4 * f.meta_.localTypes.length + f.meta_.maxStackSizeBytes.toNat + 15 < 2 ^ 31

theorem sizeOfTypes_i32 {ts : List ValType} (h : ∀ vt ∈ ts, vt = .i32) :
    sizeOfTypes ts = 4 * ts.length := by
  rw [List.eq_replicate_of_mem h, sizeOfTypes, List.map_replicate, List.sum_replicate,
    List.length_replicate]
  exact Nat.mul_comm _ _

theorem Function.IsI32.localTypes {f : Function} (h : f.IsI32) :
    ∀ vt ∈ f.meta_.localTypes, vt = .i32 := by
  intro vt hvt
  rcases List.mem_append.mp hvt with hvt | hvt
  · exact h.parameters vt hvt
  · exact h.locals vt hvt

/-- The call of `f` in state `entry`. -/
def Function.activation (f : Function) (hi32 : f.IsI32) (hframe : f.FrameFits) (entry : Machine) :
    Activation :=
  have hsize : (FunctionFrame.new f.meta_).stackSizeBytes.toNat =
      (4 * f.meta_.localTypes.length + f.meta_.maxStackSizeBytes.toNat + 15) / 16 * 16 := by
    rw [FunctionFrame.new_stackSizeBytes, sizeOfTypes_i32 hi32.localTypes]
    exact FunctionFrame.sizeBytes_toNat (lt_trans hframe (by norm_num))
  { entry
    locals := f.meta_.localTypes.length
    size := (FunctionFrame.new f.meta_).stackSizeBytes
    size_lt := by
      rw [hsize]
      have : 4 * f.meta_.localTypes.length + f.meta_.maxStackSizeBytes.toNat + 15 < 2 ^ 31 := hframe
      omega
    locals_le := by
      rw [hsize]
      omega }

theorem Function.activation_laidOut {f : Function} (hi32 : f.IsI32) (hframe : f.FrameFits)
    (entry : Machine) : Simulates.LaidOut (f.activation hi32 hframe entry) (.new f.meta_) := by
  intro idx offset ho
  by_cases hidx : idx < f.meta_.localTypes.length
  · -- every local before it takes four bytes
    refine ⟨hidx, ?_⟩
    rw [FunctionFrame.localStackOffset_new f.meta_ hidx,
      sizeOfTypes_i32 fun vt hvt => hi32.localTypes vt (List.mem_of_mem_take hvt),
      List.length_take, min_eq_left (le_of_lt hidx)] at ho
    exact (Except.ok.inj ho).symm
  · rw [FunctionFrame.localStackOffset, List.getElem?_eq_none (by
      rw [FunctionFrame.new_localsStackOffset_length]
      omega)] at ho
    cases ho

/-- **A clear run fits the compile-time stack**: its pushes do because it is clear, and its pops do
because the body is validated. -/
theorem fitsAll_of_clear {arch : Arch} {capacity : ℕ} {body : List Instruction}
    (hcore : CoreBody body) : ∀ {sh : Shadow} {v v₁ v₂ : FunctionValidator},
      v.Reachable sh.stack.length → v.visitAll body = .ok v₁ → v₁.finalize = .ok v₂ →
      ClearFrom arch capacity v.returns.length sh body →
      Instruction.FitsAll capacity (poppedResults v.returns) sh.stack.length body := by
  induction body with
  | nil =>
    intro sh v v₁ v₂ hr hv hf _
    obtain rfl := Except.ok.inj hv
    change _ ≤ _
    rw [hr.finalize hf]
    exact min_le_right _ _
  | cons i is ih =>
    intro sh v v₁ v₂ hr hv hf hclear
    obtain ⟨v', h1, h2⟩ := bind_eq_ok.mp hv
    by_cases hi : i = .return_
    · subst hi
      refine ⟨trivial, ?_⟩
      -- dead code keeps the result, if there is one
      have hdead : DeadClear arch capacity v.returns.length sh.stack.length is := hclear
      by_cases h0 : v.returns.length = 0
      · rw [DeadClear, if_pos h0] at hdead
        rwa [poppedResults, h0]
      · rw [DeadClear, if_neg h0] at hdead
        rw [poppedResults, min_eq_left (by omega)]
        exact hdead.fitsAll (min_le_right _ _)
    · obtain ⟨hci, hcs⟩ := (clearFrom_cons hi is).mp hclear
      obtain ⟨hfit, hr'⟩ := hr.visit_fits hi hcore.head h1
      have hlen := Shadow.length_stack_after arch hfit
      rw [← hlen] at hr'
      have hsig := (visit_signature h1).2
      refine ⟨hci.fits hfit, ?_⟩
      rw [← hlen, ← hsig]
      exact ih hcore.tail hr' h2 hf (by rwa [hsig])

/-- The result is where the epilogue looks for it, dead code or not. -/
theorem Exits.movesResult {frame : FunctionFrame} {exitLabel : Label} {capacity : ℕ}
    {sh sh' : Shadow} {m m' : Machine} {w w₁ : Window} {code live rest last : List ι}
    {results : List ValType}
    (h : Exits t act frame exitLabel capacity results.length sh m w code sh' w₁ m' live rest)
    (hlen : sh'.stack.length = results.length) (hone : results.length ≤ 1)
    (hm : t.MovesResult w results last) : t.MovesResult w₁ results last := by
  rcases h.rest_eq with ⟨-, rfl⟩ | ⟨dead, deadCode, -, hvisits, hdead⟩
  · exact hm
  -- the epilogue is emitted for the window at the end of the dead code
  · cases results with
    | nil =>
      cases hm
      exact .nil
    | cons vt vts =>
      rw [List.length_cons] at hone
      obtain rfl : vts = [] := List.eq_nil_of_length_eq_zero (by omega)
      rw [DeadClear, if_neg (by simp), hlen] at hdead
      have hdepth : w₁.depth = 1 := h.simulates.depth.trans hlen
      have h0 := h.simulates.spilled
      obtain ⟨regs, k⟩ := w₁
      obtain rfl : k = 0 := h0
      obtain ⟨r, rfl⟩ := List.length_eq_one_iff.mp (show regs.length = 1 from hdepth)
      obtain rfl := visits_keeps (min_le_left _ _) hvisits rfl rfl (by rw [hdepth]; exact hdead)
      exact hm

/-- At the start the shadow stands for the stack machine. -/
theorem Shadow.machine_start {f : Function} (hi32 : f.IsI32) (args : List (BitVec 32)) :
    (Shadow.start args f.meta_.locals.length).machine =
      StackMachine.start (args.map .i32) f.meta_.locals := by
  rw [Shadow.machine, Shadow.start, StackMachine.start, List.eq_replicate_of_mem hi32.locals]
  simp [WasmValue.zero]

theorem Shadow.models_start {f : Function} (hi32 : f.IsI32) {args : List (BitVec 32)}
    (hargs : args.length = f.meta_.signature.parameterTypes.length) :
    Models (FunctionValidator.new f.meta_.signature f.meta_.locals)
      (Shadow.start args f.meta_.locals.length).machine := by
  refine models_new ?_
  rw [Shadow.start, List.eq_replicate_of_mem hi32.locals,
    List.eq_replicate_of_mem hi32.parameters, ← hargs]
  simp [WasmValue.type, Function.comp_def]

/-- A stack of one element is the result. -/
theorem Shadow.results_eq {sh : Shadow} {x : BitVec 32} {xs : List (BitVec 32)}
    (hx : sh.stack = x :: xs) (hone : sh.stack.length ≤ 1) : sh.machine.results = [.i32 x] := by
  rw [hx, List.length_cons] at hone
  obtain rfl : xs = [] := List.eq_nil_of_length_eq_zero (by omega)
  rw [StackMachine.results, Shadow.machine, hx]
  rfl

/-- **Leaving the function**: the frame is released, and the return address is the caller's. -/
theorem Simulates.leave {sh : Shadow} {w : Window} {m m' : Machine} (h : Simulates t act sh w m)
    (hsp : m'.sp = m.sp) (hmem : m'.mem = m.mem)
    (huntouched : ∀ r, t.callerSaved.test r = false → m'.reg r = m.reg r) :
    (m'.leave t.addsCarry act.size).sp = act.entry.sp ∧
      t.returnAddress (m'.leave t.addsCarry act.size) = t.returnAddress act.entry := by
  have hleft : (m'.leave t.addsCarry act.size).sp = act.entry.sp := by
    change m'.sp + act.size.signExtend 64 = act.entry.sp
    rw [hsp, h.sp, Activation.sp, signExtend_of_lt act.size_lt]
    exact sub_add_cancel _ _
  refine ⟨hleft, t.returnAddress_congr hleft (fun b hb => ?_) fun q hq => ?_⟩
  · -- the return address is above the frame
    rw [hleft] at hb
    change m'.mem b = act.entry.mem b
    rw [hmem]
    exact h.mem b (act.slots_disjoint_entry b hb)
  · exact (huntouched q hq).trans (h.untouched q hq)

/-- **A clear run returns what the body means.** The function is compiled, the code runs through to
its `ret`, with the result of the stack machine in the return register, and returns to the caller
with the stack pointer where it was. -/
theorem Target.returns_of_clear (t : Target ι) (exitLabel : Label) {f : Function}
    (hi32 : f.IsI32) (hcore : CoreBody f.body) (hvalid : f.IsValidated) (hframe : f.FrameFits)
    {args : List (BitVec 32)} (hargs : args.length = f.meta_.signature.parameterTypes.length)
    (hparams : args.length ≤ t.gpArgs.length)
    (hclear : ClearFrom t.arch f.meta_.maxStackElements.toNat
      f.meta_.signature.resultTypes.length (.start args f.meta_.locals.length) f.body)
    {s : Machine} (henter : Enters t (f.activation hi32 hframe s) args) :
    ∃ code s' m, t.compile exitLabel f = .ok code ∧ t.isa.call code s = some s' ∧
      (StackMachine.start (args.map .i32) f.meta_.locals).run f.body = .ok m ∧
      (f.meta_.signature.resultTypes ≠ [] → m.results = [.i32 (s'.lo t.gpRet)]) ∧
      s'.ip = t.returnAddress s ∧ s'.sp = s.sp + t.retPops := by
  set act := f.activation hi32 hframe s with hact
  have hlaid := Function.activation_laidOut hi32 hframe s
  obtain ⟨v, hv, -, -⟩ := hvalid
  obtain ⟨v₁, hv1, hv2⟩ := bind_eq_ok.mp hv
  -- the function is compiled
  have hfit : Instruction.FitsAll f.meta_.maxStackElements.toNat
      (poppedResults f.meta_.signature.resultTypes) 0 f.body :=
    fitsAll_of_clear (v := FunctionValidator.new f.meta_.signature f.meta_.locals) hcore
      ⟨rfl, rfl⟩ hv1 hv2 hclear
  obtain ⟨out, hout, hcompiled⟩ := Assembler.compile_of_fits (a := t.toAssembler) exitLabel
    (wellNamed_of_validate hcore hv) (by omega) hfit
  cases hcompiled with
  | @mk saves code last w hs hvisits hm =>
  -- the prologue and the live code
  obtain ⟨m₁, hrun1, hsaved⟩ := saves_run henter hlaid hs hi32.parameters henter.saved (by omega)
  have hsim := hsaved.simulates (n := f.meta_.locals.length) (by
    change _ = (f.meta_.signature.parameterTypes ++ f.meta_.locals).length
    rw [List.length_append, hargs])
  have hmodels := Shadow.models_start hi32 hargs
  obtain ⟨sh, w₁, m₂, live, rest, hexits, hmachine, hlen⟩ :=
    run_clear hlaid hcore hsim ⟨List.nodup_nil, by simp⟩ hmodels hv1 hv2 hclear hvisits
  -- the result is where it was at the exit
  have hm' : t.MovesResult w₁ f.meta_.signature.resultTypes last :=
    hexits.movesResult (by rw [hlen]; rfl) hi32.oneResult hm
  obtain ⟨m₃, hlast, hsp3, hmem3, huntouched3, hresult⟩ :=
    moves_run hexits.simulates hi32.results hm'
  -- the frame is released, and the return address is the caller's
  set m₄ := m₃.leave t.addsCarry act.size with hm₄
  obtain ⟨hsp4, hra⟩ := hexits.simulates.leave hsp3 hmem3 huntouched3
  have hsize : (FunctionFrame.new f.meta_).stackSizeBytes = act.size := rfl
  have hfirst : t.isa.execBlock (t.enter act.size :: saves ++ live) s = some m₂ := by
    have henter1 : t.isa.execBlock (t.enter act.size :: saves) s = some m₁ := by
      rw [Isa.execBlock_cons (t.exec_enter _ _)]
      exact hrun1
    rw [Isa.execBlock_append henter1, hexits.run]
  have hleave : t.isa.execBlock (last ++ [t.leave act.size]) m₂ = some m₄ := by
    rw [Isa.execBlock_append hlast, Isa.execBlock_cons (t.exec_leave _ _), Isa.execBlock_nil]
  refine ⟨_, { m₄ with ip := t.returnAddress m₄, sp := m₄.sp + t.retPops }, sh.machine, hout, ?_,
    by rw [← Shadow.machine_start hi32]; exact hmachine, fun hne => ?_, hra, by rw [hsp4]; rfl⟩
  · refine Target.call_of_blocks hout ?_ (hexits.rest_eq.imp (fun h => h.1) ?_) hfirst hleave
      (t.exec_ret m₄)
    · rw [hexits.code_eq, hsize]
      simp only [List.append_assoc, List.cons_append, List.nil_append]
    · rintro ⟨dead, deadCode, h, -, -⟩
      exact ⟨deadCode, h⟩
  · obtain ⟨x, xs, hx, hlo⟩ := hresult hne
    have hone : sh.stack.length ≤ 1 := hlen.le.trans hi32.oneResult
    rw [Shadow.results_eq hx hone]
    change [WasmValue.i32 x] = [WasmValue.i32 (m₃.lo t.gpRet)]
    rw [hlo]

/-! ### The two compilers -/

/-- **The condition of correct compilation**: the frame stays small enough for its offsets, and with
these arguments the body runs clear. -/
def Function.RunsClear (f : Function) (arch : Arch) (args : List (BitVec 32)) : Prop :=
  f.FrameFits ∧ ClearFrom arch f.meta_.maxStackElements.toNat f.meta_.signature.resultTypes.length
    (.start args f.meta_.locals.length) f.body

instance (f : Function) (arch : Arch) (args : List (BitVec 32)) :
    Decidable (f.RunsClear arch args) :=
  have : Decidable f.FrameFits := inferInstanceAs (Decidable (_ < _))
  inferInstanceAs (Decidable (_ ∧ _))

/-- A call by the convention of the target: the arguments are in the lower halves of their
registers, and there is room for the frame below the stack pointer. -/
structure CallState (t : Target ι) (f : Function) (args : List (BitVec 32)) (s : Machine) :
    Prop where
  args (i : ℕ) (r : Reg) (x : BitVec 32) : t.gpArgs[i]? = some r → args[i]? = some x → s.lo r = x
  room : (FunctionFrame.new f.meta_).stackSizeBytes.toNat ≤ s.sp.toNat

/-- The function of the repository's test `CanGenerateAddFn`. -/
def addFn : Function where
  meta_ := { signature := ⟨[.i32, .i32], [.i32]⟩, maxStackSizeBytes := 8, maxStackElements := 2 }
  body := [.getLocalI32 0, .getLocalI32 1, .addI32]

/-- A machine about to run a function: some of its registers, a stack, and all of memory filled with
one byte. -/
def Machine.fresh (regs : List (Reg × BitVec 64)) (byte : BitVec 8) : Machine where
  reg r := (regs.lookup r).getD 0
  sp := 0x10000
  carry := false
  mem _ := byte
  ip := 0

/-- **The x64 compiler on clear runs.** A validated `i32` function with at most six parameters is
compiled, and when it runs clear with the given arguments, calling its code returns to the caller
with the stack machine's result in `eax`. -/
theorem X64.compile_correct_x64 (exitLabel : Label) (f : Function) (hi32 : f.IsI32)
    (hparams : f.meta_.signature.parameterTypes.length ≤ 6) (hcore : CoreBody f.body)
    (hvalid : f.IsValidated) (args : List (BitVec 32))
    (hargs : args.length = f.meta_.signature.parameterTypes.length)
    (hclear : f.RunsClear X64.target.arch args) (s : Machine)
    (hcall : CallState X64.target f args s) :
    ∃ code s' m, X64.compile exitLabel f = .ok code ∧ X64.isa.call code s = some s' ∧
      (StackMachine.start (args.map .i32) f.meta_.locals).run f.body = .ok m ∧
      (f.meta_.signature.resultTypes ≠ [] → m.results = [.i32 (s'.lo X64.rax)]) ∧
      s'.ip = X64.returnAddress s ∧ s'.sp = s.sp + 8 :=
  X64.target.returns_of_clear exitLabel hi32 hcore hvalid hclear.1 hargs (hargs ▸ hparams) hclear.2
    ⟨hcall.args, hcall.room⟩

theorem X64.addFn_callState :
    CallState X64.target addFn [1, 2] (.fresh [(X64.rdi, 1), (X64.rsi, 2)] 0) where
  args := by
    rintro (_ | _ | i) r x hr hx
    · cases hr; cases hx; rfl
    · cases hr; cases hx; rfl
    · cases hx
  room := by decide

theorem X64.compile_correct_x64_addFn :
    ∃ code s' m, X64.compile 0 addFn = .ok code ∧
      X64.isa.call code (.fresh [(X64.rdi, 1), (X64.rsi, 2)] 0) = some s' ∧
      (StackMachine.start [.i32 1, .i32 2] []).run addFn.body = .ok m ∧
      (addFn.meta_.signature.resultTypes ≠ [] → m.results = [.i32 (s'.lo X64.rax)]) ∧
      s'.ip = X64.returnAddress (.fresh [(X64.rdi, 1), (X64.rsi, 2)] 0) ∧ s'.sp = 0x10000 + 8 :=
  X64.compile_correct_x64 0 addFn ⟨by decide, by decide, by decide, by decide⟩ (by decide)
    (by decide) ⟨_, rfl, rfl, rfl⟩ [1, 2] rfl (by decide +kernel) _ X64.addFn_callState

/-- The sum of three parameters. -/
def sumFn : Function where
  meta_ := { signature := ⟨[.i32, .i32, .i32], [.i32]⟩, maxStackSizeBytes := 8
             maxStackElements := 2 }
  body := [.getLocalI32 0, .getLocalI32 1, .addI32, .getLocalI32 2, .addI32]

/-- The first addition of `2 ^ 32 - 1`, `1` and `0` sets the carry flag, and the second adds it. -/
theorem X64.compile_incorrect_after_carry :
    sumFn.IsI32 ∧ sumFn.IsValidated ∧ ∃ code s' m, X64.compile 0 sumFn = .ok code ∧
      CallState X64.target sumFn [0xFFFFFFFF, 1, 0]
        (.fresh [(X64.rdi, 0xFFFFFFFF), (X64.rsi, 1), (X64.rdx, 0)] 0) ∧
      X64.isa.call code (.fresh [(X64.rdi, 0xFFFFFFFF), (X64.rsi, 1), (X64.rdx, 0)] 0) =
        some s' ∧
      (StackMachine.start [.i32 0xFFFFFFFF, .i32 1, .i32 0] []).run sumFn.body = .ok m ∧
      m.results = [.i32 0] ∧ s'.lo X64.rax = 1 := by
  refine ⟨⟨by decide, by decide, by decide, by decide⟩, ⟨_, rfl, rfl, rfl⟩, _, _, _, rfl,
    ⟨?_, by decide⟩, rfl, rfl, by decide, by decide +kernel⟩
  -- the three arguments are in their registers
  rintro (_ | _ | _ | i) r x hr hx
  · cases hr; cases hx; rfl
  · cases hr; cases hx; rfl
  · cases hr; cases hx; rfl
  · cases hx

/-- **The arm64 compiler on clear runs.** -/
theorem Arm64.compile_correct_arm64 (exitLabel : Label) (f : Function) (hi32 : f.IsI32)
    (hparams : f.meta_.signature.parameterTypes.length ≤ 6) (hcore : CoreBody f.body)
    (hvalid : f.IsValidated) (args : List (BitVec 32))
    (hargs : args.length = f.meta_.signature.parameterTypes.length)
    (hclear : f.RunsClear Arm64.target.arch args) (s : Machine)
    (hcall : CallState Arm64.target f args s) :
    ∃ code s' m, Arm64.compile exitLabel f = .ok code ∧ Arm64.isa.call code s = some s' ∧
      (StackMachine.start (args.map .i32) f.meta_.locals).run f.body = .ok m ∧
      (f.meta_.signature.resultTypes ≠ [] → m.results = [.i32 (s'.lo Arm64.x0)]) ∧
      s'.ip = Arm64.returnAddress s ∧ s'.sp = s.sp + 0 :=
  Arm64.target.returns_of_clear exitLabel hi32 hcore hvalid hclear.1 hargs
    (hargs ▸ le_trans hparams (by decide)) hclear.2 ⟨hcall.args, hcall.room⟩

theorem Arm64.addFn_callState :
    CallState Arm64.target addFn [1, 2] (.fresh [(0, 1), (1, 2)] 0) where
  args := by
    rintro (_ | _ | i) r x hr hx
    · cases hr; cases hx; rfl
    · cases hr; cases hx; rfl
    · cases hx
  room := by decide

theorem Arm64.compile_correct_arm64_addFn :
    ∃ code s' m, Arm64.compile 0 addFn = .ok code ∧
      Arm64.isa.call code (.fresh [(0, 1), (1, 2)] 0) = some s' ∧
      (StackMachine.start [.i32 1, .i32 2] []).run addFn.body = .ok m ∧
      (addFn.meta_.signature.resultTypes ≠ [] → m.results = [.i32 (s'.lo Arm64.x0)]) ∧
      s'.ip = Arm64.returnAddress (.fresh [(0, 1), (1, 2)] 0) ∧ s'.sp = 0x10000 + 0 :=
  Arm64.compile_correct_arm64 0 addFn ⟨by decide, by decide, by decide, by decide⟩ (by decide)
    (by decide) ⟨_, rfl, rfl, rfl⟩ [1, 2] rfl (by decide +kernel) _ Arm64.addFn_callState

/-- A declared local is set and read again. -/
def setGetFn : Function where
  meta_ := { signature := ⟨[], [.i32]⟩, locals := [.i32], maxStackSizeBytes := 4
             maxStackElements := 1 }
  body := [.constI32 ⟨7⟩, .setLocalI32 0, .getLocalI32 0]

/-- The local is never stored, so what is read back is what was in memory. -/
theorem Arm64.compile_incorrect_after_set :
    setGetFn.IsI32 ∧ setGetFn.IsValidated ∧ ∃ code s' m, Arm64.compile 0 setGetFn = .ok code ∧
      CallState Arm64.target setGetFn [] (.fresh [] 0x11) ∧
      Arm64.isa.call code (.fresh [] 0x11) = some s' ∧
      (StackMachine.start [] [.i32]).run setGetFn.body = .ok m ∧
      m.results = [.i32 7] ∧ s'.lo Arm64.x0 = 0x11111111 := by
  refine ⟨⟨by decide, by decide, by decide, by decide⟩, ⟨_, rfl, rfl, rfl⟩, _, _, _, rfl,
    ⟨?_, by decide⟩, rfl, rfl, by decide, by decide +kernel⟩
  intro i r x hr hx
  cases hx

end Wasmcc
