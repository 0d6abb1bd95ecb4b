import Wasmcc.Compiler.Labels
import Wasmcc.Compiler.StackFit

/-!
# What a function returns and what memory held before

Two runs of the code of one function, from states with the same stack pointer and the same argument
registers, side by side. `Agrees filled w` relates the two machines in the middle of the function:
they hold the same in the registers of the window, in its spill slots and in the slots of the
locals in `filled`. It says nothing of any other register or byte.

`GetLocalI32` is the only instruction that can bring in something else. A slot is filled by the
prologue, when the local is a parameter, or by a `SetLocalI32`. On x86-64 that stores eight bytes,
so it also fills the slot after its own; on AArch64 it stores nothing. `ReadsFilled` says that every
local is filled when it is read, and then the result is the same (`Target.leakFree_of_readsFilled`).
-/

open Basis

namespace Wasmcc

open FunctionValidator StackMachine

/-! ### Locals that are filled before they are read -/

namespace Instruction

/-- The slots that are filled after an instruction, when a `SetLocalI32` fills `slots` of them from
the one of its local on. -/
def fills (slots : ℕ) (filled : List ℕ) : Instruction → List ℕ
  | .setLocalI32 idx => (List.range slots).map (idx + ·) ++ filled
  | .constI32 _ | .addI32 | .getLocalI32 _ | .return_ | .label _ | .br _ | .brIf _ _ => filled

def Reads (filled : List ℕ) : Instruction → Prop
  | .getLocalI32 idx => idx ∈ filled
  | .constI32 _ | .addI32 | .setLocalI32 _ | .return_ | .label _ | .br _ | .brIf _ _ => True

/-- Every local that a body reads is filled by then. -/
def ReadsFilled (slots : ℕ) : List ℕ → List Instruction → Prop
  | _, [] => True
  | filled, i :: is => i.Reads filled ∧ ReadsFilled slots (i.fills slots filled) is

instance (filled : List ℕ) : (i : Instruction) → Decidable (i.Reads filled)
  | .getLocalI32 _ => inferInstanceAs (Decidable (_ ∈ _))
  | .constI32 _ | .addI32 | .setLocalI32 _ | .return_ | .label _ | .br _ | .brIf _ _ =>
    inferInstanceAs (Decidable True)

instance instDecidableReadsFilled (slots : ℕ) :
    (filled : List ℕ) → (body : List Instruction) → Decidable (ReadsFilled slots filled body)
  | _, [] => inferInstanceAs (Decidable True)
  | filled, i :: is =>
    have := instDecidableReadsFilled slots (i.fills slots filled) is
    inferInstanceAs (Decidable (_ ∧ _))

end Instruction

/-- The locals and the deepest stack of a body fit in a frame of less than `2 ^ 31` bytes. -/
def Function.SmallFrame (f : Function) : Prop :=
  sizeOfTypes f.meta_.localTypes + 4 * Instruction.maxDepth 0 f.body + 15 < 2 ^ 31

instance (f : Function) : Decidable f.SmallFrame := inferInstanceAs (Decidable (_ < _))

/-! ### Two machines that agree -/

variable {ι : Type} {t : Target ι} {frame : FunctionFrame} {exitLabel : Label}

/-- The two machines hold the same wherever code in window `w`, with these slots filled, may
look. -/
structure Agrees (t : Target ι) (frame : FunctionFrame) (filled : List ℕ) (w : Window)
    (m m' : Machine) : Prop where
  sp : m.sp = m'.sp
  carry : t.addsCarry = true → m.carry = m'.carry
  regs : ∀ r ∈ w.regs, m.reg r = m'.reg r
  locals : ∀ idx ∈ filled, ∀ offset, frame.localStackOffset idx = .ok offset →
    Memory.AgreeOn m.mem m'.mem (m.addr offset) 4
  spills : ∀ k < w.spilled,
    Memory.AgreeOn m.mem m'.mem (m.addr (BitVec.ofNat 32 (4 * (k + 1)))) 4

namespace Agrees

variable {filled filled' : List ℕ} {w w' : Window} {m m' m₁ m₁' : Machine} {r : Reg}

/-- Agreement in more places is agreement in fewer. -/
theorem mono (h : Agrees t frame filled w m m') (hf : filled' ⊆ filled) (hr : w'.regs ⊆ w.regs)
    (hs : w'.spilled ≤ w.spilled) : Agrees t frame filled' w' m m' where
  sp := h.sp
  carry := h.carry
  regs r hr' := h.regs r (hr hr')
  locals idx hidx := h.locals idx (hf hidx)
  spills k hk := h.spills k (lt_of_lt_of_le hk hs)

/-- The register `r` gets the same value in both machines, and no other changes. -/
theorem set_reg (h : Agrees t frame filled w m m') (hr : m₁.reg r = m₁'.reg r)
    (hsp : m₁.sp = m.sp) (hsp' : m₁'.sp = m'.sp) (hmem : m₁.mem = m.mem) (hmem' : m₁'.mem = m'.mem)
    (hcarry : t.addsCarry = true → m₁.carry = m₁'.carry) (hregs : ∀ q, q ≠ r → m₁.reg q = m.reg q)
    (hregs' : ∀ q, q ≠ r → m₁'.reg q = m'.reg q) : Agrees t frame filled (w.push r) m₁ m₁' where
  sp := by rw [hsp, hsp', h.sp]
  carry := hcarry
  regs q hq := by
    -- the register that is set is the new top of the stack
    by_cases hqr : q = r
    · rw [hqr, hr]
    · rw [hregs q hqr, hregs' q hqr]
      exact h.regs q ((List.mem_cons.mp hq).resolve_left hqr)
  locals idx hidx offset ho := by
    rw [hmem, hmem', Machine.addr, hsp]
    exact h.locals idx hidx offset ho
  spills k hk := by
    rw [hmem, hmem', Machine.addr, hsp]
    exact h.spills k hk

/-- **A load** of four bytes on which the machines agree. -/
theorem load (h : Agrees t frame filled w m m') {offset : BitVec 32}
    (ho : Memory.AgreeOn m.mem m'.mem (m.addr offset) 4) :
    Agrees t frame filled (w.push r) (m.load (Reg.r32 r) offset) (m'.load (Reg.r32 r) offset) := by
  refine h.set_reg ?_ (m.load_sp _ _) (m'.load_sp _ _) (m.load_mem _ _) (m'.load_mem _ _)
    (fun hc => ?_) (fun q hq => m.load_reg_of_ne _ _ hq) fun q hq => m'.load_reg_of_ne _ _ hq
  · have hread : m.read offset 4 = m'.read offset 4 := by
      rw [Machine.read, Machine.read, Machine.addr, Machine.addr, ← h.sp]
      exact Memory.read_congr (by norm_num) ho
    rw [Machine.load_r32, Machine.load_r32, hread]
  · rw [Machine.load_carry, Machine.load_carry]
    exact h.carry hc

/-- **A store** of a register in which the machines agree. Wherever they agreed they still do, and
they agree on the bytes stored. -/
theorem store (h : Agrees t frame filled w m m') {g : Gp} (hg : m.reg g.id = m'.reg g.id)
    (offset : BitVec 32) :
    Agrees t frame filled w (m.store offset g) (m'.store offset g) ∧
      Memory.AgreeOn (m.store offset g).mem (m'.store offset g).mem (m.addr offset)
        g.width.bytes := by
  have hstore : m'.store offset g =
      { m' with mem := m'.mem.write (m.addr offset) g.width.bytes (m.reg g.id).toNat } := by
    rw [Machine.store, ← hg, Machine.addr, Machine.addr, h.sp]
  rw [hstore]
  exact ⟨⟨h.sp, h.carry, h.regs, fun idx hidx off ho => (h.locals idx hidx off ho).write _ _ _,
    fun k hk => (h.spills k hk).write _ _ _⟩, Memory.agreeOn_write _ _ _ _ _⟩

/-- A slot on whose bytes the machines agree is filled. -/
theorem fill (h : Agrees t frame filled w m m') (idx : ℕ)
    (hidx : ∀ offset, frame.localStackOffset idx = .ok offset →
      Memory.AgreeOn m.mem m'.mem (m.addr offset) 4) :
    Agrees t frame (idx :: filled) w m m' where
  sp := h.sp
  carry := h.carry
  regs := h.regs
  locals j hj offset ho := by
    rcases List.mem_cons.mp hj with rfl | hj
    · exact hidx offset ho
    · exact h.locals j hj offset ho
  spills := h.spills

/-- **An addition.** -/
theorem add (x1 x2 : Reg) (h : Agrees t frame filled ((w.push x1).push x2) m m') :
    Agrees t frame filled (w.push x1) (m.add t.addsCarry x1 x2) (m'.add t.addsCarry x1 x2) := by
  have hx1 : m.reg x1 = m'.reg x1 := h.regs x1 (List.mem_cons_of_mem _ List.mem_cons_self)
  have hx2 : m.reg x2 = m'.reg x2 := h.regs x2 List.mem_cons_self
  -- the flag counts only where the sum takes it in
  have hcarry : (t.addsCarry && m.carry) = (t.addsCarry && m'.carry) := by
    cases hc : t.addsCarry with
    | false => rfl
    | true => rw [h.carry hc]
  have hsum : m.sum t.addsCarry x1 x2 = m'.sum t.addsCarry x1 x2 := by
    rw [Machine.sum, Machine.sum, Machine.lo, Machine.lo, Machine.lo, Machine.lo, hx1, hx2, hcarry]
  have hw : Agrees t frame filled w m m' :=
    h.mono (List.Subset.refl _) (fun q hq => List.mem_cons_of_mem _ (List.mem_cons_of_mem _ hq))
      le_rfl
  refine hw.set_reg ?_ (m.add_sp _ _ _) (m'.add_sp _ _ _) (m.add_mem _ _ _) (m'.add_mem _ _ _)
    (fun hc => ?_) (fun q hq => m.add_reg_of_ne _ _ _ hq) fun q hq => m'.add_reg_of_ne _ _ _ hq
  · rw [Machine.add_reg, Machine.add_reg, hsum]
  · rw [Machine.add, Machine.add, hsum]
    simp only [hc, if_true]

end Agrees

/-! ### Blocks of a function in two runs -/

/-- **The stores of the spill loop** fill the slots above those that were spilled before. -/
theorem spillCode_agrees {filled : List ℕ} {regs : List Reg} (k : ℕ) {rs : List Reg}
    (hrs : rs ⊆ regs) : t.isa.Lockstep (Agrees t frame filled ⟨regs, k⟩) (t.spillCode k rs)
      (Agrees t frame filled ⟨regs, k + rs.length⟩) := by
  induction rs with
  | nil => exact .nil _
  | cons r rs ih =>
    refine (ih fun q hq => hrs (List.mem_cons_of_mem r hq)).append (.single fun m m' h => ?_)
    obtain ⟨h1, h2⟩ := h.store (g := Reg.r32 r) (h.regs r (hrs List.mem_cons_self))
      (BitVec.ofNat 32 (4 * (k + rs.length + 1)))
    refine ⟨_, _, t.exec_store _ _ _, t.exec_store _ _ _, h1.sp, h1.carry, h1.regs, h1.locals, ?_⟩
    intro j hj
    -- the other values were spilled before, this one just now
    rcases Nat.lt_succ_iff_lt_or_eq.mp (show j < k + rs.length + 1 from hj) with hj | rfl
    · exact h1.spills j hj
    · exact h2

/-- **An allocation**: afterwards the machines agree in window `u`, which is the new window but for
the register that was found. -/
theorem Assembler.Acquire.agrees (frame : FunctionFrame) (filled : List ℕ) {w w' : Window}
    {r : Reg} {code : List ι}
    (h : t.Acquire w r w' code) :
    ∃ u : Window, w'.regs ⊆ (u.push r).regs ∧ w'.spilled ≤ u.spilled ∧
      t.isa.Lockstep (Agrees t frame filled w) code (Agrees t frame filled u) := by
  cases h with
  | free hp hr => exact ⟨w, List.Subset.refl _, le_rfl, .nil _⟩
  | @spill r rs k hfull =>
    refine ⟨⟨r :: rs, k + 1⟩, List.subset_cons_self _ _, le_rfl, ?_⟩
    refine (spillCode_agrees k (List.Subset.refl _)).weaken (fun _ _ h => h) fun m m' h => ?_
    exact h.mono (List.Subset.refl _) (List.Subset.refl _)
      (show k + 1 ≤ k + (rs.length + 1) by omega)

/-- **A value popped**, next to registers that are held. -/
theorem Assembler.Release.agrees {filled : List ℕ} {held : List Reg} {w w' : Window} {r : Reg}
    {code : List ι} (h : t.Release held w r w' code) :
    t.isa.Lockstep (Agrees t frame filled ⟨held ++ w.regs, w.spilled⟩) code
      (Agrees t frame filled ⟨held ++ r :: w'.regs, w'.spilled⟩) := by
  cases h with
  | reg => exact .nil _
  | @reload r k hp hr =>
    refine .single fun m m' h => ⟨_, _, t.exec_load _ _ _, t.exec_load _ _ _, ?_⟩
    have hslot := h.spills k (Nat.lt_succ_self k)
    refine (h.load (r := r) hslot).mono (List.Subset.refl _) (fun q hq => ?_) (Nat.le_succ k)
    simpa [Window.push, or_comm] using hq

theorem Assembler.Acquire.nodup {w w' : Window} {r : Reg} {code : List ι}
    (h : t.Acquire w r w' code) (hw : w.regs.Nodup) : w'.regs.Nodup := by
  cases h with
  | free hp hr => exact List.nodup_cons.mpr ⟨hr, hw⟩
  | spill hfull => exact hw

theorem Assembler.Release.nodup {held : List Reg} {w w' : Window} {r : Reg} {code : List ι}
    (h : t.Release held w r w' code) (hw : w.regs.Nodup) : (w'.push r).regs.Nodup := by
  cases h with
  | reg => exact hw
  | reload hp hr => exact List.nodup_singleton r

/-- The registers of a window stay distinct. -/
theorem Assembler.Visit.nodup {w w' : Window} {i : Instruction} {code : List ι}
    (h : t.Visit frame exitLabel w i w' code) (hw : w.regs.Nodup) : w'.regs.Nodup := by
  cases h with
  | const value hr => exact hr.nodup hw
  | add h2 h1 => exact h1.nodup (h2.nodup hw).of_cons
  | get hr ho => exact hr.nodup hw
  | set hr ho => exact (hr.nodup hw).of_cons
  | return_ => exact hw

/-- A `SetLocalI32` that stores fills its own slot, and the next one too where the offsets of the
two are four apart. -/
structure FillsSlots (t : Target ι) (frame : FunctionFrame) (slots idx : ℕ) : Prop where
  stores : 0 < slots → t.storesLocals = true
  two : slots ≤ 2
  next : slots = 2 → ∀ offset offset', frame.localStackOffset idx = .ok offset →
    frame.localStackOffset (idx + 1) = .ok offset' →
    offset'.signExtend 64 = offset.signExtend 64 + BitVec.ofNat 64 4

/-- **The store of a local.** -/
theorem Agrees.setLocal {filled : List ℕ} {w : Window} {m m' : Machine} {r : Reg} {slots idx : ℕ}
    {offset : BitVec 32} (h : Agrees t frame filled (w.push r) m m') (hr : r ∉ w.regs)
    (hslots : FillsSlots t frame slots idx) (ho : frame.localStackOffset idx = .ok offset) :
    ∃ m₁ m₁', t.isa.exec (t.setLocal offset r) m = .next m₁ ∧
      t.isa.exec (t.setLocal offset r) m' = .next m₁' ∧
      Agrees t frame ((Instruction.setLocalI32 idx).fills slots filled) w m₁ m₁' := by
  refine ⟨_, _, t.exec_setLocal _ _ _, t.exec_setLocal _ _ _, ?_⟩
  have hw : w.regs ⊆ (w.push r).regs := List.subset_cons_self _ _
  cases hst : t.storesLocals with
  | true =>
    simp only [if_true]
    obtain ⟨h1, h2⟩ := h.store (g := Reg.r64 r) (h.regs r List.mem_cons_self) offset
    have hown := h1.mono (List.Subset.refl _) hw le_rfl
    have hlow : Memory.AgreeOn (m.store offset (Reg.r64 r)).mem (m'.store offset (Reg.r64 r)).mem
        (m.addr offset) 4 := by simpa using h2.slice (show 0 + 4 ≤ 8 by norm_num)
    have hhigh := h2.slice (show 4 + 4 ≤ 8 by norm_num)
    refine ⟨hown.sp, hown.carry, hown.regs, fun j hj off hoff => ?_, hown.spills⟩
    rcases List.mem_append.mp hj with hj | hj
    · obtain ⟨k, hk, rfl⟩ := List.mem_map.mp hj
      have hk2 := lt_of_lt_of_le (List.mem_range.mp hk) hslots.two
      interval_cases k
      · obtain rfl := Except.ok.inj (hoff.symm.trans ho)
        exact hlow
      · have hnext := hslots.next (by have := List.mem_range.mp hk; have := hslots.two; omega)
          offset off ho hoff
        have haddr : (m.store offset (Reg.r64 r)).addr off =
            m.addr offset + BitVec.ofNat 64 4 := by
          rw [Machine.addr, Machine.addr, hnext, Machine.store_sp, BitVec.add_assoc]
        rw [haddr]
        exact hhigh
    · exact hown.locals j hj off hoff
  | false =>
    simp only [Bool.false_eq_true, if_false]
    -- the register is given back, so it does not matter what is loaded to it
    obtain rfl : slots = 0 := by
      by_contra hne
      have := hslots.stores (Nat.pos_of_ne_zero hne)
      rw [hst] at this
      cases this
    have hbelow := h.mono (List.Subset.refl _) hw le_rfl
    refine ⟨?_, fun hc => ?_, fun q hq => ?_, fun j hj off hoff => ?_, fun k hk => ?_⟩
    · rw [Machine.load_sp, Machine.load_sp, h.sp]
    · rw [Machine.load_carry, Machine.load_carry, h.carry hc]
    · have hqr : q ≠ r := fun he => hr (he ▸ hq)
      rw [m.load_reg_of_ne _ _ hqr, m'.load_reg_of_ne _ _ hqr, hbelow.regs q hq]
    · rw [Machine.load_mem, Machine.load_mem, Machine.addr, Machine.load_sp]
      exact hbelow.locals j (by simpa [Instruction.fills] using hj) off hoff
    · rw [Machine.load_mem, Machine.load_mem, Machine.addr, Machine.load_sp]
      exact hbelow.spills k hk

/-- **One instruction** that reads what is filled, in two runs. -/
theorem Assembler.Visit.agrees {filled : List ℕ} {slots : ℕ} {w w' : Window} {i : Instruction}
    {code : List ι} (h : t.Visit frame exitLabel w i w' code) (hw : w.regs.Nodup)
    (hi : i ≠ .return_) (hreads : i.Reads filled)
    (hslots : ∀ idx, i = .setLocalI32 idx → FillsSlots t frame slots idx) :
    t.isa.Lockstep (Agrees t frame filled w) code
      (Agrees t frame (i.fills slots filled) w') := by
  cases h with
  | @const w' r code value hr =>
    obtain ⟨u, hregs, hspilled, hacquire⟩ := hr.agrees frame filled
    rw [List.append_assoc]
    refine hacquire.append fun m m' h => ?_
    refine ⟨_, _, by rw [List.singleton_append, Isa.execBlock_cons (t.exec_load _ _ _),
      Isa.execBlock_cons (t.exec_const _ _ _), Isa.execBlock_nil], by rw [List.singleton_append,
      Isa.execBlock_cons (t.exec_load _ _ _), Isa.execBlock_cons (t.exec_const _ _ _),
      Isa.execBlock_nil], ?_⟩
    -- what the load finds differs, and the constant overwrites it
    refine (h.set_reg (r := r) ?_ ?_ ?_ ?_ ?_ (fun hc => ?_) (fun q hq => ?_) fun q hq => ?_).mono
      (List.Subset.refl _) hregs hspilled
    · rw [Machine.set_r32, Machine.set_r32]
    · rw [Machine.set_sp, Machine.load_sp]
    · rw [Machine.set_sp, Machine.load_sp]
    · rw [Machine.set_mem, Machine.load_mem]
    · rw [Machine.set_mem, Machine.load_mem]
    · rw [Machine.set_carry, Machine.load_carry, Machine.set_carry, Machine.load_carry, h.carry hc]
    · rw [Machine.set_reg_of_ne _ _ _ hq]
      exact m.load_reg_of_ne _ _ hq
    · rw [Machine.set_reg_of_ne _ _ _ hq]
      exact m'.load_reg_of_ne _ _ hq
  | @add w₁ w₂ x1 x2 code2 code1 h2 h1 =>
    refine (h2.agrees.append h1.agrees).append (.single fun m m' h => ?_)
    refine ⟨_, _, t.exec_add _ _ _, t.exec_add _ _ _, ?_⟩
    exact Agrees.add (w := w₂) x1 x2 h
  | @get w' r code idx offset hr ho =>
    obtain ⟨u, hregs, hspilled, hacquire⟩ := hr.agrees frame filled
    refine hacquire.append (.single fun m m' h => ?_)
    refine ⟨_, _, t.exec_load _ _ _, t.exec_load _ _ _, ?_⟩
    exact (h.load (r := r) (h.locals idx hreads offset ho)).mono (List.Subset.refl _) hregs hspilled
  | @set w' r code idx offset hr ho =>
    refine hr.agrees.append (.single fun m m' h => ?_)
    exact Agrees.setLocal (w := w') h (List.nodup_cons.mp (hr.nodup hw)).1 (hslots idx rfl) ho
  | return_ => exact absurd rfl hi

/-! ### Whole functions in two runs -/

/-- **A body without dead code**: its code runs through to the exit in both runs, and there is at
most the jump of a last `Return` left. -/
theorem visits_agree {slots : ℕ} {body : List Instruction} :
    ∀ {filled : List ℕ} {w w' : Window} {code : List ι}, w.regs.Nodup → deadCode body = [] →
      Instruction.ReadsFilled slots filled body →
      (∀ idx, .setLocalI32 idx ∈ body → FillsSlots t frame slots idx) →
      t.Visits frame exitLabel w body w' code →
      ∃ live rest filled', code = live ++ rest ∧ (rest = [] ∨ rest = [t.jump exitLabel]) ∧
        t.isa.Lockstep (Agrees t frame filled w) live (Agrees t frame filled' w') := by
  induction body with
  | nil =>
    intro filled w w' code _ _ _ _ h
    cases h
    exact ⟨[], [], filled, rfl, Or.inl rfl, .nil _⟩
  | cons i is ih =>
    intro filled w w' code hw hdead hreads hslots h
    cases h with
    | @cons _ w₁ _ _ _ code rest hi his =>
    -- without dead code a `Return` is the last instruction
    by_cases hr : i = .return_
    · subst hr
      obtain rfl : is = [] := hdead
      cases hi
      cases his
      exact ⟨[], _, filled, rfl, Or.inr rfl, .nil _⟩
    · rw [deadCode_cons hr] at hdead
      have hstep := hi.agrees hw hr hreads.1 fun idx he => hslots idx (he ▸ List.mem_cons_self)
      obtain ⟨live, tail, filled', hcode, htail, hrun⟩ := ih (hi.nodup hw) hdead hreads.2
        (fun idx hidx => hslots idx (List.mem_cons_of_mem i hidx)) his
      exact ⟨code ++ live, tail, filled', by rw [hcode, List.append_assoc], htail,
        hstep.append hrun⟩

/-- **The prologue** fills the slots of the parameters. -/
theorem saves_agree {vts : List ValType} : ∀ {i : ℕ} {code : List ι},
    t.Saves frame i vts code →
    t.isa.Lockstep (Agrees t frame (List.range i) ⟨t.gpArgs, 0⟩) code
      (Agrees t frame (List.range (i + vts.length)) ⟨t.gpArgs, 0⟩) := by
  induction vts with
  | nil =>
    intro i code h
    cases h
    exact .nil _
  | cons vt vts ih =>
    intro i code h
    cases h with
    | @cons _ _ _ reg offset code hr ho hs =>
    -- even the narrower registers have the four bytes that an `i32` is read from
    have hbytes : 0 + 4 ≤ (reg.cast vt).width.bytes := by
      unfold Reg.cast
      split <;> simp [Reg.r32, Reg.r64, Width.bytes]
    have hstore : t.isa.Lockstep (Agrees t frame (List.range i) ⟨t.gpArgs, 0⟩)
        [t.store offset (reg.cast vt)] (Agrees t frame (List.range (i + 1)) ⟨t.gpArgs, 0⟩) := by
      refine .single fun m m' h => ⟨_, _, t.exec_store _ _ _, t.exec_store _ _ _, ?_⟩
      have hreg : m.reg (reg.cast vt).id = m'.reg (reg.cast vt).id := by
        rw [Reg.cast_id]
        exact h.regs reg (List.mem_of_getElem? hr)
      obtain ⟨h1, h2⟩ := h.store hreg offset
      have hslot := h2.slice hbytes
      rw [BitVec.add_zero] at hslot
      refine (h1.fill i fun off hoff => ?_).mono (fun j hj => ?_) (List.Subset.refl _) le_rfl
      · obtain rfl := Except.ok.inj (hoff.symm.trans ho)
        exact hslot
      · rw [List.mem_range] at hj
        rw [List.mem_cons, List.mem_range]
        omega
    have := hstore.append (ih hs)
    rwa [show i + (vt :: vts).length = i + 1 + vts.length by rw [List.length_cons]; omega]

/-- **The result** is the same in both runs. -/
theorem moves_agree {filled : List ℕ} {w : Window} {results : List ValType} {last : List ι}
    (h : t.MovesResult w results last) :
    t.isa.Lockstep (Agrees t frame filled w) last
      (fun m m' => results ≠ [] → m.reg t.gpRet = m'.reg t.gpRet) := by
  cases h with
  | nil => exact Isa.Lockstep.weaken (.nil _) (fun _ _ h => h) fun _ _ _ hne => absurd rfl hne
  | @cons vt vts r w' code hr =>
    refine Isa.Lockstep.append hr.agrees ?_
    by_cases he : Reg.r32 r = t.gpRet.cast vt
    · rw [if_pos he]
      have hid : r = t.gpRet := (congrArg Gp.id he).trans (Reg.cast_id _ _)
      exact Isa.Lockstep.weaken (.nil _) (fun _ _ h => h) fun m m' h _ =>
        hid ▸ h.regs r List.mem_cons_self
    · rw [if_neg he]
      refine .single fun m m' h => ⟨_, _, t.exec_move _ _ _, t.exec_move _ _ _, fun _ => ?_⟩
      -- the move takes its value from the register where the result is
      have hget : m.get (Reg.r32 r) = m'.get (Reg.r32 r) := by
        change (m.lo r).setWidth 64 = (m'.lo r).setWidth 64
        rw [Machine.lo, Machine.lo, h.regs r List.mem_cons_self]
      rw [hget]
      unfold Reg.cast
      split <;> simp [Machine.set, Reg.r32, Reg.r64]

/-! ### No leak -/

/-- Two states a function can be called in, which may differ in the memory below the stack pointer
and in the caller-saved registers that carry no argument. -/
structure SameCall (t : Target ι) (s s' : Machine) : Prop where
  sp : s.sp = s'.sp
  args : ∀ r ∈ t.gpArgs, s.reg r = s'.reg r
  saved : ∀ r, t.callerSaved.test r = false → s.reg r = s'.reg r
  mem : ∀ b, s.sp ≤ b → s.mem b = s'.mem b

/-- The function is compiled, and what its code returns does not depend on where two calls may
differ. -/
def Target.LeakFree (t : Target ι) (exitLabel : Label) (f : Function) : Prop :=
  ∃ code, t.compile exitLabel f = .ok code ∧ ∀ s s', SameCall t s s' →
    ∃ e e', t.isa.call code s = some e ∧ t.isa.call code s' = some e' ∧
      (f.meta_.signature.resultTypes ≠ [] → e.lo t.gpRet = e'.lo t.gpRet)

/-- How many slots a `SetLocalI32` is known to fill: with a store, its own and, in a small frame,
the next. -/
def Function.slotsSet (f : Function) (storesLocals : Bool) : ℕ :=
  if storesLocals then if f.SmallFrame then 2 else 1 else 0

/-- **The condition of leak freedom**: every local that the body reads is filled by then, and the
stack is not too deep for its 32-bit number of elements. -/
structure Function.ReadsFilled (f : Function) (storesLocals : Bool) : Prop where
  depth : Instruction.maxDepth 0 f.body < 2 ^ 32
  reads : Instruction.ReadsFilled (f.slotsSet storesLocals)
    (List.range f.meta_.signature.parameterTypes.length) f.body

instance (f : Function) (storesLocals : Bool) : Decidable (f.ReadsFilled storesLocals) :=
  decidable_of_iff (Instruction.maxDepth 0 f.body < 2 ^ 32 ∧
    Instruction.ReadsFilled (f.slotsSet storesLocals)
      (List.range f.meta_.signature.parameterTypes.length) f.body)
    ⟨fun h => ⟨h.1, h.2⟩, fun h => ⟨h.depth, h.reads⟩⟩

/-- The locals of a small frame that are next to each other. -/
theorem localStackOffset_succ {m : Function.Metadata} {idx : ℕ} {offset offset' : BitVec 32}
    (hframe : sizeOfTypes m.localTypes + m.maxStackSizeBytes.toNat + 15 < 2 ^ 31)
    (hidx : m.localTypes[idx]? = some .i32) (hidx' : idx + 1 < m.localTypes.length)
    (ho : (FunctionFrame.new m).localStackOffset idx = .ok offset)
    (ho' : (FunctionFrame.new m).localStackOffset (idx + 1) = .ok offset') :
    offset'.signExtend 64 = offset.signExtend 64 + BitVec.ofNat 64 4 := by
  have hlt := (List.getElem?_eq_some_iff.mp hidx).1
  have htake : sizeOfTypes (m.localTypes.take (idx + 1)) =
      sizeOfTypes (m.localTypes.take idx) + 4 := sizeOfTypes_take_succ hidx
  have hle : sizeOfTypes (m.localTypes.take (idx + 1)) ≤ sizeOfTypes m.localTypes :=
    ((List.take_sublist _ _).map _).sum_le_sum fun _ _ => Nat.zero_le _
  have hsize : (FunctionFrame.new m).stackSizeBytes.toNat < 2 ^ 31 := by
    rw [FunctionFrame.new_stackSizeBytes, FunctionFrame.sizeBytes_toNat (by omega)]
    omega
  -- both offsets count from the same size
  obtain rfl := Except.ok.inj ((FunctionFrame.localStackOffset_new m hlt).symm.trans ho)
  obtain rfl := Except.ok.inj ((FunctionFrame.localStackOffset_new m hidx').symm.trans ho')
  rw [signExtend_ofNat_sub (by omega) hsize, signExtend_ofNat_sub (by omega) hsize, htake,
    BitVec.ofNat_add]
  abel

theorem fillsSlots_of_validated {f : Function} (hcore : CoreBody f.body)
    (hdead : deadCode f.body = []) (hvalid : f.IsValidated) {idx : ℕ}
    (hidx : .setLocalI32 idx ∈ f.body) :
    FillsSlots t (.new f.meta_) (f.slotsSet t.storesLocals) idx where
  stores h := by
    by_contra hst
    rw [Bool.not_eq_true] at hst
    rw [Function.slotsSet, hst] at h
    exact absurd h (lt_irrefl 0)
  two := by
    unfold Function.slotsSet
    split
    · split <;> norm_num
    · norm_num
  next h offset offset' ho ho' := by
    -- in a frame that is too large no slot counts as set
    have hsmall : f.SmallFrame := by
      by_contra hs
      rw [Function.slotsSet, if_neg hs] at h
      split at h <;> omega
    have hfit : sizeOfTypes f.meta_.localTypes + 4 * Instruction.maxDepth 0 f.body + 15 < 2 ^ 31 :=
      hsmall
    obtain ⟨v, hv, hbytes, -⟩ := hvalid
    obtain ⟨-, hmax⟩ := validate_maxima hcore hdead (by omega) hv
    have hlt : idx + 1 < f.meta_.localTypes.length := by
      rw [← FunctionFrame.new_localsStackOffset_length]
      by_contra hge
      rw [FunctionFrame.localStackOffset, List.getElem?_eq_none (by omega)] at ho'
      cases ho'
    refine localStackOffset_succ ?_ (localsI32_of_validate hv _ hidx) hlt ho ho'
    rw [hbytes, hmax, BitVec.toNat_ofNat]
    omega

/-- **A function that reads filled slots only does not leak.** -/
theorem Target.leakFree_of_readsFilled (t : Target ι) (exitLabel : Label) {f : Function}
    (hcore : CoreBody f.body) (hdead : deadCode f.body = []) (hvalid : f.IsValidated)
    (hparams : f.meta_.signature.parameterTypes.length ≤ t.gpArgs.length)
    (hreads : f.ReadsFilled t.storesLocals) : t.LeakFree exitLabel f := by
  obtain ⟨hnamed, hfit⟩ := hvalid.fitsAll hcore hdead hreads.depth
  obtain ⟨out, hout, hcompiled⟩ := Assembler.compile_of_fits (a := t.toAssembler) exitLabel hnamed
    hparams hfit
  refine ⟨out, hout, fun s s' hcall => ?_⟩
  cases hcompiled with
  | @mk saves code last w hs hvisits hm =>
  set size := (FunctionFrame.new f.meta_).stackSizeBytes
  -- prologue, body and result, each in lockstep
  have henter : t.isa.Lockstep (SameCall t) [t.enter size]
      (Agrees t (.new f.meta_) (List.range 0) ⟨t.gpArgs, 0⟩) := by
    refine .single fun m m' h => ⟨_, _, t.exec_enter _ _, t.exec_enter _ _, ?_⟩
    refine ⟨?_, fun hc => ?_, h.args, fun idx hidx => ?_, fun k hk => absurd hk (Nat.not_lt_zero k)⟩
    · rw [Machine.enter, Machine.enter, h.sp]
    · simp only [Machine.enter, hc, if_true, h.sp]
    · exact absurd (List.mem_range.mp hidx) (Nat.not_lt_zero idx)
  obtain ⟨live, rest, filled, hcode, hrest, hlive⟩ := visits_agree (w := ⟨[], 0⟩) List.nodup_nil
    hdead hreads.reads (fun idx hidx => fillsSlots_of_validated hcore hdead hvalid hidx) hvisits
  have hsaves : t.isa.Lockstep (Agrees t (.new f.meta_) (List.range 0) ⟨t.gpArgs, 0⟩) saves
      (Agrees t (.new f.meta_) (List.range f.meta_.signature.parameterTypes.length) ⟨[], 0⟩) := by
    refine (saves_agree hs).weaken (fun _ _ h => h) fun m m' h => ?_
    rw [Nat.zero_add] at h
    exact h.mono (List.Subset.refl _) (List.nil_subset _) le_rfl
  have hfirst := (henter.append hsaves).append hlive
  obtain ⟨m, m', hm1, hm2, hagree⟩ := hfirst s s' hcall
  have hleave : t.isa.Lockstep (fun m m' => f.meta_.signature.resultTypes ≠ [] →
      m.reg t.gpRet = m'.reg t.gpRet) [t.leave size] (fun m m' =>
      f.meta_.signature.resultTypes ≠ [] → m.reg t.gpRet = m'.reg t.gpRet) :=
    .single fun m m' h => ⟨_, _, t.exec_leave _ _, t.exec_leave _ _, h⟩
  obtain ⟨e, e', he1, he2, hresult⟩ := ((moves_agree hm).append hleave) m m' hagree
  have hsplit : t.enter size :: saves ++ (code ++ (t.bind exitLabel :: last ++
      [t.leave size, t.ret])) = [t.enter size] ++ saves ++ live ++ rest ++
        (t.bind exitLabel :: (last ++ [t.leave size]) ++ [t.ret]) := by
    rw [hcode]
    simp
  have hrest' : rest = [] ∨ ∃ dead, rest = t.jump exitLabel :: dead :=
    hrest.imp id fun h => ⟨[], h⟩
  refine ⟨_, _, call_of_blocks hout hsplit hrest' hm1 he1 (t.exec_ret e),
    call_of_blocks hout hsplit hrest' hm2 he2 (t.exec_ret e'), fun hne => ?_⟩
  change (e.reg t.gpRet).setWidth 32 = (e'.reg t.gpRet).setWidth 32
  rw [hresult hne]

/-- **When compiled functions do not leak.** What a validated function without dead code returns
depends on its arguments only, if every local it reads is a parameter or was set before: on x86-64
by a `SetLocalI32` of this local or, in a small frame, of the one before it, on AArch64 never. -/
theorem compilers_leakFree (exitLabel : Label) (f : Function) (hcore : CoreBody f.body)
    (hdead : deadCode f.body = []) (hvalid : f.IsValidated) :
    (f.meta_.signature.parameterTypes.length ≤ 6 → f.ReadsFilled true →
      X64.target.LeakFree exitLabel f) ∧
    (f.meta_.signature.parameterTypes.length ≤ 8 → f.ReadsFilled false →
      Arm64.target.LeakFree exitLabel f) :=
  ⟨X64.target.leakFree_of_readsFilled exitLabel hcore hdead hvalid,
    Arm64.target.leakFree_of_readsFilled exitLabel hcore hdead hvalid⟩

/-- A parameter is changed and read again. -/
def bumpFn : Function where
  meta_ := { signature := ⟨[.i32], [.i32]⟩, maxStackSizeBytes := 8, maxStackElements := 2 }
  body := [.getLocalI32 0, .constI32 ⟨7⟩, .addI32, .setLocalI32 0, .getLocalI32 0, .return_]

theorem compilers_leakFree_bumpFn :
    X64.target.LeakFree 0 bumpFn ∧ Arm64.target.LeakFree 0 bumpFn :=
  have h := compilers_leakFree 0 bumpFn (by decide) rfl ⟨_, rfl, rfl, rfl⟩
  ⟨h.1 (by decide) (by decide), h.2 (by decide) (by decide)⟩

/-- A declared local is read that was never set. -/
def readFn : Function where
  meta_ := { signature := ⟨[], [.i32]⟩, locals := [.i32], maxStackSizeBytes := 4
             maxStackElements := 1 }
  body := [.getLocalI32 0]

/-- A machine with one byte all over the memory below the stack pointer. -/
def Machine.leftover (byte : BitVec 8) : Machine where
  reg _ := 0
  sp := 0x10000
  carry := false
  mem b := if 0x10000#64 ≤ b then 0 else byte
  ip := 0

theorem Machine.leftover_sameCall (t : Target ι) (byte byte' : BitVec 8) :
    SameCall t (leftover byte) (leftover byte') where
  sp := rfl
  args _ _ := rfl
  saved _ _ := rfl
  mem b hb := by
    change 0x10000#64 ≤ b at hb
    simp only [leftover, if_pos hb]

/-- Two calls that return different results. -/
theorem Target.not_leakFree {f : Function} {code : List ι} {s s' : Machine}
    (hcode : t.compile exitLabel f = .ok code) (hcall : SameCall t s s')
    (hres : f.meta_.signature.resultTypes ≠ [])
    (hne : (t.isa.call code s).map (Machine.lo · t.gpRet) ≠
      (t.isa.call code s').map (Machine.lo · t.gpRet)) : ¬t.LeakFree exitLabel f := by
  rintro ⟨code', hcode', h⟩
  obtain rfl := Except.ok.inj (hcode.symm.trans hcode')
  obtain ⟨e, e', he, he', hlo⟩ := h s s' hcall
  rw [he, he'] at hne
  exact hne (congrArg some (hlo hres))

/-- Declared locals are not zeroed: the function returns what it finds below the stack pointer. -/
theorem compilers_leak_readFn : CoreBody readFn.body ∧ deadCode readFn.body = [] ∧
    readFn.IsValidated ∧ ¬X64.target.LeakFree 0 readFn ∧ ¬Arm64.target.LeakFree 0 readFn := by
  refine ⟨by decide, rfl, ⟨_, rfl, rfl, rfl⟩, ?_, ?_⟩
  · exact Target.not_leakFree rfl (Machine.leftover_sameCall X64.target 0x11 0x22) (by decide)
      (by decide +kernel)
  · exact Target.not_leakFree rfl (Machine.leftover_sameCall Arm64.target 0x11 0x22) (by decide)
      (by decide +kernel)

end Wasmcc
