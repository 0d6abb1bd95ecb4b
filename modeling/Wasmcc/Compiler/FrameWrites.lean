import Wasmcc.Compiler.Convention
import Wasmcc.Compiler.Leak

/-!
# What x64 code writes to memory

The prologue of a function reserves `StackSizeBytes` bytes below the stack pointer. The spill slots
are in them, counted from the stack pointer after the subtraction. The slots of the locals are not:
the constructor of `FunctionFrame` moves their offsets down by the size of the frame, and the code
uses them relative to the stack pointer that has been moved down already. So a parameter that is
saved and a local that is set are written below the stack pointer.

`x64_writes_own_frame_iff` is the exact condition. A function writes inside its frame if and only if
it has no parameters, sets no local, and its frame is smaller than `2 ^ 31` bytes.
-/

open Basis

namespace Wasmcc

open StackMachine

namespace X64

/-- The instruction stores to the byte at `b`. -/
def Instr.Stores (m : Machine) (b : BitVec 64) : Instr → Prop
  | .movToMem disp src => Memory.InRange (m.addr disp) src.width.bytes b
  | _ => False

end X64

/-- The byte is one of the `size` bytes below `sp`, which is the stack pointer at the entry of a
function that moves it down by `size`. -/
def Reserved (sp : BitVec 64) (size : BitVec 32) (b : BitVec 64) : Prop :=
  Memory.InRange (sp - size.signExtend 64) size.toInt.toNat b

/-- Whatever the code of the function stores to, on any run, is in its frame. -/
def X64.WritesOwnFrame (f : Function) (code : List X64.Instr) : Prop :=
  ∀ m pc s i b, X64.target.isa.Reaches code 0 m pc s → code[pc]? = some i → i.Stores s b →
    Reserved m.sp (FunctionFrame.new f.meta_).stackSizeBytes b

/-! ### The stack pointer between `enter` and `leave` -/

namespace Target

variable {ι : Type} {t : Target ι} {writes : ι → List Destination} {size : BitVec 32}
  {between : List ι}

theorem getElem?_between {pc : ℕ} {i : ι} (hpc : 0 < pc) (hlt : pc ≤ between.length)
    (hi : (t.enter size :: between ++ [t.leave size, t.ret])[pc]? = some i) : i ∈ between := by
  obtain ⟨k, rfl⟩ : ∃ k, pc = k + 1 := ⟨pc - 1, by omega⟩
  rw [List.cons_append, List.getElem?_cons_succ, List.getElem?_append_left (by omega)] at hi
  exact List.mem_of_getElem? hi

/-- **Where the stack pointer is**: where it was at the entry, and then lower by the size of the
frame until it is moved back. -/
theorem sp_of_reaches (hw : WriteSets t writes) (hbetween : ∀ i ∈ between, .sp ∉ writes i)
    {m s : Machine} {pc : ℕ}
    (h : t.isa.Reaches (t.enter size :: between ++ [t.leave size, t.ret]) 0 m pc s) :
    (pc = 0 → s.sp = m.sp) ∧
      (0 < pc → pc ≤ between.length + 1 → s.sp = m.sp - size.signExtend 64) := by
  set code := t.enter size :: between ++ [t.leave size, t.ret] with hcode
  have hkeeps {pc : ℕ} {s s' : Machine} {i : ι} (hpc : 0 < pc) (hlt : pc ≤ between.length)
      (hi : code[pc]? = some i) (hx : (t.isa.exec i s).state = s') : s'.sp = s.sp := by
    rw [← hx]
    exact hw.sp i s (hbetween i (getElem?_between hpc hlt hi))
  induction h with
  | start => exact ⟨fun _ => rfl, fun hpos => absurd hpos (lt_irrefl 0)⟩
  | @next pc s s' i _ hi hx ih =>
    refine ⟨fun hpc => absurd hpc (Nat.succ_ne_zero pc), fun _ hlt => ?_⟩
    rcases Nat.eq_zero_or_pos pc with rfl | hpos
    · obtain rfl := Option.some.inj hi
      rw [t.exec_enter] at hx
      obtain rfl := Flow.next.inj hx
      show s.sp - _ = _
      rw [ih.1 rfl]
    · rw [hkeeps hpos (by omega) hi (by rw [hx]; rfl)]
      exact ih.2 hpos (by omega)
  | @jump pc pc' s s' i l _ hi hx hl ih =>
    have hlt : pc < code.length := (List.getElem?_eq_some_iff.mp hi).1
    have hlen : code.length = between.length + 3 := by simp [hcode]
    -- only the instructions between the two can jump
    have hmiddle : 0 < pc ∧ pc ≤ between.length := by
      by_contra hno
      obtain rfl | rfl | rfl : pc = 0 ∨ pc = between.length + 1 ∨ pc = between.length + 2 := by
        omega
      · obtain rfl := Option.some.inj hi
        rw [t.exec_enter] at hx
        cases hx
      · obtain rfl : t.leave size = i := by simpa [hcode] using hi
        rw [t.exec_leave] at hx
        cases hx
      · obtain rfl : t.ret = i := by simpa [hcode] using hi
        rw [t.exec_ret] at hx
        cases hx
    have hsp : s'.sp = s.sp := hkeeps hmiddle.1 hmiddle.2 hi (by rw [hx]; rfl)
    refine ⟨fun hpc => ?_, fun _ _ => ?_⟩
    · -- and the first instruction binds no label
      subst hpc
      have hbinds : t.isa.binds (t.enter size) = none :=
        t.binds_other size 0 0 (Reg.r32 0) (Reg.r32 0) 0 0 l _ List.mem_cons_self
      simp [Isa.target, hcode, List.findIdx?_cons, hbinds] at hl
    · rw [hsp]
      exact ih.2 hmiddle.1 (by omega)

end Target

/-! ### What is spilled -/

/-- The registers of a window are some of those that are allocated. -/
theorem Window.Valid.length_le {pool : RegisterMask} {w : Window} (h : w.Valid pool) :
    w.regs.length ≤ pool.toList.length :=
  (List.subperm_of_subset h.nodup fun r hr =>
    RegisterMask.mem_toList.mpr (h.pool r hr)).length_le

namespace Assembler

variable {ι : Type} {a : Assembler ι} {frame : FunctionFrame} {exitLabel : Label} {w w' : Window}
  {r : Reg} {code : List ι}

/-- The code stores a register to the slot of element `j`. -/
def StoresSlot (a : Assembler ι) (code : List ι) (j : ℕ) : Prop :=
  ∃ r, a.store (BitVec.ofNat 32 (4 * (j + 1))) (Reg.r32 r) ∈ code

theorem StoresSlot.mono {code' : List ι} {j : ℕ} (h : a.StoresSlot code j) (hsub : code ⊆ code') :
    a.StoresSlot code' j := by
  obtain ⟨r, hr⟩ := h
  exact ⟨r, hsub hr⟩

theorem storesSlot_spillCode {k j : ℕ} {rs : List Reg} (hk : k ≤ j) (hj : j < k + rs.length) :
    a.StoresSlot (a.spillCode k rs) j := by
  induction rs with
  | nil => exact absurd hj (not_lt_of_ge hk)
  | cons r rs ih =>
    rw [List.length_cons] at hj
    rcases Nat.lt_or_ge j (k + rs.length) with hlt | hge
    · exact (ih hlt).mono (List.subset_append_left _ _)
    · obtain rfl : j = k + rs.length := by omega
      exact ⟨r, List.mem_append_right _ List.mem_cons_self⟩

theorem Acquire.storesSlot (h : a.Acquire w r w' code) {j : ℕ} (hj : j < w'.spilled) :
    j < w.spilled ∨ a.StoresSlot code j := by
  cases h with
  | free => exact Or.inl hj
  | @spill _ rs k =>
    have hlt : j < k + 1 := hj
    rcases Nat.lt_or_ge j k with hold | hnew
    · exact Or.inl hold
    · refine Or.inr (storesSlot_spillCode hnew ?_)
      rw [List.length_cons]
      omega

theorem Release.spilled_le {held : List Reg} (h : a.Release held w r w' code) :
    w'.spilled ≤ w.spilled := by
  cases h with
  | reg => exact le_rfl
  | reload => exact Nat.le_succ _

theorem Visit.storesSlot {i : Instruction} (h : a.Visit frame exitLabel w i w' code) {j : ℕ}
    (hj : j < w'.spilled) : j < w.spilled ∨ a.StoresSlot code j := by
  cases h with
  | const value hr =>
    refine (hr.storesSlot hj).imp_right fun hs => hs.mono ?_
    rw [List.append_assoc]
    exact List.subset_append_left _ _
  | add h2 h1 => exact Or.inl (hj.trans_le (h1.spilled_le.trans h2.spilled_le))
  | get hr ho =>
    exact (hr.storesSlot hj).imp_right fun hs => hs.mono (List.subset_append_left _ _)
  | set hr ho => exact Or.inl (hj.trans_le hr.spilled_le)
  | return_ => exact Or.inl hj

/-- **What is in memory was stored there.** -/
theorem Visits.storesSlot {body : List Instruction} (h : a.Visits frame exitLabel w body w' code)
    {j : ℕ} (hj : j < w'.spilled) : j < w.spilled ∨ a.StoresSlot code j := by
  induction h with
  | nil => exact Or.inl hj
  | cons hi his ih =>
    rcases ih hj with hmid | hrest
    · exact (hi.storesSlot hmid).imp_right fun hs => hs.mono (List.subset_append_left _ _)
    · exact Or.inr (hrest.mono (List.subset_append_right _ _))

/-- A body passes through a window of its greatest depth. -/
theorem Visits.exists_maxDepth {body : List Instruction}
    (h : a.Visits frame exitLabel w body w' code) : ∃ done w₁ code₁,
      a.Visits frame exitLabel w done w₁ code₁ ∧ code₁ ⊆ code ∧
        w₁.depth = Instruction.maxDepth w.depth body := by
  induction h with
  | nil => exact ⟨[], _, [], .nil, List.Subset.refl _, rfl⟩
  | @cons w w₁ w₂ i is code rest hi his ih =>
    obtain ⟨done, w₃, code₃, hdone, hcode, hdepth⟩ := ih
    rw [Instruction.maxDepth, ← hi.depth, ← hdepth]
    -- the stack is deepest here, or somewhere in the rest
    rcases le_total w₃.depth w.depth with hle | hle
    · exact ⟨[], w, [], .nil, List.nil_subset _, (max_eq_left hle).symm⟩
    · refine ⟨i :: done, w₃, code ++ code₃, .cons hi hdone, ?_, (max_eq_right hle).symm⟩
      exact List.append_subset.mpr ⟨List.subset_append_left _ _,
        fun j hj => List.mem_append_right code (hcode hj)⟩

/-- **Deep stacks spill.** All elements but as many as there are registers have been stored. -/
theorem Visits.storesSlot_of_lt {body : List Instruction}
    (h : a.Visits frame exitLabel ⟨[], 0⟩ body w' code) {j : ℕ}
    (hj : j + a.callerSaved.toList.length < Instruction.maxDepth 0 body) :
    a.StoresSlot code j := by
  obtain ⟨done, w₁, code₁, hdone, hcode, hdepth⟩ := h.exists_maxDepth
  have hempty : Window.Valid a.callerSaved ⟨[], 0⟩ :=
    ⟨List.nodup_nil, fun r hr => absurd hr List.not_mem_nil⟩
  have hregs := (hdone.emitted hempty le_rfl (List.Subset.refl _)).1.length_le
  have hsum : w₁.regs.length + w₁.spilled = Instruction.maxDepth 0 body := hdepth
  rcases hdone.storesSlot (show j < w₁.spilled by omega) with hno | hs
  · exact absurd hno (Nat.not_lt_zero j)
  · exact hs.mono hcode

/-- Every `SetLocalI32` of a body ends in its instruction. -/
theorem Visits.exists_setLocal {body : List Instruction} {idx : ℕ}
    (h : a.Visits frame exitLabel w body w' code) (hidx : .setLocalI32 idx ∈ body) :
    ∃ offset r, frame.localStackOffset idx = .ok offset ∧ a.setLocal offset r ∈ code := by
  induction h with
  | nil => cases hidx
  | @cons w w₁ w₂ i is code rest hi his ih =>
    rcases List.mem_cons.mp hidx with rfl | hidx
    · -- the visit of this instruction ends with the store
      cases hi with
      | @set _ r code _ offset hr ho =>
        refine ⟨offset, r, ho, ?_⟩
        simp
    · obtain ⟨offset, r, ho, hmem⟩ := ih hidx
      exact ⟨offset, r, ho, List.mem_append_right code hmem⟩

end Assembler

/-! ### The size of the frame -/

theorem toNat_toInt_of_lt {size : BitVec 32} (h : size.toNat < 2 ^ 31) :
    size.toInt.toNat = size.toNat := by
  rw [BitVec.toInt_eq_toNat_cond]
  split_ifs <;> omega

/-- A size of `2 ^ 31` or more is a negative `int32_t`. -/
theorem toNat_toInt_of_ge {size : BitVec 32} (h : 2 ^ 31 ≤ size.toNat) : size.toInt.toNat = 0 := by
  have hlt := size.isLt
  rw [BitVec.toInt_eq_toNat_cond]
  split_ifs <;> omega

namespace Function.Accepted

variable {f : Function}

theorem sizeOfTypes_le (h : f.Accepted) : sizeOfTypes f.meta_.localTypes ≤ 16 * 262 := by
  have hparams := h.limited.parameters
  obtain ⟨func, entry, hfunc, hparse⟩ := h
  have hlocals : f.meta_.locals.length ≤ 256 :=
    (ModuleBuilder.limits_of_parseOneCode hparse (hfunc.locals.trans (by decide))).1
  have hle := Wasmcc.sizeOfTypes_le f.meta_.localTypes
  rw [Function.Metadata.localTypes, List.length_append] at hle
  exact hle.trans (by omega)

/-- The size of the frame, from the locals and the greatest depth of the stack. -/
theorem stackSizeBytes_toNat (h : f.Accepted) (hcore : CoreBody f.body)
    (hdead : deadCode f.body = [])
    (hlt : sizeOfTypes f.meta_.localTypes + 4 * Instruction.maxDepth 0 f.body + 15 < 2 ^ 32) :
    (FunctionFrame.new f.meta_).stackSizeBytes.toNat =
      (sizeOfTypes f.meta_.localTypes + 4 * Instruction.maxDepth 0 f.body + 15) / 16 * 16 := by
  obtain ⟨v, hv, hbytes, -⟩ := h.isValidated
  obtain ⟨-, hmax⟩ := validate_maxima hcore hdead (by omega) hv
  have hstack : f.meta_.maxStackSizeBytes.toNat = 4 * Instruction.maxDepth 0 f.body := by
    rw [hbytes, hmax, BitVec.toNat_ofNat]
    omega
  rw [FunctionFrame.new_stackSizeBytes, FunctionFrame.sizeBytes_toNat (by omega), hstack]

/-- **A frame that is not small** is negative, or has slots at negative offsets. In either case the
slot of an element that is spilled is outside it. -/
theorem exists_slot_outside (h : f.Accepted) (hcore : CoreBody f.body)
    (hdead : deadCode f.body = []) (hsmall : ¬f.SmallFrame) :
    ∃ j, j + 9 < Instruction.maxDepth 0 f.body ∧
      (FunctionFrame.new f.meta_).stackSizeBytes.toInt.toNat ≤
        ((BitVec.ofNat 32 (4 * (j + 1))).signExtend 64).toNat := by
  have hlocals := h.sizeOfTypes_le
  unfold Function.SmallFrame at hsmall
  rcases Nat.lt_or_ge (Instruction.maxDepth 0 f.body) (2 ^ 29 + 10) with hdepth | hdepth
  · -- the size does not wrap and has its sign bit set
    have hsize := h.stackSizeBytes_toNat hcore hdead (by omega)
    refine ⟨0, by omega, ?_⟩
    rw [toNat_toInt_of_ge (by omega)]
    exact Nat.zero_le _
  · -- the slot at offset `2 ^ 31`
    refine ⟨2 ^ 29 - 1, by omega, ?_⟩
    have hoffset : ((BitVec.ofNat 32 (4 * (2 ^ 29 - 1 + 1))).signExtend 64).toNat =
        2 ^ 64 - 2 ^ 31 := by decide
    have hsize := (FunctionFrame.new f.meta_).stackSizeBytes.toInt_lt
    rw [hoffset]
    omega

/-- **The slot of a local** of a small frame is below the stack pointer. -/
theorem local_outside (h : f.Accepted) (hcore : CoreBody f.body) (hdead : deadCode f.body = [])
    (hsmall : f.SmallFrame) {idx : ℕ} {offset : BitVec 32}
    (ho : (FunctionFrame.new f.meta_).localStackOffset idx = .ok offset) :
    (FunctionFrame.new f.meta_).stackSizeBytes.toInt.toNat ≤ (offset.signExtend 64).toNat := by
  have hfit : sizeOfTypes f.meta_.localTypes + 4 * Instruction.maxDepth 0 f.body + 15 < 2 ^ 31 :=
    hsmall
  have hsize := h.stackSizeBytes_toNat hcore hdead (by omega)
  -- an offset that was found belongs to a local
  have hidx : idx < f.meta_.localTypes.length := by
    rw [← FunctionFrame.new_localsStackOffset_length]
    by_contra hge
    rw [FunctionFrame.localStackOffset, List.getElem?_eq_none (by omega)] at ho
    cases ho
  have hbefore := sizeOfTypes_take_lt hidx
  obtain rfl := Except.ok.inj ((FunctionFrame.localStackOffset_new f.meta_ hidx).symm.trans ho)
  -- the offset is negative, so far above the frame as an address
  rw [toNat_toInt_of_lt (by omega), signExtend_ofNat_sub (by omega) (by omega), BitVec.toNat_sub,
    BitVec.toNat_ofNat, BitVec.toNat_ofNat]
  omega

end Function.Accepted

/-! ### The x64 compiler -/

/-- Addresses relative to the stack pointer that has been moved down. -/
theorem reserved_addr {m s : Machine} {size : BitVec 32}
    (hsp : s.sp = m.sp - size.signExtend 64) (offset : BitVec 32) (x : BitVec 64) :
    Reserved m.sp size (s.addr offset + x) ↔
      (offset.signExtend 64 + x).toNat < size.toInt.toNat := by
  rw [Reserved, Memory.InRange, Machine.addr, hsp, add_assoc, add_sub_cancel_left]

namespace X64

variable {f : Function} {out between : List Instr} {size offset : BitVec 32} {src : Gp}

/-- A store is neither the first instruction of a function nor one of the last two. -/
theorem between_of_stores {pc : ℕ} {i : Instr} {m : Machine} {b : BitVec 64}
    (hi : (target.enter size :: between ++ [target.leave size, target.ret])[pc]? = some i)
    (hb : i.Stores m b) : i ∈ between ∧ 0 < pc ∧ pc ≤ between.length + 1 := by
  have hlt := (List.getElem?_eq_some_iff.mp hi).1
  simp only [List.cons_append, List.length_cons, List.length_append, List.length_nil] at hlt
  -- neither `enter` nor what follows the body stores anything
  have hpos : 0 < pc := by
    rw [Nat.pos_iff_ne_zero]
    rintro rfl
    obtain rfl := Option.some.inj hi
    exact hb
  have hleave : pc ≠ between.length + 1 := by
    rintro rfl
    obtain rfl : target.leave size = i := by simpa using hi
    exact hb
  have hret : pc ≠ between.length + 2 := by
    rintro rfl
    obtain rfl : target.ret = i := by simpa using hi
    exact hb
  exact ⟨Target.getElem?_between hpos (by omega) hi, hpos, by omega⟩

/-- A store that is outside the frame is executed on every run. -/
theorem not_writesOwnFrame (hsize : size = (FunctionFrame.new f.meta_).stackSizeBytes)
    (hshape : out = target.enter size :: between ++ [target.leave size, target.ret])
    (hbetween : ∀ i ∈ between, .sp ∉ i.writes)
    (hrun : ∀ m, ∃ e, target.isa.Executes out 0 m out e) (hi : .movToMem offset src ∈ between)
    (houtside : size.toInt.toNat ≤ (offset.signExtend 64).toNat) : ¬WritesOwnFrame f out := by
  intro hwrites
  obtain ⟨e, he⟩ := hrun ⟨fun _ => 0, 0, false, fun _ => 0, 0⟩
  have hmem : .movToMem offset src ∈ out := by
    rw [hshape]
    exact List.mem_append_left _ (List.mem_cons_of_mem _ hi)
  -- some run comes to the store, and there the stack pointer is that of the frame
  obtain ⟨pc, s, hreach, hget⟩ := he.exists_reaches .start _ hmem
  have hstores : (Instr.movToMem offset src).Stores s (s.addr offset + 0) := by
    show Memory.InRange _ _ _
    rw [add_zero, Memory.InRange, sub_self]
    cases src.width <;> decide
  have hreserved := hwrites _ pc s _ _ hreach hget hstores
  rw [hshape] at hreach hget
  obtain ⟨-, hpos, hlt⟩ := between_of_stores hget hstores
  have hsp := (Target.sp_of_reaches writeSets hbetween hreach).2 hpos hlt
  rw [← hsize, reserved_addr hsp, add_zero] at hreserved
  omega

end X64

/-- A body without `SetLocalI32` stores to spill slots only. -/
theorem X64.stores_of_emitted {frame : FunctionFrame} {exitLabel : Label} {depth : ℕ}
    {body : List Instruction} {i : X64.Instr} {m : Machine} {b : BitVec 64}
    (h : X64.target.Emitted frame exitLabel depth body i) (hb : i.Stores m b)
    (hset : ∀ idx, .setLocalI32 idx ∉ body) :
    ∃ k, k + 1 < depth ∧ Memory.InRange (m.addr (BitVec.ofNat 32 (4 * (k + 1)))) 4 b := by
  -- only spills and stores into locals write, and there are none of the second
  cases h with
  | @spill k r hk => exact ⟨k, hk, hb⟩
  | reload hk hr => exact hb.elim
  | const value hr => exact hb.elim
  | add hr => exact hb.elim
  | get hidx ho hr => exact hb.elim
  | set hidx ho hr => exact absurd hidx (hset _)
  | jump hret => exact hb.elim

theorem X64.not_stores_of_movesResult {w : Window} {results : List ValType} {last : List X64.Instr}
    (h : X64.target.MovesResult w results last) {i : X64.Instr} (hi : i ∈ last) (m : Machine)
    (b : BitVec 64) : ¬i.Stores m b := by
  cases h with
  | nil => cases hi
  | cons hr =>
    -- a load and a move, neither of which writes
    rcases List.mem_append.mp hi with hi | hi
    · cases hr with
      | reg => cases hi
      | reload =>
        obtain rfl := List.mem_singleton.mp hi
        exact fun hno => hno
    · split at hi
      · cases hi
      · obtain rfl := List.mem_singleton.mp hi
        exact fun hno => hno

/-- The spill slots of a small frame are in it. -/
theorem Function.Accepted.slot_inside {f : Function} (h : f.Accepted) (hcore : CoreBody f.body)
    (hdead : deadCode f.body = []) (hsmall : f.SmallFrame) {k : ℕ}
    (hk : k + 1 < Instruction.maxDepth 0 f.body) {x : BitVec 64} (hx : x.toNat < 4) :
    ((BitVec.ofNat 32 (4 * (k + 1))).signExtend 64 + x).toNat <
      (FunctionFrame.new f.meta_).stackSizeBytes.toInt.toNat := by
  have hfit : sizeOfTypes f.meta_.localTypes + 4 * Instruction.maxDepth 0 f.body + 15 < 2 ^ 31 :=
    hsmall
  have hsize := h.stackSizeBytes_toNat hcore hdead (by omega)
  have hslot : (BitVec.ofNat 32 (4 * (k + 1))).toNat = 4 * (k + 1) := by
    rw [BitVec.toNat_ofNat]
    omega
  -- the frame has room for the greatest depth
  rw [toNat_toInt_of_lt (by omega), signExtend_of_lt (by omega), hslot, BitVec.toNat_add,
    BitVec.toNat_ofNat]
  omega

section Parts

variable {f : Function} {exitLabel : Label} {saves code last : List X64.Instr} {w : Window}

/-- If all that is stored is in the frame, there are neither parameters to save nor locals to set,
and the frame is small. -/
theorem Function.Accepted.of_stores_inside (h : f.Accepted) (hcore : CoreBody f.body)
    (hdead : deadCode f.body = [])
    (hs : X64.target.Saves (.new f.meta_) 0 f.meta_.signature.parameterTypes saves)
    (hv : X64.target.Visits (.new f.meta_) exitLabel ⟨[], 0⟩ f.body w code)
    (hinside : ∀ offset src, .movToMem offset src ∈ saves ++ code →
      (offset.signExtend 64).toNat < (FunctionFrame.new f.meta_).stackSizeBytes.toInt.toNat) :
    f.meta_.signature.parameterTypes = [] ∧ (∀ idx, .setLocalI32 idx ∉ f.body) ∧
      f.SmallFrame := by
  have hsmall : f.SmallFrame := by
    -- a spill would be outside
    by_contra hlarge
    obtain ⟨j, hj, hle⟩ := h.exists_slot_outside hcore hdead hlarge
    have hregs : X64.target.callerSaved.toList.length = 9 := by decide
    obtain ⟨r, hr⟩ := hv.storesSlot_of_lt (by rw [hregs]; exact hj)
    exact absurd (hinside _ _ (List.mem_append_right _ hr)) (not_lt.mpr hle)
  refine ⟨?_, fun idx hidx => ?_, hsmall⟩
  · -- the first parameter is saved below the stack pointer
    cases hparams : f.meta_.signature.parameterTypes with
    | nil => rfl
    | cons vt vts =>
      rw [hparams] at hs
      cases hs with
      | cons hr ho hs =>
        have hle := h.local_outside hcore hdead hsmall ho
        exact absurd (hinside _ _ (List.mem_append_left _ List.mem_cons_self)) (not_lt.mpr hle)
  · obtain ⟨offset, r, ho, hr⟩ := hv.exists_setLocal hidx
    have hle := h.local_outside hcore hdead hsmall ho
    exact absurd (hinside _ _ (List.mem_append_right _ hr)) (not_lt.mpr hle)

/-- Without parameters and without `SetLocalI32`, a store spills an element of the stack. -/
theorem X64.exists_slot_of_stores (hs : X64.target.Saves (.new f.meta_) 0 [] saves)
    (hv : X64.target.Visits (.new f.meta_) exitLabel ⟨[], 0⟩ f.body w code)
    (hm : X64.target.MovesResult w f.meta_.signature.resultTypes last)
    (hset : ∀ idx, .setLocalI32 idx ∉ f.body) {i : X64.Instr} {m : Machine} {b : BitVec 64}
    (hi : i ∈ saves ++ (code ++ X64.target.bind exitLabel :: last)) (hb : i.Stores m b) :
    ∃ k, k + 1 < Instruction.maxDepth 0 f.body ∧
      Memory.InRange (m.addr (BitVec.ofNat 32 (4 * (k + 1)))) 4 b := by
  cases hs
  -- neither the label nor the move of the result stores
  have hbody : i ∈ code := by
    simp only [List.nil_append, List.mem_append, List.mem_cons] at hi
    rcases hi with hi | rfl | hi
    · exact hi
    · exact hb.elim
    · exact absurd hb (X64.not_stores_of_movesResult hm hi m b)
  have hempty : Window.Valid X64.target.callerSaved ⟨[], 0⟩ :=
    ⟨List.nodup_nil, fun r hr => absurd hr List.not_mem_nil⟩
  have hemitted := (hv.emitted hempty le_rfl (List.Subset.refl _)).2 i hbody
  exact X64.stores_of_emitted hemitted hb hset

end Parts

/-- **Writes of x64 code.** The code of a function that the parser accepts, without dead code,
writes inside the frame of the function if and only if the function has no parameters, sets no
local, and has a frame of less than `2 ^ 31` bytes. -/
theorem x64_writes_own_frame_iff (f : Function) (haccepted : f.Accepted) (hcore : CoreBody f.body)
    (hdead : deadCode f.body = []) (exitLabel : Label) :
    ∃ code, X64.compile exitLabel f = .ok code ∧ (X64.WritesOwnFrame f code ↔
      f.meta_.signature.parameterTypes = [] ∧ (∀ idx, .setLocalI32 idx ∉ f.body) ∧
        f.SmallFrame) := by
  obtain ⟨out, hcompile, hcompiled⟩ :=
    haccepted.compiled X64.target.toAssembler exitLabel hcore hdead (by decide)
  refine ⟨out, hcompile, ?_⟩
  cases hcompiled with
  | @mk saves code last w hs hv hm =>
  set size := (FunctionFrame.new f.meta_).stackSizeBytes with hsize
  set between := saves ++ (code ++ X64.target.bind exitLabel :: last) with hbetween
  have hruns := Target.executes_of_parts X64.writeSets hdead hcompile hs hv hm rfl
  set out := X64.target.enter size :: saves ++ (code ++ (X64.target.bind exitLabel :: last ++
    [X64.target.leave size, X64.target.ret])) with hout
  have hshape : out = X64.target.enter size :: between ++
      [X64.target.leave size, X64.target.ret] := by
    simp [hout, hbetween]
  have hsp : ∀ i ∈ between, .sp ∉ i.writes := by
    intro i hi
    rcases Target.straight_between X64.writeSets hdead hs hv hm i hi with hstraight | rfl
    · exact hstraight.sp_notMem
    · exact List.not_mem_nil
  constructor
  · intro hwrites
    refine haccepted.of_stores_inside hcore hdead hs hv fun offset src hi => ?_
    by_contra hle
    -- every run gets to this store
    have hrun (m : Machine) : ∃ e, X64.target.isa.Executes out 0 m out e := by
      obtain ⟨e, he, -⟩ := hruns m
      exact ⟨e, he⟩
    have hmem : .movToMem offset src ∈ between := by
      rw [hbetween, ← List.append_assoc]
      rcases List.mem_append.mp hi with hi | hi
      · exact List.mem_append_left _ (List.mem_append_left _ hi)
      · exact List.mem_append_left _ (List.mem_append_right _ hi)
    exact X64.not_writesOwnFrame hsize hshape hsp hrun hmem (not_lt.mp hle) hwrites
  · rintro ⟨hparams, hset, hsmall⟩ m pc s i b hreach hget hb
    rw [hparams] at hs
    rw [hshape] at hreach hget
    obtain ⟨hi, hpos, hlt⟩ := X64.between_of_stores hget hb
    obtain ⟨k, hk, hslot⟩ := X64.exists_slot_of_stores hs hv hm hset hi hb
    have hentered := (Target.sp_of_reaches X64.writeSets hsp hreach).2 hpos hlt
    have hbyte := haccepted.slot_inside hcore hdead hsmall hk hslot
    rw [← hsize, ← reserved_addr hentered, add_sub_cancel] at hbyte
    exact hbyte

theorem x64_writes_own_frame_iff_returnFn :
    ∃ code, X64.compile 0 returnFn = .ok code ∧ (X64.WritesOwnFrame returnFn code ↔
      returnFn.meta_.signature.parameterTypes = [] ∧ (∀ idx, .setLocalI32 idx ∉ returnFn.body) ∧
        returnFn.SmallFrame) :=
  x64_writes_own_frame_iff returnFn returnFn_accepted (by decide) rfl 0

/-- The code of `returnFn` saves the parameter 16 bytes below the stack pointer. -/
theorem x64_writes_below_stack_pointer :
    ∃ code, X64.compile 0 returnFn = .ok code ∧
      code[1]? = some (.movToMem (-16) (Reg.r32 X64.rdi)) ∧
      ¬X64.WritesOwnFrame returnFn code := by
  refine ⟨_, rfl, rfl, fun hwrites => ?_⟩
  have hpos := hwrites ⟨fun _ => 0, 4096, false, fun _ => 0, 0⟩ 1 _
    (.movToMem (-16) (Reg.r32 X64.rdi)) (4096 - 32)
    (.next .start rfl (X64.target.exec_enter 16 _)) rfl (by show Memory.InRange _ _ _; decide)
  exact absurd hpos (by unfold Reserved; decide)

end Wasmcc
