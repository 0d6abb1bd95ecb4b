import Wasmcc.Compiler.Compiled
import Wasmcc.Compiler.Spill
import Wasmcc.Parser.ModuleBuilder

/-!
# Where the prologue saves parameters from

A System V caller counts the arguments by class: the integers and references go to `rdi`, `rsi`,
`rdx`, `rcx`, `r8` and `r9`, the others to `xmm0` and on (`X64.Passed`). `Prologue` takes the
registers of `kGpArgs` by the position of the parameter, whatever its class, and the width of its
store from `IsValType32Bit`, to which a reference is 32 bits wide.

So the slot of a parameter is right if all before it are of the integer class and it is an `i32` or
an `i64` itself, and only then (`X64.savesParameter_iff`). All slots are right exactly for a
signature of `i32` and `i64` alone (`X64.savesParameters_iff`).
-/

open Basis

namespace Wasmcc

/-- An argument of this type is passed in a general purpose register. -/
def ValType.isIntegerClass : ValType → Bool
  | .i32 | .i64 | .funcRef | .externRef => true
  | .f32 | .f64 | .v128 => false

/-! ### The stores of the prologue -/

/-- Two slots of a frame of any size do not meet. -/
theorem FunctionFrame.slots_apart {m : Function.Metadata} {i j : ℕ} {vt vt' : ValType}
    (hi : m.localTypes[i]? = some vt) (hj : m.localTypes[j]? = some vt') (hij : i ≠ j)
    (hilt : i < 2 ^ 26) (hjlt : j < 2 ^ 26) {offset offset' : BitVec 32}
    (ho : (new m).localStackOffset i = .ok offset)
    (ho' : (new m).localStackOffset j = .ok offset') {n n' : ℕ} (hn : 0 < n)
    (hnle : n ≤ vt.sizeBytes) (hn' : 0 < n') (hnle' : n' ≤ vt'.sizeBytes) (base : BitVec 64) :
    Memory.Disjoint (base + offset.signExtend 64) n (base + offset'.signExtend 64) n' := by
  have hlt := (List.getElem?_eq_some_iff.mp hi).1
  have hlt' := (List.getElem?_eq_some_iff.mp hj).1
  obtain rfl := Except.ok.inj ((localStackOffset_new m hlt).symm.trans ho)
  obtain rfl := Except.ok.inj ((localStackOffset_new m hlt').symm.trans ho')
  have hafter := sizeOfTypes_take_succ hi
  have hafter' := sizeOfTypes_take_succ hj
  -- offsets this small do not wrap
  have hle := sizeOfTypes_le (m.localTypes.take (i + 1))
  have hle' := sizeOfTypes_le (m.localTypes.take (j + 1))
  rw [List.length_take] at hle hle'
  refine slots_disjoint base _ (by omega) (by omega) hn hn' ?_
  rcases Nat.lt_or_gt_of_ne hij with hlt | hgt
  · have := sizeOfTypes_take_mono m.localTypes (show i + 1 ≤ j from hlt)
    omega
  · have := sizeOfTypes_take_mono m.localTypes (show j + 1 ≤ i from hgt)
    omega

section Saves

variable {ι : Type} {t : Target ι} {frame : FunctionFrame}

/-- **The loop over the parameters.** Nothing but the bytes stored changes, and a slot that is apart
from those of the others holds what was stored there, over what it held before. -/
theorem Assembler.Saves.exec {i : ℕ} {vts : List ValType} {code : List ι}
    (hs : t.Saves frame i vts code) (m : Machine) :
    ∃ m', t.isa.execBlock code m = some m' ∧ m'.sp = m.sp ∧
      (∀ b, (∀ k vt offset, vts[k]? = some vt → frame.localStackOffset (i + k) = .ok offset →
        ¬Memory.InRange (m.addr offset) vt.castBytes b) → m'.mem b = m.mem b) ∧
      ∀ k vt reg offset, vts[k]? = some vt → t.gpArgs[i + k]? = some reg →
        frame.localStackOffset (i + k) = .ok offset →
        (∀ k' vt' offset', k' ≠ k → vts[k']? = some vt' →
          frame.localStackOffset (i + k') = .ok offset' →
          Memory.Disjoint (m.addr offset) vt.sizeBytes (m.addr offset') vt'.castBytes) →
        Memory.AgreeOn m'.mem (m.mem.write (m.addr offset) vt.castBytes (m.reg reg).toNat)
          (m.addr offset) vt.sizeBytes := by
  induction hs generalizing m with
  | nil => exact ⟨m, rfl, rfl, fun _ _ => rfl, fun k vt reg offset hk => by cases hk⟩
  | @cons i vt vts reg offset code hr ho hs ih =>
    obtain ⟨m', hexec, hsp, hkept, hsaved⟩ := ih (m.store offset (reg.cast vt))
    have hmem : (m.store offset (reg.cast vt)).mem =
        m.mem.write (m.addr offset) vt.castBytes (m.reg reg).toNat := by
      rw [Machine.store, Reg.cast_bytes, Reg.cast_id]
    have hnext (k : ℕ) : i + (k + 1) = i + 1 + k := by omega
    refine ⟨m', ?_, hsp, fun b hb => ?_, fun k vt₁ reg₁ offset₁ hk hr₁ ho₁ hapart b hb => ?_⟩
    · rw [Isa.execBlock_cons (t.exec_store _ _ _), hexec]
    · rw [hkept b fun k vt₁ offset₁ hk ho₁ => hb (k + 1) vt₁ offset₁ hk (hnext k ▸ ho₁), hmem]
      exact Memory.write_of_not_inRange m.mem _ (hb 0 vt offset rfl ho)
    cases k with
    | zero =>
      -- the later stores do not reach this slot
      obtain rfl := Option.some.inj hk
      obtain rfl := Option.some.inj (hr.symm.trans hr₁)
      obtain rfl := Except.ok.inj (ho.symm.trans ho₁)
      rw [hkept b fun k vt' offset' hk' ho' =>
        hapart (k + 1) vt' offset' (Nat.succ_ne_zero k) hk' (hnext k ▸ ho') b hb, hmem]
    | succ k =>
      -- and neither does the first one
      rw [hnext k] at hr₁ ho₁
      have hfirst := hapart 0 vt offset (Nat.succ_ne_zero k).symm rfl ho b hb
      have hrest := hsaved k vt₁ reg₁ offset₁ hk hr₁ ho₁
        (fun k' vt' offset' hne hk' ho' => hapart (k' + 1) vt' offset'
          (fun he => hne (Nat.succ.inj he)) hk' (hnext k' ▸ ho')) b hb
      rw [hrest, hmem]
      exact Memory.write_congr _ _ _ (.inl (Memory.write_of_not_inRange m.mem _ hfirst))

end Saves

namespace X64

/-! ### What a caller passes -/

/-- The state in which a function is entered. No instruction of its code names a vector register, so
the machine does not have them. -/
structure Caller where
  machine : Machine
  xmm : ℕ → BitVec 128

/-- The arguments in the registers of the System V convention, when `gp` general purpose and `sse`
vector registers are taken already. The bytes of a register beyond those of its argument can be
anything. -/
inductive Passed (c : Caller) : ℕ → ℕ → List ValType → List ℕ → Prop
  | nil {gp sse : ℕ} : Passed c gp sse [] []
  | integer {gp sse : ℕ} {vt : ValType} {vts : List ValType} {args : List ℕ} {reg : Reg}
      (hvt : vt.isIntegerClass = true) (hr : kGpArgs[gp]? = some reg)
      (hs : Passed c (gp + 1) sse vts args) :
      Passed c gp sse (vt :: vts) ((c.machine.reg reg).toNat % 256 ^ vt.sizeBytes :: args)
  | vector {gp sse : ℕ} {vt : ValType} {vts : List ValType} {args : List ℕ}
      (hvt : vt.isIntegerClass = false) (hs : Passed c gp (sse + 1) vts args) :
      Passed c gp sse (vt :: vts) ((c.xmm sse).toNat % 256 ^ vt.sizeBytes :: args)

/-- Every caller passes something. -/
theorem Passed.total (c : Caller) (vts : List ValType) :
    ∀ {gp sse : ℕ}, gp + vts.length ≤ kGpArgs.length → ∃ args, Passed c gp sse vts args := by
  induction vts with
  | nil => exact fun _ => ⟨[], .nil⟩
  | cons vt vts ih =>
    intro gp sse hle
    rw [List.length_cons] at hle
    -- only parameters of the integer class take one of the registers
    cases hvt : vt.isIntegerClass with
    | true =>
      obtain ⟨args, hargs⟩ := ih (show gp + 1 + vts.length ≤ _ by omega)
      exact ⟨_, .integer hvt (List.getElem?_eq_getElem (show gp < kGpArgs.length by omega)) hargs⟩
    | false =>
      obtain ⟨args, hargs⟩ := ih (show gp + vts.length ≤ _ by omega)
      exact ⟨_, .vector hvt hargs⟩

/-- The register of an argument: how many of its class come before it. -/
theorem Passed.getElem? {c : Caller} {gp sse : ℕ} {vts : List ValType} {args : List ℕ}
    (h : Passed c gp sse vts args) {i : ℕ} {vt : ValType} (hi : vts[i]? = some vt) :
    (vt.isIntegerClass = true ∧ ∃ reg,
        kGpArgs[gp + (vts.take i).countP ValType.isIntegerClass]? = some reg ∧
        args[i]? = some ((c.machine.reg reg).toNat % 256 ^ vt.sizeBytes)) ∨
      vt.isIntegerClass = false ∧ ∃ n, args[i]? = some ((c.xmm n).toNat % 256 ^ vt.sizeBytes) := by
  induction h generalizing i with
  | nil => cases hi
  | @integer gp sse vt' vts args reg hvt hr hs ih =>
    cases i with
    | zero =>
      obtain rfl := Option.some.inj hi
      exact .inl ⟨hvt, reg, hr, rfl⟩
    | succ i =>
      -- one more parameter of the integer class stands in front
      have hcount : gp + 1 + (vts.take i).countP ValType.isIntegerClass =
          gp + ((vt' :: vts).take (i + 1)).countP ValType.isIntegerClass := by
        rw [List.take_succ_cons, List.countP_cons_of_pos hvt]
        omega
      rw [← hcount]
      exact ih hi
  | @vector gp sse vt' vts args hvt hs ih =>
    cases i with
    | zero =>
      obtain rfl := Option.some.inj hi
      exact .inr ⟨hvt, sse, rfl⟩
    | succ i =>
      have hcount : ((vt' :: vts).take (i + 1)).countP ValType.isIntegerClass =
          (vts.take i).countP ValType.isIntegerClass := by
        rw [List.take_succ_cons, List.countP_cons_of_neg (by rw [hvt]; exact Bool.false_ne_true)]
      rw [hcount]
      exact ih hi

/-! ### The property -/

/-- After the prologue, entered from any caller, the slot of parameter `i` holds its argument. -/
def SavesParameter (f : Function.Metadata) (i : ℕ) : Prop :=
  ∀ c args, Passed c 0 0 f.signature.parameterTypes args →
    ∃ code m', assembler.prologue (.new f) = .ok code ∧
      isa.execBlock code c.machine = some m' ∧
      ∀ vt arg offset, f.signature.parameterTypes[i]? = some vt → args[i]? = some arg →
        (FunctionFrame.new f).localStackOffset i = .ok offset → m'.read offset vt.sizeBytes = arg

variable {f : Function.Metadata} {i : ℕ}

/-- **What the prologue leaves in a slot**: as many bytes as the store has of the register at the
position of the parameter, over what was there. -/
theorem prologue_exec (h : f.signature.parameterTypes.length ≤ kMaxFunctionParameters)
    (m : Machine) :
    ∃ code m', assembler.prologue (.new f) = .ok code ∧ isa.execBlock code m = some m' ∧
      ∀ i vt reg offset, f.signature.parameterTypes[i]? = some vt → kGpArgs[i]? = some reg →
        (FunctionFrame.new f).localStackOffset i = .ok offset → ∃ a,
          m'.read offset vt.sizeBytes =
            (m.mem.write a vt.castBytes (m.reg reg).toNat).read a vt.sizeBytes := by
  have hlocals : f.signature.parameterTypes.length ≤
      (FunctionFrame.new f).localsStackOffset.length := by
    rw [FunctionFrame.new_localsStackOffset_length, Function.Metadata.localTypes,
      List.length_append]
    exact Nat.le_add_right _ _
  have hargs : 0 + f.signature.parameterTypes.length ≤ assembler.gpArgs.length := by
    rw [Nat.zero_add]
    exact h
  obtain ⟨saves, hcode, hsaves⟩ := Assembler.saveParameters_eq assembler (.new f)
    f.signature.parameterTypes 0 hargs (by rwa [Nat.zero_add])
  obtain ⟨m', hexec, hsp, -, hslots⟩ := Assembler.Saves.exec (t := target) hsaves
    (m.enter true (FunctionFrame.new f).stackSizeBytes)
  refine ⟨_, m', bind_eq_ok.mpr ⟨saves, hcode, rfl⟩, hexec, ?_⟩
  intro i vt reg offset hi hr ho
  -- a parameter has the slot of the local of its index
  have hlocal {k : ℕ} {vt : ValType} (hk : f.signature.parameterTypes[k]? = some vt) :
      f.localTypes[k]? = some vt ∧ k < 2 ^ 26 := by
    have hlt := (List.getElem?_eq_some_iff.mp hk).1
    rw [kMaxFunctionParameters] at h
    refine ⟨?_, by omega⟩
    rw [Function.Metadata.localTypes, List.getElem?_append_left hlt, hk]
  have hslot := hslots i vt reg offset hi (by rwa [Nat.zero_add]) (by rwa [Nat.zero_add])
    fun k vt' offset' hne hk ho' => by
      rw [Nat.zero_add] at ho'
      exact FunctionFrame.slots_apart (hlocal hi).1 (hlocal hk).1 (Ne.symm hne) (hlocal hi).2
        (hlocal hk).2 ho ho' vt.sizeBytes_pos le_rfl vt'.castBytes_pos vt'.castBytes_le_sizeBytes _
  refine ⟨(m.enter true (FunctionFrame.new f).stackSizeBytes).addr offset, ?_⟩
  rw [Machine.read, show m'.addr offset = _ by rw [Machine.addr, hsp, ← Machine.addr]]
  exact Memory.read_congr (by have := vt.sizeBytes_le; omega) hslot

/-! ### When it holds -/

/-- The parameter is stored from its own register, and as wide as it is. -/
theorem savesParameter_of_own (h : f.signature.parameterTypes.length ≤ kMaxFunctionParameters)
    {vt : ValType} (hi : f.signature.parameterTypes[i]? = some vt)
    (hvt : vt.isIntegerClass = true) (hwide : vt.castBytes = vt.sizeBytes)
    (hbefore : (f.signature.parameterTypes.take i).countP ValType.isIntegerClass = i) :
    SavesParameter f i := by
  intro c args hpassed
  obtain ⟨code, m', hcode, hexec, hslots⟩ := prologue_exec h c.machine
  refine ⟨code, m', hcode, hexec, fun vt' arg offset hi' harg ho => ?_⟩
  obtain rfl := Option.some.inj (hi.symm.trans hi')
  obtain ⟨-, reg, hr, harg'⟩ | ⟨hvec, -⟩ := hpassed.getElem? hi
  · -- all before it are in general purpose registers, so it is in the one of its index
    rw [Nat.zero_add, hbefore] at hr
    obtain ⟨a, hread⟩ := hslots i vt reg offset hi hr ho
    obtain rfl := Option.some.inj (harg'.symm.trans harg)
    rw [hread, hwide]
    exact Memory.read_write_first _ a _ le_rfl (by have := vt.sizeBytes_le; omega)
  · rw [hvt] at hvec
    cases hvec

/-- What the property says of one caller. -/
theorem SavesParameter.read_eq (hsaves : SavesParameter f i) {vt : ValType}
    (h : f.signature.parameterTypes.length ≤ kMaxFunctionParameters)
    (hi : f.signature.parameterTypes[i]? = some vt) {c : Caller} {args : List ℕ}
    (hpassed : Passed c 0 0 f.signature.parameterTypes args) {arg : ℕ} (harg : args[i]? = some arg)
    {reg : Reg} (hr : kGpArgs[i]? = some reg) :
    ∃ a, (c.machine.mem.write a vt.castBytes (c.machine.reg reg).toNat).read a vt.sizeBytes =
      arg := by
  have hlocal : i < (FunctionFrame.new f).localsStackOffset.length := by
    have hlt := (List.getElem?_eq_some_iff.mp hi).1
    rw [FunctionFrame.new_localsStackOffset_length, Function.Metadata.localTypes,
      List.length_append]
    omega
  obtain ⟨offset, ho⟩ := FunctionFrame.localStackOffset_of_lt hlocal
  obtain ⟨code, m', hcode, hexec, hslot⟩ := hsaves c args hpassed
  obtain ⟨code₁, m₁, hcode₁, hexec₁, hslots⟩ := prologue_exec h c.machine
  -- the prologue is the one whose stores are known
  obtain rfl := Except.ok.inj (hcode.symm.trans hcode₁)
  obtain rfl := Option.some.inj (hexec.symm.trans hexec₁)
  obtain ⟨a, hread⟩ := hslots i vt reg offset hi hr ho
  exact ⟨a, hread.symm.trans (hslot vt arg offset hi harg ho)⟩

/-- **A store that is too narrow** leaves the end of the slot as it was. -/
theorem not_savesParameter_of_narrow
    (h : f.signature.parameterTypes.length ≤ kMaxFunctionParameters) {vt : ValType}
    (hi : f.signature.parameterTypes[i]? = some vt) (hnarrow : vt.castBytes < vt.sizeBytes) :
    ¬SavesParameter f i := by
  intro hsaves
  have hlt : i < kGpArgs.length := (List.getElem?_eq_some_iff.mp hi).1.trans_le h
  have hr := List.getElem?_eq_getElem hlt
  -- all registers are zero, and so is the argument; memory is not
  obtain ⟨args, hpassed⟩ : ∃ args,
      Passed ⟨.allSet, fun _ => 0⟩ 0 0 f.signature.parameterTypes args :=
    Passed.total _ _ (by rw [Nat.zero_add]; exact h)
  have harg : args[i]? = some 0 := by
    obtain ⟨-, reg, -, harg⟩ | ⟨-, n, harg⟩ := hpassed.getElem? hi
    · exact harg.trans (congrArg some (Nat.zero_mod _))
    · exact harg.trans (congrArg some (Nat.zero_mod _))
  obtain ⟨a, hread⟩ := hsaves.read_eq h hi hpassed harg hr
  exact Memory.read_write_narrow a hnarrow (by have := vt.sizeBytes_le; omega) hread

/-- Zero in one register and in all of memory, and one in the other registers. -/
def zeroIn (reg : Reg) : Machine where
  reg := Function.update (fun _ => 1) reg 0
  sp := 0
  carry := false
  mem _ := 0#8
  ip := 0

theorem zeroIn_self (reg : Reg) : (zeroIn reg).reg reg = 0 := by
  simp [zeroIn]

theorem zeroIn_of_ne {reg r : Reg} (h : r ≠ reg) : (zeroIn reg).reg r = 1 := by
  simp [zeroIn, h]

/-- **A store from another register** than the one of the argument. -/
theorem not_savesParameter_of_other
    (h : f.signature.parameterTypes.length ≤ kMaxFunctionParameters) {vt : ValType}
    (hi : f.signature.parameterTypes[i]? = some vt)
    (hother : vt.isIntegerClass = true →
      (f.signature.parameterTypes.take i).countP ValType.isIntegerClass ≠ i) :
    ¬SavesParameter f i := by
  intro hsaves
  have hlt : i < kGpArgs.length := (List.getElem?_eq_some_iff.mp hi).1.trans_le h
  have hr := List.getElem?_eq_getElem hlt
  -- the register that is stored is zero, all others are one
  obtain ⟨args, hpassed⟩ : ∃ args,
      Passed ⟨zeroIn kGpArgs[i], fun _ => 1⟩ 0 0 f.signature.parameterTypes args :=
    Passed.total _ _ (by rw [Nat.zero_add]; exact h)
  have hone : 1 % 256 ^ vt.sizeBytes = 1 :=
    Nat.mod_eq_of_lt (Nat.one_lt_pow vt.sizeBytes_pos.ne' (by norm_num))
  have harg : args[i]? = some 1 := by
    obtain ⟨hvt, reg', hr', harg⟩ | ⟨-, n, harg⟩ := hpassed.getElem? hi
    · have hne : reg' ≠ kGpArgs[i] := by
        rintro rfl
        rw [Nat.zero_add] at hr'
        exact hother hvt ((List.getElem?_inj hlt (by decide)).mp (hr.trans hr'.symm)).symm
      rw [harg]
      change some (((zeroIn kGpArgs[i]).reg reg').toNat % _) = _
      rw [zeroIn_of_ne hne]
      exact congrArg some hone
    · exact harg.trans (congrArg some hone)
  obtain ⟨a, hread⟩ := hsaves.read_eq h hi hpassed harg hr
  change Memory.read (Memory.write (fun _ => 0#8) a _ ((zeroIn kGpArgs[i]).reg kGpArgs[i]).toNat)
    a _ = 1 at hread
  rw [zeroIn_self] at hread
  change Memory.read (Memory.write (fun _ => 0#8) a _ 0) a _ = 1 at hread
  rw [Memory.write_clear, Memory.read_clear] at hread
  exact absurd hread (by decide)

/-- **One parameter**: it is an `i32` or an `i64`, and all before it are passed in general purpose
registers. -/
theorem savesParameter_iff (h : f.signature.parameterTypes.length ≤ kMaxFunctionParameters)
    {vt : ValType} (hi : f.signature.parameterTypes[i]? = some vt) :
    SavesParameter f i ↔ (vt = .i32 ∨ vt = .i64) ∧
      ∀ u ∈ f.signature.parameterTypes.take i, u.isIntegerClass = true := by
  have hlt := (List.getElem?_eq_some_iff.mp hi).1
  have hcount : (f.signature.parameterTypes.take i).countP ValType.isIntegerClass = i ↔
      ∀ u ∈ f.signature.parameterTypes.take i, u.isIntegerClass = true := by
    rw [← List.countP_eq_length, List.length_take, Nat.min_eq_left hlt.le]
  rw [← hcount]
  constructor
  · intro hsaves
    -- a parameter that is saved was looked for where it was passed
    have hown : vt.isIntegerClass = true ∧
        (f.signature.parameterTypes.take i).countP ValType.isIntegerClass = i := by
      by_contra hother
      exact not_savesParameter_of_other h hi (fun hvt he => hother ⟨hvt, he⟩) hsaves
    refine ⟨?_, hown.2⟩
    by_contra hne
    refine not_savesParameter_of_narrow h hi ?_ hsaves
    cases vt with
    | i32 => exact absurd (.inl rfl) hne
    | i64 => exact absurd (.inr rfl) hne
    | funcRef => decide
    | externRef => decide
    | f32 => cases hown.1
    | f64 => cases hown.1
    | v128 => cases hown.1
  · rintro ⟨rfl | rfl, hbefore⟩
    · exact savesParameter_of_own h hi rfl rfl hbefore
    · exact savesParameter_of_own h hi rfl rfl hbefore

/-- **When every parameter is saved from where it was passed**: exactly for the signatures whose
parameters are `i32` and `i64`. -/
theorem savesParameters_iff {f : Function.Metadata}
    (h : f.signature.parameterTypes.length ≤ kMaxFunctionParameters) :
    (∀ i < f.signature.parameterTypes.length, SavesParameter f i) ↔
      ∀ vt ∈ f.signature.parameterTypes, vt = .i32 ∨ vt = .i64 := by
  constructor
  · intro hall vt hvt
    obtain ⟨i, hi⟩ := List.getElem?_of_mem hvt
    have hlt := (List.getElem?_eq_some_iff.mp hi).1
    exact ((savesParameter_iff h hi).mp (hall i hlt)).1
  · intro hint i hlt
    have hi := List.getElem?_eq_getElem hlt
    refine (savesParameter_iff h hi).mpr ⟨hint _ (List.getElem_mem hlt), fun u hu => ?_⟩
    -- both types are of the integer class
    obtain rfl | rfl := hint u (List.mem_of_mem_take hu)
    · rfl
    · rfl

/-- As many parameters as there are registers, of both widths. -/
theorem savesParameters_integers : kGpArgs.length = 6 ∧
    ∀ i < 6, SavesParameter ⟨⟨[.i32, .i64, .i32, .i64, .i32, .i64], []⟩, [.f64], 8, 2⟩ i :=
  ⟨rfl, (savesParameters_iff (f := ⟨⟨[.i32, .i64, .i32, .i64, .i32, .i64], []⟩, [.f64], 8, 2⟩)
    (by decide)).mpr (by decide)⟩

/-- A double is passed in `xmm0`, and the slot of the one parameter is filled from `rdi`. -/
theorem double_not_saved : ¬∀ i < 1, SavesParameter ⟨⟨[.f64], []⟩, [], 0, 0⟩ i := by
  intro h
  exact not_savesParameter_of_other (by decide) rfl (fun hvt => by cases hvt) (h 0 Nat.one_pos)

end X64

end Wasmcc
