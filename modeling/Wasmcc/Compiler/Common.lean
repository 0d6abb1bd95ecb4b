import Wasmcc.Basis.Memory
import Wasmcc.Core.Ast

/-!
# What the two compilers share

`compiler/common`: register sets, the tracker of the registers in use, the compile-time value stack
and the layout of a function's frame. The C++ templates take a calling convention; here the parts
of it that a function needs are its arguments.

Indexing in these classes is unchecked. Where an index can leave its array, or `*reg` can be taken
of an empty optional, the operation returns an `Undefined` instead. Stack offsets are `int32_t`, so
they are `BitVec 32`.
-/

open Basis

namespace Wasmcc

/-- An operation whose result C++ does not define. -/
inductive Undefined where
  /-- `RuntimeStack` indexes outside its array. -/
  | stackIndex
  /-- `FunctionFrame` indexes outside the offsets of the locals. -/
  | localIndex
  /-- `kGpArgs` has no such argument register. -/
  | argumentIndex
  /-- `AllocateRegister` found no register. -/
  | noRegister
deriving DecidableEq, Repr

/-! ### Registers -/

/-- A general purpose register, by its id. -/
abbrev Reg := Fin 32

/-- For the registers that are written as numbers. -/
instance instNeZeroReg : NeZero (32 : ℕ) := ⟨by decide⟩

/-- A set of registers: the bits of a `bitset<32>`. -/
structure RegisterMask where
  test : Reg → Bool := fun _ => false

namespace RegisterMask

def set (m : RegisterMask) (reg : Reg) : RegisterMask := ⟨Function.update m.test reg true⟩

def reset (m : RegisterMask) (reg : Reg) : RegisterMask := ⟨Function.update m.test reg false⟩

def ofList (regs : List Reg) : RegisterMask := regs.foldl set {}

/-- The registers from `begin()` to `end()`: those whose bit is set, by ascending id. -/
def toList (m : RegisterMask) : List Reg := (List.finRange 32).filter m.test

theorem mem_toList {m : RegisterMask} {reg : Reg} : reg ∈ m.toList ↔ m.test reg = true := by
  simp [toList]

theorem toList_nodup (m : RegisterMask) : m.toList.Nodup := (List.nodup_finRange 32).filter _

@[simp] theorem test_set (m : RegisterMask) (reg r : Reg) :
    (m.set reg).test r = true ↔ r = reg ∨ m.test r = true := by
  by_cases h : r = reg <;> simp [set, h]

@[simp] theorem test_reset (m : RegisterMask) (reg r : Reg) :
    (m.reset reg).test r = true ↔ r ≠ reg ∧ m.test r = true := by
  by_cases h : r = reg <;> simp [reset, h]

end RegisterMask

/-- Tracks which registers are in use. -/
structure RegisterTracker where
  gpRegMask : RegisterMask := {}

namespace RegisterTracker

/-- The first caller-saved register not in use, and the tracker with it taken. -/
def takeUnusedRegister (t : RegisterTracker) (callerSaved : RegisterMask) :
    Option (Reg × RegisterTracker) :=
  match callerSaved.toList.find? (fun reg => !t.gpRegMask.test reg) with
  | some reg => some (reg, ⟨t.gpRegMask.set reg⟩)
  | none => none

def markRegisterUnused (t : RegisterTracker) (reg : Reg) : RegisterTracker :=
  ⟨t.gpRegMask.reset reg⟩

theorem takeUnusedRegister_eq_some {t t' : RegisterTracker} {callerSaved : RegisterMask} {reg : Reg}
    (h : t.takeUnusedRegister callerSaved = some (reg, t')) :
    callerSaved.test reg = true ∧ t.gpRegMask.test reg = false ∧ t' = ⟨t.gpRegMask.set reg⟩ := by
  unfold takeUnusedRegister at h
  split at h
  next reg' hf =>
    simp only [Option.some.injEq, Prod.mk.injEq] at h
    obtain ⟨rfl, rfl⟩ := h
    refine ⟨RegisterMask.mem_toList.mp (List.mem_of_find?_eq_some hf), ?_, rfl⟩
    simpa using List.find?_some hf
  · cases h

theorem takeUnusedRegister_eq_none {t : RegisterTracker} {callerSaved : RegisterMask} :
    t.takeUnusedRegister callerSaved = none ↔
      ∀ reg, callerSaved.test reg = true → t.gpRegMask.test reg = true := by
  unfold takeUnusedRegister
  split
  next reg hf =>
    simp only [reduceCtorEq, false_iff, not_forall]
    -- the register that was found is the counterexample
    refine ⟨reg, RegisterMask.mem_toList.mp (List.mem_of_find?_eq_some hf), ?_⟩
    simpa using List.find?_some hf
  next hf =>
    simp only [true_iff]
    intro reg hreg
    have := List.find?_eq_none.mp hf reg (RegisterMask.mem_toList.mpr hreg)
    simpa using this

end RegisterTracker

/-! ### The compile-time stack -/

/-- What the compiler knows of a value on the stack. -/
structure RuntimeValue where
  /-- Where the value can spill to, relative to the stack pointer. -/
  stackPointer : BitVec 32 := 0
  /-- The register that holds it, if one does. -/
  reg : Option Reg := none
  type : ValType := .i32
deriving DecidableEq, Repr

/-- The values on the stack during compilation, the top first, in an array of `capacity`
elements. -/
structure RuntimeStack where
  capacity : ℕ
  stackMemoryOffset : BitVec 32 := 0
  stack : List RuntimeValue := []

namespace RuntimeStack

def push (s : RuntimeStack) (v : RuntimeValue) : Except Undefined RuntimeStack :=
  if s.stack.length < s.capacity then
    let stackMemoryOffset := s.stackMemoryOffset + BitVec.ofNat 32 v.type.sizeBytes
    .ok { s with
      stackMemoryOffset
      stack := { v with stackPointer := stackMemoryOffset } :: s.stack }
  else .error .stackIndex

def pop (s : RuntimeStack) : Except Undefined (RuntimeValue × RuntimeStack) :=
  match s.stack with
  | [] => .error .stackIndex
  | top :: stack => .ok (top, { s with
      stackMemoryOffset := s.stackMemoryOffset - BitVec.ofNat 32 top.type.sizeBytes
      stack })

def peek (s : RuntimeStack) : Except Undefined RuntimeValue :=
  match s.stack with
  | [] => .error .stackIndex
  | top :: _ => .ok top

/-- Assign a register to the element that `Peek` points to. -/
def setTopReg (s : RuntimeStack) (reg : Reg) : RuntimeStack :=
  match s.stack with
  | [] => s
  | top :: stack => { s with stack := { top with reg := some reg } :: stack }

end RuntimeStack

/-! ### The frame of a function -/

/-- The stack alignment of both calling conventions. -/
def kStackAlignment : BitVec 32 := 16

/-- The loops of the constructor of `FunctionFrame` over the types of the locals: the running size
before each of them, and in the end the size of all. -/
def layoutLocals (size : BitVec 32) : List ValType → List (BitVec 32) × BitVec 32
  | [] => ([], size)
  | type :: types =>
    let (offsets, total) := layoutLocals (size + BitVec.ofNat 32 type.sizeBytes) types
    (size :: offsets, total)

/-- Where a function keeps its locals and spilled values. -/
structure FunctionFrame where
  meta_ : Function.Metadata
  localsSizeBytes : BitVec 32
  localsStackOffset : List (BitVec 32)

namespace FunctionFrame

/-- `AlignUp<uint32_t>(locals + max_stack_size_bytes, kStackAlignment)`. -/
def sizeBytes (localsSizeBytes maxStackSizeBytes : BitVec 32) : BitVec 32 :=
  alignUp (localsSizeBytes + maxStackSizeBytes) kStackAlignment

def stackSizeBytes (f : FunctionFrame) : BitVec 32 :=
  sizeBytes f.localsSizeBytes f.meta_.maxStackSizeBytes

/-- The constructor: offsets from the bottom of the locals, moved down by the size of the frame. -/
def new (m : Function.Metadata) : FunctionFrame :=
  let (offsets, localsSizeBytes) := layoutLocals 0#32 m.localTypes
  { meta_ := m
    localsSizeBytes
    localsStackOffset :=
      offsets.map fun offset => offset - sizeBytes localsSizeBytes m.maxStackSizeBytes }

def localStackOffset (f : FunctionFrame) (idx : ℕ) : Except Undefined (BitVec 32) :=
  match f.localsStackOffset[idx]? with
  | some offset => .ok offset
  | none => .error .localIndex

end FunctionFrame

/-! ### The layout in numbers -/

theorem sizeOfTypes_le (ts : List ValType) : sizeOfTypes ts ≤ 16 * ts.length := by
  induction ts with
  | nil => exact le_rfl
  | cons vt ts ih =>
    have hvt := vt.sizeBytes_le
    simp only [sizeOfTypes, List.map_cons, List.sum_cons, List.length_cons] at ih ⊢
    omega

/-- The locals before one of them are smaller than all of them. -/
theorem sizeOfTypes_take_lt {ts : List ValType} {idx : ℕ} (h : idx < ts.length) :
    sizeOfTypes (ts.take idx) < sizeOfTypes ts := by
  have hsplit : sizeOfTypes ts = sizeOfTypes (ts.take idx) + sizeOfTypes (ts.drop idx) := by
    simp only [sizeOfTypes]
    rw [← List.sum_append, ← List.map_append, List.take_append_drop]
  have hpos := ts[idx].sizeBytes_pos
  rw [List.drop_eq_getElem_cons h] at hsplit
  simp only [sizeOfTypes, List.map_cons, List.sum_cons] at hsplit ⊢
  omega

theorem sizeOfTypes_take_succ {ts : List ValType} {idx : ℕ} {type : ValType}
    (h : ts[idx]? = some type) :
    sizeOfTypes (ts.take (idx + 1)) = sizeOfTypes (ts.take idx) + type.sizeBytes := by
  rw [List.take_add_one, h]
  simp [sizeOfTypes]

theorem sizeOfTypes_take_mono (ts : List ValType) {i j : ℕ} (h : i ≤ j) :
    sizeOfTypes (ts.take i) ≤ sizeOfTypes (ts.take j) :=
  ((List.take_sublist_take_left h).map _).sum_le_sum fun _ _ => Nat.zero_le _

theorem layoutLocals_length (size : BitVec 32) (types : List ValType) :
    (layoutLocals size types).1.length = types.length := by
  induction types generalizing size with
  | nil => rfl
  | cons type types ih => simp [layoutLocals, ih]

theorem layoutLocals_size (n : ℕ) (types : List ValType) :
    (layoutLocals (BitVec.ofNat 32 n) types).2 = BitVec.ofNat 32 (n + sizeOfTypes types) := by
  induction types generalizing n with
  | nil => simp [layoutLocals, sizeOfTypes]
  | cons type types ih =>
    rw [layoutLocals, ← BitVec.ofNat_add, ih]
    simp [sizeOfTypes, Nat.add_assoc]

/-- The offset of a local from the bottom of the locals is the size of those before it. -/
theorem layoutLocals_getElem? (n : ℕ) (types : List ValType) {idx : ℕ} (h : idx < types.length) :
    (layoutLocals (BitVec.ofNat 32 n) types).1[idx]? =
      some (BitVec.ofNat 32 (n + sizeOfTypes (types.take idx))) := by
  induction types generalizing n idx with
  | nil => simp at h
  | cons type types ih =>
    rw [layoutLocals, ← BitVec.ofNat_add]
    cases idx with
    | zero => simp [sizeOfTypes]
    | succ idx =>
      rw [List.getElem?_cons_succ, ih _ (by simpa using h)]
      simp [sizeOfTypes, Nat.add_assoc]

namespace FunctionFrame

/-- The size of the frame, when the sum does not wrap: rounded up to a multiple of 16. -/
theorem sizeBytes_toNat {n : ℕ} {bytes : BitVec 32} (h : n + bytes.toNat + 15 < 2 ^ 32) :
    (sizeBytes (BitVec.ofNat 32 n) bytes).toNat = (n + bytes.toNat + 15) / 16 * 16 := by
  have hsum : (BitVec.ofNat 32 n + bytes).toNat = n + bytes.toNat := by
    rw [BitVec.toNat_add, BitVec.toNat_ofNat]
    omega
  have := alignUp_toNat (k := 4) (BitVec.ofNat 32 n + bytes) (by rw [hsum]; omega)
  rw [hsum] at this
  exact this

theorem new_localsSizeBytes (m : Function.Metadata) :
    (new m).localsSizeBytes = BitVec.ofNat 32 (sizeOfTypes m.localTypes) := by
  have h := layoutLocals_size 0 m.localTypes
  rw [Nat.zero_add] at h
  exact h

theorem new_stackSizeBytes (m : Function.Metadata) : (new m).stackSizeBytes =
    sizeBytes (BitVec.ofNat 32 (sizeOfTypes m.localTypes)) m.maxStackSizeBytes := by
  rw [stackSizeBytes, new_localsSizeBytes]
  rfl

theorem localStackOffset_new (m : Function.Metadata) {idx : ℕ} (h : idx < m.localTypes.length) :
    (new m).localStackOffset idx =
      .ok (BitVec.ofNat 32 (sizeOfTypes (m.localTypes.take idx)) - (new m).stackSizeBytes) := by
  have hget := layoutLocals_getElem? 0 m.localTypes h
  have hsize := layoutLocals_size 0 m.localTypes
  rw [Nat.zero_add] at hget hsize
  have hoff : (new m).localsStackOffset[idx]? =
      some (BitVec.ofNat 32 (sizeOfTypes (m.localTypes.take idx)) - (new m).stackSizeBytes) := by
    change ((layoutLocals 0#32 m.localTypes).1.map _)[idx]? = _
    rw [List.getElem?_map, hget]
    rfl
  rw [localStackOffset, hoff]

theorem new_localsStackOffset_length (m : Function.Metadata) :
    (new m).localsStackOffset.length = m.localTypes.length := by
  change ((layoutLocals 0#32 m.localTypes).1.map _).length = _
  rw [List.length_map, layoutLocals_length]

theorem localStackOffset_of_lt {f : FunctionFrame} {idx : ℕ}
    (h : idx < f.localsStackOffset.length) : ∃ offset, f.localStackOffset idx = .ok offset := by
  rw [localStackOffset, List.getElem?_eq_getElem h]
  exact ⟨_, rfl⟩

theorem lt_of_localStackOffset {f : FunctionFrame} {idx : ℕ} {offset : BitVec 32}
    (h : f.localStackOffset idx = .ok offset) : idx < f.localsStackOffset.length := by
  rw [localStackOffset] at h
  split at h
  next hget => exact (List.getElem?_eq_some_iff.mp hget).1
  · cases h

end FunctionFrame

end Wasmcc
