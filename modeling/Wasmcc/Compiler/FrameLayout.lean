import Wasmcc.Compiler.SpillSlots
import Wasmcc.Parser.Validator

/-!
# The layout of a frame

`FunctionFrame` puts the locals one after the other, parameters first, and moves them down by the
size of the frame: relative to the stack pointer they have negative offsets, and the last one ends
at or below minus the bytes of the value stack. The value stack has positive ones.

`LaidOut` collects what a frame is meant to be, and `laidOut` says that all are, as long as the
sizes fit an `int32_t`.
-/

open Basis

namespace Wasmcc

/-- The addresses of a local of this type, relative to the stack pointer. -/
def localSlot (offset : BitVec 32) (type : ValType) : Set ℤ :=
  Set.Ico offset.toInt (offset.toInt + type.sizeBytes)

namespace FunctionFrame

/-- The offset of a local, as an `int32_t`. -/
def OffsetOf (frame : FunctionFrame) (idx : ℕ) (offset : ℤ) : Prop :=
  ∃ b, frame.localStackOffset idx = .ok b ∧ b.toInt = offset

/-- What a frame is meant to be. -/
structure LaidOut (m : Function.Metadata) : Prop where
  /-- The frame is as small as its alignment lets it be. -/
  size : IsLeast {n : ℤ | 16 ∣ n ∧ (sizeOfTypes m.localTypes : ℤ) + m.maxStackSizeBytes.toNat ≤ n}
    (new m).stackSizeBytes.toInt
  /-- There are offsets for the locals that the validator knows, and no more. -/
  count : (new m).localsStackOffset.length =
    (FunctionValidator.new m.signature m.locals).locals.length
  /-- The parameters come first, under the indices that the validator gives them. -/
  parameters : ∀ k type, m.signature.parameterTypes[k]? = some type →
    (FunctionValidator.new m.signature m.locals).locals[k]? = some type ∧
      (new m).OffsetOf k
        (sizeOfTypes (m.signature.parameterTypes.take k) - (new m).stackSizeBytes.toInt)
  /-- The declared locals come after all of them. -/
  locals : ∀ k type, m.locals[k]? = some type →
    (FunctionValidator.new m.signature m.locals).locals[m.signature.parameterTypes.length + k]? =
        some type ∧
      (new m).OffsetOf (m.signature.parameterTypes.length + k)
        (sizeOfTypes m.signature.parameterTypes + sizeOfTypes (m.locals.take k) -
          (new m).stackSizeBytes.toInt)
  /-- Each local starts where the one before it ends. -/
  consecutive : ∀ i type offset offset', m.localTypes[i]? = some type →
    (new m).OffsetOf i offset → (new m).OffsetOf (i + 1) offset' →
    offset' = offset + type.sizeBytes
  /-- No two locals share an address. -/
  disjoint : ∀ i j type type' offset offset', i ≠ j → m.localTypes[i]? = some type →
    m.localTypes[j]? = some type' → (new m).localStackOffset i = .ok offset →
    (new m).localStackOffset j = .ok offset' →
    Disjoint (localSlot offset type) (localSlot offset' type')
  /-- No local shares an address with an `i32` of the value stack. -/
  apart : ∀ i type offset, m.localTypes[i]? = some type → (new m).localStackOffset i = .ok offset →
    ∀ v : RuntimeValue, v.type = .i32 → 4 ≤ v.stackPointer.toInt →
      v.stackPointer.toInt ≤ m.maxStackSizeBytes.toNat → Disjoint (localSlot offset type) v.slot

variable {m : Function.Metadata} {i : ℕ} {type : ValType}

/-- The size of a frame that fits. -/
theorem stackSizeBytes_toInt
    (h : sizeOfTypes m.localTypes + m.maxStackSizeBytes.toNat + 15 < 2 ^ 31) :
    (new m).stackSizeBytes.toInt =
      ((sizeOfTypes m.localTypes + m.maxStackSizeBytes.toNat + 15) / 16 * 16 : ℕ) := by
  have hnat : (new m).stackSizeBytes.toNat =
      (sizeOfTypes m.localTypes + m.maxStackSizeBytes.toNat + 15) / 16 * 16 := by
    rw [new_stackSizeBytes]
    exact sizeBytes_toNat (by omega)
  rw [BitVec.toInt_eq_toNat_of_lt (by omega), hnat]

/-- A local ends before a later one starts. -/
theorem end_le_start {ts : List ValType} (hi : ts[i]? = some type) {j : ℕ} (hij : i < j) :
    sizeOfTypes (ts.take i) + type.sizeBytes ≤ sizeOfTypes (ts.take j) := by
  rw [← sizeOfTypes_take_succ hi]
  exact sizeOfTypes_take_mono ts hij

/-- **Where a local is**: behind the locals before it, from the bottom of the frame on. -/
theorem offsetOf_new (h : sizeOfTypes m.localTypes + m.maxStackSizeBytes.toNat + 15 < 2 ^ 31)
    (hi : m.localTypes[i]? = some type) : (new m).OffsetOf i
      (sizeOfTypes (m.localTypes.take i) - (new m).stackSizeBytes.toInt) := by
  have hlt := (List.getElem?_eq_some_iff.mp hi).1
  refine ⟨_, localStackOffset_new m hlt, ?_⟩
  have hbefore := sizeOfTypes_take_lt hlt
  have hsize := stackSizeBytes_toInt h
  rw [BitVec.toInt_sub, hsize, RuntimeStack.toInt_ofNat (by omega)]
  exact Int.bmod_eq_of_le (by omega) (by omega)

theorem OffsetOf.unique {frame : FunctionFrame} {offset offset' : ℤ} (h : frame.OffsetOf i offset)
    (h' : frame.OffsetOf i offset') : offset = offset' := by
  obtain ⟨b, hb, rfl⟩ := h
  obtain ⟨b', hb', rfl⟩ := h'
  rw [Except.ok.inj (hb.symm.trans hb')]

/-- **Frames are laid out** as they are meant to be. -/
theorem laidOut (m : Function.Metadata)
    (h : sizeOfTypes m.localTypes + m.maxStackSizeBytes.toNat + 15 < 2 ^ 31) : LaidOut m := by
  have hsize := stackSizeBytes_toInt h
  -- offsets in terms of the sizes before, whichever of the two lists a local is in
  have hslot {i : ℕ} {type : ValType} {offset : BitVec 32} (hi : m.localTypes[i]? = some type)
      (ho : (new m).localStackOffset i = .ok offset) :
      offset.toInt = sizeOfTypes (m.localTypes.take i) - (new m).stackSizeBytes.toInt :=
    OffsetOf.unique ⟨offset, ho, rfl⟩ (offsetOf_new h hi)
  refine ⟨⟨⟨?_, ?_⟩, fun n hn => ?_⟩, ?_, fun k type hk => ?_, fun k type hk => ?_,
    fun i type offset offset' hi ho ho' => ?_, ?_, fun i type offset hi ho v hv hp hle => ?_⟩
  · rw [hsize]
    omega
  · rw [hsize]
    omega
  · obtain ⟨⟨q, rfl⟩, hle⟩ := hn
    rw [hsize]
    omega
  · rw [new_localsStackOffset_length]
    rfl
  · have hlt := (List.getElem?_eq_some_iff.mp hk).1
    have hi : m.localTypes[k]? = some type := by
      rw [Function.Metadata.localTypes, List.getElem?_append_left hlt, hk]
    have htake : m.localTypes.take k = m.signature.parameterTypes.take k :=
      List.take_append_of_le_length hlt.le
    exact ⟨hi, htake ▸ offsetOf_new h hi⟩
  · have hi : m.localTypes[m.signature.parameterTypes.length + k]? = some type := by
      rw [Function.Metadata.localTypes, List.getElem?_append_right (Nat.le_add_right _ _),
        Nat.add_sub_cancel_left, hk]
    have htake : sizeOfTypes (m.localTypes.take (m.signature.parameterTypes.length + k)) =
        sizeOfTypes m.signature.parameterTypes + sizeOfTypes (m.locals.take k) := by
      rw [Function.Metadata.localTypes, List.take_length_add_append, sizeOfTypes, List.map_append,
        List.sum_append]
      rfl
    have hoffset := offsetOf_new h hi
    rw [htake, Nat.cast_add] at hoffset
    exact ⟨hi, hoffset⟩
  · obtain ⟨b, hb, -⟩ := id ho'
    have hlt := lt_of_localStackOffset hb
    rw [new_localsStackOffset_length] at hlt
    have hnext := offsetOf_new h (List.getElem?_eq_getElem hlt)
    rw [ho'.unique hnext, ho.unique (offsetOf_new h hi), sizeOfTypes_take_succ hi]
    omega
  · intro i j type type' offset offset' hij hi hj ho ho'
    rw [localSlot, localSlot, hslot hi ho, hslot hj ho', Set.Ico_disjoint_Ico]
    rcases Nat.lt_or_gt_of_ne hij with hlt | hgt
    · have := end_le_start hi hlt
      omega
    · have := end_le_start hj hgt
      omega
  · -- locals end below zero, and the values are above it
    rw [localSlot, RuntimeValue.slot, hslot hi ho, hv, Set.Ico_disjoint_Ico, hsize]
    have hend := end_le_start hi (List.getElem?_eq_some_iff.mp hi).1
    rw [List.take_length] at hend
    omega

/-- Locals of three sizes. -/
theorem laidOut_mixed : LaidOut ⟨⟨[.i64, .i32], []⟩, [.v128, .i32], 8, 2⟩ :=
  laidOut _ (by decide)

end FunctionFrame

end Wasmcc
