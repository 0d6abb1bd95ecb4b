import Wasmcc.Parser.Reading

/-!
# Constants in function bodies

A writer of `i32.const` encodes the number as signed, and `ParseExpression` decodes an unsigned one.
Both read the same groups, so the same bytes are taken. The numbers differ by the sign extension of
the last group, which only vanishes in 32 bits if the groups reach that far:
`readsConstant_iff` says that a constant survives unless it is negative and written in less than
five bytes.
-/

open Basis

namespace Wasmcc

open Reader

namespace ModuleBuilder

/-- In any body that was read so far, and in front of any bytes, `ParseExpression` takes exactly the
opcode and the signed encoding of the number, and emits a constant of this value. -/
def ReadsConstant (v : BitVec 32) : Prop :=
  ∀ e : OpEmitter, ∃ e' value, Consumes (parseNextOp e) (0x41#8 :: Leb128.encode true v) (.inl e') ∧
    e'.instructions = e.instructions ++ [.constI32 value] ∧ value.asI32 = v

/-- What `ParseExpression` makes of a constant: exactly its bytes are taken. -/
theorem consumes_constant (e : OpEmitter) (v : BitVec 32) :
    Consumes (parseNextOp e) (0x41#8 :: Leb128.encode true v) (.inl
      ⟨e.validator.visitConstI32, e.instructions ++
        [.constI32 (.ofU32 (BitVec.ofInt 32 (unsignedValue (Leb128.encode true v))))]⟩) := by
  refine (consumes_readByte _ 0x41#8).bind (v := Leb128.encode true v) ?_
  rw [if_neg (by decide), if_neg (by decide), if_neg (by decide), if_neg (by decide),
    if_neg (by decide), if_neg (by decide), if_pos rfl]
  exact (Leb128.consumes_decode_of_signed v).bind_nil (.pure _)

theorem readsConstant_iff_value (v : BitVec 32) :
    ReadsConstant v ↔ BitVec.ofInt 32 (unsignedValue (Leb128.encode true v)) = v := by
  constructor
  · intro hreads
    obtain ⟨e', value, hcons, hinstrs, hvalue⟩ := hreads ⟨.new {} [], []⟩
    -- a round emits one thing only
    have hsame := Eq.refl (0x41#8 :: Leb128.encode true v ++ [])
    obtain ⟨he, -⟩ := hcons.det (consumes_constant _ v) hsame
    obtain rfl := Sum.inl.inj he
    have hemitted := List.append_cancel_left hinstrs
    simp only [List.cons.injEq, Instruction.constI32.injEq, and_true] at hemitted
    rwa [← hemitted, Value.asI32_ofU32] at hvalue
  · intro hvalue e
    exact ⟨_, _, consumes_constant e v, rfl, (Value.asI32_ofU32 _).trans hvalue⟩

/-- **Which constants survive**: those that are not negative, and those that need five bytes. -/
theorem readsConstant_iff (v : BitVec 32) :
    ReadsConstant v ↔ 0 ≤ v.toInt ∨ v.toInt < -2 ^ 27 :=
  (readsConstant_iff_value v).trans (Leb128.ofInt_unsignedValue_iff v)

/-- The one byte for -1 is read as 127. -/
theorem minus_one_misread : ¬ReadsConstant 0xFFFFFFFF#32 := by
  rw [readsConstant_iff_value]
  decide

end ModuleBuilder

end Wasmcc
