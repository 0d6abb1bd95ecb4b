import Wasmcc.Basis.Cursor

/-!
# Streams, exceptions and alignment

`base/stream.h` declares the abstract `Stream` the parser reads from; its contract is that of a
byte cursor, every read of a byte that is not there throwing `EndOfStreamException`. All readers
below run over `Basis.Cursor` under that contract.

`Exception` has one constructor for each exception class that a reader of this repository throws.
-/

open Basis

namespace Wasmcc

/-- What the parser, the decoder and the validator throw. -/
inductive Exception where
  /-- There are no more bytes left in the stream. -/
  | endOfStream
  /-- A LEB128 number that goes on past its type's width. -/
  | decode
  | parse (msg : String)
  | moduleTooLarge (msg : String)
  /-- The wasm function is ill-formed. -/
  | validation
deriving DecidableEq, Repr

namespace Stream

def readByte : Reader Exception Byte := Reader.readByte .endOfStream

def readBytes (n : ℕ) : Reader Exception (List Byte) := Reader.readBytes .endOfStream n

def skip (n : ℕ) : Reader Exception Unit := Reader.skip .endOfStream n

end Stream

/-- The first part does not throw. -/
theorem ok_bind {ε α β : Type} (a : α) (f : α → Except ε β) : (Except.ok a >>= f) = f a := rfl

/-- A computation in two parts does not throw: neither part does. -/
theorem bind_eq_ok {ε α β : Type} {x : Except ε α} {f : α → Except ε β} {b : β} :
    (x >>= f) = .ok b ↔ ∃ a, x = .ok a ∧ f a = .ok b := by
  cases x with
  | error e => simp [bind, Except.bind]
  | ok a => simp [bind, Except.bind]

/-- Align `v` down to the nearest `alignment` bytes. -/
def alignDown {w : ℕ} (v alignment : BitVec w) : BitVec w := v &&& ~~~(alignment - 1)

/-- Align `v` up to the nearest `alignment` bytes. -/
def alignUp {w : ℕ} (v alignment : BitVec w) : BitVec w := alignDown (v + alignment - 1) alignment

theorem ofNat_two_pow (w k : ℕ) :
    BitVec.ofNat w (2 ^ k) = BitVec.ofNat w (2 ^ k - 1) + 1 := by
  have h1 : (1 : BitVec w) = BitVec.ofNat w 1 := rfl
  rw [h1, ← BitVec.ofNat_add, Nat.sub_add_cancel Nat.one_le_two_pow]

/-- For a power of two, aligning down clears the low bits. -/
theorem alignDown_toNat {w k : ℕ} (v : BitVec w) :
    (alignDown v (BitVec.ofNat w (2 ^ k))).toNat = v.toNat / 2 ^ k * 2 ^ k := by
  -- clearing the low bits is shifting them out and back
  have h : alignDown v (BitVec.ofNat w (2 ^ k)) = (v >>> k) <<< k := by
    apply BitVec.eq_of_getLsbD_eq
    intro i hi
    rw [alignDown, ofNat_two_pow, add_sub_cancel_right, BitVec.getLsbD_and, BitVec.getLsbD_not,
      BitVec.getLsbD_ofNat, Nat.testBit_two_pow_sub_one, BitVec.getLsbD_shiftLeft,
      BitVec.getLsbD_ushiftRight]
    by_cases hik : i < k
    · simp [hi, hik]
    · simp [hi, hik, Nat.add_sub_cancel' (Nat.le_of_not_lt hik)]
  have hv := v.isLt
  rw [h, BitVec.toNat_shiftLeft, BitVec.toNat_ushiftRight, Nat.shiftRight_eq_div_pow,
    Nat.shiftLeft_eq, Nat.mod_eq_of_lt]
  exact lt_of_le_of_lt (Nat.div_mul_le_self _ _) hv

/-- Aligning up, when the sum does not wrap. -/
theorem alignUp_toNat {w k : ℕ} (v : BitVec w) (hv : v.toNat + (2 ^ k - 1) < 2 ^ w) :
    (alignUp v (BitVec.ofNat w (2 ^ k))).toNat = (v.toNat + (2 ^ k - 1)) / 2 ^ k * 2 ^ k := by
  have hmask : (2 ^ k - 1) % 2 ^ w = 2 ^ k - 1 := Nat.mod_eq_of_lt (by omega)
  rw [alignUp, alignDown_toNat, ofNat_two_pow, ← add_assoc, add_sub_cancel_right,
    BitVec.toNat_add, BitVec.toNat_ofNat, hmask, Nat.mod_eq_of_lt hv]

end Wasmcc
