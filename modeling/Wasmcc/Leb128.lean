import Wasmcc.Base.Stream

/-!
# LEB128

`Encode` and `Decode` of `leb128/leb128.h`, over integers of `w` bits (32 or 64 in the source), a
`Bool` standing for `std::is_signed_v`. Both loops shift by seven bits a round, so neither makes
more than `groups w` rounds.

A decoder is `Local` and reads at least one byte (`decode_progress`); what it makes of the bytes it
reads is in `Leb128.Groups`.
-/

open Basis

namespace Wasmcc.Leb128

/-- The number of seven-bit groups that cover `w` bits. -/
def groups (w : ℕ) : ℕ := (w + 6) / 7

/-- The `do … while` loop of the unsigned `Encode`. -/
def encodeUnsignedLoop {w : ℕ} : ℕ → BitVec w → List Byte
  | 0, _ => []
  | rounds + 1, value =>
    let byte := value.setWidth 8 &&& 0x7F#8
    let value := value >>> 7
    if value ≠ 0 then (byte ||| 0x80#8) :: encodeUnsignedLoop rounds value else [byte]

/-- The `while (more)` loop of the signed `Encode`, with the arithmetic right shift. -/
def encodeSignedLoop {w : ℕ} : ℕ → BitVec w → List Byte
  | 0, _ => []
  | rounds + 1, value =>
    let byte := value.setWidth 8 &&& 0x7F#8
    let value := value.sshiftRight 7
    if (value = 0 ∧ byte &&& 0x40#8 = 0) ∨ (value = BitVec.allOnes w ∧ byte &&& 0x40#8 ≠ 0) then
      [byte]
    else (byte ||| 0x80#8) :: encodeSignedLoop rounds value

/-- `Encode<int_type>`. -/
def encode {w : ℕ} (isSigned : Bool) (value : BitVec w) : List Byte :=
  if isSigned then encodeSignedLoop (groups w) value else encodeUnsignedLoop (groups w) value

/-- The `while` loop of `Decode`: the value so far, the next shift and the last byte read. -/
def decodeLoop (w : ℕ) : ℕ → BitVec w → ℕ → Byte → Reader Exception (BitVec w × ℕ × Byte)
  | 0, result, shift, byte => pure (result, shift, byte)
  | rounds + 1, result, shift, byte =>
    if shift < w ∧ byte &&& 0x80#8 ≠ 0 then do
      let byte ← Stream.readByte
      decodeLoop w rounds (result ||| (byte &&& 0x7F#8).setWidth w <<< shift) (shift + 7) byte
    else pure (result, shift, byte)

/-- `Decode<int_type>`. -/
def decode (w : ℕ) (isSigned : Bool) : Reader Exception (BitVec w) := do
  let (result, shift, byte) ← decodeLoop w (groups w) 0#w 0 0x80#8
  if byte &&& 0x80#8 ≠ 0 then
    Reader.fail .decode
  else if isSigned ∧ shift < w ∧ byte &&& 0x40#8 ≠ 0 then
    pure (result ||| BitVec.allOnes w <<< shift)
  else
    pure result

/-- `Decode<uint32_t>`, read as a number. -/
def decodeU32 : Reader Exception ℕ := do
  let v ← decode 32 false
  pure v.toNat

/-- `Encode<uint32_t>` of a number below `2 ^ 32`. -/
def encodeU32 (n : ℕ) : List Byte := encode false (BitVec.ofNat 32 n)

/-! ### Locality -/

theorem local_decodeLoop (w : ℕ) : ∀ rounds result shift byte,
    Reader.Local (decodeLoop w rounds result shift byte) := by
  intro rounds
  induction rounds with
  | zero => exact fun result shift byte => Reader.Local.pure _
  | succ rounds ih =>
    intro result shift byte
    rw [decodeLoop]
    exact Reader.Local.ite ((Reader.local_readByte _).bind fun b => ih _ _ _) (Reader.Local.pure _)

theorem local_decode (w : ℕ) (isSigned : Bool) : Reader.Local (decode w isSigned) := by
  refine (local_decodeLoop w _ _ _ _).bind fun r => ?_
  obtain ⟨result, shift, byte⟩ := r
  exact Reader.Local.ite (Reader.Local.fail _)
    (Reader.Local.ite (Reader.Local.pure _) (Reader.Local.pure _))

theorem local_decodeU32 : Reader.Local decodeU32 :=
  (local_decode 32 false).bind fun _ => Reader.Local.pure _

theorem decodeU32_lt {c c' : Cursor} {n : ℕ} (h : decodeU32 c = .ok (n, c')) : n < 2 ^ 32 := by
  obtain ⟨v, c₁, -, h2⟩ := Reader.bind_eq_ok.mp h
  obtain ⟨rfl, -⟩ := Reader.pure_eq_ok.mp h2
  exact v.isLt

/-- A decoded number takes at least one byte. -/
theorem decode_progress {c c' : Cursor} {v : BitVec 32} (h : decode 32 false c = .ok (v, c')) :
    c'.rest.length < c.rest.length := by
  obtain ⟨r, c₂, h3, h4⟩ := Reader.bind_eq_ok.mp h
  -- the loop reads a byte in its first round, whatever comes then
  have hloop : decodeLoop 32 (groups 32) 0#32 0 0x80#8 = (do
      let byte ← Stream.readByte
      decodeLoop 32 4 (0#32 ||| (byte &&& 0x7F#8).setWidth 32 <<< 0) (0 + 7) byte) := rfl
  rw [hloop] at h3
  obtain ⟨b, c₃, h5, h6⟩ := Reader.bind_eq_ok.mp h3
  obtain ⟨h7, -⟩ := Reader.readByte_eq_ok.mp h5
  have h8 := (local_decodeLoop 32 _ _ _ _).length_le h6
  obtain ⟨result, shift, byte⟩ := r
  have h9 : Reader.Local (if byte &&& 0x80#8 ≠ 0 then Reader.fail Exception.decode
      else if false = true ∧ shift < 32 ∧ byte &&& 0x40#8 ≠ 0 then
        pure (result ||| BitVec.allOnes 32 <<< shift) else pure result) :=
    Reader.Local.ite (Reader.Local.fail _)
      (Reader.Local.ite (Reader.Local.pure _) (Reader.Local.pure _))
  have h10 := h9.length_le h4
  rw [h7, List.length_cons]
  omega

theorem decodeU32_progress {c c' : Cursor} {n : ℕ} (h : decodeU32 c = .ok (n, c')) :
    c'.rest.length < c.rest.length := by
  obtain ⟨v, c₁, h1, h2⟩ := Reader.bind_eq_ok.mp h
  obtain ⟨-, rfl⟩ := Reader.pure_eq_ok.mp h2
  exact decode_progress h1

example : encodeU32 624485 = [0xe5#8, 0x8e#8, 0x26#8] := by decide

end Wasmcc.Leb128
