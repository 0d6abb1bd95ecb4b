import Wasmcc.Parser.RoundTrip

/-!
# The globals section

A `GlobalDef` is a global as the binary format has it: its mutability and a constant of one of the
four number types, which is written as a constant expression, an opcode with its immediate and the
`end` opcode. `parse_const_expr` reads the first two and leaves the `end`. So the section comes back
from its encoding only if it has no globals (`globalsSection_roundTrips_iff`): the `end` of the
first global is taken for the type of the second one, or is left over.
-/

open Basis

namespace Wasmcc

open Reader ModuleBuilder

/-! ### Globals in the binary format -/

/-- A constant of one of the number types; a float by its bits. -/
inductive Constant where
  | i32 (v : BitVec 32)
  | i64 (v : BitVec 64)
  | f32 (bits : BitVec 32)
  | f64 (bits : BitVec 64)
deriving DecidableEq, Repr

/-- The `n` low bytes of a number, the lowest first. -/
def littleEndianBytes : ℕ → ℕ → List Byte
  | 0, _ => []
  | n + 1, v => BitVec.ofNat 8 v :: littleEndianBytes n (v / 256)

namespace Constant

def type : Constant → ValType
  | i32 _ => .i32
  | i64 _ => .i64
  | f32 _ => .f32
  | f64 _ => .f64

/-- The opcode with its immediate, a signed number or the bytes of a float. -/
def encode : Constant → List Byte
  | i32 v => 0x41#8 :: Leb128.encode true v
  | i64 v => 0x42#8 :: Leb128.encode true v
  | f32 bits => 0x43#8 :: littleEndianBytes 4 bits.toNat
  | f64 bits => 0x44#8 :: littleEndianBytes 8 bits.toNat

/-- The value is this constant. -/
def Is : Constant → Value → Prop
  | i32 v, value => value.asI32 = v
  | i64 v, value => value.asI64 = v
  | f32 bits, value => value.asF32 = bits
  | f64 bits, value => value.asF64 = bits

end Constant

structure GlobalDef where
  mut_ : Bool
  init : Constant
deriving DecidableEq, Repr

namespace GlobalDef

/-- The encoding up to the `end` of the initialiser. -/
def front (g : GlobalDef) : List Byte :=
  g.init.type.encode ++ ((if g.mut_ then 0x01#8 else 0x00#8) :: g.init.encode)

def encode (g : GlobalDef) : List Byte := g.front ++ [0x0B#8]

/-- The parsed global has this type, mutability and value. -/
def Is (g : GlobalDef) (parsed : Global) : Prop :=
  parsed.type = ⟨g.init.type, g.mut_⟩ ∧ g.init.Is parsed.value

end GlobalDef

/-- The section is read back: exactly its bytes are consumed, and the globals are the same. -/
def GlobalsRoundTrip (globals : List GlobalDef) : Prop :=
  ∀ b : ModuleBuilder, ∃ parsed,
    Consumes b.parseGlobalsSection (encodeVector GlobalDef.encode globals)
      { b with globals := b.globals ++ parsed } ∧ List.Forall₂ GlobalDef.Is globals parsed

/-! ### Reading one global -/

theorem length_littleEndianBytes (n v : ℕ) : (littleEndianBytes n v).length = n := by
  induction n generalizing v with
  | zero => rfl
  | succ n ih => rw [littleEndianBytes, List.length_cons, ih]

theorem littleEndian_littleEndianBytes (n v : ℕ) :
    littleEndian (littleEndianBytes n v) = v % 256 ^ n := by
  induction n generalizing v with
  | zero => rw [littleEndianBytes, littleEndian, pow_zero, Nat.mod_one]
  | succ n ih =>
    rw [littleEndianBytes, littleEndian, ih, BitVec.toNat_ofNat]
    show v % 256 + 256 * (v / 256 % 256 ^ n) = v % 256 ^ (n + 1)
    rw [Nat.pow_succ', Nat.mod_mul]

/-- What `parse_const_expr` makes of a constant: integers are read as unsigned. -/
def Constant.parsed : Constant → Value
  | i32 v => .ofU32 (BitVec.ofInt 32 (unsignedValue (Leb128.encode true v)))
  | i64 v => .ofU64 (BitVec.ofInt 64 (unsignedValue (Leb128.encode true v)))
  | f32 bits => .ofF32 bits
  | f64 bits => .ofF64 bits

theorem consumes_parseConstExpr (init : Constant) :
    Consumes parseConstExpr init.encode init.parsed := by
  -- the bytes of a float are those of its bits, the lowest first
  have hfloat {w n : ℕ} (hw : 2 ^ w = 256 ^ n) (bits : BitVec w) :
      BitVec.ofNat w (littleEndian (littleEndianBytes n bits.toNat)) = bits := by
    rw [littleEndian_littleEndianBytes, ← hw, Nat.mod_eq_of_lt bits.isLt, BitVec.ofNat_toNat,
      BitVec.setWidth_eq]
  cases init with
  | i32 v =>
    refine (consumes_readByte _ 0x41#8).bind (v := Leb128.encode true v) ?_
    exact (Leb128.consumes_decode_of_signed v).bind_nil (.pure _)
  | i64 v =>
    refine (consumes_readByte _ 0x42#8).bind (v := Leb128.encode true v) ?_
    -- an `i64` is decoded as an unsigned number: its last group is not extended by the sign
    obtain ⟨henc, hlen⟩ := Leb128.IntType.isEncoding_encode .int64 v
    have hcons := Leb128.consumes_decode false henc.groups hlen
    rw [groupsValue_false] at hcons
    exact hcons.bind_nil (.pure _)
  | f32 bits =>
    refine (consumes_readByte _ 0x43#8).bind (v := littleEndianBytes 4 bits.toNat) ?_
    have hread := consumes_readBytes Exception.endOfStream (littleEndianBytes 4 bits.toNat)
    rw [length_littleEndianBytes] at hread
    refine hread.bind_nil ?_
    rw [hfloat (by decide) bits]
    exact .pure _
  | f64 bits =>
    refine (consumes_readByte _ 0x44#8).bind (v := littleEndianBytes 8 bits.toNat) ?_
    have hread := consumes_readBytes Exception.endOfStream (littleEndianBytes 8 bits.toNat)
    rw [length_littleEndianBytes] at hread
    refine hread.bind_nil ?_
    rw [hfloat (by decide) bits]
    exact .pure _

/-- **One global**: everything is read but the `end` of the initialiser. -/
theorem consumes_parseGlobal (g : GlobalDef) :
    Consumes parseGlobal g.front ⟨⟨g.init.type, g.mut_⟩, g.init.parsed⟩ := by
  have hvaltype : g.init.type ≠ .v128 := by
    cases g.init <;> exact nofun
  have htype : Consumes parseGlobalType (g.init.type.encode ++ [if g.mut_ then 0x01#8 else 0x00#8])
      ⟨g.init.type, g.mut_⟩ := by
    refine (consumes_parseValType hvaltype).bind ?_
    refine (consumes_readByte _ _).bind_nil ?_
    cases g.mut_ <;> exact .pure _
  -- the type and the constant, without the byte that ends the expression
  have hfront : g.front =
      (g.init.type.encode ++ [if g.mut_ then 0x01#8 else 0x00#8]) ++ g.init.encode := by
    rw [GlobalDef.front, List.append_assoc]
    rfl
  rw [hfront]
  exact htype.bind ((consumes_parseConstExpr g.init).bind_nil (.pure _))

/-- No global begins with the `end` opcode. -/
theorem parseGlobal_end (rest : List Byte) (n : ℕ) :
    parseGlobal ⟨0x0B#8 :: rest, n⟩ = .error (.parse ("unknown valtype: " ++ hex 0x0B)) := rfl

/-! ### The section -/

/-- After the first global, its `end` is in the way. -/
theorem not_globalsRoundTrip_cons (g : GlobalDef) {globals : List GlobalDef}
    (hlen : (g :: globals).length ≤ kMaxGlobals) : ¬GlobalsRoundTrip (g :: globals) := by
  intro h
  obtain ⟨parsed, hcons, -⟩ := h {}
  have hread := hcons [] 0
  have hbytes : encodeVector GlobalDef.encode (g :: globals) ++ [] =
      Leb128.encodeU32 (globals.length + 1) ++
        (g.front ++ 0x0B#8 :: globals.flatMap GlobalDef.encode) := by
    simp [encodeVector, GlobalDef.encode]
  -- the count and the first global are read
  rw [List.length_cons] at hlen
  have hsize := consumes_parseVectorSize (fun n => "too many globals: " ++ toString n ++ ", max: "
    ++ toString kMaxGlobals) hlen (by decide)
  rw [hbytes] at hread
  unfold parseGlobalsSection at hread
  rw [bind_of_ok (hsize _ 0), iterate_succ, bind_assoc, bind_of_ok (consumes_parseGlobal g _ _),
    pure_bind] at hread
  cases globals with
  | nil =>
    -- the `end` is left over
    obtain ⟨-, hrest⟩ := pure_eq_ok.mp hread
    cases hrest
  | cons g' globals =>
    -- the `end` is not a type
    rw [List.length_cons, iterate_succ, bind_assoc, bind_of_error (parseGlobal_end _ _)] at hread
    cases hread

/-- **When the globals section comes back**: if there is no global. -/
theorem globalsSection_roundTrips_iff {globals : List GlobalDef}
    (hlen : globals.length ≤ kMaxGlobals) : GlobalsRoundTrip globals ↔ globals = [] := by
  constructor
  · intro h
    cases globals with
    | nil => rfl
    | cons g globals => exact absurd h (not_globalsRoundTrip_cons g hlen)
  · rintro rfl b
    refine ⟨[], (consumes_parseVectorSize _ hlen (by decide)).bind_nil ?_, .nil⟩
    rw [List.append_nil]
    exact .pure b

/-- One float: the `end` after it stays unread. -/
theorem globalsSection_roundTrips_float : ¬GlobalsRoundTrip [⟨true, .f32 0x3F800000#32⟩] := by
  rw [globalsSection_roundTrips_iff (by decide)]
  exact nofun

/-- The smallest section with a global. -/
theorem one_global_left_open : ¬GlobalsRoundTrip [⟨false, .i32 0#32⟩] := by
  intro h
  obtain ⟨parsed, hcons, -⟩ := h {}
  have hread : ({} : ModuleBuilder).parseGlobalsSection
      ⟨[0x01#8, 0x7F#8, 0x00#8, 0x41#8, 0x00#8, 0x0B#8], 0⟩ =
        .ok ({ globals := [⟨⟨.i32, false⟩, ⟨0⟩⟩] }, ⟨[0x0B#8], 5⟩) := rfl
  cases hread.symm.trans (hcons [] 0)

end Wasmcc
