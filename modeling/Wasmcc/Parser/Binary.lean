import Wasmcc.Parser.ModuleBuilder

/-!
# The binary format of the supported modules

A `WasmModule` is a module that has exactly a type section, a function section, an export section of
functions and a code section, as the format sees it: the locals of a function are runs of one type,
and an instruction is one of the five that `Op` lists. `WasmModule.encode` writes it down, with
every integer as `Encode<uint32_t>` of `leb128/leb128.h` writes it.

`WasmModule.WellFormed` collects the limits of the parser and what it validates. It does not mention
the parser's readers: `Parser/RoundTrip.lean` compares the two.
-/

open Basis

namespace Wasmcc

open Leb128

/-! ### Modules -/

inductive Op where
  | constI32 (v : BitVec 32)
  | addI32
  | getLocalI32 (idx : ℕ)
  | setLocalI32 (idx : ℕ)
  | return_
deriving DecidableEq, Repr

def Op.instruction : Op → Instruction
  | .constI32 v => .constI32 (.ofU32 v)
  | .addI32 => .addI32
  | .getLocalI32 idx => .getLocalI32 idx
  | .setLocalI32 idx => .setLocalI32 idx
  | .return_ => .return_

/-- A function body: runs of locals of one type, and the instructions. -/
structure CodeEntry where
  runs : List (ℕ × ValType) := []
  ops : List Op
deriving DecidableEq, Repr

/-- The locals, one by one. -/
def CodeEntry.locals (e : CodeEntry) : List ValType :=
  e.runs.flatMap fun run => List.replicate run.1 run.2

def CodeEntry.body (e : CodeEntry) : List Instruction := e.ops.map Op.instruction

structure WasmModule where
  types : List BlockType := []
  /-- The type of each function. -/
  functions : List ℕ := []
  exports : List (Name × ℕ) := []
  code : List CodeEntry := []
deriving DecidableEq, Repr

/-! ### The encoding -/

/-- A length, and that many bytes. -/
def encodeSized (contents : List Byte) : List Byte := encodeU32 contents.length ++ contents

/-- A length, and that many elements. -/
def encodeVector {α : Type} (enc : α → List Byte) (xs : List α) : List Byte :=
  encodeU32 xs.length ++ xs.flatMap enc

def ValType.encode (vt : ValType) : List Byte := [vt.byte]

def BlockType.encode (sig : BlockType) : List Byte :=
  0x60#8 :: (encodeVector ValType.encode sig.parameterTypes ++
    encodeVector ValType.encode sig.resultTypes)

def Op.encode : Op → List Byte
  | .constI32 v => 0x41#8 :: Leb128.encode false v
  | .addI32 => [0x6A#8]
  | .getLocalI32 idx => 0x20#8 :: encodeU32 idx
  | .setLocalI32 idx => 0x21#8 :: encodeU32 idx
  | .return_ => [0x0F#8]

def encodeRun (run : ℕ × ValType) : List Byte := encodeU32 run.1 ++ run.2.encode

/-- The part of a code entry that its size counts. -/
def CodeEntry.contents (e : CodeEntry) : List Byte :=
  encodeVector encodeRun e.runs ++ (e.ops.flatMap Op.encode ++ [0x0B#8])

def CodeEntry.encode (e : CodeEntry) : List Byte := encodeSized e.contents

/-- The export of a function. -/
def encodeExport (e : Name × ℕ) : List Byte := encodeSized e.1 ++ 0x00#8 :: encodeU32 e.2

def encodeSection (id : Byte) (contents : List Byte) : List Byte := id :: encodeSized contents

namespace WasmModule

def encode (m : WasmModule) : List Byte :=
  ModuleBuilder.kMagicBytes ++ ModuleBuilder.kVersionOne ++
    (encodeSection 0x01#8 (encodeVector BlockType.encode m.types) ++
      (encodeSection 0x03#8 (encodeVector encodeU32 m.functions) ++
        (encodeSection 0x07#8 (encodeVector encodeExport m.exports) ++
          encodeSection 0x0A#8 (encodeVector CodeEntry.encode m.code))))

/-! ### Well-formed modules -/

/-- The type with this index. -/
def signature (m : WasmModule) (idx : ℕ) : BlockType := m.types.getD idx {}

/-- What the module defines: signature, locals and body of each function. -/
def definitions (m : WasmModule) : List (BlockType × List ValType × List Instruction) :=
  (m.functions.zip m.code).map fun p => (m.signature p.1, p.2.locals, p.2.body)

end WasmModule

/-- Types that `ParseSignature` accepts: all but `v128`, and within the limits. -/
structure BlockType.WellFormed (sig : BlockType) : Prop where
  parameters : sig.parameterTypes.length ≤ kMaxFunctionParameters
  results : sig.resultTypes.length ≤ kMaxFunctionResults
  parameterTypes : .v128 ∉ sig.parameterTypes
  resultTypes : .v128 ∉ sig.resultTypes

/-- A body for this signature that `FunctionValidator` accepts. -/
structure CodeEntry.WellFormed (sig : BlockType) (e : CodeEntry) : Prop where
  locals : e.locals.length ≤ maxFunctionLocals
  runs : ∀ run ∈ e.runs, run.2 ≠ .v128
  valid : ∃ v, FunctionValidator.validate sig e.locals e.body = .ok v

structure WasmModule.WellFormed (m : WasmModule) : Prop where
  types : m.types.length ≤ kMaxFunctionSignatures
  signatures : ∀ sig ∈ m.types, sig.WellFormed
  functions : m.functions.length ≤ maxFunctions
  functionTypes : ∀ idx ∈ m.functions, idx < m.types.length
  exports : m.exports.length ≤ kMaxExports
  names : ∀ e ∈ m.exports, e.1.length ≤ kMaxNameLength
  distinct : (m.exports.map Prod.fst).Nodup
  exported : ∀ e ∈ m.exports, e.2 < m.functions.length
  code : m.code.length = m.functions.length
  bodies : ∀ p ∈ m.functions.zip m.code, p.2.WellFormed (m.signature p.1)
  size : m.encode.length < 2 ^ 31

end Wasmcc
