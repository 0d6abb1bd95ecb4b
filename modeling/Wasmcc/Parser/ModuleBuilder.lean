import Wasmcc.Leb128
import Wasmcc.Parser.Validator

/-!
# The module parser

`parser/parser.cc`, function by function. A `ModuleBuilder` collects the sections; every `for` loop
of the source is an `iterate` or `forEach`, `ParseExpression` and `Parse` are `loop`s.
`co_await` and `MaybeYield` only hand over control, so coroutines are plain sequences here.

`ParseOneSection` is split in two: `parseSectionHeader` reads the id and the size and checks the
section order, `parseSectionContents` dispatches on the id.

`ParseExportsSection` keeps a `flat_hash_set<string_view>` of the names seen so far. Each view is of
the string that `name.value()` returns by value, which is gone at the end of the statement, so what
a later lookup compares a new name with is not determined by the program. The section variable
`dangling names name` stands for what such a lookup finds, `names` being the names inserted before;
a lookup in the empty set finds nothing.
-/

open Basis

namespace Wasmcc

def maxFunctions : ℕ := 2 ^ 16
def maxFunctionLocals : ℕ := 2 ^ 8
def kMaxFunctionParameters : ℕ := 6
def kMaxFunctionResults : ℕ := 1
def kMaxFunctionSignatures : ℕ := 2 ^ 17
def kMaxImports : ℕ := 2 ^ 8
def kMaxTables : ℕ := 2 ^ 4
def kMaxMemories : ℕ := 1
def kMaxGlobals : ℕ := 2 ^ 10
def kMaxExports : ℕ := 2 ^ 8
def kMaxNameLength : ℕ := 2 ^ 8

/-- The `%x` of a format string. -/
def hex (n : ℕ) : String := String.ofList (Nat.toDigits 16 n)

/-- The value types that `ParseValType` knows by their byte. -/
def valTypeOfByte (b : Byte) : Option ValType :=
  [ValType.i32, .i64, .f32, .f64, .funcRef, .externRef].find? fun vt => vt.byte == b

def parseValType : Reader Exception ValType := do
  let typeId ← Stream.readByte
  match valTypeOfByte typeId with
  | some vt => pure vt
  | none => Reader.fail (.parse ("unknown valtype: " ++ hex typeId.toNat))

def validateInRange (msg : String) (idx size : ℕ) : Reader Exception Unit :=
  if size ≤ idx then
    Reader.fail (.parse (msg ++ " out of range - " ++ toString idx ++ " ∉ [0, " ++ toString size
      ++ ")"))
  else pure ()

/-- A vector's length, checked against the limit its section puts on it. -/
def parseVectorSize (limit : ℕ) (msg : ℕ → String) : Reader Exception ℕ := do
  let vectorSize ← Leb128.decodeU32
  if vectorSize > limit then Reader.fail (.moduleTooLarge (msg vectorSize))
  else pure vectorSize

def parseName : Reader Exception Name := do
  let strLen ← Leb128.decodeU32
  if strLen > kMaxNameLength then
    Reader.fail (.parse ("name too long: " ++ toString strLen))
  else Stream.readBytes strLen

def parseSignatureTypes (kMax : ℕ) : Reader Exception (List ValType) := do
  let vectorSize ← parseVectorSize kMax fun n => "too many parameters to function: " ++ toString n
  Reader.iterate (fun types => do
    let vt ← parseValType
    pure (types ++ [vt])) vectorSize []

def parseSignature : Reader Exception BlockType := do
  let magic ← Stream.readByte
  if magic ≠ 0x60#8 then
    Reader.fail (.parse ("function type magic mismatch: " ++ hex magic.toNat))
  else do
    let parameterTypes ← parseSignatureTypes kMaxFunctionParameters
    let resultTypes ← parseSignatureTypes kMaxFunctionResults
    pure { parameterTypes, resultTypes }

def parseLimits : Reader Exception Limits := do
  let hasMax ← Stream.readByte
  if hasMax ≠ 0 then do
    let min ← Leb128.decodeU32
    let max ← Leb128.decodeU32
    pure { min, max }
  else do
    let min ← Leb128.decodeU32
    -- the limit of `uint32_t`
    pure { min, max := 2 ^ 32 - 1 }

def parseTableType : Reader Exception TableType := do
  let reftype ← parseValType
  if reftype ≠ .externRef ∧ reftype ≠ .funcRef then
    Reader.fail (.parse ("invalid tabletype type: " ++ hex reftype.byte.toNat))
  else do
    let limits ← parseLimits
    pure { limits, reftype }

def parseMemType : Reader Exception MemType := do
  let limits ← parseLimits
  pure { limits }

def parseGlobalType : Reader Exception GlobalType := do
  let valtype ← parseValType
  let mut_ ← Stream.readByte
  pure { valtype, mut_ := mut_ ≠ 0 }

/-- The number that `memcpy` into an integer or float makes of some bytes. -/
def littleEndian : List Byte → ℕ
  | [] => 0
  | b :: bs => b.toNat + 256 * littleEndian bs

def parseConstExpr : Reader Exception Value := do
  let opcode ← Stream.readByte
  if opcode = 0x41#8 then do
    -- i32.const, read as unsigned
    let v ← Leb128.decode 32 false
    pure (Value.ofU32 v)
  else if opcode = 0x42#8 then do
    -- i64.const
    let v ← Leb128.decode 64 false
    pure (Value.ofU64 v)
  else if opcode = 0x43#8 then do
    -- f32.const
    let b ← Stream.readBytes 4
    pure (Value.ofF32 (BitVec.ofNat 32 (littleEndian b)))
  else if opcode = 0x44#8 then do
    -- f64.const
    let b ← Stream.readBytes 8
    pure (Value.ofF64 (BitVec.ofNat 64 (littleEndian b)))
  else Reader.fail (.parse ("unimplemented global value: " ++ hex opcode.toNat))

def parseTable : Reader Exception Table := do
  let type ← parseTableType
  pure { type }

def parseMemory : Reader Exception Mem := do
  let type ← parseMemType
  pure { type }

def parseGlobal : Reader Exception Global := do
  let type ← parseGlobalType
  let value ← parseConstExpr
  pure { type, value }

/-- The state of the parser. -/
structure ModuleBuilder where
  latestSectionRead : ℕ := 0
  funcSignatures : List BlockType := []
  imports : List ModuleImport := []
  functions : List Function := []
  tables : List Table := []
  memories : List Mem := []
  globals : List Global := []
  exports : List ModuleExport := []
  start : Option ℕ := none

namespace ModuleBuilder

/-! ### The sections -/

def parseSignatureSection (b : ModuleBuilder) : Reader Exception ModuleBuilder := do
  let vectorSize ← parseVectorSize kMaxFunctionSignatures fun n =>
    "too large of type section: " ++ toString n ++ ", max: " ++ toString kMaxFunctionSignatures
  Reader.iterate (fun (b : ModuleBuilder) => do
    let sig ← parseSignature
    pure { b with funcSignatures := b.funcSignatures ++ [sig] }) vectorSize b

/-- One forward declaration: a function with a signature and nothing else. -/
def parseOneFunctionDeclaration (b : ModuleBuilder) : Reader Exception ModuleBuilder := do
  let idx ← Leb128.decodeU32
  validateInRange "unknown function signature" idx b.funcSignatures.length
  pure { b with functions := b.functions ++ [{ meta_ :=
    { signature := b.funcSignatures.getD idx {} } }] }

def parseFunctionDeclarationSection (b : ModuleBuilder) : Reader Exception ModuleBuilder := do
  let vectorSize ← parseVectorSize maxFunctions fun n =>
    "too many functions: " ++ toString n ++ ", max: " ++ toString maxFunctions
  Reader.iterate parseOneFunctionDeclaration vectorSize b

def parseOneImport (b : ModuleBuilder) : Reader Exception ModuleImport := do
  let moduleName ← parseName
  let name ← parseName
  let type ← Stream.readByte
  if type = 0x00#8 then do
    -- func
    let idx ← Leb128.decodeU32
    validateInRange "unknown import function signature" idx b.funcSignatures.length
    pure { moduleName, name, description := .typeIdx idx }
  else if type = 0x01#8 then do
    -- table
    let t ← parseTableType
    pure { moduleName, name, description := .table t }
  else if type = 0x02#8 then do
    -- memory
    let t ← parseMemType
    pure { moduleName, name, description := .mem t }
  else if type = 0x03#8 then do
    -- global
    let t ← parseGlobalType
    pure { moduleName, name, description := .global t }
  else Reader.fail (.parse ("unknown import type: " ++ hex type.toNat))

def parseImportSection (b : ModuleBuilder) : Reader Exception ModuleBuilder := do
  let vectorSize ← parseVectorSize kMaxImports fun n =>
    "too many imports: " ++ toString n ++ ", max: " ++ toString kMaxImports
  Reader.iterate (fun (b : ModuleBuilder) => do
    let i ← parseOneImport b
    pure { b with imports := b.imports ++ [i] }) vectorSize b

def parseTableSection (b : ModuleBuilder) : Reader Exception ModuleBuilder := do
  let vectorSize ← parseVectorSize kMaxTables fun n =>
    "too many tables: " ++ toString n ++ ", max: " ++ toString kMaxTables
  Reader.iterate (fun (b : ModuleBuilder) => do
    let t ← parseTable
    pure { b with tables := b.tables ++ [t] }) vectorSize b

def parseMemoriesSection (b : ModuleBuilder) : Reader Exception ModuleBuilder := do
  let vectorSize ← parseVectorSize kMaxMemories fun n =>
    "too many memories: " ++ toString n ++ ", max: " ++ toString kMaxMemories
  Reader.iterate (fun (b : ModuleBuilder) => do
    let m ← parseMemory
    pure { b with memories := b.memories ++ [m] }) vectorSize b

def parseGlobalsSection (b : ModuleBuilder) : Reader Exception ModuleBuilder := do
  let vectorSize ← parseVectorSize kMaxGlobals fun n =>
    "too many globals: " ++ toString n ++ ", max: " ++ toString kMaxGlobals
  Reader.iterate (fun (b : ModuleBuilder) => do
    let g ← parseGlobal
    pure { b with globals := b.globals ++ [g] }) vectorSize b

def parseOneExport (b : ModuleBuilder) : Reader Exception ModuleExport := do
  let name ← parseName
  let type ← Stream.readByte
  if type = 0x00#8 then do
    -- func: the index is compared with the declared functions, imports not counted
    let idx ← Leb128.decodeU32
    validateInRange "unknown function export" idx b.functions.length
    pure { name, description := .funcIdx idx }
  else if type = 0x01#8 then do
    -- table, with the text of a function
    let idx ← Leb128.decodeU32
    validateInRange "unknown function export" idx b.tables.length
    pure { name, description := .tableIdx idx }
  else if type = 0x02#8 then do
    -- memory
    let idx ← Leb128.decodeU32
    validateInRange "unknown memory export" idx b.memories.length
    pure { name, description := .memIdx idx }
  else if type = 0x03#8 then do
    -- global
    let idx ← Leb128.decodeU32
    validateInRange "unknown global export" idx b.globals.length
    pure { name, description := .globalIdx idx }
  else Reader.fail (.parse ("unknown export type: " ++ toString type.toNat))

section Dangling

variable (dangling : List Name → Name → Bool)

/-- Whether `names.insert` reports an equal name that is already there. -/
def findsName (names : List Name) (name : Name) : Bool := !names.isEmpty && dangling names name

/-- One round of the loop of `ParseExportsSection`: the builder and the names inserted so far. -/
def parseNextExport (s : ModuleBuilder × List Name) :
    Reader Exception (ModuleBuilder × List Name) := do
  let e ← parseOneExport s.1
  if findsName dangling s.2 e.name then
    Reader.fail (.parse ("duplicate exported name: "
      ++ String.ofList (e.name.map fun c => Char.ofNat c.toNat)))
  else pure ({ s.1 with exports := s.1.exports ++ [e] }, s.2 ++ [e.name])

def parseExportsSection (b : ModuleBuilder) : Reader Exception ModuleBuilder := do
  let vectorSize ← parseVectorSize kMaxExports fun n =>
    "too many exports: " ++ toString n ++ ", max: " ++ toString kMaxExports
  let s ← Reader.iterate (parseNextExport dangling) vectorSize (b, [])
  pure s.1

/-! ### Function bodies -/

/-- `OpEmitter`: the validator that sees every instruction, and the instructions emitted. -/
structure OpEmitter where
  validator : FunctionValidator
  instructions : List Instruction := []

def OpEmitter.emit (e : OpEmitter) (instruction : Instruction) : Reader Exception OpEmitter :=
  match e.validator.visit instruction with
  | .ok validator => pure { validator, instructions := e.instructions ++ [instruction] }
  | .error ex => Reader.fail ex

def OpEmitter.finalize (e : OpEmitter) :
    Reader Exception (List Instruction × FunctionValidator) :=
  match e.validator.finalize with
  | .ok validator => pure (e.instructions, validator)
  | .error ex => Reader.fail ex

/-- One round of the loop of `ParseExpression`: the next opcode, with its immediates. `.inr` is the
`0x0B` that ends the expression. -/
def parseNextOp (e : OpEmitter) : Reader Exception (OpEmitter ⊕ OpEmitter) := do
  let opcode ← Stream.readByte
  if opcode = 0x0B#8 then pure (.inr e)
  else if opcode = 0x04#8 then do
    -- if
    let e ← e.emit (.brIf (makeLabelId "then" 0) (makeLabelId "else" 0))
    let e ← e.emit (.label (makeLabelId "then" 0))
    pure (.inl e)
  else if opcode = 0x05#8 then do
    -- else; the `end` of the source is never reached, since its byte ends the loop
    let e ← e.emit (.br (makeLabelId "end" 0))
    let e ← e.emit (.label (makeLabelId "else" 0))
    pure (.inl e)
  else if opcode = 0x0F#8 then do
    -- return
    let e ← e.emit .return_
    pure (.inl e)
  else if opcode = 0x20#8 then do
    -- get_local_i32
    let idx ← Leb128.decodeU32
    let e ← e.emit (.getLocalI32 idx)
    pure (.inl e)
  else if opcode = 0x21#8 then do
    -- set_local_i32
    let idx ← Leb128.decodeU32
    let e ← e.emit (.setLocalI32 idx)
    pure (.inl e)
  else if opcode = 0x41#8 then do
    -- const_i32, read as unsigned
    let v ← Leb128.decode 32 false
    let e ← e.emit (.constI32 (Value.ofU32 v))
    pure (.inl e)
  else if opcode = 0x6A#8 then do
    -- add_i32
    let e ← e.emit .addI32
    pure (.inl e)
  else Reader.fail (.parse ("unsupported opcode: " ++ toString opcode.toNat))

def parseExpression (validator : FunctionValidator) :
    Reader Exception (List Instruction × FunctionValidator) := do
  let e ← Reader.loop .endOfStream parseNextOp { validator }
  e.finalize

/-- One run-length encoded group of locals, appended to those before it. -/
def parseLocalGroup (locals : List ValType) : Reader Exception (List ValType) := do
  let numLocals ← Leb128.decodeU32
  if numLocals + locals.length > maxFunctionLocals then
    Reader.fail (.moduleTooLarge ("too many locals: " ++ toString (numLocals + locals.length)))
  else do
    let valtype ← parseValType
    pure (locals ++ List.replicate numLocals valtype)

def parseOneCode (func : Function) : Reader Exception Function := do
  let expectedSize ← Leb128.decodeU32
  let startPosition ← Reader.bytesConsumed
  let vectorSize ← Leb128.decodeU32
  -- the locals of the groups come after what the function had
  let locals ← Reader.iterate parseLocalGroup vectorSize func.meta_.locals
  let (body, validator) ← parseExpression (FunctionValidator.new func.meta_.signature locals)
  let position ← Reader.bytesConsumed
  -- the size is checked when the body has been validated
  let actual := position - startPosition
  if actual ≠ expectedSize then
    Reader.fail (.parse ("unexpected size of function, actual: " ++ toString actual
      ++ " expected: " ++ toString expectedSize))
  else do
    let meta_ : Function.Metadata :=
      { signature := func.meta_.signature
        locals
        maxStackSizeBytes := BitVec.ofNat 32 validator.maximumStackSizeBytes
        maxStackElements := BitVec.ofNat 32 validator.maximumStackElements }
    pure { meta_, body }

def parseCodeSection (b : ModuleBuilder) : Reader Exception ModuleBuilder := do
  let vectorSize ← Leb128.decodeU32
  if vectorSize ≠ b.functions.length then
    Reader.fail (.parse ("unexpected number of code, actual: " ++ toString vectorSize
      ++ " expected: " ++ toString b.functions.length))
  else do
    -- each body goes to the declaration at its position
    let functions ← Reader.forEach parseOneCode b.functions
    pure { b with functions }

/-! ### The module -/

/-- The part of `ParseOneSection` before its `switch`: the section id, checked to come after the
last one unless the section is custom, and the declared size. -/
def parseSectionHeader (b : ModuleBuilder) : Reader Exception (ModuleBuilder × Byte × ℕ) := do
  let id ← Stream.readByte
  if id ≠ 0 ∧ id.toNat ≤ b.latestSectionRead then
    Reader.fail (.parse ("invalid section order, section id " ++ toString id.toNat
      ++ " is after id " ++ toString b.latestSectionRead))
  else do
    -- custom sections are allowed anywhere
    let b := if id ≠ 0 then { b with latestSectionRead := id.toNat } else b
    let size ← Leb128.decodeU32
    pure (b, id, size)

/-- The `switch` of `ParseOneSection`. -/
def parseSectionContents (id : Byte) (size : ℕ) (b : ModuleBuilder) :
    Reader Exception ModuleBuilder :=
  if id = 0x00#8 then do
    -- a custom section; of all sections, only its size is used
    Stream.skip size
    pure b
  else if id = 0x01#8 then b.parseSignatureSection
  else if id = 0x02#8 then b.parseImportSection
  else if id = 0x03#8 then b.parseFunctionDeclarationSection
  else if id = 0x04#8 then b.parseTableSection
  else if id = 0x05#8 then b.parseMemoriesSection
  else if id = 0x06#8 then b.parseGlobalsSection
  else if id = 0x07#8 then b.parseExportsSection dangling
  else if id = 0x08#8 then do
    -- the start section
    let idx ← Leb128.decodeU32
    validateInRange "start function" idx b.functions.length
    pure { b with start := some idx }
  else if id = 0x09#8 then Reader.fail (.parse "tables unimplemented")
  else if id = 0x0A#8 then b.parseCodeSection
  else if id = 0x0B#8 ∨ id = 0x0C#8 then Reader.fail (.parse "memories unimplemented")
  else Reader.fail (.parse ("unknown section id: " ++ toString id.toNat))

def parseOneSection (b : ModuleBuilder) : Reader Exception ModuleBuilder := do
  let (b, id, size) ← b.parseSectionHeader
  parseSectionContents dangling id size b

def kMagicBytes : List Byte := [0x00#8, 0x61#8, 0x73#8, 0x6D#8]

def kVersionOne : List Byte := [0x01#8, 0x00#8, 0x00#8, 0x00#8]

/-- One round of the loop of `Parse`. -/
def parseNextSection (b : ModuleBuilder) : Reader Exception (ModuleBuilder ⊕ ModuleBuilder) := do
  let more ← Reader.hasRemaining
  if more then do
    let b ← b.parseOneSection dangling
    pure (.inl b)
  else pure (.inr b)

def parse (b : ModuleBuilder) : Reader Exception ModuleBuilder := do
  let magic ← Stream.readBytes 4
  if magic ≠ kMagicBytes then
    Reader.fail (.parse ("magic bytes mismatch: "
      ++ " ".intercalate (magic.map fun b => hex b.toNat)))
  else do
    let version ← Stream.readBytes 4
    if version ≠ kVersionOne then Reader.fail (.parse "unsupported wasm version")
    else Reader.loop .endOfStream (parseNextSection dangling) b

/-- `emplace`: a name that is already a key keeps its value. -/
def emplaceExport (m : AList (fun _ : Name => ℕ)) (e : ModuleExport) :
    AList (fun _ : Name => ℕ) :=
  match e.description with
  | .funcIdx idx => if e.name ∈ m then m else m.insert e.name idx
  -- exports of tables, memories and globals are dropped
  | _ => m

def build (b : ModuleBuilder) : ParsedModule where
  functions := b.functions
  exportedFunctions := b.exports.foldl emplaceExport ∅

end Dangling

end ModuleBuilder

/-- `ParseModule`. -/
def parseModule (dangling : List Name → Name → Bool) : Reader Exception ParsedModule := do
  let b ← ModuleBuilder.parse dangling {}
  pure b.build

end Wasmcc
