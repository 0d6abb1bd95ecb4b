import Wasmcc.Base.Stream

/-!
# The abstract syntax of a module

Value types, values, instructions and the parts of a parsed module (`core/value.h`,
`core/instruction.h`, `core/ast.h`). Named integers (`TypeIdx`, `FuncIdx`, …) are natural numbers
below `2 ^ 32`, a `Name` is a string of bytes, and an absl hash map is a Mathlib `AList`.

`CoreBody` singles out the five instructions that the validator and the compilers handle;
the visitors of the other three are empty in the source.
-/

open Basis

namespace Wasmcc

/-! ### Value types and values -/

inductive ValType where
  | i32
  | i64
  | f32
  | f64
  | v128
  | funcRef
  | externRef
deriving DecidableEq, Repr

namespace ValType

/-- The byte an enumerator is declared as. -/
def byte : ValType → Byte
  | i32 => 0x7F#8
  | i64 => 0x7E#8
  | f32 => 0x7D#8
  | f64 => 0x7C#8
  | v128 => 0x7B#8
  | funcRef => 0x70#8
  | externRef => 0x6F#8

def is32Bit : ValType → Bool
  | i32 | f32 | externRef | funcRef => true
  | _ => false

/-- `ValTypeSizeBytes`, pointers being eight bytes wide. -/
def sizeBytes : ValType → ℕ
  | i32 => 4
  | i64 => 8
  | f32 => 4
  | f64 => 8
  | v128 => 16
  | funcRef => 8
  | externRef => 8

theorem sizeBytes_pos (vt : ValType) : 0 < vt.sizeBytes := by
  cases vt <;> decide

theorem four_le_sizeBytes (vt : ValType) : 4 ≤ vt.sizeBytes := by
  cases vt <;> decide

theorem sizeBytes_le (vt : ValType) : vt.sizeBytes ≤ 16 := by
  cases vt <;> decide

end ValType

/-- The bytes that a sequence of values of these types takes. -/
def sizeOfTypes (ts : List ValType) : ℕ := (ts.map ValType.sizeBytes).sum

/-- A constant: 64 bits that are read at the type they were written at. -/
structure Value where
  underlying : BitVec 64
deriving DecidableEq, Repr

namespace Value

def ofU32 (v : BitVec 32) : Value := ⟨v.setWidth 64⟩
def ofU64 (v : BitVec 64) : Value := ⟨v⟩
/-- `Value::F32`, from the bits of the float. -/
def ofF32 (bits : BitVec 32) : Value := ⟨bits.setWidth 64⟩
/-- `Value::F64`, from the bits of the double. -/
def ofF64 (bits : BitVec 64) : Value := ⟨bits⟩

def asI32 (v : Value) : BitVec 32 := v.underlying.setWidth 32
def asI64 (v : Value) : BitVec 64 := v.underlying
/-- `Value::AsF32`, as the bits of the float. -/
def asF32 (v : Value) : BitVec 32 := v.underlying.setWidth 32
/-- `Value::AsF64`, as the bits of the double. -/
def asF64 (v : Value) : BitVec 64 := v.underlying

@[simp] theorem asI32_ofU32 (v : BitVec 32) : (ofU32 v).asI32 = v := by
  simp [ofU32, asI32]

end Value

/-! ### Instructions -/

/-- `MakeLabelId`: a label's class and number. -/
def makeLabelId (name : String) (id : ℤ) : String := name ++ "_" ++ toString id

inductive Instruction where
  | constI32 (value : Value)
  | addI32
  | getLocalI32 (idx : ℕ)
  | setLocalI32 (idx : ℕ)
  | return_
  | label (id : String)
  | br (labelId : String)
  | brIf (thenLabelId elseLabelId : String)
deriving DecidableEq, Repr

/-- One of the five instructions that the validator and the compilers do something for. -/
def Instruction.isCore : Instruction → Bool
  | .constI32 _ | .addI32 | .getLocalI32 _ | .setLocalI32 _ | .return_ => true
  | .label _ | .br _ | .brIf _ _ => false

/-- A body made of the five core instructions only. -/
def CoreBody (body : List Instruction) : Prop := ∀ i ∈ body, i.isCore = true

instance (body : List Instruction) : Decidable (CoreBody body) :=
  inferInstanceAs (Decidable (∀ i ∈ body, i.isCore = true))

theorem CoreBody.tail {i : Instruction} {body : List Instruction} (h : CoreBody (i :: body)) :
    CoreBody body := fun j hj => h j (List.mem_cons_of_mem i hj)

theorem CoreBody.head {i : Instruction} {body : List Instruction} (h : CoreBody (i :: body)) :
    i.isCore = true := h i List.mem_cons_self

/-! ### Modules -/

/-- A name, as the bytes of the string that holds it. -/
abbrev Name := List Byte

structure BlockType where
  parameterTypes : List ValType := []
  resultTypes : List ValType := []
deriving DecidableEq, Repr

structure Limits where
  min : ℕ
  /-- A missing maximum is the largest `uint32_t`. -/
  max : ℕ
deriving DecidableEq, Repr

structure TableType where
  limits : Limits
  reftype : ValType
deriving DecidableEq, Repr

structure MemType where
  limits : Limits
deriving DecidableEq, Repr

structure GlobalType where
  valtype : ValType
  mut_ : Bool
deriving DecidableEq, Repr

inductive ModuleImport.Description where
  | typeIdx (idx : ℕ)
  | table (type : TableType)
  | mem (type : MemType)
  | global (type : GlobalType)
deriving DecidableEq, Repr

structure ModuleImport where
  moduleName : Name
  name : Name
  description : ModuleImport.Description
deriving DecidableEq, Repr

structure Table where
  type : TableType
deriving DecidableEq, Repr

structure Mem where
  type : MemType
deriving DecidableEq, Repr

structure Global where
  type : GlobalType
  value : Value
deriving DecidableEq, Repr

inductive ModuleExport.Description where
  | funcIdx (idx : ℕ)
  | tableIdx (idx : ℕ)
  | memIdx (idx : ℕ)
  | globalIdx (idx : ℕ)
deriving DecidableEq, Repr

structure ModuleExport where
  name : Name
  description : ModuleExport.Description
deriving DecidableEq, Repr

/-- `Function::Metadata`, the last two fields being `uint32_t`. -/
structure Function.Metadata where
  signature : BlockType
  locals : List ValType := []
  maxStackSizeBytes : BitVec 32 := 0
  maxStackElements : BitVec 32 := 0
deriving DecidableEq, Repr

structure Function where
  meta_ : Function.Metadata
  body : List Instruction := []
deriving DecidableEq, Repr

/-- The types of a function's parameters and declared locals, in index order. -/
def Function.Metadata.localTypes (m : Function.Metadata) : List ValType :=
  m.signature.parameterTypes ++ m.locals

structure ParsedModule where
  functions : List Function
  exportedFunctions : AList (fun _ : Name => ℕ)

end Wasmcc
