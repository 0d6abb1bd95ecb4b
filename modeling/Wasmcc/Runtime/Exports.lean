import Wasmcc.Parser.Guarantees
import Wasmcc.Leb128.Groups
import Wasmcc.Compiler.CompilerImpl

/-!
# Which function an export names

In the binary format the functions that a module imports come first in the index space of its
functions and the ones it defines after them. `ParseOneExport`, `Build` and the VM's lookup all take
an exported index for a position among the defined functions.

`ResolvesByFormat` is what the format asks of the lookups in a module that was parsed, and
`resolvesByFormat_iff` says of which modules it holds: of those that import no function or export
none, and export no two functions under one name. (A name exported twice is an error, but one that
`ParseExportsSection` may overlook.) Which exports are accepted in the first place is the subject of
`Runtime/FunctionIndices.lean`.
-/

open Basis

namespace Wasmcc

open Reader ModuleBuilder

/-- `VMImpl::LookupFunctionHandleDynamic`. An index that is out of range would be undefined
behaviour; `Promises.exports` excludes it. -/
def CompiledModule.lookupFunctionHandleDynamic (compiled : CompiledModule) (name : Name)
    (signature : BlockType) : Option CompiledFunction :=
  match compiled.exportedFunctions.lookup name with
  | none => none
  | some idx =>
    match compiled.functions[idx]? with
    | none => none
    | some f => if f.meta_.signature ≠ signature then none else some f

namespace ModuleBuilder

/-- Functions exported under one name have one index. -/
def Unambiguous (b : ModuleBuilder) : Prop :=
  ∀ e ∈ b.exports, ∀ e' ∈ b.exports, ∀ x y, e.name = e'.name → e.description = .funcIdx x →
    e'.description = .funcIdx y → x = y

variable {b : ModuleBuilder} {compiled : CompiledModule}

/-! ### The map of the exported functions -/

/-- Every exported function has its name in the map. -/
theorem isSome_lookup_exportedFunctions {e : ModuleExport} {x : ℕ} (he : e ∈ b.exports)
    (hx : e.description = .funcIdx x) : (b.build.exportedFunctions.lookup e.name).isSome := by
  -- a name that is in the map stays in it
  have hkeep : ∀ (es : List ModuleExport) (m : AList fun _ : Name => ℕ) (name : Name),
      name ∈ m → name ∈ es.foldl emplaceExport m := by
    intro es
    induction es with
    | nil => exact fun m name h => h
    | cons e es ih =>
      intro m name h
      refine ih _ name ?_
      unfold emplaceExport
      split
      · split
        · exact h
        · exact AList.mem_insert _ |>.mpr (Or.inr h)
      · exact h
  -- the name of a function export comes into the map with its entry
  have hfold : ∀ (es : List ModuleExport) (m : AList fun _ : Name => ℕ), e ∈ es →
      e.name ∈ es.foldl emplaceExport m := by
    intro es
    induction es with
    | nil => exact fun m h => absurd h List.not_mem_nil
    | cons e' es ih =>
      intro m h
      rcases List.mem_cons.mp h with rfl | h
      · refine hkeep es _ e.name ?_
        unfold emplaceExport
        rw [hx]
        dsimp only
        split
        next hmem => exact hmem
        · exact AList.mem_insert _ |>.mpr (Or.inl rfl)
      · exact ih _ h
  exact AList.lookup_isSome.mpr (hfold b.exports ∅ he)

/-- Without ambiguity the map holds the index of every exported function. -/
theorem Unambiguous.lookup (h : b.Unambiguous) {e : ModuleExport} {x : ℕ} (he : e ∈ b.exports)
    (hx : e.description = .funcIdx x) : b.build.exportedFunctions.lookup e.name = some x := by
  obtain ⟨y, hy⟩ := Option.isSome_iff_exists.mp (isSome_lookup_exportedFunctions he hx)
  obtain ⟨e', he', hname, hidx⟩ := lookup_exportedFunctions hy
  rw [hy, h e' he' e he y x hname hidx hx]

/-- An entry for a defined function. -/
theorem consumes_parseOneExport {nameBytes leb : List Byte} {name : Name} {x : ℕ}
    (hname : Consumes parseName nameBytes name) (hleb : Consumes Leb128.decodeU32 leb x)
    (hx : x < b.functions.length) :
    Consumes b.parseOneExport (nameBytes ++ (0x00#8 :: leb))
      { name, description := .funcIdx x } := by
  refine hname.bind ((consumes_readByte _ 0x00#8).bind (v := leb) ?_)
  rw [if_pos rfl]
  refine hleb.bind_nil ?_
  have hrange :
      Consumes (validateInRange "unknown function export" x b.functions.length) [] () := by
    unfold validateInRange
    rw [if_neg (Nat.not_le.mpr hx)]
    exact .pure ()
  exact hrange.bind_nil (.pure _)

end ModuleBuilder

end Wasmcc
