import Wasmcc.Parser.RoundTrip

/-!
# The names of exports

`ParseExportsSection` inserts every name into a set and refuses one that is already there. The set
holds views of copies that are gone, so a lookup may find a name that is new, or miss one that is
not. What `Build` makes of the exports is a map from names to the indices of functions, which keeps
the first index for a name.

`NamesDecide` is what the check is for: a section is refused exactly if two of its entries have one
name, and the map has one entry for each exported function. `exportNames_iff` says for which lookups
it holds, and that it does for all of them only if there is at most one export.
-/

open Basis

namespace Wasmcc

open Reader ModuleBuilder
open Leb128 (EncodedInt)

/-! ### The format of the section -/

inductive ExportKind where
  | func
  | table
  | mem
  | global
deriving DecidableEq, Repr

namespace ExportKind

def byte : ExportKind → Byte
  | func => 0x00#8
  | table => 0x01#8
  | mem => 0x02#8
  | global => 0x03#8

def description : ExportKind → ℕ → ModuleExport.Description
  | func => .funcIdx
  | table => .tableIdx
  | mem => .memIdx
  | global => .globalIdx

/-- How many there are of the kind. -/
def count (b : ModuleBuilder) : ExportKind → ℕ
  | func => b.functions.length
  | table => b.tables.length
  | mem => b.memories.length
  | global => b.globals.length

end ExportKind

/-- An entry of the section, with its numbers as they are encoded. -/
structure EncodedExport where
  nameLength : EncodedInt false 32
  name : Name
  kind : ExportKind
  index : EncodedInt false 32
  nameLength_eq : unsignedValue nameLength.bytes = name.length

namespace EncodedExport

def encode (e : EncodedExport) : List Byte :=
  e.nameLength.bytes ++ (e.name ++ e.kind.byte :: e.index.bytes)

def toExport (e : EncodedExport) : ModuleExport where
  name := e.name
  description := e.kind.description (unsignedValue e.index.bytes)

/-- The entry is well formed, whatever the names of the others. -/
structure WellFormed (b : ModuleBuilder) (e : EncodedExport) : Prop where
  length_le : e.name.length ≤ kMaxNameLength
  index_lt : unsignedValue e.index.bytes < e.kind.count b

end EncodedExport

/-- The export section: a vector of entries. -/
structure EncodedExports where
  count : EncodedInt false 32
  entries : List EncodedExport
  count_eq : unsignedValue count.bytes = entries.length

namespace EncodedExports

def encode (s : EncodedExports) : List Byte := s.count.bytes ++ s.entries.flatMap (·.encode)

def names (s : EncodedExports) : List Name := s.entries.map (·.name)

structure WellFormed (b : ModuleBuilder) (s : EncodedExports) : Prop where
  length_le : s.entries.length ≤ kMaxExports
  entries : ∀ e ∈ s.entries, e.WellFormed b

end EncodedExports

/-- The entry of an exported function in the map of the module. -/
def functionEntry (e : ModuleExport) : Option (Σ _ : Name, ℕ) :=
  match e.description with
  | .funcIdx idx => some ⟨e.name, idx⟩
  | _ => none

/-- What the check of the names is for. -/
structure NamesDecide (dangling : List Name → Name → Bool) (b : ModuleBuilder)
    (s : EncodedExports) : Prop where
  rejects : Rejects (b.parseExportsSection dangling) s.encode ↔ ¬s.names.Nodup
  accepts : s.names.Nodup → ∃ b', Consumes (b.parseExportsSection dangling) s.encode b'
  /-- The map has one entry for each exported function, and no others. -/
  exported : ∀ b', Consumes (b.parseExportsSection dangling) s.encode b' →
    b'.build.exportedFunctions.entries.Perm ((s.entries.map (·.toExport)).filterMap functionEntry)

/-! ### Reading the section -/

section Reading

variable {b : ModuleBuilder} {dangling : List Name → Name → Bool} {s : EncodedExports}

theorem EncodedExport.consumes_name {e : EncodedExport} (h : e.name.length ≤ kMaxNameLength) :
    Consumes parseName (e.nameLength.bytes ++ e.name) e.name := by
  have hlength := e.nameLength.consumes_decodeU32
  rw [e.nameLength_eq] at hlength
  refine hlength.bind ?_
  rw [if_neg (Nat.not_lt.mpr h)]
  exact consumes_readBytes _ e.name

theorem EncodedExport.consumes {e : EncodedExport} (h : e.WellFormed b) :
    Consumes b.parseOneExport e.encode e.toExport := by
  rw [EncodedExport.encode, ← List.append_assoc]
  refine (consumes_name h.length_le).bind
    ((consumes_readByte _ e.kind.byte).bind (v := e.index.bytes) ?_)
  -- what the four kinds have in common
  have hindex (msg : String) : Consumes (do
      let idx ← Leb128.decodeU32
      validateInRange msg idx (e.kind.count b)
      pure { name := e.name, description := e.kind.description idx } :
        Reader Exception ModuleExport) e.index.bytes e.toExport :=
    e.index.consumes_decodeU32.bind_nil
      ((consumes_validateInRange msg h.index_lt).bind_nil (.pure _))
  -- the message about a table is that about a function, as in the source
  cases hkind : e.kind <;> rw [hkind] at hindex
  · exact hindex "unknown function export"
  · exact hindex "unknown function export"
  · exact hindex "unknown memory export"
  · exact hindex "unknown global export"

/-- An index that is too large is refused. -/
theorem EncodedExport.rejects {e : EncodedExport} (hlen : e.name.length ≤ kMaxNameLength)
    (hindex : e.kind.count b ≤ unsignedValue e.index.bytes) :
    Rejects b.parseOneExport e.encode := by
  rw [EncodedExport.encode, ← List.append_assoc]
  refine (consumes_name hlen).bind_rejects
    ((consumes_readByte _ e.kind.byte).bind_rejects (v := e.index.bytes) ?_)
  -- whatever the kind, the check after the index fails
  have hrange (msg : String) : Rejects (do
      let idx ← Leb128.decodeU32
      validateInRange msg idx (e.kind.count b)
      pure { name := e.name, description := e.kind.description idx } :
        Reader Exception ModuleExport) e.index.bytes := by
    rw [← List.append_nil e.index.bytes]
    refine e.index.consumes_decodeU32.bind_rejects (Rejects.bind ?_ _)
    rw [validateInRange, if_pos hindex]
    exact .fail _
  cases hkind : e.kind <;> rw [hkind] at hrange
  · exact hrange "unknown function export"
  · exact hrange "unknown function export"
  · exact hrange "unknown memory export"
  · exact hrange "unknown global export"

theorem EncodedExports.consumes_entries (h : s.WellFormed b) :
    ∀ p ∈ s.entries.map fun e => (e.encode, e.toExport), Consumes b.parseOneExport p.1 p.2 := by
  intro p hp
  obtain ⟨e, he, rfl⟩ := List.mem_map.mp hp
  exact EncodedExport.consumes (h.entries e he)

/-- What the section does to a builder, if no lookup finds a name. -/
def EncodedExports.addTo (s : EncodedExports) (b : ModuleBuilder) : ModuleBuilder :=
  { b with exports := b.exports ++ s.entries.map (·.toExport) }

/-- **The section** is read up to its end as long as no lookup finds a name, and refused if one
does. -/
theorem EncodedExports.consumes_or_rejects (h : s.WellFormed b) :
    (NoFalseFind dangling [] s.names →
        Consumes (b.parseExportsSection dangling) s.encode (s.addTo b)) ∧
      (¬NoFalseFind dangling [] s.names → Rejects (b.parseExportsSection dangling) s.encode) := by
  -- the entries one by one, with the names that are looked up
  have hentries := consumes_entries h
  have hlength : (s.entries.map fun e => (e.encode, e.toExport)).length = s.entries.length :=
    List.length_map _
  have hnames : (s.entries.map fun e => (e.encode, e.toExport)).map (·.2.name) = s.names := by
    rw [List.map_map]
    rfl
  have hbytes : (s.entries.map fun e => (e.encode, e.toExport)).flatMap (·.1) =
      s.entries.flatMap (·.encode) := List.flatMap_map _ _ _
  have hsize := s.count.consumes_decodeU32
  rw [s.count_eq, ← hlength] at hsize
  have hlimit := h.length_le
  rw [← hlength] at hlimit
  rw [encode, ← hbytes, ← hnames]
  constructor
  · intro hfind
    have hread := consumes_parseExportsSection hsize hlimit hentries hfind
    rwa [List.map_map] at hread
  · exact rejects_parseExportsSection hsize hlimit hentries

end Reading

/-! ### The map -/

/-- Exports under new names are put into the map one after another. -/
theorem entries_foldl_emplaceExport {es : List ModuleExport} :
    ∀ {m : AList fun _ : Name => ℕ}, (es.map (·.name)).Nodup → (∀ e ∈ es, e.name ∉ m) →
      (es.foldl emplaceExport m).entries.Perm (es.filterMap functionEntry ++ m.entries) := by
  induction es with
  | nil => exact fun _ _ => .refl _
  | cons e es ih =>
    intro m hnodup hnew
    obtain ⟨hfresh, hnodup⟩ := List.nodup_cons.mp hnodup
    have hrest : ∀ e' ∈ es, e'.name ∉ m := fun e' he' => hnew e' (List.mem_cons_of_mem e he')
    rw [List.foldl_cons, List.filterMap_cons]
    cases hdesc : e.description with
    | funcIdx idx =>
      have hm : e.name ∉ m := hnew e List.mem_cons_self
      have hemplace : emplaceExport m e = m.insert e.name idx := by
        rw [emplaceExport, hdesc]
        exact if_neg hm
      have hentry : functionEntry e = some ⟨e.name, idx⟩ := by rw [functionEntry, hdesc]
      rw [hemplace, hentry]
      -- the new name is none of those that follow
      have hlater : ∀ e' ∈ es, e'.name ∉ m.insert e.name idx := by
        intro e' he' hmem
        rw [AList.mem_insert] at hmem
        obtain heq | hmem := hmem
        · exact hfresh (List.mem_map.mpr ⟨e', he', heq⟩)
        · exact hrest e' he' hmem
      refine (ih hnodup hlater).trans ?_
      rw [AList.entries_insert_of_notMem hm]
      exact List.perm_middle
    | tableIdx idx | memIdx idx | globalIdx idx =>
      have hemplace : emplaceExport m e = m := by rw [emplaceExport, hdesc]
      have hentry : functionEntry e = none := by rw [functionEntry, hdesc]
      rw [hemplace, hentry]
      exact ih hnodup hrest

/-! ### When the names decide -/

section Decide

variable {b : ModuleBuilder} {dangling : List Name → Name → Bool} {s : EncodedExports}

/-- **For given lookups** the names decide exactly if a lookup finds a name if and only if there are
two of one name. -/
theorem namesDecide_iff (hexports : b.exports = []) (h : s.WellFormed b) :
    NamesDecide dangling b s ↔ (NoFalseFind dangling [] s.names ↔ s.names.Nodup) := by
  obtain ⟨hconsumes, hrejects⟩ := s.consumes_or_rejects h
  -- the section is not both read and refused
  have hexclusive {b' : ModuleBuilder}
      (hread : Consumes (b.parseExportsSection dangling) s.encode b') :
      ¬Rejects (b.parseExportsSection dangling) s.encode := by
    intro hno
    obtain ⟨ex, hex⟩ := hno [] 0
    rw [hread [] 0] at hex
    cases hex
  constructor
  · intro hdecide
    constructor
    -- a duplicate that no lookup finds would be read, and would have to be refused
    · intro hfind
      by_contra hdup
      exact hexclusive (hconsumes hfind) (hdecide.rejects.mpr hdup)
    · intro hnodup
      by_contra hfind
      exact hdecide.rejects.mp (hrejects hfind) hnodup
  · intro hiff
    -- the lookups find what is there, and nothing else
    refine ⟨?_, fun hnodup => ⟨_, hconsumes (hiff.mpr hnodup)⟩, fun b' hread => ?_⟩
    · constructor
      · exact fun hno hnodup => hexclusive (hconsumes (hiff.mpr hnodup)) hno
      · exact fun hdup => hrejects fun hfind => hdup (hiff.mp hfind)
    -- a section that was read had no finds, so its names differ
    · have hfind : NoFalseFind dangling [] s.names := by
        by_contra hfind
        exact hexclusive hread (hrejects hfind)
      obtain ⟨rfl, -⟩ := hread.det (hconsumes hfind) (Eq.refl (s.encode ++ []))
      rw [build, EncodedExports.addTo, hexports, List.nil_append]
      have hnames : (s.entries.map (·.toExport)).map (·.name) = s.names := by
        rw [List.map_map]
        rfl
      have hperm := entries_foldl_emplaceExport (m := ∅) (hnames ▸ hiff.mp hfind)
        fun e _ => AList.notMem_empty e.name
      rwa [AList.empty_entries, List.append_nil] at hperm

theorem noFalseFind_never : ∀ {names rest : List Name},
    NoFalseFind (fun _ _ => false) names rest := by
  intro names rest
  induction rest generalizing names with
  | nil => trivial
  | cons name rest ih => exact ⟨Bool.and_false _, ih⟩

/-- All lookups are right only where there is nothing to find. -/
theorem finds_all_iff {names : List Name} :
    (∀ dangling, NoFalseFind dangling [] names ↔ names.Nodup) ↔ names.length ≤ 1 := by
  constructor
  · intro hiff
    -- a lookup that finds nothing misses a duplicate
    have hnodup : names.Nodup := (hiff fun _ _ => false).mp noFalseFind_never
    rw [← noFalseFind_all_iff]
    exact fun dangling => (hiff dangling).mpr hnodup
  · intro hlength dangling
    refine iff_of_true (noFalseFind_all_iff.mpr hlength dangling) ?_
    match names with
    | [] => exact List.nodup_nil
    | [name] => exact List.nodup_singleton name
    | _ :: _ :: _ => simp at hlength

/-- **When the names of exports decide.** For given lookups: if they find a name exactly if it is
there. For all of them: if there is at most one export. -/
theorem exportNames_iff (hexports : b.exports = []) (h : s.WellFormed b) :
    (∀ dangling, NamesDecide dangling b s ↔
      (NoFalseFind dangling [] s.names ↔ s.names.Nodup)) ∧
    ((∀ dangling, NamesDecide dangling b s) ↔ s.entries.length ≤ 1) := by
  refine ⟨fun dangling => namesDecide_iff hexports h, ?_⟩
  have hlength : s.names.length = s.entries.length := List.length_map _
  rw [← hlength, ← finds_all_iff]
  exact forall_congr' fun dangling => namesDecide_iff hexports h

end Decide

/-- The first function is exported under two names of one character. -/
def twoExports (x y : Byte) : EncodedExports where
  count := ⟨[0x02#8], .last (by decide), by decide, by decide⟩
  entries := [x, y].map fun c =>
    { nameLength := ⟨[0x01#8], .last (by decide), by decide, by decide⟩
      name := [c]
      kind := .func
      index := ⟨[0x00#8], .last (by decide), by decide, by decide⟩
      nameLength_eq := rfl }
  count_eq := rfl

theorem twoExports_wellFormed (x y : Byte) :
    (twoExports x y).WellFormed { functions := [declared {}] } where
  length_le := show 2 ≤ kMaxExports by decide
  entries := by
    intro e he
    obtain ⟨c, -, rfl⟩ := List.mem_map.mp he
    exact ⟨show 1 ≤ kMaxNameLength by decide, Nat.one_pos⟩

theorem exportNames_iff_twoExports :
    (∀ dangling, NamesDecide dangling { functions := [declared {}] } (twoExports 0x61#8 0x62#8) ↔
      (NoFalseFind dangling [] (twoExports 0x61#8 0x62#8).names ↔
        (twoExports 0x61#8 0x62#8).names.Nodup)) ∧
    ((∀ dangling, NamesDecide dangling { functions := [declared {}] }
      (twoExports 0x61#8 0x62#8)) ↔ (twoExports 0x61#8 0x62#8).entries.length ≤ 1) :=
  exportNames_iff rfl (twoExports_wellFormed _ _)

/-- The names `a` and `b`, of which a lookup finds the second one; and `a` twice, which a lookup
misses. -/
theorem names_misjudged :
    ¬NamesDecide (fun _ _ => true) { functions := [declared {}] } (twoExports 0x61#8 0x62#8) ∧
    ¬NamesDecide (fun _ _ => false) { functions := [declared {}] } (twoExports 0x61#8 0x61#8) := by
  constructor
  · intro h
    have hiff := (namesDecide_iff rfl (twoExports_wellFormed _ _)).mp h
    have hfind := (hiff.mpr (by decide)).2.1
    cases hfind
  · intro h
    have hiff := (namesDecide_iff rfl (twoExports_wellFormed _ _)).mp h
    exact absurd (hiff.mp noFalseFind_never) (by decide)

end Wasmcc
