import Wasmcc.Parser.ExportNames
import Wasmcc.Parser.Framing
import Wasmcc.Parser.Validated

/-!
# What the lookups of names decide

`ParseExportsSection` asks a set of dangling views whether a name is new, and what the set answers
is not determined by the program (`dangling`). Two runs on the same bytes may get different answers.

The answers matter only if one of them is a name that was found. `ExportsWithin` says, by the
grammar and without the parser, which entries of an export section lie wholly in some bytes, and
`FindsNone` that no lookup of their names finds one. Then the run is the one in which nothing is
ever found (`parseModule_eq_of_findsNone`). And if a lookup does find a name, in a part of a module
that other lookups accept, then the run ends in a `ParseException` (`parseModule_refused`).
-/

open Basis

namespace Wasmcc

open Reader ModuleBuilder Grammar

/-! ### The entries in some bytes -/

/-- The bytes begin with a preamble, sections, and an export section of which, after the count,
whole entries with these names are there. What follows may be anything, and may be cut off
anywhere. -/
def ExportsWithin (bytes : List Byte) (names : List Name) : Prop :=
  ∃ before leb count entries rest : List Byte, ∃ size n : ℕ,
    bytes = kMagicBytes ++ kVersionOne ++
      (before ++ (0x07#8 :: leb ++ (count ++ (entries ++ rest)))) ∧
    before ∈ KStar.kstar oneSection ∧ leb ∈ u32 size ∧ count ∈ u32 n ∧ names.length ≤ n ∧
    entries ∈ (names.map exportNamed).prod

/-- No lookup of a name finds one, as far as the entries in these bytes go. -/
def FindsNone (dangling : List Name → Name → Bool) (bytes : List Byte) : Prop :=
  ∀ names, ExportsWithin bytes names → NoFalseFind dangling [] names

/-- There is no second entry in these bytes. -/
def AtMostOneExport (bytes : List Byte) : Prop :=
  ∀ names, ExportsWithin bytes names → names.length ≤ 1

theorem findsNone_all_iff {bytes : List Byte} :
    (∀ dangling, FindsNone dangling bytes) ↔ AtMostOneExport bytes := by
  constructor
  · exact fun h names hnames => noFalseFind_all_iff.mp fun dangling => h dangling names hnames
  · exact fun h dangling names hnames => noFalseFind_all_iff.mpr (h names hnames) dangling

theorem ExportsWithin.append {u : List Byte} {names : List Name} (h : ExportsWithin u names)
    (v : List Byte) : ExportsWithin (u ++ v) names := by
  obtain ⟨before, leb, count, entries, rest, size, n, rfl, hbefore, hleb, hcount, hlen,
    hentries⟩ := h
  refine ⟨before, leb, count, entries, rest ++ v, size, n, ?_, hbefore, hleb, hcount, hlen,
    hentries⟩
  simp only [List.append_assoc, List.cons_append]

theorem FindsNone.of_append {dangling : List Name → Name → Bool} {u v : List Byte}
    (h : FindsNone dangling (u ++ v)) : FindsNone dangling u :=
  fun names hnames => h names (hnames.append v)

/-- The last lookup of several. -/
theorem NoFalseFind.last {dangling : List Name → Name → Bool} {name : Name} {rest : List Name} :
    ∀ {names : List Name}, NoFalseFind dangling names (rest ++ [name]) →
      findsName dangling (names ++ rest) name = false := by
  induction rest with
  | nil =>
    intro names h
    rw [List.append_nil]
    exact h.1
  | cons first rest ih =>
    intro names h
    have hlast := ih h.2
    rwa [List.append_assoc] at hlast

theorem findsName_never (names : List Name) (name : Name) :
    findsName (fun _ _ => false) names name = false := Bool.and_false _

variable {dangling : List Name → Name → Bool} {b b' b₁ : ModuleBuilder} {bytes : List Byte}
  {secs secs₁ : List Section}

/-! ### Where nothing is found -/

theorem parseNextExport_of_new {names : List Name} {e : ModuleExport} {c c₁ : Cursor}
    (hexport : b.parseOneExport c = .ok (e, c₁)) (hnew : findsName dangling names e.name = false) :
    parseNextExport dangling (b, names) c =
      .ok (({ b with exports := b.exports ++ [e] }, names ++ [e.name]), c₁) := by
  refine (bind_of_ok hexport _).trans ?_
  rw [if_neg (by rw [hnew]; decide)]
  rfl

/-- The loop over the entries. `whole` is all that follows the count of the section. -/
theorem iterate_parseNextExport_eq {whole : List Byte} {n : ℕ}
    (hfind : ∀ names entries rest, whole = entries ++ rest → names.length ≤ n →
      entries ∈ (names.map exportNamed).prod → NoFalseFind dangling [] names) (k : ℕ) :
    ∀ {b : ModuleBuilder} {names : List Name} {entries : List Byte} {c : Cursor},
      whole = entries ++ c.rest → names.length + k = n →
      entries ∈ (names.map exportNamed).prod →
      Reader.iterate (parseNextExport dangling) k (b, names) c =
        Reader.iterate (parseNextExport fun _ _ => false) k (b, names) c := by
  induction k with
  | zero => exact fun _ _ _ => rfl
  | succ k ih =>
    intro b names entries c hwhole hlen hentries
    rw [iterate_succ, iterate_succ]
    cases hexport : b.parseOneExport c with
    | error e =>
      have herror (dangling : List Name → Name → Bool) :
          parseNextExport dangling (b, names) c = .error e := bind_of_error hexport _
      rw [bind_of_error (herror _), bind_of_error (herror _)]
    | ok r =>
      obtain ⟨e, c₁⟩ := r
      obtain ⟨u, hu, -, hcons⟩ := b.steady_parseOneExport.isLocal c e c₁ hexport
      -- one more entry lies in these bytes, and its name is not found
      have hwhole' : whole = (entries ++ u) ++ c₁.rest := by rw [hwhole, hu, List.append_assoc]
      have hentries' : entries ++ u ∈ ((names ++ [e.name]).map exportNamed).prod := by
        rw [List.map_append, List.prod_append, List.map_singleton, List.prod_singleton]
        exact Language.append_mem_mul hentries (b.mem_of_parseOneExport hcons)
      have hlen' : (names ++ [e.name]).length + k = n := by
        rw [List.length_append, List.length_singleton]
        omega
      have hnew : findsName dangling names e.name = false :=
        (hfind _ _ _ hwhole' (by omega) hentries').last
      rw [bind_of_ok (parseNextExport_of_new hexport hnew),
        bind_of_ok (parseNextExport_of_new hexport (findsName_never _ _))]
      exact ih hwhole' hlen' hentries'

/-- In the other sections no name is looked up. -/
theorem parseSectionContents_eq_of_ne {dangling dangling' : List Name → Name → Bool} {id : Byte}
    (hid : id ≠ 0x07#8) {size : ℕ} : parseSectionContents dangling id size b =
      parseSectionContents dangling' id size b := by
  unfold parseSectionContents
  simp only [if_neg hid]

/-- The contents of a section. What has been read of the bytes is `done`. -/
theorem parseSectionContents_eq {done leb : List Byte} {id : Byte} {size : ℕ} {c : Cursor}
    (hfind : FindsNone dangling
      (kMagicBytes ++ kVersionOne ++ (done ++ (id :: leb ++ c.rest))))
    (hdone : done ∈ KStar.kstar oneSection) (hleb : leb ∈ u32 size) :
    parseSectionContents dangling id size b c =
      parseSectionContents (fun _ _ => false) id size b c := by
  by_cases hid : id = 0x07#8
  · subst hid
    refine bind_eq_bind (f := fun n => Reader.iterate (parseNextExport dangling) n (b, []) >>= _)
      fun n c₁ hn => ?_
    obtain ⟨count, hcount, -, hcons⟩ := (steady_parseVectorSize _ _).isLocal _ _ _ hn
    have hloop : Reader.iterate (parseNextExport dangling) n (b, []) c₁ =
        Reader.iterate (parseNextExport fun _ _ => false) n (b, []) c₁ := by
      refine iterate_parseNextExport_eq ?_ n (List.nil_append _).symm (Nat.zero_add n) rfl
      -- the entries are those of the section that was begun
      intro names entries rest hwhole hlen hentries
      refine hfind names ⟨done, leb, count, entries, rest, size, n, ?_, hdone, hleb,
        mem_of_parseVectorSize hcons, hlen, hentries⟩
      rw [hcount, hwhole]
    rw [bind_apply, bind_apply, hloop]
  · rw [parseSectionContents_eq_of_ne hid]

/-- A section that was read is one by the grammar, with its header. -/
theorem mem_oneSection {id : Byte} {size : ℕ} {leb contents : List Byte}
    (hsize : Consumes Leb128.decodeU32 leb size)
    (hcontents : Consumes (parseSectionContents dangling id size b) contents b') :
    id :: leb ++ contents ∈ oneSection := by
  refine Language.mem_iSup.mpr ⟨id, Language.append_mem_mul (a := [id]) rfl ?_⟩
  refine Language.mem_iSup.mpr ⟨size, Language.append_mem_mul (consumes_decodeU32_iff.mp hsize) ?_⟩
  by_cases hid : id = 0x00#8
  · subst hid
    exact custom_framed hcontents
  · rw [if_neg hid]
    exact (reads_parseSectionContents b dangling id size).mem hcontents

theorem mem_of_parseOneSection {c c' : Cursor}
    (h : b.parseOneSection dangling c = .ok (b', c')) :
    ∃ u ∈ oneSection, c.rest = u ++ c'.rest := by
  obtain ⟨⟨b₁, id, size⟩, c₁, h1, h2⟩ := Reader.bind_eq_ok.mp h
  obtain ⟨leb, hrest, -, -, hsize⟩ := parseSectionHeader_eq_ok h1
  obtain ⟨contents, hcontents, -, hcons⟩ :=
    (steady_parseSectionContents dangling id size b₁).isLocal _ _ _ h2
  refine ⟨id :: leb ++ contents, mem_oneSection hsize hcons, ?_⟩
  rw [hrest, hcontents, List.append_assoc]

/-- The loop of `Parse`. What it has read of the bytes are sections, by the grammar. -/
theorem loop_parseNextSection_eq {stuck : Exception} {done : List Byte} {c : Cursor}
    (hfind : FindsNone dangling (kMagicBytes ++ kVersionOne ++ (done ++ c.rest)))
    (hdone : done ∈ KStar.kstar oneSection) :
    Reader.loop stuck (parseNextSection dangling) b c =
      Reader.loop stuck (parseNextSection fun _ _ => false) b c := by
  -- what is read so far are whole sections, and the rest follows them
  refine loop_congr (P := fun _ d => ∃ read ∈ KStar.kstar oneSection,
    done ++ c.rest = read ++ d.rest) (fun b d hd => ?_) (fun b d b' d' hd hround => ?_)
    ⟨done, hdone, rfl⟩
  · obtain ⟨read, hread, heq⟩ := hd
    obtain ⟨rest, n⟩ := d
    cases rest with
    | nil => rfl
    | cons byte rest =>
      -- the header has no lookups, and the contents have none that finds a name
      have hsection : b.parseOneSection dangling ⟨byte :: rest, n⟩ =
          b.parseOneSection (fun _ _ => false) ⟨byte :: rest, n⟩ := by
        refine bind_eq_bind fun r c₁ hheader => ?_
        obtain ⟨b₁, id, size⟩ := r
        obtain ⟨leb, hrest, -, -, hsize⟩ := parseSectionHeader_eq_ok hheader
        have hrest : byte :: rest = id :: leb ++ c₁.rest := hrest
        rw [heq, hrest] at hfind
        exact parseSectionContents_eq hfind hread (consumes_decodeU32_iff.mp hsize)
      rw [parseNextSection_cons, parseNextSection_cons, bind_apply, bind_apply, hsection]
  · obtain ⟨read, hread, heq⟩ := hd
    obtain ⟨rest, n⟩ := d
    cases rest with
    | nil => cases hround
    | cons byte rest =>
      rw [parseNextSection_cons] at hround
      obtain ⟨b₁, c₁, h1, h2⟩ := Reader.bind_eq_ok.mp hround
      obtain ⟨-, rfl⟩ := pure_eq_ok.mp h2
      -- a round reads one more section
      obtain ⟨u, hu, hrest⟩ := mem_of_parseOneSection h1
      have hrest : byte :: rest = u ++ c₁.rest := hrest
      refine ⟨read ++ u, append_mem_kstar hread hu, ?_⟩
      rw [heq, hrest, List.append_assoc]

/-- **Where no lookup finds a name**, the run is the one in which nothing is ever found. -/
theorem parseModule_eq_of_findsNone (h : FindsNone dangling bytes) :
    parseModule dangling ⟨bytes, 0⟩ = parseModule (fun _ _ => false) ⟨bytes, 0⟩ := by
  suffices hparse : ModuleBuilder.parse dangling {} ⟨bytes, 0⟩ =
      ModuleBuilder.parse (fun _ _ => false) {} ⟨bytes, 0⟩ by
    rw [parseModule, parseModule, bind_apply, bind_apply, hparse]
  refine bind_eq_bind fun magic c₁ hmagic => ?_
  by_cases hm : magic ≠ kMagicBytes
  · rw [if_pos hm, if_pos hm]
  rw [if_neg hm, if_neg hm]
  refine bind_eq_bind fun version c₂ hversion => ?_
  by_cases hv : version ≠ kVersionOne
  · rw [if_pos hv, if_pos hv]
  rw [if_neg hv, if_neg hv]
  -- the two comparisons were passed
  obtain rfl := not_not.mp hm
  obtain rfl := not_not.mp hv
  obtain ⟨-, hbytes, -⟩ := readBytes_eq_ok.mp hmagic
  obtain ⟨-, hrest, -⟩ := readBytes_eq_ok.mp hversion
  have hstart : bytes = kMagicBytes ++ kVersionOne ++ c₂.rest := by
    rw [List.append_assoc, ← hrest]
    exact hbytes
  rw [hstart] at h
  exact loop_parseNextSection_eq h (Language.nil_mem_kstar _)

/-! ### Where a name is found -/

/-- A section other than that of the exports is read in the same way, whatever the lookups. -/
theorem ModuleBuilder.Sections.without_exports (h : Sections dangling b bytes secs b')
    (hids : ∀ s ∈ secs, s.id ≠ 0x07#8) (dangling' : List Name → Name → Bool) :
    Sections dangling' b bytes secs b' := by
  induction h with
  | nil => exact .nil
  | @cons b b₁ b' id size leb contents rest secs horder hsize hcontents hrest ih =>
    obtain ⟨hid, hids⟩ := List.forall_mem_cons.mp hids
    have hid : id ≠ 0x07#8 := hid
    exact .cons horder hsize (parseSectionContents_eq_of_ne hid ▸ hcontents) (ih hids)

/-- **Where sections end** is the same for the grammar and for the parser. -/
theorem ModuleBuilder.Sections.of_mem_kstar {u v : List Byte} (hu : u ∈ KStar.kstar oneSection)
    (h : Sections dangling b (u ++ v) secs b') : ∃ secs₁ secs₂ b₁, secs = secs₁ ++ secs₂ ∧
      Sections dangling b u secs₁ b₁ ∧ Sections dangling b₁ v secs₂ b' := by
  obtain ⟨us, rfl, hus⟩ := Language.mem_kstar.mp hu
  clear hu
  induction us generalizing b secs with
  | nil => exact ⟨[], secs, b, rfl, .nil, h⟩
  | cons w us ih =>
    obtain ⟨hw, hlater⟩ := List.forall_mem_cons.mp hus
    rw [List.flatten_cons, List.append_assoc] at h
    generalize hbytes : w ++ (us.flatten ++ v) = bytes at h
    cases h with
    | nil =>
      -- a section has a byte at least
      obtain ⟨id, hid⟩ := Language.mem_iSup.mp hw
      obtain ⟨_, rfl, w, -, rfl⟩ := Language.mem_mul.mp hid
      cases hbytes
    | @cons _ b₂ _ id size leb contents rest secs horder hsize hcontents hrest =>
      obtain rfl := prefixFree_oneSection hw (mem_oneSection hsize hcontents) hbytes
      obtain rfl := List.append_cancel_left hbytes
      obtain ⟨secs₁, secs₂, b₁, rfl, hfirst, hsecond⟩ := ih hlater hrest
      exact ⟨_ :: secs₁, secs₂, b₁, rfl, .cons horder hsize hcontents hfirst, hsecond⟩

/-- The loop over the entries of an export section, after it came to its end. -/
theorem iterate_parseNextExport_entries (n : ℕ) :
    ∀ {b b' : ModuleBuilder} {names names' : List Name} {u : List Byte},
      Consumes (Reader.iterate (parseNextExport dangling) n (b, names)) u (b', names') →
      ∃ es : List (List Byte × ModuleExport), u = es.flatMap (·.1) ∧ es.length = n ∧
        (∀ p ∈ es, Consumes b.parseOneExport p.1 p.2) ∧
        NoFalseFind dangling names (es.map (·.2.name)) ∧
        b' = { b with exports := b.exports ++ es.map (·.2) } := by
  induction n with
  | zero =>
    intro b b' names names' u h
    obtain ⟨rfl, heq⟩ := h.of_pure
    obtain ⟨rfl, -⟩ := Prod.mk.inj heq
    exact ⟨[], rfl, rfl, fun p hp => absurd hp List.not_mem_nil, trivial, by
      rw [List.map_nil, List.append_nil]⟩
  | succ n ih =>
    intro b b' names names' u h
    rw [iterate_succ] at h
    -- the first entry, whose name was not found, and then the others
    obtain ⟨v, w, s, rfl, hv, hw⟩ := Consumes.of_bind (steady_parseNextExport dangling _).isLocal
      (fun s => (Steady.iterate (steady_parseNextExport dangling) n s).isLocal) h
    obtain ⟨v, x, e, rfl, he, hx⟩ := Consumes.of_bind b.steady_parseOneExport.isLocal
      (fun e => .ite (.fail _) (.pure _)) hv
    obtain ⟨hnew, hx⟩ := hx.of_guard
    obtain ⟨rfl, rfl⟩ := hx.of_pure
    obtain ⟨es, rfl, rfl, hes, hfind, rfl⟩ := ih hw
    refine ⟨(v, e) :: es, ?_, rfl, List.forall_mem_cons.mpr ⟨he, hes⟩,
      ⟨Bool.eq_false_of_not_eq_true hnew, hfind⟩, ?_⟩
    · rw [List.append_nil, List.flatMap_cons]
    · rw [List.map_cons, List.append_assoc, List.singleton_append]

/-- **An export section that was accepted**: a count and as many entries, no name of which was
found. -/
theorem parseExportsSection_entries {contents : List Byte}
    (h : Consumes (b.parseExportsSection dangling) contents b') :
    ∃ (count : List Byte) (es : List (List Byte × ModuleExport)),
      contents = count ++ es.flatMap (·.1) ∧ Consumes Leb128.decodeU32 count es.length ∧
      es.length ≤ kMaxExports ∧ (∀ p ∈ es, Consumes b.parseOneExport p.1 p.2) ∧
      NoFalseFind dangling [] (es.map (·.2.name)) ∧
      b' = { b with exports := b.exports ++ es.map (·.2) } := by
  have hloop (n : ℕ) := (Steady.iterate (steady_parseNextExport dangling) n (b, [])).isLocal
  obtain ⟨count, w, n, rfl, hcount, hw⟩ := Consumes.of_bind (steady_parseVectorSize _ _).isLocal
    (fun n => (hloop n).bind fun _ => .pure _) h
  obtain ⟨entries, x, s, rfl, hentries, hx⟩ := Consumes.of_bind (hloop n) (fun _ => .pure _) hw
  obtain ⟨rfl, rfl⟩ := hx.of_pure
  obtain ⟨es, rfl, rfl, hes, hfind, hb⟩ := iterate_parseNextExport_entries n hentries
  -- the count is checked before it is used
  obtain ⟨v, y, m, rfl, hv, hy⟩ := Consumes.of_bind Leb128.local_decodeU32
    (fun _ => .ite (.fail _) (.pure _)) hcount
  obtain ⟨hlen, hy⟩ := hy.of_guard
  obtain ⟨rfl, rfl⟩ := hy.of_pure
  rw [List.append_nil, List.append_nil]
  exact ⟨v, es, rfl, hv, Nat.le_of_not_lt hlen, hes, hfind, hb⟩

/-- **Where entries end** is the same for the grammar and for the parser. -/
theorem entries_eq_take {names : List Name} : ∀ {es : List (List Byte × ModuleExport)}
    {entries r s : List Byte}, (∀ p ∈ es, p.1 ∈ exportNamed p.2.name) → names.length ≤ es.length →
      entries ∈ (names.map exportNamed).prod → entries ++ r = es.flatMap (·.1) ++ s →
      entries = (es.take names.length).flatMap (·.1) ∧
        names = (es.take names.length).map (·.2.name) := by
  induction names with
  | nil =>
    intro es entries r s _ _ hentries _
    obtain rfl : entries = [] := (Language.mem_one _).mp hentries
    exact ⟨rfl, rfl⟩
  | cons name names ih =>
    intro es entries r s hes hlen hentries heq
    cases es with
    | nil => exact absurd hlen (Nat.not_succ_le_zero _)
    | cons p es =>
      obtain ⟨hp, hes⟩ := List.forall_mem_cons.mp hes
      rw [List.map_cons, List.prod_cons] at hentries
      obtain ⟨u, hu, v, hv, rfl⟩ := Language.mem_mul.mp hentries
      rw [List.flatMap_cons, List.append_assoc, List.append_assoc] at heq
      -- one entry is no prefix of another, so that both lists begin with the same
      obtain ⟨hup, hname⟩ := determines_exportNamed hu hp heq
      rw [hup] at heq
      obtain ⟨hv', hnames⟩ := ih hes (Nat.le_of_succ_le_succ hlen) hv (List.append_cancel_left heq)
      rw [List.length_cons, List.take_succ_cons, List.flatMap_cons, List.map_cons, ← hv', ← hnames]
      exact ⟨by rw [hup], by rw [hname]⟩

/-- A section that was accepted is accepted if nothing is found. -/
theorem ModuleBuilder.Sections.never (h : Sections dangling b bytes secs b') :
    Sections (fun _ _ => false) b bytes secs b' := by
  induction h with
  | nil => exact .nil
  | @cons b b₁ b' id size leb contents rest secs horder hsize hcontents hrest ih =>
    refine .cons horder hsize ?_ ih
    by_cases hid : id = 0x07#8
    · subst hid
      obtain ⟨count, es, rfl, hcount, hlen, hes, -, rfl⟩ := parseExportsSection_entries hcontents
      exact consumes_parseExportsSection hcount hlen hes noFalseFind_never
    · exact parseSectionContents_eq_of_ne hid ▸ hcontents

/-- **An export section in a run**: its entries are the exports of the result. -/
theorem ModuleBuilder.Sections.exports_of_section {contents rest : List Byte} {size : ℕ}
    (hfirst : Sections dangling {} bytes secs₁ b) (horder : b.InOrder 0x07#8)
    (hcontents : Consumes (parseSectionContents dangling 0x07#8 size (b.enterSection 0x07#8))
      contents b₁) (hrest : Sections dangling b₁ rest secs b') :
    ∃ (count : List Byte) (es : List (List Byte × ModuleExport)),
      contents = count ++ es.flatMap (·.1) ∧ Consumes Leb128.decodeU32 count es.length ∧
      es.length ≤ kMaxExports ∧ (∀ p ∈ es, Consumes b.parseOneExport p.1 p.2) ∧
      b'.exports = es.map (·.2) := by
  obtain ⟨count, es, rfl, hcount, hmax, hes, -, rfl⟩ := parseExportsSection_entries hcontents
  have hlatest : (b.enterSection 0x07#8).latestSectionRead = 7 :=
    enterSection_latestSectionRead b _
  refine ⟨count, es, rfl, hcount, hmax, hes, ?_⟩
  -- no section before it or after it makes exports
  rw [hrest.exports_eq (hrest.not_after (by decide) hlatest.ge)]
  show (b.enterSection 0x07#8).exports ++ _ = _
  rw [enterSection_exports, hfirst.exports_eq (hfirst.not_before (by decide) horder)]
  rfl

/-- **The entries that lie in a part of a module** are those that the run on the module reads
first. -/
theorem ExportsWithin.entries {pre suf : List Byte} {names : List Name}
    (h : ExportsWithin pre names) (hcut : CutsInto dangling (pre ++ suf) secs b) :
    ∃ (before leb count tail : List Byte) (es : List (List Byte × ModuleExport)) (size : ℕ)
      (secs₁ : List Section) (b₁ : ModuleBuilder), pre = kMagicBytes ++ kVersionOne ++
        (before ++ (0x07#8 :: leb ++ (count ++ ((es.take names.length).flatMap (·.1) ++ tail)))) ∧
      Sections dangling {} before secs₁ b₁ ∧ b₁.InOrder 0x07#8 ∧
      Consumes Leb128.decodeU32 leb size ∧ Consumes Leb128.decodeU32 count es.length ∧
      es.length ≤ kMaxExports ∧ (∀ p ∈ es, Consumes b₁.parseOneExport p.1 p.2) ∧
      b.exports = es.map (·.2) ∧ names = (es.take names.length).map (·.2.name) := by
  obtain ⟨rest, hbytes, hsecs⟩ := hcut
  obtain ⟨before, leb, count, entries, tail, size, n, rfl, hbefore, hleb, hcount, hlen,
    hentries⟩ := h
  rw [List.append_assoc (kMagicBytes ++ kVersionOne)] at hbytes
  obtain rfl := List.append_cancel_left hbytes
  -- the sections before that of the exports
  rw [List.append_assoc] at hsecs
  obtain ⟨secs₁, secs₂, b₁, -, hfirst, hsecond⟩ := hsecs.of_mem_kstar hbefore
  generalize hexports : 0x07#8 :: leb ++ (count ++ (entries ++ tail)) ++ suf = v at hsecond
  cases hsecond with
  | nil => cases hexports
  | @cons _ b₂ _ id size' leb' contents rest' _ horder hsize hcontents hrest =>
    simp only [List.cons_append, List.append_assoc] at hexports
    obtain ⟨rfl, hheader⟩ := List.cons_eq_cons.mp hexports
    obtain ⟨rfl, rfl⟩ := determines_u32 hleb (consumes_decodeU32_iff.mp hsize) hheader
    obtain ⟨count', es, rfl, hcount', hmax, hes, hb⟩ :=
      hfirst.exports_of_section horder hcontents hrest
    have hafter := List.append_cancel_left hheader
    rw [List.append_assoc] at hafter
    obtain ⟨rfl, rfl⟩ := determines_u32 hcount (consumes_decodeU32_iff.mp hcount') hafter
    -- the entries with these names are the first ones
    obtain ⟨rfl, hnames⟩ := entries_eq_take (fun p hp => mem_of_parseOneExport _ (hes p hp)) hlen
      hentries (List.append_cancel_left hafter)
    exact ⟨before, leb, count, tail, es, size, secs₁, b₁, rfl, hfirst, horder, hsize, hcount', hmax,
      hes, hb, hnames⟩

/-- **Where a name is found**, in a part of a module that other lookups accept, the run ends in a
`ParseException`. -/
theorem parseModule_refused {pre suf : List Byte} {dangling' : List Name → Name → Bool}
    {names : List Name} {parsed : ParsedModule} {c' : Cursor}
    (haccepted : parseModule dangling' ⟨pre ++ suf, 0⟩ = .ok (parsed, c'))
    (hnames : ExportsWithin pre names) (hfind : ¬NoFalseFind dangling [] names) :
    ∃ msg, parseModule dangling ⟨pre, 0⟩ = .error (.parse msg) := by
  obtain ⟨-, secs, b, hcut, -⟩ := parseModule_eq_ok_iff.mp haccepted
  obtain ⟨before, leb, count, tail, es, size, secs₁, b₁, rfl, hfirst, horder, hsize, hcount, hmax,
    hes, -, hnames⟩ := hnames.entries hcut
  rw [hnames] at hfind
  obtain ⟨msg, hmsg⟩ := exports_refused (b := b₁.enterSection 0x07#8)
    (fun p hp => hes p (List.mem_of_mem_take hp)) hfind (List.length_take_le' _ _)
  have hcut : CutsInto dangling (kMagicBytes ++ kVersionOne ++ before) secs₁ b₁ :=
    ⟨before, rfl, hfirst.without_exports (hfirst.not_before (by decide) horder) dangling⟩
  -- the count is read, and the loop over the entries stops
  have hstop (m : ℕ) : parseSectionContents dangling 0x07#8 size (b₁.enterSection 0x07#8)
      ⟨count ++ ((es.take names.length).flatMap (·.1) ++ tail), m⟩ = .error (.parse msg) :=
    (bind_of_ok (consumes_vectorSize _ hcount hmax _ _) _).trans (bind_of_error (hmsg tail _) _)
  refine ⟨msg, ?_⟩
  rw [← List.append_assoc]
  exact hcut.refused horder hsize hstop

/-- **What the lookups decide**: a module is accepted if it is where nothing is ever found, and no
lookup of the names of its exports finds one. What it is parsed to does not depend on them. -/
theorem parseModule_eq_ok_iff_findsNone {parsed : ParsedModule} {c' : Cursor} :
    parseModule dangling ⟨bytes, 0⟩ = .ok (parsed, c') ↔
      parseModule (fun _ _ => false) ⟨bytes, 0⟩ = .ok (parsed, c') ∧ FindsNone dangling bytes := by
  constructor
  · intro h
    have haccepted : parseModule dangling ⟨bytes ++ [], 0⟩ = .ok (parsed, c') := by
      rw [List.append_nil]
      exact h
    obtain ⟨rfl, secs, b, ⟨rest, rfl, hsecs⟩, rfl⟩ := parseModule_eq_ok_iff.mp h
    refine ⟨parseModule_eq_ok_iff.mpr ⟨rfl, secs, b, ⟨rest, rfl, hsecs.never⟩, rfl⟩, ?_⟩
    -- a lookup that finds a name would have the module refused
    intro names hnames
    by_contra hfind
    obtain ⟨msg, hmsg⟩ := parseModule_refused haccepted hnames hfind
    rw [h] at hmsg
    cases hmsg
  · rintro ⟨h, hfind⟩
    rw [parseModule_eq_of_findsNone hfind]
    exact h

/-! ### The exports of a module -/

theorem NoFalseFind.of_append {xs ys : List Name} :
    ∀ {names : List Name}, NoFalseFind dangling names (xs ++ ys) →
      NoFalseFind dangling names xs := by
  induction xs with
  | nil => exact fun _ => trivial
  | cons x xs ih => exact fun h => ⟨h.1, ih h.2⟩

/-- What the parser reads as sections are sections by the grammar. -/
theorem ModuleBuilder.Sections.mem_kstar (h : Sections dangling b bytes secs b') :
    bytes ∈ KStar.kstar oneSection := by
  induction h with
  | nil => exact Language.nil_mem_kstar _
  | @cons b b₁ b' id size leb contents rest secs horder hsize hcontents hrest ih =>
    obtain ⟨us, rfl, hus⟩ := Language.mem_kstar.mp ih
    exact Language.mem_kstar.mpr ⟨(id :: leb ++ contents) :: us, rfl,
      List.forall_mem_cons.mpr ⟨mem_oneSection hsize hcontents, hus⟩⟩

theorem entries_mem {es : List (List Byte × ModuleExport)}
    (hes : ∀ p ∈ es, p.1 ∈ exportNamed p.2.name) :
    es.flatMap (·.1) ∈ ((es.map fun p => p.2.name).map exportNamed).prod := by
  induction es with
  | nil => exact rfl
  | cons p es ih =>
    obtain ⟨hp, hes⟩ := List.forall_mem_cons.mp hes
    rw [List.flatMap_cons, List.map_cons, List.map_cons, List.prod_cons]
    exact Language.append_mem_mul hp (ih hes)

/-- **The entries of a whole module** are its exports. -/
theorem CutsInto.exportsWithin (h : CutsInto dangling bytes secs b) (hne : b.exports ≠ []) :
    ExportsWithin bytes (b.exports.map (·.name)) := by
  obtain ⟨rest, rfl, hsecs⟩ := h
  -- there is an export section, since nothing else adds exports
  obtain ⟨s, hs, hid⟩ : ∃ s ∈ secs, s.id = 0x07#8 := by
    by_contra hnone
    exact hne (hsecs.exports_eq fun s hs hid => hnone ⟨s, hs, hid⟩)
  obtain ⟨before, after, rfl⟩ := List.append_of_mem hs
  obtain ⟨u, v, b₁, rfl, hbefore, hafter⟩ := hsecs.split
  cases hafter with
  | @cons _ b₂ _ id size leb contents rest _ horder hsize hcontents hrest =>
    obtain rfl : id = 0x07#8 := hid
    obtain ⟨count, es, rfl, hcount, -, hes, hb⟩ :=
      hbefore.exports_of_section horder hcontents hrest
    -- its entries are all the exports that there are
    have hnames : b.exports.map (·.name) = es.map fun p => p.2.name := by
      rw [hb, List.map_map]
      rfl
    rw [hnames]
    refine ⟨u, leb, count, es.flatMap (·.1), rest, size, es.length, ?_, hbefore.mem_kstar,
      consumes_decodeU32_iff.mp hsize, consumes_decodeU32_iff.mp hcount, (List.length_map _).le,
      entries_mem fun p hp => mem_of_parseOneExport _ (hes p hp)⟩
    simp only [List.append_assoc, List.cons_append]

/-- **The lookups of a whole module** are those of the names of its exports. -/
theorem CutsInto.findsNone_iff (h : CutsInto dangling bytes secs b)
    (dangling' : List Name → Name → Bool) :
    FindsNone dangling' bytes ↔ NoFalseFind dangling' [] (b.exports.map (·.name)) := by
  constructor
  · intro hfind
    -- without exports nothing is looked up
    by_cases hne : b.exports = []
    · rw [hne]
      exact trivial
    · exact hfind _ (h.exportsWithin hne)
  · intro hfind names hnames
    rw [← List.append_nil bytes] at h
    -- the names within a module are the first ones of its exports
    obtain ⟨-, -, -, -, es, -, -, -, -, -, -, -, -, -, -, hb, hnames⟩ := hnames.entries h
    rw [hb, List.map_map, ← List.take_append_drop names.length es, List.map_append] at hfind
    rw [hnames]
    exact hfind.of_append

/-- There is at most one entry if there is at most one export. -/
theorem CutsInto.atMostOneExport_iff (h : CutsInto dangling bytes secs b) :
    AtMostOneExport bytes ↔ b.exports.length ≤ 1 := by
  rw [← findsNone_all_iff, forall_congr' h.findsNone_iff, noFalseFind_all_iff, List.length_map]

end Wasmcc
