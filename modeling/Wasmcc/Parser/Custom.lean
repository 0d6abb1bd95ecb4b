import Wasmcc.Parser.Truncated

/-!
# Custom sections

`ParseOneSection` skips a custom section: it neither checks nor records the section's place, and it
leaves the builder alone. So custom sections lead the loop of `Parse` from every builder back to the
same builder (`Customs.sections`), and with the same lookups of names, inserting them where the loop
had come to the end of a section changes neither whether the module is accepted nor what it is
parsed to (`transparent_same`).

The run with custom sections has lookups of its own. `parseModule_customs_iff` says what else can
change, and when: a module with two exports may be accepted in one run and refused in the other.
-/

open Basis

namespace Wasmcc

open Reader ModuleBuilder

variable {dangling : List Name → Name → Bool} {bytes customs : List Byte} {k : ℕ}
  {secs secs₁ secs₂ : List Section} {b : ModuleBuilder}

/-- The bytes are custom sections, any number of them, each with some encoding of the length of its
payload. -/
inductive Customs : List Byte → Prop
  | nil : Customs []
  | cons {leb payload rest : List Byte}
      (hsize : Consumes Leb128.decodeU32 leb payload.length) (hrest : Customs rest) :
      Customs (0x00#8 :: leb ++ payload ++ rest)

/-- In the run on these bytes, the loop of `Parse` comes to offset `k` between two sections, after
the sections `secs`. -/
def SectionBoundary (dangling : List Name → Name → Bool) (bytes : List Byte) (k : ℕ)
    (secs : List Section) : Prop :=
  k ≤ bytes.length ∧ ∃ b, CutsInto dangling (bytes.take k) secs b

/-- The builder is left alone, whatever it has read. -/
theorem Customs.sections (h : Customs customs) (b : ModuleBuilder) :
    ∃ secs, Sections dangling b customs secs b := by
  induction h with
  | nil => exact ⟨[], .nil⟩
  | @cons leb payload rest hsize hrest ih =>
    obtain ⟨secs, hsecs⟩ := ih
    have hskip : Consumes (parseSectionContents dangling 0x00#8 payload.length
        (b.enterSection 0x00#8)) payload b := by
      show Consumes (skip _ _ >>= fun _ => pure b) payload b
      exact (consumes_skip _ payload).bind_nil (.pure b)
    exact ⟨_, .cons (Or.inl rfl) hsize hskip hsecs⟩

/-- All boundaries between the sections of an accepted module are reached. -/
theorem CutsInto.boundary (h : CutsInto dangling bytes (secs₁ ++ secs₂) b) :
    ∃ k, SectionBoundary dangling bytes k secs₁ := by
  obtain ⟨rest, rfl, hsecs⟩ := h
  obtain ⟨u, v, b₁, rfl, hu, -⟩ := hsecs.split
  refine ⟨(kMagicBytes ++ kVersionOne ++ u).length, ?_, b₁, u, ?_, hu⟩
  · rw [← List.append_assoc]
    exact (List.prefix_append _ v).length_le
  · rw [← List.append_assoc]
    exact List.take_left

/-- From a boundary on, what is accepted are the sections of the rest. -/
theorem parseModule_from_boundary {pre rest : List Byte} {b₁ : ModuleBuilder}
    (hpre : CutsInto dangling pre secs₁ b₁) {parsed : ParsedModule} :
    (∃ c', parseModule dangling ⟨pre ++ rest, 0⟩ = .ok (parsed, c')) ↔
      ∃ secs b, Sections dangling b₁ rest secs b ∧ parsed = b.build := by
  obtain ⟨u, rfl, hu⟩ := hpre
  constructor
  · rintro ⟨c', haccepted⟩
    obtain ⟨-, secs, b, ⟨all, hall, hsecs⟩, rfl⟩ := parseModule_eq_ok_iff.mp haccepted
    rw [List.append_assoc] at hall
    rw [← List.append_cancel_left hall] at hsecs
    -- the sections in front are determined, so they are those of `pre`
    obtain ⟨secs₂, -, hrest⟩ := hu.of_append hsecs
    exact ⟨secs₂, b, hrest, rfl⟩
  · rintro ⟨secs, b, hrest, rfl⟩
    have hcut : CutsInto dangling (kMagicBytes ++ kVersionOne ++ u ++ rest) (secs₁ ++ secs) b :=
      ⟨u ++ rest, List.append_assoc _ _ _, hu.append hrest⟩
    exact ⟨_, parseModule_eq_ok_iff.mpr ⟨rfl, _, b, hcut, rfl⟩⟩

/-- A boundary that is reached with some lookups is reached with those that find nothing. -/
theorem SectionBoundary.never (h : SectionBoundary dangling bytes k secs) :
    SectionBoundary (fun _ _ => false) bytes k secs := by
  obtain ⟨hk, b, rest, hrest, hsecs⟩ := h
  exact ⟨hk, b, rest, hrest, hsecs.never⟩

/-- The module with custom sections at offset `k`. -/
def withCustoms (bytes customs : List Byte) (k : ℕ) : List Byte :=
  bytes.take k ++ customs ++ bytes.drop k

/-- The custom sections are transparent: the run without and the run with them, each with lookups of
its own, accept the same modules. -/
def Transparent (dangling dangling' : List Name → Name → Bool) (bytes customs : List Byte) (k : ℕ) :
    Prop :=
  ∀ parsed, (∃ c', parseModule dangling ⟨bytes, 0⟩ = .ok (parsed, c')) ↔
    ∃ c', parseModule dangling' ⟨withCustoms bytes customs k, 0⟩ = .ok (parsed, c')

/-- **With the same lookups** custom sections are transparent. -/
theorem transparent_same (hreached : SectionBoundary dangling bytes k secs)
    (hcustoms : Customs customs) : Transparent dangling dangling bytes customs k := by
  intro parsed
  obtain ⟨-, b, hcut⟩ := hreached
  obtain ⟨skipped, hskipped⟩ : ∃ skipped, Sections dangling b customs skipped b :=
    hcustoms.sections b
  -- the custom sections extend the part before the boundary, and do not change its builder
  have hcut' : CutsInto dangling (bytes.take k ++ customs) (secs ++ skipped) b := by
    obtain ⟨u, hu, hsecs⟩ := hcut
    refine ⟨u ++ customs, ?_, hsecs.append hskipped⟩
    rw [hu, List.append_assoc]
  calc (∃ c', parseModule dangling ⟨bytes, 0⟩ = .ok (parsed, c'))
      ↔ ∃ c', parseModule dangling ⟨bytes.take k ++ bytes.drop k, 0⟩ = .ok (parsed, c') := by
        rw [List.take_append_drop]
    _ ↔ ∃ later b', Sections dangling b (bytes.drop k) later b' ∧ parsed = b'.build :=
        parseModule_from_boundary hcut
    _ ↔ _ := (parseModule_from_boundary hcut').symm

/-! ### The lookups of two runs -/

/-- With the custom sections the loop of `Parse` ends with the same builder. -/
theorem CutsInto.withCustoms (h : CutsInto dangling bytes secs b)
    (hreached : SectionBoundary dangling bytes k secs₁) (hcustoms : Customs customs) :
    ∃ secs', CutsInto dangling (withCustoms bytes customs k) secs' b := by
  obtain ⟨-, b₁, u, hu, hfirst⟩ := hreached
  obtain ⟨rest, hrest, hsecs⟩ := h
  obtain ⟨skipped, hskipped⟩ : ∃ skipped, Sections dangling b₁ customs skipped b₁ :=
    hcustoms.sections b₁
  -- the sections after the boundary start from the builder before it
  obtain rfl : rest = u ++ bytes.drop k := by
    refine List.append_cancel_left (hrest.symm.trans ?_)
    rw [← List.append_assoc, ← hu, List.take_append_drop]
  obtain ⟨secs₂, -, hlater⟩ := hfirst.of_append hsecs
  refine ⟨_, u ++ (customs ++ bytes.drop k), ?_, hfirst.append (hskipped.append hlater)⟩
  rw [Wasmcc.withCustoms, hu]
  simp only [List.append_assoc]

/-- **When custom sections are transparent**, for a module whose loop of `Parse` comes to the
boundary `k`, the run without and the run with them having lookups of their own. If there are
lookups with which the module is accepted: for two given lookups, if both or neither find the name
of an export; for all of them, if there is at most one export. If there are none: always. -/
theorem parseModule_customs_iff (dangling : List Name → Name → Bool) (bytes : List Byte) (k : ℕ)
    (secs : List Section) (hreached : SectionBoundary dangling bytes k secs)
    (customs : List Byte) (hcustoms : Customs customs) :
    (∀ accepting parsed c', parseModule accepting ⟨bytes, 0⟩ = .ok (parsed, c') →
      (∀ d d', Transparent d d' bytes customs k ↔ (FindsNone d bytes ↔ FindsNone d' bytes)) ∧
      ((∀ d d', Transparent d d' bytes customs k) ↔ AtMostOneExport bytes)) ∧
    ((∀ d parsed c', parseModule d ⟨bytes, 0⟩ ≠ .ok (parsed, c')) →
      ∀ d d', Transparent d d' bytes customs k) := by
  -- where nothing is found, the custom sections are transparent
  have hnever : Transparent (fun _ _ => false) (fun _ _ => false) bytes customs k :=
    transparent_same hreached.never hcustoms
  have haccepts (d : List Name → Name → Bool) (bytes : List Byte) (parsed : ParsedModule) :
      (∃ c', parseModule d ⟨bytes, 0⟩ = .ok (parsed, c')) ↔
        (∃ c', parseModule (fun _ _ => false) ⟨bytes, 0⟩ = .ok (parsed, c')) ∧
          FindsNone d bytes := by
    rw [← exists_and_right]
    exact exists_congr fun c' => parseModule_eq_ok_iff_findsNone
  refine ⟨fun accepting parsed c' haccepted => ?_, fun hrefused d d' parsed => ?_⟩
  · obtain ⟨hok, hfind⟩ := parseModule_eq_ok_iff_findsNone.mp haccepted
    obtain ⟨-, all, b, hcut, rfl⟩ := parseModule_eq_ok_iff.mp hok
    obtain ⟨all', hcut'⟩ := hcut.withCustoms hreached.never hcustoms
    have hnames (d' : List Name → Name → Bool) :
        FindsNone d' (withCustoms bytes customs k) ↔ FindsNone d' bytes :=
      (hcut'.findsNone_iff d').trans (hcut.findsNone_iff d').symm
    have hiff (d d' : List Name → Name → Bool) :
        Transparent d d' bytes customs k ↔ (FindsNone d bytes ↔ FindsNone d' bytes) := by
      have hboth : Transparent d d' bytes customs k ↔ ∀ parsed,
          (∃ c', parseModule (fun _ _ => false) ⟨bytes, 0⟩ = .ok (parsed, c')) →
            (FindsNone d bytes ↔ FindsNone d' bytes) := by
        refine forall_congr' fun parsed => ?_
        rw [haccepts d, haccepts d', ← hnever parsed, hnames d']
        exact and_congr_right_iff
      rw [hboth]
      exact ⟨fun h => h _ ⟨_, hok⟩, fun h parsed _ => h⟩
    refine ⟨hiff, ?_⟩
    rw [← findsNone_all_iff]
    constructor
    · intro h d
      exact ((hiff accepting d).mp (h accepting d)).mp hfind
    · exact fun h d d' => (hiff d d').mpr ⟨fun _ => h d', fun _ => h d⟩
  · -- what is refused where nothing is found is refused in any case
    have hno : ¬∃ c', parseModule (fun _ _ => false) ⟨bytes, 0⟩ = .ok (parsed, c') :=
      fun ⟨c', h⟩ => hrefused _ _ _ h
    have hno' : ¬∃ c', parseModule (fun _ _ => false) ⟨withCustoms bytes customs k, 0⟩ =
        .ok (parsed, c') := fun h => hno ((hnever parsed).mpr h)
    rw [haccepts d, haccepts d']
    exact iff_of_false (fun h => hno h.1) fun h => hno' h.1

/-- A custom section of two bytes. -/
def customBytes : List Byte := [0x00#8, 0x02#8, 0x55#8, 0xAA#8]

theorem customs_customBytes : Customs customBytes :=
  @Customs.cons [0x02#8] [0x55#8, 0xAA#8] [] (fun _ _ => rfl) .nil

/-- The type section alone is a module, so the loop comes to offset 15. -/
theorem boundary_twoExports :
    ∃ secs, SectionBoundary (fun _ _ => false) twoExportsBytes 15 secs := by
  obtain ⟨-, secs, b, hcut, -⟩ := parseModule_eq_ok_iff.mp
    (rfl : parseModule (fun _ _ => false) ⟨twoExportsBytes.take 15, 0⟩ = .ok (_, _))
  exact ⟨secs, by decide, b, hcut⟩

/-- After the type section of the module with two exports; and after the preamble of a module that
ends in the middle of its type section. -/
theorem parseModule_customs_iff_twoExports :
    ((∃ secs, SectionBoundary (fun _ _ => false) twoExportsBytes 15 secs) ∧
      (∀ d d', Transparent d d' twoExportsBytes customBytes 15 ↔
        (FindsNone d twoExportsBytes ↔ FindsNone d' twoExportsBytes)) ∧
      ((∀ d d', Transparent d d' twoExportsBytes customBytes 15) ↔
        AtMostOneExport twoExportsBytes)) ∧
    ∀ d d', Transparent d d' (twoExportsBytes.take 12) customBytes 8 := by
  obtain ⟨secs, hreached⟩ := boundary_twoExports
  obtain ⟨parsed, c', haccepted⟩ := accepted_twoExports
  have hstart : SectionBoundary (fun _ _ => false) (twoExportsBytes.take 12) 8 [] :=
    ⟨by decide, {}, [], rfl, .nil⟩
  -- cut off in its first section, the module is refused whatever the lookups find
  have hrefused (d : List Name → Name → Bool) (parsed : ParsedModule) (c' : Cursor) :
      parseModule d ⟨twoExportsBytes.take 12, 0⟩ ≠ .ok (parsed, c') := by
    have heof : parseModule d ⟨twoExportsBytes.take 12, 0⟩ = .error .endOfStream := rfl
    rw [heof]
    exact fun h => by cases h
  exact ⟨⟨⟨secs, hreached⟩, (parseModule_customs_iff _ _ 15 secs hreached _ customs_customBytes).1
      (fun _ _ => false) parsed c' haccepted⟩,
    (parseModule_customs_iff _ _ 8 [] hstart _ customs_customBytes).2 hrefused⟩

/-- The module with two exports is accepted where nothing is found. With the custom section, and
with a lookup that finds the second name, it is refused as one with a duplicate. -/
theorem customs_not_transparent :
    (∃ secs, SectionBoundary (fun _ _ => false) twoExportsBytes 15 secs) ∧ Customs customBytes ∧
    (∃ parsed c', parseModule (fun _ _ => false) ⟨twoExportsBytes, 0⟩ = .ok (parsed, c')) ∧
    parseModule (fun _ _ => true) ⟨withCustoms twoExportsBytes customBytes 15, 0⟩ =
      .error (.parse "duplicate exported name: b") ∧
    ¬Transparent (fun _ _ => false) (fun _ _ => true) twoExportsBytes customBytes 15 := by
  have hrefused : parseModule (fun _ _ => true) ⟨withCustoms twoExportsBytes customBytes 15, 0⟩ =
      .error (.parse "duplicate exported name: b") := rfl
  refine ⟨boundary_twoExports, customs_customBytes, accepted_twoExports, hrefused, fun h => ?_⟩
  obtain ⟨parsed, haccepted⟩ := accepted_twoExports
  obtain ⟨c', hok⟩ := (h parsed).mp haccepted
  rw [hrefused] at hok
  cases hok

end Wasmcc
