import Wasmcc.Parser.Sections
import Wasmcc.Parser.Spelling

/-!
# Section framing

A section declares its size, but `ParseOneSection` uses the number for custom sections only: the
parser of any other section reads what it needs and the next section starts there. A code entry, in
contrast, is always checked against its size (`entriesFramed_of_codeSection`).

`WellFramed` is the framing that the format prescribes, stated without the parser: the module is cut
into pieces by its size fields alone, and each piece has to be the contents of a section by the
grammar. Among the accepted modules these are the ones whose sections are all framed
(`Sections.framed_iff`): what the parser reads is a word of the grammar too, and no other word of
the grammar begins where this one does.
-/

open Basis

namespace Wasmcc

open Reader ModuleBuilder Grammar

/-! ### Framed sections -/

/-- The contents of a code section are a count and that many entries, each of them its size field
and as many bytes. -/
def EntriesFramed (contents : List Byte) : Prop :=
  ∃ (count : List Byte) (entries : List (List Byte)), contents = count ++ entries.flatten ∧
    count ∈ u32 entries.length ∧
    ∀ entry ∈ entries, ∃ leb payload, entry = leb ++ payload ∧ leb ∈ u32 payload.length

/-- A section takes as many bytes as it declares, and so does each of its code entries. -/
structure Section.Framed (s : Section) : Prop where
  size : s.contents.length = s.size
  entries : s.id = 0x0A#8 → EntriesFramed s.contents

/-- **Code entries are always framed.** -/
theorem entriesFramed_of_contents {contents : List Byte} (h : contents ∈ vec codeEntry) :
    EntriesFramed contents := by
  obtain ⟨n, hn⟩ := Language.mem_iSup.mp h
  obtain ⟨count, hcount, w, hw, rfl⟩ := Language.mem_mul.mp hn
  obtain ⟨entries, rfl, rfl, hentries⟩ := Language.mem_pow.mp hw
  refine ⟨count, entries, rfl, hcount, fun entry hentry => ?_⟩
  obtain ⟨size, hsize⟩ := Language.mem_iSup.mp (hentries entry hentry)
  obtain ⟨leb, hleb, payload, hpayload, rfl⟩ := Language.mem_mul.mp hsize
  -- the grammar has the size of the payload in it
  obtain rfl : payload.length = size := (Language.mem_inf.mp hpayload).2
  exact ⟨leb, payload, rfl, hleb⟩

/-! ### The framing of the format -/

/-- Bytes cut into pieces by the size fields alone: each piece is an id with a payload. -/
inductive CutBySize : List Byte → List (Byte × List Byte) → Prop
  | nil : CutBySize [] []
  | cons {id : Byte} {leb payload rest : List Byte} {pieces : List (Byte × List Byte)}
      (hsize : leb ∈ u32 payload.length) (hrest : CutBySize rest pieces) :
      CutBySize (id :: leb ++ payload ++ rest) ((id, payload) :: pieces)

/-- The module, cut by its size fields, consists of sections with contents as the grammar has
them. -/
def WellFramed (bytes : List Byte) : Prop :=
  ∃ pieces, CutBySize (bytes.drop 8) pieces ∧ ∀ piece ∈ pieces, piece.2 ∈ contents piece.1

/-- What is right about a section in any case. -/
structure Section.Spelled (s : Section) : Prop where
  contents : s.contents ∈ Grammar.contents s.id
  /-- A custom section takes as many bytes as it declares. -/
  custom : s.id = 0x00#8 → s.contents.length = s.size
  /-- A code entry takes as many bytes as it declares. -/
  entries : s.id = 0x0A#8 → EntriesFramed s.contents

/-- A custom section is always framed: its payload is skipped by its size. -/
theorem custom_framed {dangling : List Name → Name → Bool} {size : ℕ} {b b' : ModuleBuilder}
    {contents : List Byte} (h : Consumes (parseSectionContents dangling 0 size b) contents b') :
    contents.length = size := by
  obtain ⟨skipped, w, u, rfl, hskip, hw⟩ := Consumes.of_bind (local_skip _ _)
    (fun _ => .pure _) (show Consumes (Stream.skip size >>= fun _ => pure b) contents b' from h)
  obtain ⟨rfl, -⟩ := hw.of_pure
  have hrun := hskip [] 0
  unfold Stream.skip Reader.skip at hrun
  split at hrun
  · cases hrun
  · simp only [List.append_nil, Except.ok.injEq, Prod.mk.injEq, Cursor.mk.injEq, Nat.zero_add,
      true_and] at hrun
    rw [List.append_nil, hrun.2]

variable {dangling : List Name → Name → Bool} {b b' : ModuleBuilder} {bytes : List Byte}
  {secs : List Section}

/-- **What the parser cuts off as a section** is one by the grammar. -/
theorem ModuleBuilder.Sections.spelled (h : Sections dangling b bytes secs b') :
    ∀ s ∈ secs, s.Spelled := by
  induction h with
  | nil => exact fun s hs => absurd hs List.not_mem_nil
  | @cons b b₁ b' id size leb contents rest secs horder hsize hcontents hrest ih =>
    have hspelled := (reads_parseSectionContents (b.enterSection id) dangling id size).mem hcontents
    refine List.forall_mem_cons.mpr ⟨⟨hspelled, fun hid => ?_, fun hid => ?_⟩, ih⟩
    · obtain rfl : id = 0x00#8 := hid
      exact custom_framed hcontents
    · obtain rfl : id = 0x0A#8 := hid
      exact entriesFramed_of_contents hspelled

/-- **The sections of a run are framed if and only if the module is.** -/
theorem ModuleBuilder.Sections.framed_iff (h : Sections dangling b bytes secs b') :
    (∀ s ∈ secs, s.Framed) ↔
      ∃ pieces, CutBySize bytes pieces ∧ ∀ piece ∈ pieces, piece.2 ∈ contents piece.1 := by
  induction h with
  | nil =>
    exact ⟨fun _ => ⟨[], .nil, fun p hp => absurd hp List.not_mem_nil⟩,
      fun _ s hs => absurd hs List.not_mem_nil⟩
  | @cons b b₁ b' id size leb contents rest secs horder hsize hcontents hrest ih =>
    have hleb := consumes_decodeU32_iff.mp hsize
    obtain ⟨hspelled, hcustom, hentries⟩ :=
      (Sections.cons horder hsize hcontents .nil).spelled _ List.mem_cons_self
    rw [List.forall_mem_cons, ih]
    constructor
    -- a framed section is the first piece
    · rintro ⟨⟨hlen, -⟩, pieces, hcut, hpieces⟩
      obtain rfl : contents.length = size := hlen
      exact ⟨_, .cons hleb hcut, List.forall_mem_cons.mpr ⟨hspelled, hpieces⟩⟩
    · rintro ⟨pieces, hcut, hpieces⟩
      generalize hbytes : id :: leb ++ contents ++ rest = bytes at hcut
      cases hcut with
      | nil => cases hbytes
      | @cons id' leb' payload rest' pieces hsize' hrest' =>
        obtain ⟨hpayload, hothers⟩ := List.forall_mem_cons.mp hpieces
        obtain ⟨rfl, htail⟩ := List.cons.inj hbytes
        have htail : leb ++ contents ++ rest = leb' ++ payload ++ rest' := htail
        rw [List.append_assoc, List.append_assoc] at htail
        -- the size field is the same one
        obtain ⟨rfl, rfl⟩ := determines_u32 hleb hsize' htail
        have hsplit := List.append_cancel_left htail
        -- and so are the contents: those of a custom section have the length that it says, and of
        -- the others the grammar knows where they end
        have hsame : contents = payload := by
          by_cases hid : id = 0x00#8
          · exact (List.append_inj hsplit (hcustom hid)).1
          · exact prefixFree_contents hid hspelled hpayload hsplit
        subst hsame
        obtain rfl := List.append_cancel_left hsplit
        exact ⟨⟨rfl, hentries⟩, pieces, hrest', hothers⟩

/-! ### Which modules are framed -/

/-- **When the sections of an accepted module are framed.** The parser reads the module as sections
of the grammar. Its custom sections and its code entries take as many bytes as they declare; all of
its sections do if and only if the size fields alone cut the module into sections of the grammar. -/
theorem parseModule_framed_iff (dangling : List Name → Name → Bool) (bytes : List Byte)
    (parsed : ParsedModule) (c' : Cursor)
    (haccepted : parseModule dangling ⟨bytes, 0⟩ = .ok (parsed, c')) :
    ∃ secs b, CutsInto dangling bytes secs b ∧ parsed = b.build ∧ (∀ s ∈ secs, s.Spelled) ∧
      ((∀ s ∈ secs, s.Framed) ↔ WellFramed bytes) := by
  obtain ⟨-, secs, b, ⟨rest, rfl, hsecs⟩, rfl⟩ := parseModule_eq_ok_iff.mp haccepted
  exact ⟨secs, b, ⟨rest, rfl, hsecs⟩, rfl, hsecs.spelled, hsecs.framed_iff⟩

/-- A custom section of one byte and an empty type section. -/
theorem parseModule_framed_iff_custom :
    ∃ secs b, CutsInto (fun _ _ => false)
        (kMagicBytes ++ kVersionOne ++ [0x00, 0x01, 0xFF, 0x01, 0x01, 0x00]) secs b ∧
      (ModuleBuilder.build {}) = b.build ∧ (∀ s ∈ secs, s.Spelled) ∧
      ((∀ s ∈ secs, s.Framed) ↔ WellFramed
        (kMagicBytes ++ kVersionOne ++ [0x00, 0x01, 0xFF, 0x01, 0x01, 0x00])) :=
  parseModule_framed_iff (fun _ _ => false) _ _ ⟨[], 14⟩ rfl

/-- An empty type section that declares five bytes is accepted, and has one byte of contents. -/
theorem parseModule_accepts_unframed :
    ∃ b : ModuleBuilder, parseModule (fun _ _ => false)
        ⟨kMagicBytes ++ kVersionOne ++ [0x01, 0x05, 0x00], 0⟩ = .ok (b.build, ⟨[], 11⟩) ∧
      CutsInto (fun _ _ => false) (kMagicBytes ++ kVersionOne ++ [0x01, 0x05, 0x00])
        [⟨0x01, 5, [0x00]⟩] b ∧ ¬Section.Framed ⟨0x01, 5, [0x00]⟩ := by
  have hsize : Consumes Leb128.decodeU32 [0x05] 5 := Leb128.local_decodeU32.consumes rfl
  have hcontents : Consumes (parseSectionContents (fun _ _ => false) 0x01 5
      (({} : ModuleBuilder).enterSection 0x01)) [0x00] { latestSectionRead := 1 } :=
    (steady_parseSectionContents _ _ _ _).isLocal.consumes rfl
  exact ⟨_, rfl, ⟨_, rfl, .cons (Or.inr (by decide)) hsize hcontents .nil⟩,
    fun h => absurd h.size (by decide)⟩

end Wasmcc
