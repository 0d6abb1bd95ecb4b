import Wasmcc.Parser.Sections

/-!
# What a section leaves alone

Each section parser fills one or two vectors of the builder. `SectionFrame id b b'` lists what the
contents of a section with this id do not touch, and `frame_parseSectionContents` is the one place
where all section parsers are gone through for it. In particular none of them moves
`latestSectionRead`, which only `parseSectionHeader` sets; so the ids of the sections that are not
custom increase (`Sections.increasing`).
-/

open Basis

namespace Wasmcc

open Reader ModuleBuilder

variable {dangling : List Name → Name → Bool} {b b' b₁ : ModuleBuilder} {bytes : List Byte}
  {secs : List Section} {id : Byte}

/-- What the contents of a section with this id leave as it was. -/
structure SectionFrame (id : Byte) (b b' : ModuleBuilder) : Prop where
  latestSectionRead : b'.latestSectionRead = b.latestSectionRead
  funcSignatures : id ≠ 0x01#8 → b'.funcSignatures = b.funcSignatures
  imports : id ≠ 0x02#8 → b'.imports = b.imports
  functions : id ≠ 0x03#8 → id ≠ 0x0A#8 → b'.functions = b.functions
  exports : id ≠ 0x07#8 → b'.exports = b.exports

/-- None of these parts changed. -/
theorem SectionFrame.same (hlatest : b'.latestSectionRead = b.latestSectionRead)
    (hsigs : b'.funcSignatures = b.funcSignatures) (himports : b'.imports = b.imports)
    (hfuncs : b'.functions = b.functions) (hexports : b'.exports = b.exports) :
    SectionFrame id b b' :=
  ⟨hlatest, fun _ => hsigs, fun _ => himports, fun _ _ => hfuncs, fun _ => hexports⟩

theorem SectionFrame.refl (id : Byte) (b : ModuleBuilder) : SectionFrame id b b :=
  .same rfl rfl rfl rfl rfl

theorem SectionFrame.trans (h : SectionFrame id b b₁) (h' : SectionFrame id b₁ b') :
    SectionFrame id b b' where
  latestSectionRead := h'.latestSectionRead.trans h.latestSectionRead
  funcSignatures hid := (h'.funcSignatures hid).trans (h.funcSignatures hid)
  imports hid := (h'.imports hid).trans (h.imports hid)
  functions hid hid' := (h'.functions hid hid').trans (h.functions hid hid')
  exports hid := (h'.exports hid).trans (h.exports hid)

/-- A vector whose entries each keep the frame. -/
theorem frame_iterate {step : ModuleBuilder → Reader Exception ModuleBuilder}
    (hstep : ∀ b, Ensures (step b) (SectionFrame id b)) (n : ℕ) (b : ModuleBuilder) :
    Ensures (Reader.iterate step n b) (SectionFrame id b) :=
  Ensures.iterate (fun s hs => (hstep s).mono fun _ hs' => hs.trans hs') n (.refl id b)

theorem frame_parseSignatureSection (b : ModuleBuilder) :
    Ensures b.parseSignatureSection (SectionFrame 0x01#8 b) := by
  refine .bind fun n => frame_iterate (fun s => ?_) n b
  exact .bind fun _ => .pure
    ⟨rfl, fun h => absurd rfl h, fun _ => rfl, fun _ _ => rfl, fun _ => rfl⟩

theorem frame_parseImportSection (b : ModuleBuilder) :
    Ensures b.parseImportSection (SectionFrame 0x02#8 b) := by
  refine .bind fun n => frame_iterate (fun s => ?_) n b
  exact .bind fun _ => .pure
    ⟨rfl, fun _ => rfl, fun h => absurd rfl h, fun _ _ => rfl, fun _ => rfl⟩

theorem frame_parseOneFunctionDeclaration (b : ModuleBuilder) :
    Ensures b.parseOneFunctionDeclaration (SectionFrame 0x03#8 b) :=
  .bind fun _ => .bind fun _ => .pure
    ⟨rfl, fun _ => rfl, fun _ => rfl, fun h => absurd rfl h, fun _ => rfl⟩

theorem frame_parseFunctionDeclarationSection (b : ModuleBuilder) :
    Ensures b.parseFunctionDeclarationSection (SectionFrame 0x03#8 b) :=
  .bind fun n => frame_iterate frame_parseOneFunctionDeclaration n b

theorem frame_parseTableSection (b : ModuleBuilder) :
    Ensures b.parseTableSection (SectionFrame 0x04#8 b) := by
  refine .bind fun n => frame_iterate (fun s => ?_) n b
  exact .bind fun _ => .pure (.same rfl rfl rfl rfl rfl)

theorem frame_parseMemoriesSection (b : ModuleBuilder) :
    Ensures b.parseMemoriesSection (SectionFrame 0x05#8 b) := by
  refine .bind fun n => frame_iterate (fun s => ?_) n b
  exact .bind fun _ => .pure (.same rfl rfl rfl rfl rfl)

theorem frame_parseGlobalsSection (b : ModuleBuilder) :
    Ensures b.parseGlobalsSection (SectionFrame 0x06#8 b) := by
  refine .bind fun n => frame_iterate (fun s => ?_) n b
  exact .bind fun _ => .pure (.same rfl rfl rfl rfl rfl)

theorem frame_parseExportsSection (dangling : List Name → Name → Bool) (b : ModuleBuilder) :
    Ensures (b.parseExportsSection dangling) (SectionFrame 0x07#8 b) := by
  refine .bind fun n => .bind' (P := fun s => SectionFrame 0x07#8 b s.1) ?_ fun s hs => .pure hs
  refine Ensures.iterate (fun s hs => ?_) n (.refl _ b)
  refine .bind fun e => .ite (fun _ => .fail _ _) fun _ => .pure (hs.trans ?_)
  exact ⟨rfl, fun _ => rfl, fun _ => rfl, fun _ _ => rfl, fun h => absurd rfl h⟩

theorem frame_parseCodeSection (b : ModuleBuilder) :
    Ensures b.parseCodeSection (SectionFrame 0x0A#8 b) :=
  .bind fun _ => .ite (fun _ => .fail _ _) fun _ => .bind fun _ => .pure
    ⟨rfl, fun _ => rfl, fun _ => rfl, fun _ h => absurd rfl h, fun _ => rfl⟩

/-- **The frame of a section.** -/
theorem frame_parseSectionContents (dangling : List Name → Name → Bool) (id : Byte) (size : ℕ)
    (b : ModuleBuilder) :
    Ensures (parseSectionContents dangling id size b) (SectionFrame id b) := by
  unfold parseSectionContents
  refine .ite (fun _ => .bind fun _ => .pure (.refl id b)) fun _ => ?_
  -- the branches in the order of the source
  refine .ite (fun h => h ▸ frame_parseSignatureSection b) fun _ => ?_
  refine .ite (fun h => h ▸ frame_parseImportSection b) fun _ => ?_
  refine .ite (fun h => h ▸ frame_parseFunctionDeclarationSection b) fun _ => ?_
  refine .ite (fun h => h ▸ frame_parseTableSection b) fun _ => ?_
  refine .ite (fun h => h ▸ frame_parseMemoriesSection b) fun _ => ?_
  refine .ite (fun h => h ▸ frame_parseGlobalsSection b) fun _ => ?_
  refine .ite (fun h => h ▸ frame_parseExportsSection dangling b) fun _ => ?_
  refine .ite (fun _ => .bind fun _ => .bind fun _ => .pure (.same rfl rfl rfl rfl rfl)) fun _ => ?_
  refine .ite (fun _ => .fail _ _) fun _ => ?_
  refine .ite (fun h => h ▸ frame_parseCodeSection b) fun _ => ?_
  exact .ite (fun _ => .fail _ _) fun _ => .fail _ _

/-! ### The order of the sections -/

namespace ModuleBuilder

@[simp] theorem enterSection_funcSignatures (b : ModuleBuilder) (id : Byte) :
    (b.enterSection id).funcSignatures = b.funcSignatures := by
  unfold enterSection
  split <;> rfl

@[simp] theorem enterSection_functions (b : ModuleBuilder) (id : Byte) :
    (b.enterSection id).functions = b.functions := by
  unfold enterSection
  split <;> rfl

@[simp] theorem enterSection_exports (b : ModuleBuilder) (id : Byte) :
    (b.enterSection id).exports = b.exports := by
  unfold enterSection
  split <;> rfl

theorem enterSection_latestSectionRead (b : ModuleBuilder) (id : Byte) :
    (b.enterSection id).latestSectionRead = if id ≠ 0 then id.toNat else b.latestSectionRead := by
  unfold enterSection
  split <;> rfl

/-- The order of sections only moves on. -/
theorem le_enterSection (horder : b.InOrder id) :
    b.latestSectionRead ≤ (b.enterSection id).latestSectionRead := by
  rw [enterSection_latestSectionRead]
  split
  next hne => exact Nat.le_of_lt (horder.resolve_left hne)
  next => exact le_rfl

/-- The ids of the sections that are not custom. -/
def sectionIds (secs : List Section) : List ℕ :=
  (secs.filter fun s => s.id ≠ 0).map fun s => s.id.toNat

/-- **The sections that are not custom come in increasing order**, after those read before. -/
theorem Sections.increasing (h : Sections dangling b bytes secs b') :
    (b.latestSectionRead :: sectionIds secs).Pairwise (· < ·) := by
  induction h with
  | nil => exact List.pairwise_singleton _ _
  | @cons b b₁ b' id size leb contents rest secs horder hsize hcontents hrest ih =>
    have hlatest := (frame_parseSectionContents dangling id size _ _ _ _
      (hcontents [] 0)).latestSectionRead
    rw [hlatest, enterSection_latestSectionRead] at ih
    unfold sectionIds at ih ⊢
    by_cases hid : id = 0
    · -- a custom section is not in the list
      rw [if_neg (not_not.mpr hid)] at ih
      rwa [List.filter_cons_of_neg (by simpa using hid)]
    · rw [if_pos hid] at ih
      rw [List.filter_cons_of_pos (by simpa using hid), List.map_cons]
      have hlt := horder.resolve_left hid
      refine List.pairwise_cons.mpr ⟨fun n hn => ?_, ih⟩
      rcases List.mem_cons.mp hn with rfl | hn
      · exact hlt
      · exact hlt.trans ((List.pairwise_cons.mp ih).1 n hn)

/-- The ids of the sections that were read are at most the latest one. -/
theorem Sections.le_latest (h : Sections dangling b bytes secs b') :
    b.latestSectionRead ≤ b'.latestSectionRead ∧
      ∀ s ∈ secs, s.id.toNat ≤ b'.latestSectionRead := by
  induction h with
  | nil => exact ⟨le_rfl, fun s hs => absurd hs List.not_mem_nil⟩
  | @cons b b₁ b' id size leb contents rest secs horder hsize hcontents hrest ih =>
    have hframe := frame_parseSectionContents dangling id size _ _ _ _ (hcontents [] 0)
    -- a section that is not custom makes its id the latest one
    have hid : id.toNat ≤ (b.enterSection id).latestSectionRead := by
      rw [enterSection_latestSectionRead]
      split
      next => exact le_rfl
      next h0 => rw [not_not.mp h0]; exact Nat.zero_le _
    rw [hframe.latestSectionRead] at ih
    exact ⟨(le_enterSection horder).trans ih.1, List.forall_mem_cons.mpr ⟨hid.trans ih.1, ih.2⟩⟩

/-- Before a section there is none with its id. -/
theorem Sections.not_before (h : Sections dangling b bytes secs b') (hid : id ≠ 0)
    (horder : b'.InOrder id) : ∀ s ∈ secs, s.id ≠ id := by
  rintro s hs rfl
  exact absurd (h.le_latest.2 s hs) (Nat.not_le.mpr (horder.resolve_left hid))

/-- And neither is there after it. -/
theorem Sections.not_after (h : Sections dangling b bytes secs b') (hid : id ≠ 0)
    (hlatest : id.toNat ≤ b.latestSectionRead) : ∀ s ∈ secs, s.id ≠ id := by
  rintro s hs rfl
  have hmem : s.id.toNat ∈ sectionIds secs :=
    List.mem_map.mpr ⟨s, List.mem_filter.mpr ⟨hs, by simpa using hid⟩, rfl⟩
  exact absurd ((List.pairwise_cons.mp h.increasing).1 _ hmem) (Nat.not_lt.mpr hlatest)

/-- Only the export section has exports. -/
theorem Sections.exports_eq (h : Sections dangling b bytes secs b')
    (hids : ∀ s ∈ secs, s.id ≠ 0x07#8) : b'.exports = b.exports := by
  induction h with
  | nil => rfl
  | @cons b b₁ b' id size leb contents rest secs horder hsize hcontents hrest ih =>
    obtain ⟨hid, hids⟩ := List.forall_mem_cons.mp hids
    have hframe := frame_parseSectionContents dangling id size _ _ _ _ (hcontents [] 0)
    rw [ih hids, hframe.exports hid, enterSection_exports]

end ModuleBuilder

end Wasmcc
