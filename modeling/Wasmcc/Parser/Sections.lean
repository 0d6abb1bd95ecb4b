import Wasmcc.Parser.Code

/-!
# A module as the parser cuts it

`Sections dangling b bytes secs b'` says that from the builder `b` the loop of `Parse` reads the
bytes as the sections `secs` and ends with the builder `b'`. A section has an id, the size that its
header declares, and its contents, which are the bytes that its parser read. The parser never
compares the last two.

`parseModule_eq_ok_iff` is the link to the source: a stream is accepted if and only if it is the
preamble followed by such sections, and then all of it is consumed.
-/

open Basis

namespace Wasmcc

open Reader

/-- A section, its contents being the bytes that its parser reads. -/
structure Section where
  id : Byte
  /-- The declared size. -/
  size : ℕ
  contents : List Byte
deriving DecidableEq, Repr

namespace ModuleBuilder

variable (dangling : List Name → Name → Bool)

theorem steady_parseSectionHeader (b : ModuleBuilder) :
    Steady .endOfStream b.parseSectionHeader :=
  steady_readByte'.bind fun _ =>
    .ite (.fail _) (Leb128.steady_decodeU32.bind fun _ => .pure _)

theorem steady_parseSectionContents (id : Byte) (size : ℕ) (b : ModuleBuilder) :
    Steady .endOfStream (parseSectionContents dangling id size b) := by
  exact .ite ((steady_skip _ _).bind fun _ => .pure _) (.ite b.steady_parseSignatureSection
    (.ite b.steady_parseImportSection (.ite b.steady_parseFunctionDeclarationSection
      (.ite b.steady_parseTableSection (.ite b.steady_parseMemoriesSection
        (.ite b.steady_parseGlobalsSection (.ite (b.steady_parseExportsSection dangling)
          (.ite (Leb128.steady_decodeU32.bind fun _ =>
              (steady_validateInRange _ _ _).bind fun _ => .pure _)
            (.ite (.fail _) (.ite b.steady_parseCodeSection (.ite (.fail _) (.fail _))))))))))))

/-- A section with this id may come next. -/
def InOrder (b : ModuleBuilder) (id : Byte) : Prop := id = 0 ∨ b.latestSectionRead < id.toNat

/-- The builder when the contents of a section with this id are parsed. -/
def enterSection (b : ModuleBuilder) (id : Byte) : ModuleBuilder :=
  if id ≠ 0 then { b with latestSectionRead := id.toNat } else b

theorem consumes_parseSectionHeader {b : ModuleBuilder} {id : Byte} {leb : List Byte} {size : ℕ}
    (horder : b.InOrder id) (hsize : Consumes Leb128.decodeU32 leb size) :
    Consumes b.parseSectionHeader (id :: leb) (b.enterSection id, id, size) := by
  refine (consumes_readByte _ id).bind (v := leb) ?_
  have hguard : ¬(id ≠ 0 ∧ id.toNat ≤ b.latestSectionRead) := by
    rintro ⟨hne, hle⟩
    exact horder.elim hne (fun hlt => absurd hle (Nat.not_le.mpr hlt))
  rw [if_neg hguard]
  exact hsize.bind_nil (.pure _)

theorem parseSectionHeader_eq_ok {b b₁ : ModuleBuilder} {id : Byte} {size : ℕ} {c c₁ : Cursor}
    (h : b.parseSectionHeader c = .ok ((b₁, id, size), c₁)) :
    ∃ leb, c.rest = id :: leb ++ c₁.rest ∧ b.InOrder id ∧ b₁ = b.enterSection id ∧
      Consumes Leb128.decodeU32 leb size := by
  obtain ⟨id', d, h1, h2⟩ := Reader.bind_eq_ok.mp h
  obtain ⟨hrest, -⟩ := readByte_eq_ok.mp h1
  obtain ⟨hguard, h3⟩ := guard_eq_ok h2
  obtain ⟨size', d', h4, h5⟩ := Reader.bind_eq_ok.mp h3
  obtain ⟨hr, rfl⟩ := pure_eq_ok.mp h5
  obtain ⟨rfl, hr2⟩ := Prod.mk.inj hr
  obtain ⟨rfl, rfl⟩ := Prod.mk.inj hr2
  obtain ⟨leb, hleb, -, hcons⟩ := Leb128.local_decodeU32 d _ d' h4
  refine ⟨leb, by rw [hrest, hleb, List.cons_append], ?_, rfl, hcons⟩
  -- a custom section may come anywhere
  by_cases h0 : id' = 0
  · exact Or.inl h0
  · exact Or.inr (Nat.lt_of_not_le fun hle => hguard ⟨h0, hle⟩)

/-- The loop of `Parse`, from builder to builder over the sections it reads. -/
inductive Sections : ModuleBuilder → List Byte → List Section → ModuleBuilder → Prop
  | nil {b : ModuleBuilder} : Sections b [] [] b
  | cons {b b₁ b' : ModuleBuilder} {id : Byte} {size : ℕ} {leb contents rest : List Byte}
      {secs : List Section} (horder : b.InOrder id) (hsize : Consumes Leb128.decodeU32 leb size)
      (hcontents : Consumes (parseSectionContents dangling id size (b.enterSection id)) contents b₁)
      (hrest : Sections b₁ rest secs b') :
      Sections b (id :: leb ++ contents ++ rest) (⟨id, size, contents⟩ :: secs) b'

variable {dangling}

/-! ### One round of the loop -/

theorem parseNextSection_nil (b : ModuleBuilder) (n : ℕ) :
    parseNextSection dangling b ⟨[], n⟩ = .ok (.inr b, ⟨[], n⟩) := rfl

theorem parseNextSection_cons (b : ModuleBuilder) (byte : Byte) (rest : List Byte) (n : ℕ) :
    parseNextSection dangling b ⟨byte :: rest, n⟩ =
      (b.parseOneSection dangling >>= fun b => pure (.inl b)) ⟨byte :: rest, n⟩ := rfl

/-- Every round reads the id of its section. -/
theorem progress_parseNextSection : Progress (parseNextSection dangling) := by
  intro b c b' c' h
  obtain ⟨rest, n⟩ := c
  cases rest with
  | nil =>
    rw [parseNextSection_nil] at h
    cases h
  | cons byte rest =>
    rw [parseNextSection_cons] at h
    obtain ⟨b₁, c₁, h1, h2⟩ := Reader.bind_eq_ok.mp h
    obtain ⟨-, rfl⟩ := pure_eq_ok.mp h2
    obtain ⟨⟨b₂, id, size⟩, c₂, h3, h4⟩ := Reader.bind_eq_ok.mp h1
    -- the id of the section was read, whatever came then
    obtain ⟨leb, hrest, -⟩ := parseSectionHeader_eq_ok h3
    have hle := (steady_parseSectionContents dangling id size b₂).isLocal.length_le h4
    have hlen := congrArg List.length hrest
    simp only [List.length_append, List.length_cons] at hlen ⊢
    omega

/-! ### The whole loop -/

/-- **What the loop accepts are sections**, and it consumes all of them. -/
theorem sections_of_loop {stuck : Exception} : ∀ (k : ℕ) {b b' : ModuleBuilder} {c c' : Cursor},
    c.rest.length ≤ k → loop stuck (parseNextSection dangling) b c = .ok (b', c') →
    c' = ⟨[], c.consumed + c.rest.length⟩ ∧ ∃ secs, Sections dangling b c.rest secs b' := by
  intro k
  -- on the number of bytes left, which every section lowers
  induction k with
  | zero =>
    intro b b' c c' hk h
    obtain ⟨rest, n⟩ := c
    obtain rfl : rest = [] := List.eq_nil_of_length_eq_zero (Nat.le_zero.mp hk)
    rw [loop_unroll progress_parseNextSection, bind_of_ok (parseNextSection_nil b n)] at h
    obtain ⟨rfl, rfl⟩ := pure_eq_ok.mp h
    exact ⟨rfl, [], .nil⟩
  | succ k ih =>
    intro b b' c c' hk h
    obtain ⟨rest, n⟩ := c
    rw [loop_unroll progress_parseNextSection] at h
    cases rest with
    | nil =>
      rw [bind_of_ok (parseNextSection_nil b n)] at h
      obtain ⟨rfl, rfl⟩ := pure_eq_ok.mp h
      exact ⟨rfl, [], .nil⟩
    | cons byte rest =>
      obtain ⟨x, c₁, h1, h2⟩ := Reader.bind_eq_ok.mp h
      rw [parseNextSection_cons] at h1
      obtain ⟨b₁, c₂, h3, h4⟩ := Reader.bind_eq_ok.mp h1
      obtain ⟨rfl, rfl⟩ := pure_eq_ok.mp h4
      obtain ⟨⟨b₂, id, size⟩, c₃, h5, h6⟩ := Reader.bind_eq_ok.mp h3
      obtain ⟨leb, hrest, horder, rfl, hsize⟩ := parseSectionHeader_eq_ok h5
      obtain ⟨header, hheader, hn, -⟩ := b.steady_parseSectionHeader.isLocal _ _ _ h5
      obtain ⟨contents, hcontents, hm, hcons⟩ :=
        (steady_parseSectionContents dangling id size _).isLocal _ _ _ h6
      obtain rfl : header = id :: leb := List.append_cancel_right (hheader.symm.trans hrest)
      have hsplit : byte :: rest = id :: leb ++ contents ++ c₂.rest := by
        rw [List.append_assoc, ← hcontents]
        exact hrest
      have hlen := congrArg List.length hsplit
      simp only [List.length_append, List.length_cons] at hlen hk hn
      obtain ⟨rfl, secs, hsecs⟩ := ih (by omega) h2
      have hall := Sections.cons horder hsize hcons hsecs
      rw [← hsplit] at hall
      refine ⟨?_, _, hall⟩
      simp only [Cursor.mk.injEq, true_and, List.length_cons]
      omega

theorem consumes_parseOneSection {b b₁ : ModuleBuilder} {id : Byte} {size : ℕ}
    {leb contents : List Byte} (horder : b.InOrder id)
    (hsize : Consumes Leb128.decodeU32 leb size)
    (hcontents : Consumes (parseSectionContents dangling id size (b.enterSection id)) contents b₁) :
    Consumes (b.parseOneSection dangling) (id :: leb ++ contents) b₁ :=
  (consumes_parseSectionHeader horder hsize).bind hcontents

/-- One section, and the loop goes on after it. -/
theorem loop_section {b b₁ : ModuleBuilder} {id : Byte} {tail : List Byte}
    (h : Consumes (b.parseOneSection dangling) (id :: tail) b₁) (stuck : Exception)
    (rest : List Byte) (n : ℕ) :
    loop stuck (parseNextSection dangling) b ⟨id :: tail ++ rest, n⟩ =
      loop stuck (parseNextSection dangling) b₁ ⟨rest, n + (id :: tail).length⟩ := by
  have hstep : parseNextSection dangling b ⟨id :: tail ++ rest, n⟩ =
      .ok (.inl b₁, ⟨rest, n + (id :: tail).length⟩) :=
    (parseNextSection_cons b id (tail ++ rest) n).trans (bind_of_ok (h rest n) _)
  rw [loop_unroll progress_parseNextSection, bind_of_ok hstep]

/-- Where a section is refused, the loop stops. -/
theorem loop_section_error {b : ModuleBuilder} {id : Byte} {tail : List Byte} {n : ℕ}
    {e : Exception} (h : b.parseOneSection dangling ⟨id :: tail, n⟩ = .error e)
    (stuck : Exception) :
    loop stuck (parseNextSection dangling) b ⟨id :: tail, n⟩ = .error e := by
  have hstep : parseNextSection dangling b ⟨id :: tail, n⟩ = .error e :=
    (parseNextSection_cons b id tail n).trans (bind_of_error h _)
  rw [loop_unroll progress_parseNextSection, bind_of_error hstep]

/-- **Sections are accepted by the loop**, whatever comes after them. -/
theorem Sections.loop_append {b b' : ModuleBuilder} {bytes : List Byte} {secs : List Section}
    (h : Sections dangling b bytes secs b') (stuck : Exception) (rest : List Byte) (n : ℕ) :
    Reader.loop stuck (parseNextSection dangling) b ⟨bytes ++ rest, n⟩ =
      Reader.loop stuck (parseNextSection dangling) b' ⟨rest, n + bytes.length⟩ := by
  induction h generalizing n with
  | nil => rfl
  | @cons b b₁ b' id size leb contents tail secs horder hsize hcontents hrest ih =>
    have hlen : (id :: leb ++ contents ++ tail).length =
        (id :: leb ++ contents).length + tail.length := List.length_append
    rw [List.append_assoc]
    -- a round of the loop for this section
    refine (loop_section (consumes_parseOneSection horder hsize hcontents) stuck _ n).trans ?_
    rw [ih, hlen, Nat.add_assoc]
    rfl

/-- The loop ends where the sections do. -/
theorem Sections.loop {b b' : ModuleBuilder} {bytes : List Byte} {secs : List Section}
    (h : Sections dangling b bytes secs b') (stuck : Exception) (n : ℕ) :
    Reader.loop stuck (parseNextSection dangling) b ⟨bytes, n⟩ =
      .ok (b', ⟨[], n + bytes.length⟩) := by
  have hloop := h.loop_append stuck [] n
  rw [List.append_nil] at hloop
  rw [hloop, loop_unroll progress_parseNextSection, bind_of_ok (parseNextSection_nil _ _)]
  rfl

/-! ### Two parts of a module -/

variable {b b₁ b' : ModuleBuilder} {bytes u v : List Byte} {secs secs₁ secs₂ : List Section}

theorem Sections.append (h : Sections dangling b u secs₁ b₁)
    (h' : Sections dangling b₁ v secs₂ b') :
    Sections dangling b (u ++ v) (secs₁ ++ secs₂) b' := by
  induction h with
  | nil => exact h'
  | cons horder hsize hcontents _ ih =>
    rw [List.append_assoc]
    exact .cons horder hsize hcontents (ih h')

theorem Sections.split (h : Sections dangling b bytes (secs₁ ++ secs₂) b') :
    ∃ u v b₁, bytes = u ++ v ∧ Sections dangling b u secs₁ b₁ ∧
      Sections dangling b₁ v secs₂ b' := by
  induction secs₁ generalizing b bytes with
  | nil => exact ⟨[], bytes, b, rfl, .nil, h⟩
  | cons s secs₁ ih =>
    cases h with
    | @cons _ b₁ _ id size leb contents rest _ horder hsize hcontents hrest =>
      obtain ⟨u, v, b₂, rfl, hu, hv⟩ := ih hrest
      exact ⟨id :: leb ++ contents ++ u, v, b₂, (List.append_assoc _ _ _).symm,
        .cons horder hsize hcontents hu, hv⟩

/-- **Cutting at a boundary.** Where some sections end in a module, the rest of it are sections. -/
theorem Sections.of_append (h : Sections dangling b u secs₁ b₁)
    (h' : Sections dangling b (u ++ v) secs b') :
    ∃ secs₂, secs = secs₁ ++ secs₂ ∧ Sections dangling b₁ v secs₂ b' := by
  induction h generalizing secs with
  | nil => exact ⟨secs, rfl, h'⟩
  | @cons b b₁ b₂ id size leb contents rest secs₁ horder hsize hcontents hrest ih =>
    generalize hbytes : id :: leb ++ contents ++ rest ++ v = bytes at h'
    cases h' with
    | nil => cases hbytes
    | @cons _ b₁' _ id' size' leb' contents' rest' secs' horder' hsize' hcontents' hrest' =>
      -- the header and the contents are read from the same bytes
      simp only [List.cons_append, List.append_assoc] at hbytes
      obtain ⟨rfl, hheader⟩ := List.cons_eq_cons.mp hbytes
      obtain ⟨rfl, rfl, hafter⟩ := hsize.det hsize' hheader
      obtain ⟨rfl, rfl, rfl⟩ := hcontents.det hcontents' hafter
      obtain ⟨secs₂, rfl, h₂⟩ := ih hrest'
      exact ⟨secs₂, rfl, h₂⟩

end ModuleBuilder

open ModuleBuilder

/-- The bytes are the preamble of a module and these sections, from which the builder `b`
results. -/
def CutsInto (dangling : List Name → Name → Bool) (bytes : List Byte) (secs : List Section)
    (b : ModuleBuilder) : Prop :=
  ∃ rest, bytes = kMagicBytes ++ kVersionOne ++ rest ∧ Sections dangling {} rest secs b

/-- After a preamble, `Parse` is its loop. -/
theorem parse_preamble (dangling : List Name → Name → Bool) (rest : List Byte) :
    ModuleBuilder.parse dangling {} ⟨kMagicBytes ++ kVersionOne ++ rest, 0⟩ =
      loop .endOfStream (parseNextSection dangling) {} ⟨rest, 8⟩ := by
  have hmagic := consumes_readBytes Exception.endOfStream kMagicBytes (kVersionOne ++ rest) 0
  have hversion := consumes_readBytes Exception.endOfStream kVersionOne rest (0 + 4)
  rw [List.append_assoc]
  refine (bind_of_ok hmagic _).trans ?_
  rw [if_neg (by simp)]
  refine (bind_of_ok hversion _).trans ?_
  rw [if_neg (by simp)]
  rfl

/-- **What `ParseModule` accepts**: the bytes that can be cut into sections, and all of them. -/
theorem parseModule_eq_ok_iff {dangling : List Name → Name → Bool} {bytes : List Byte}
    {parsed : ParsedModule} {c' : Cursor} :
    parseModule dangling ⟨bytes, 0⟩ = .ok (parsed, c') ↔
      c' = ⟨[], bytes.length⟩ ∧ ∃ secs b, CutsInto dangling bytes secs b ∧ parsed = b.build := by
  constructor
  · intro h
    obtain ⟨b, c₁, h1, h2⟩ := Reader.bind_eq_ok.mp h
    obtain ⟨rfl, rfl⟩ := pure_eq_ok.mp h2
    obtain ⟨magic, c₂, h3, h4⟩ := Reader.bind_eq_ok.mp h1
    obtain ⟨hmagic, h5⟩ := guard_eq_ok h4
    obtain ⟨version, c₃, h6, h7⟩ := Reader.bind_eq_ok.mp h5
    obtain ⟨hversion, h8⟩ := guard_eq_ok h7
    rw [not_not] at hmagic hversion
    -- both comparisons were passed, so the bytes are the magic and the version
    subst hmagic
    subst hversion
    obtain ⟨-, hrest, hn⟩ := readBytes_eq_ok.mp h3
    obtain ⟨-, hrest', hn'⟩ := readBytes_eq_ok.mp h6
    obtain ⟨rfl, secs, hsecs⟩ := sections_of_loop c₃.rest.length le_rfl h8
    have hbytes : bytes = kMagicBytes ++ kVersionOne ++ c₃.rest := by
      rw [List.append_assoc, ← hrest']
      exact hrest
    refine ⟨?_, secs, b, ⟨c₃.rest, hbytes, hsecs⟩, rfl⟩
    rw [hn', hn, hbytes]
    simp [kMagicBytes, kVersionOne]
    omega
  · rintro ⟨rfl, secs, b, ⟨rest, rfl, hsecs⟩, rfl⟩
    refine bind_of_ok ?_ _
    rw [parse_preamble]
    refine (hsecs.loop .endOfStream 8).trans ?_
    simp [kMagicBytes, kVersionOne]
    omega

end Wasmcc
