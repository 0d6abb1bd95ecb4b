import Wasmcc.Parser.Frame

/-!
# Where the functions of a module come from

The function section appends forward declarations, and the code section replaces every one of them
by what `ParseOneCode` makes of it and of the entry at its position, after a check that there are as
many entries (`Section.Defines`). Only the order of the sections is enforced, not that a code
section follows: `parseModule_validated_iff` says exactly of which accepted modules all functions
were defined so, and that another number of entries is refused in any case.
-/

open Basis

namespace Wasmcc

open Reader ModuleBuilder

/-- The number that the contents of a section start with. -/
def Section.vectorSize (s : Section) : Option ℕ :=
  match Leb128.decodeU32 ⟨s.contents, 0⟩ with
  | .ok (n, _) => some n
  | .error _ => none

/-- The code section that makes these functions of the declared ones: a count and as many entries as
there are declarations, function `i` being what `ParseOneCode` makes of entry `i` and declaration
`i`. -/
structure Section.Defines (s : Section) (declared functions : List Function) : Prop where
  id : s.id = 0x0A#8
  length : functions.length = declared.length
  entries : ∃ (count : List Byte) (entries : List (List Byte)),
    s.contents = count ++ entries.flatten ∧ Consumes Leb128.decodeU32 count entries.length ∧
    entries.length = declared.length ∧
    ∀ (i : ℕ) (func : Function) (entry : List Byte) (f : Function), declared[i]? = some func →
      entries[i]? = some entry → functions[i]? = some f → Consumes (parseOneCode func) entry f

/-- These functions, of a module of these sections, are validated, and the code section defines
them, one by one, for the declarations of the sections before it. -/
structure FunctionsDefined (dangling : List Name → Name → Bool) (secs : List Section)
    (functions : List Function) : Prop where
  validated : ∀ f ∈ functions, f.IsValidated
  defined : functions ≠ [] → ∃ before s after bytes b, secs = before ++ s :: after ∧
    Sections dangling {} bytes before b ∧ s.Defines b.functions functions

variable {dangling : List Name → Name → Bool} {b b' b₁ : ModuleBuilder} {contents bytes : List Byte}
  {secs : List Section} {id : Byte} {size : ℕ}

/-! ### What the function and the code section do -/

/-- One round of `ParseFunctionDeclarationSection` declares one function. -/
theorem parseOneFunctionDeclaration_length (b : ModuleBuilder) :
    Ensures b.parseOneFunctionDeclaration fun b' =>
      b'.functions.length = b.functions.length + 1 :=
  .bind fun idx => .bind fun _ => .pure (by simp)

/-- **A function section** declares as many functions as its vector size says. -/
theorem functionSection_length {size : ℕ}
    (h : Consumes (parseSectionContents dangling 0x03#8 size b) contents b₁) :
    ∃ n, Section.vectorSize ⟨0x03#8, size, contents⟩ = some n ∧
      b₁.functions.length = b.functions.length + n := by
  have hrun : b.parseFunctionDeclarationSection ⟨contents ++ [], 0⟩ =
      .ok (b₁, ⟨[], 0 + contents.length⟩) := h [] 0
  rw [List.append_nil] at hrun
  obtain ⟨n, c₁, h1, h2⟩ := Reader.bind_eq_ok.mp hrun
  obtain ⟨m, c₂, h3, h4⟩ := Reader.bind_eq_ok.mp h1
  obtain ⟨-, h5⟩ := guard_eq_ok h4
  obtain ⟨rfl, rfl⟩ := pure_eq_ok.mp h5
  -- a round declares one function
  refine ⟨m, ?_, Ensures.iterate_add (μ := fun b : ModuleBuilder => b.functions.length)
    parseOneFunctionDeclaration_length m b _ _ _ h2⟩
  rw [Section.vectorSize]
  dsimp only
  rw [h3]

/-- **A code section** defines the functions that were declared. -/
theorem codeSection_defines {size : ℕ}
    (h : Consumes (parseSectionContents dangling 0x0A#8 size b) contents b₁) :
    (∀ f ∈ b₁.functions, f.IsValidated) ∧
      Section.Defines ⟨0x0A#8, size, contents⟩ b.functions b₁.functions := by
  obtain ⟨count, es, rfl, hcount, hdeclared, rfl, hes⟩ := parseCodeSection_entries
    (show Consumes b.parseCodeSection contents b₁ from h)
  rw [← hdeclared]
  refine ⟨fun f hf => ?_, rfl, ?_, count, es.map (·.2.1), ?_, ?_, ?_, ?_⟩
  · obtain ⟨e, he, rfl⟩ := List.mem_map.mp hf
    exact (isValidated_of_parseOneCode (hes e he)).1
  · rw [List.length_map, List.length_map]
  · rw [List.flatMap_def]
  · rwa [List.length_map]
  · rw [List.length_map, List.length_map]
  -- the three lists were read off one list, so their positions belong together
  · intro i func entry f hfunc hentry hf
    rw [List.getElem?_map] at hfunc hentry hf
    obtain ⟨e, he, rfl⟩ := Option.map_eq_some_iff.mp hfunc
    rw [he] at hentry hf
    obtain rfl := Option.some.inj hentry
    obtain rfl := Option.some.inj hf
    exact hes e (List.mem_of_getElem? he)

/-- **Another number of entries** is refused. -/
theorem codeSection_count {size n : ℕ} {count : List Byte}
    (hcount : Consumes Leb128.decodeU32 count n) (hne : n ≠ b.functions.length)
    (rest : List Byte) (m : ℕ) :
    parseSectionContents dangling 0x0A#8 size b ⟨count ++ rest, m⟩ =
      .error (.parse ("unexpected number of code, actual: " ++ toString n ++ " expected: "
        ++ toString b.functions.length)) := by
  show b.parseCodeSection ⟨count ++ rest, m⟩ = _
  refine (bind_of_ok (hcount rest m) _).trans ?_
  rw [if_pos hne]
  rfl

/-! ### Over a whole module -/

namespace ModuleBuilder

/-- After the code section the functions stay as they are. -/
theorem Sections.functions_of_done (h : Sections dangling b bytes secs b')
    (hdone : 0x0A ≤ b.latestSectionRead) : b'.functions = b.functions := by
  induction h with
  | nil => rfl
  | @cons b b₁ b' id size leb contents rest secs horder hsize hcontents hrest ih =>
    have hframe := frame_parseSectionContents dangling id size _ _ _ _ (hcontents [] 0)
    have hid : id ≠ 0x03#8 ∧ id ≠ 0x0A#8 := by
      rcases horder with rfl | hlt
      · exact ⟨by decide, by decide⟩
      · constructor <;> rintro rfl <;> simp at hlt <;> omega
    rw [ih (by rw [hframe.latestSectionRead]; exact hdone.trans (le_enterSection horder)),
      hframe.functions hid.1 hid.2, enterSection_functions]

/-- **With a code section** every function is validated and has its entry. -/
theorem Sections.defines (h : Sections dangling b bytes secs b')
    (hcode : ∃ s ∈ secs, s.id = 0x0A#8) : (∀ f ∈ b'.functions, f.IsValidated) ∧
      ∃ before s after u b₁, secs = before ++ s :: after ∧ Sections dangling b u before b₁ ∧
        s.Defines b₁.functions b'.functions := by
  obtain ⟨s, hs, hid⟩ := hcode
  obtain ⟨before, after, rfl⟩ := List.append_of_mem hs
  obtain ⟨u, v, b₁, rfl, hbefore, hafter⟩ := h.split
  cases hafter with
  | @cons _ b₂ _ id size leb contents rest _ horder hsize hcontents hrest =>
    obtain rfl : id = 0x0A#8 := hid
    have hframe := frame_parseSectionContents dangling 0x0A#8 size _ _ _ _ (hcontents [] 0)
    obtain ⟨hvalid, hdef⟩ := codeSection_defines hcontents
    rw [enterSection_functions] at hdef
    -- nothing after the code section touches the functions
    rw [hrest.functions_of_done (by rw [hframe.latestSectionRead]; exact le_rfl)]
    exact ⟨hvalid, before, _, after, u, b₁, rfl, hbefore, hdef⟩

/-- **Without a code section** there are functions unless every function section is empty. -/
theorem Sections.functions_eq_nil_iff (h : Sections dangling b bytes secs b')
    (hcode : ∀ s ∈ secs, s.id ≠ 0x0A#8) : b'.functions = [] ↔
      b.functions = [] ∧ ∀ s ∈ secs, s.id = 0x03#8 → s.vectorSize = some 0 := by
  induction h with
  | nil => simp
  | @cons b b₁ b' id size leb contents rest secs horder hsize hcontents hrest ih =>
    rw [ih fun s hs => hcode s (List.mem_cons_of_mem _ hs), List.forall_mem_cons, ← and_assoc]
    refine and_congr_left fun _ => ?_
    have hframe := frame_parseSectionContents dangling id size _ _ _ _ (hcontents [] 0)
    by_cases hid : id = 0x03#8
    · subst hid
      -- this section declares as many functions as its vector is long
      obtain ⟨n, hn, hlen⟩ := functionSection_length hcontents
      rw [← List.length_eq_zero_iff, hlen, enterSection_functions, ← List.length_eq_zero_iff]
      simp [hn]
    · -- besides this one, only the code section changes the functions
      rw [hframe.functions hid (hcode _ List.mem_cons_self), enterSection_functions]
      simp [hid]

/-- A declared function has its signature, and nothing else. -/
theorem ensures_declared (h : ∀ f ∈ b.functions, ∃ sig, f = { meta_ := { signature := sig } }) :
    Ensures b.parseFunctionDeclarationSection fun b' =>
      ∀ f ∈ b'.functions, ∃ sig, f = { meta_ := { signature := sig } } := by
  refine .bind fun n => Ensures.iterate (fun s hs => ?_) n h
  refine .bind fun idx => .bind fun _ => .pure fun f hf => ?_
  rcases List.mem_append.mp hf with hf | hf
  · exact hs f hf
  · exact ⟨_, List.mem_singleton.mp hf⟩

/-- **Without a code section** all functions are as they were declared. -/
theorem Sections.only_declared (h : Sections dangling b bytes secs b')
    (hcode : ∀ s ∈ secs, s.id ≠ 0x0A#8)
    (hb : ∀ f ∈ b.functions, ∃ sig, f = { meta_ := { signature := sig } }) :
    ∀ f ∈ b'.functions, ∃ sig, f = { meta_ := { signature := sig } } := by
  induction h with
  | nil => exact hb
  | @cons b b₁ b' id size leb contents rest secs horder hsize hcontents hrest ih =>
    refine ih (fun s hs => hcode s (List.mem_cons_of_mem _ hs)) ?_
    by_cases hid : id = 0x03#8
    · subst hid
      exact ensures_declared (b := b.enterSection 0x03#8) (by simpa using hb) _ _ _ (hcontents [] 0)
    · -- besides this one, only the code section changes the functions
      have hframe := frame_parseSectionContents dangling id size _ _ _ _ (hcontents [] 0)
      rw [hframe.functions hid (hcode _ List.mem_cons_self), enterSection_functions]
      exact hb

end ModuleBuilder

/-- Where the contents of a section are refused, so is the module. -/
theorem CutsInto.refused {pre leb contents : List Byte} {e : Exception}
    (h : CutsInto dangling pre secs b) (horder : b.InOrder id)
    (hsize : Consumes Leb128.decodeU32 leb size)
    (hcontents : ∀ n, parseSectionContents dangling id size (b.enterSection id) ⟨contents, n⟩ =
      .error e) :
    parseModule dangling ⟨pre ++ (id :: leb ++ contents), 0⟩ = .error e := by
  obtain ⟨u, rfl, hsecs⟩ := h
  refine bind_of_error ?_ _
  rw [List.append_assoc, parse_preamble, hsecs.loop_append]
  refine loop_section_error ?_ _
  -- the header is read, and then the contents are refused
  exact (bind_of_ok (consumes_parseSectionHeader horder hsize contents _) _).trans (hcontents _)

/-- **Which modules have validated functions only.** When `ParseModule` accepts, every function of
the result was parsed from its own code entry and validated if and only if there is a code section
or no function section declares anything. A code section with another number of entries than there
are declarations makes it throw, wherever the section comes and whatever follows the number. -/
theorem parseModule_validated_iff (dangling : List Name → Name → Bool) :
    (∀ bytes parsed c', parseModule dangling ⟨bytes, 0⟩ = .ok (parsed, c') →
      ∃ secs b, CutsInto dangling bytes secs b ∧ parsed = b.build ∧
        (FunctionsDefined dangling secs parsed.functions ↔
          (∃ s ∈ secs, s.id = 0x0A#8) ∨ ∀ s ∈ secs, s.id = 0x03#8 → s.vectorSize = some 0)) ∧
    ∀ before secs b leb size count n rest, CutsInto dangling before secs b → b.InOrder 0x0A#8 →
      Consumes Leb128.decodeU32 leb size → Consumes Leb128.decodeU32 count n →
      n ≠ b.functions.length →
      parseModule dangling ⟨before ++ (0x0A#8 :: leb ++ (count ++ rest)), 0⟩ =
        .error (.parse ("unexpected number of code, actual: " ++ toString n ++ " expected: "
          ++ toString b.functions.length)) := by
  refine ⟨fun bytes parsed c' haccepted => ?_, ?_⟩
  · obtain ⟨-, secs, b, hcut, rfl⟩ := parseModule_eq_ok_iff.mp haccepted
    obtain ⟨rest, -, hsecs⟩ := id hcut
    refine ⟨secs, b, hcut, rfl, ?_⟩
    by_cases hcode : ∃ s ∈ secs, s.id = 0x0A#8
    · obtain ⟨hvalid, before, s, after, u, b₁, hsplit, hbefore, hdef⟩ := hsecs.defines hcode
      exact ⟨fun _ => Or.inl hcode,
        fun _ => ⟨hvalid, fun _ => ⟨before, s, after, u, b₁, hsplit, hbefore, hdef⟩⟩⟩
    · -- no code section, so no function has an entry
      have hnone : ∀ s ∈ secs, s.id ≠ 0x0A#8 := fun s hs he => hcode ⟨s, hs, he⟩
      have hempty : FunctionsDefined dangling secs b.build.functions ↔ b.functions = [] := by
        constructor
        · intro hdefined
          by_contra hne
          obtain ⟨before, s, after, u, b₁, rfl, hbefore, hdef⟩ := hdefined.defined hne
          exact hnone s (List.mem_append_right before List.mem_cons_self) hdef.id
        · intro h
          have hbuild : b.build.functions = [] := h
          rw [hbuild]
          exact ⟨fun f hf => absurd hf List.not_mem_nil, fun hne => absurd rfl hne⟩
      -- without functions, every function section must have been empty
      rw [hempty, hsecs.functions_eq_nil_iff hnone]
      constructor
      · rintro ⟨-, h⟩
        exact Or.inr h
      · rintro (h | h)
        · exact absurd h hcode
        · exact ⟨rfl, h⟩
  · intro before secs b leb size count n rest hbefore horder hsize hcount hne
    have hfunctions : (b.enterSection 0x0A#8).functions = b.functions := enterSection_functions b _
    rw [← hfunctions] at hne ⊢
    exact hbefore.refused horder hsize (codeSection_count hcount hne rest)

/-- A module with one function, `() -> i32`, and its code. -/
def oneFunctionBytes : List Byte :=
  kMagicBytes ++ kVersionOne ++
    [0x01#8, 0x05#8, 0x01#8, 0x60#8, 0x00#8, 0x01#8, 0x7F#8, 0x03#8, 0x02#8, 0x01#8, 0x00#8,
      0x0A#8, 0x06#8, 0x01#8, 0x04#8, 0x00#8, 0x41#8, 0x07#8, 0x0B#8]

/-- Its function. -/
def oneFunction : Function where
  meta_ := { signature := ⟨[], [.i32]⟩, maxStackSizeBytes := 4, maxStackElements := 1 }
  body := [.constI32 (.ofU32 7#32)]

theorem parseModule_oneFunction : parseModule (fun _ _ => false) ⟨oneFunctionBytes, 0⟩ =
    .ok (⟨[oneFunction], ∅⟩, ⟨[], oneFunctionBytes.length⟩) := rfl

/-- The same module without its code section. -/
def declaredOnlyBytes : List Byte :=
  kMagicBytes ++ kVersionOne ++
    [0x01#8, 0x05#8, 0x01#8, 0x60#8, 0x00#8, 0x01#8, 0x7F#8, 0x03#8, 0x02#8, 0x01#8, 0x00#8]

/-- What the parser makes of it. -/
def declaredOne : ModuleBuilder where
  latestSectionRead := 3
  funcSignatures := [⟨[], [.i32]⟩]
  functions := [{ meta_ := { signature := ⟨[], [.i32]⟩ } }]

/-- The module with its code; and the one whose code section has no entry. -/
theorem parseModule_validated_iff_oneFunction : (∃ parsed c',
    parseModule (fun _ _ => false) ⟨oneFunctionBytes, 0⟩ = .ok (parsed, c') ∧
    ∃ secs b, CutsInto (fun _ _ => false) oneFunctionBytes secs b ∧ parsed = b.build ∧
      (FunctionsDefined (fun _ _ => false) secs parsed.functions ↔
        (∃ s ∈ secs, s.id = 0x0A#8) ∨ ∀ s ∈ secs, s.id = 0x03#8 → s.vectorSize = some 0)) ∧
    parseModule (fun _ _ => false) ⟨declaredOnlyBytes ++ [0x0A#8, 0x01#8, 0x00#8], 0⟩ =
      .error (.parse "unexpected number of code, actual: 0 expected: 1") := by
  refine ⟨⟨_, _, rfl, (parseModule_validated_iff _).1 oneFunctionBytes _ _ rfl⟩, ?_⟩
  -- the two sections that come before
  have hfunctions : Sections (fun _ _ => false)
      { latestSectionRead := 1, funcSignatures := [⟨[], [.i32]⟩] } [0x03#8, 0x02#8, 0x01#8, 0x00#8]
      [⟨0x03#8, 2, [0x01#8, 0x00#8]⟩] declaredOne :=
    @Sections.cons _ _ _ _ 0x03#8 2 [0x02#8] [0x01#8, 0x00#8] [] _ (Or.inr (by decide))
      (Leb128.local_decodeU32.consumes rfl)
      ((steady_parseSectionContents _ 0x03#8 2 _).isLocal.consumes rfl) .nil
  have hsections : Sections (fun _ _ => false) {} (declaredOnlyBytes.drop 8)
      [⟨0x01#8, 5, [0x01#8, 0x60#8, 0x00#8, 0x01#8, 0x7F#8]⟩, ⟨0x03#8, 2, [0x01#8, 0x00#8]⟩]
      declaredOne :=
    @Sections.cons _ _ _ _ 0x01#8 5 [0x05#8] [0x01#8, 0x60#8, 0x00#8, 0x01#8, 0x7F#8] _ _
      (Or.inr (by decide)) (Leb128.local_decodeU32.consumes rfl)
      ((steady_parseSectionContents _ 0x01#8 5 _).isLocal.consumes rfl) hfunctions
  exact (parseModule_validated_iff _).2 declaredOnlyBytes _ declaredOne [0x01#8] 1 [0x00#8] 0 []
    ⟨_, rfl, hsections⟩ (Or.inr (by decide)) (Leb128.local_decodeU32.consumes rfl)
    (Leb128.local_decodeU32.consumes rfl) (by decide)

/-- The module is accepted, and its function, which should return a number, has no instruction. -/
theorem parseModule_accepts_unvalidated : ∃ parsed c',
    parseModule (fun _ _ => false) ⟨declaredOnlyBytes, 0⟩ = .ok (parsed, c') ∧
      ∃ f ∈ parsed.functions, f.body = [] ∧ ¬f.IsValidated := by
  refine ⟨_, _, rfl, _, List.mem_cons_self, rfl, ?_⟩
  rintro ⟨v, hv, -, -⟩
  cases hv

end Wasmcc
