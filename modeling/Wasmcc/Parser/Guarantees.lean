import Wasmcc.Parser.Validated
import Wasmcc.Parser.ValidatorSound
import Wasmcc.Compiler.X64
import Wasmcc.Compiler.Arm64

/-!
# What the parser promises to those who do not check

The compilers and the VM index with what they find in a `ParsedModule` and check nothing. What they
rely on is `ModuleBuilder.Guaranteed`, an invariant between sections: it holds of the empty builder,
every section keeps it (`Guaranteed.parseSection`), and so it holds of every module that
`ParseModule` returns (`parseModule_promises`).
-/

open Basis

namespace Wasmcc

open Reader ModuleBuilder

variable {dangling : List Name → Name → Bool} {b b' b₁ : ModuleBuilder} {contents bytes : List Byte}
  {secs : List Section} {id : Byte} {size : ℕ}

/-- At most six parameters and one result. -/
structure BlockType.Limited (sig : BlockType) : Prop where
  parameters : sig.parameterTypes.length ≤ 6
  results : sig.resultTypes.length ≤ 1

/-- What holds of a function, declared or defined. -/
structure Function.Guaranteed (f : Function) : Prop where
  signature : f.meta_.signature.Limited
  locals : f.meta_.locals.length ≤ 256
  /-- The locals that the body names are there and `i32`. -/
  named : ∀ i ∈ f.body, i.LocalsI32 f.meta_.localTypes

/-- What holds of the builder between two sections. -/
structure ModuleBuilder.Guaranteed (b : ModuleBuilder) : Prop where
  signatures : ∀ sig ∈ b.funcSignatures, sig.Limited
  functions : ∀ f ∈ b.functions, f.Guaranteed
  /-- Functions are declared by the function section and not before. -/
  declared : b.latestSectionRead < 3 → b.functions = []
  count : b.functions.length ≤ 65536
  exports : ∀ e ∈ b.exports, ∀ idx, e.description = .funcIdx idx → idx < b.functions.length

theorem guaranteed_empty : Guaranteed {} where
  signatures _ h := absurd h List.not_mem_nil
  functions _ h := absurd h List.not_mem_nil
  declared _ := rfl
  count := Nat.zero_le _
  exports _ h := absurd h List.not_mem_nil

/-! ### The type section -/

theorem ensures_parseVectorSize (limit : ℕ) (msg : ℕ → String) :
    Ensures (parseVectorSize limit msg) (· ≤ limit) :=
  .bind fun _ => .ite (fun _ => .fail _ _) fun h => .pure (Nat.le_of_not_lt h)

theorem ensures_parseSignatureTypes (kMax : ℕ) :
    Ensures (parseSignatureTypes kMax) fun types => types.length ≤ kMax := by
  refine (ensures_parseVectorSize kMax _).bind' fun n hn => ?_
  refine (Ensures.iterate_add (μ := List.length) (fun types => ?_) n []).mono fun types h => ?_
  · exact .bind fun vt => .pure List.length_append
  · rw [List.length_nil, Nat.zero_add] at h
    exact h.trans_le hn

theorem ensures_parseSignature : Ensures parseSignature BlockType.Limited := by
  refine .bind fun magic => .ite (fun _ => .fail _ _) fun _ => ?_
  refine (ensures_parseSignatureTypes _).bind' fun params hparams => ?_
  exact (ensures_parseSignatureTypes _).bind' fun results hresults => .pure ⟨hparams, hresults⟩

/-- The type section only adds signatures within the limits. -/
theorem ensures_parseSignatureSection (h : ∀ sig ∈ b.funcSignatures, sig.Limited) :
    Ensures b.parseSignatureSection fun b' => ∀ sig ∈ b'.funcSignatures, sig.Limited := by
  refine .bind fun n => Ensures.iterate (fun s hs => ?_) n h
  refine ensures_parseSignature.bind' fun sig hsig => .pure fun sig' hsig' => ?_
  rcases List.mem_append.mp hsig' with h1 | h1
  · exact hs sig' h1
  · rwa [List.mem_singleton.mp h1]

/-! ### The function section -/

theorem ensures_validateInRange (msg : String) (idx n : ℕ) :
    Ensures (validateInRange msg idx n) fun _ => idx < n := by
  unfold validateInRange
  exact .ite (fun _ => .fail _ _) fun h => .pure (Nat.lt_of_not_le h)

/-- A forward declaration has a signature of the type section, no locals and no body. -/
theorem ensures_parseOneFunctionDeclaration (hsigs : ∀ sig ∈ b.funcSignatures, sig.Limited)
    (hfuncs : ∀ f ∈ b.functions, f.Guaranteed) :
    Ensures b.parseOneFunctionDeclaration fun b' =>
      (∀ sig ∈ b'.funcSignatures, sig.Limited) ∧ ∀ f ∈ b'.functions, f.Guaranteed := by
  refine .bind fun idx => (ensures_validateInRange _ _ _).bind' fun _ hidx => .pure ⟨hsigs, ?_⟩
  intro f hf
  rcases List.mem_append.mp hf with hf | hf
  · exact hfuncs f hf
  · obtain rfl := List.mem_singleton.mp hf
    -- the type index was checked, so the lookup does not fall back
    have hsig : b.funcSignatures.getD idx {} = b.funcSignatures[idx] := by
      rw [List.getD_eq_getElem?_getD, List.getElem?_eq_getElem hidx, Option.getD_some]
    refine ⟨?_, Nat.zero_le _, fun i hi => absurd hi List.not_mem_nil⟩
    show (b.funcSignatures.getD idx {}).Limited
    rw [hsig]
    exact hsigs _ (List.getElem_mem hidx)

theorem ensures_parseFunctionDeclarationSection (hsigs : ∀ sig ∈ b.funcSignatures, sig.Limited)
    (hfuncs : ∀ f ∈ b.functions, f.Guaranteed) :
    Ensures b.parseFunctionDeclarationSection fun b' => (∀ f ∈ b'.functions, f.Guaranteed) ∧
      b.functions.length ≤ b'.functions.length ∧
      b'.functions.length ≤ b.functions.length + 65536 := by
  refine (ensures_parseVectorSize maxFunctions _).bind' fun n hn => ?_
  -- each round declares one function
  have hlen := Ensures.iterate_add (μ := fun b : ModuleBuilder => b.functions.length)
    parseOneFunctionDeclaration_length n b
  have hall := Ensures.iterate
    (Q := fun b' : ModuleBuilder => (∀ sig ∈ b'.funcSignatures, sig.Limited) ∧
      ∀ f ∈ b'.functions, f.Guaranteed)
    (fun s hs => ensures_parseOneFunctionDeclaration hs.1 hs.2) n ⟨hsigs, hfuncs⟩
  intro c b' c' h
  have h1 : b'.functions.length = b.functions.length + n := hlen c b' c' h
  have h2 : n ≤ 65536 := hn
  exact ⟨(hall c b' c' h).2, by omega, by omega⟩

/-! ### The export section -/

theorem ensures_parseOneExport (b : ModuleBuilder) :
    Ensures b.parseOneExport fun e =>
      ∀ idx, e.description = .funcIdx idx → idx < b.functions.length := by
  refine .bind fun name => .bind fun type => ?_
  refine .ite (fun _ => ?_) fun _ => ?_
  · refine .bind fun idx => (ensures_validateInRange _ _ _).bind' fun _ hidx => .pure fun i hi => ?_
    obtain rfl := ModuleExport.Description.funcIdx.inj hi
    exact hidx
  · -- an export of another kind names no function
    have hother {d : ModuleExport.Description} (hd : ∀ idx, d ≠ .funcIdx idx) (idx : ℕ)
        (h : d = .funcIdx idx) : idx < b.functions.length := absurd h (hd idx)
    refine .ite (fun _ => .bind fun i => .bind fun _ => .pure (hother fun _ => nofun)) fun _ => ?_
    refine .ite (fun _ => .bind fun i => .bind fun _ => .pure (hother fun _ => nofun)) fun _ => ?_
    refine .ite (fun _ => .bind fun i => .bind fun _ => .pure (hother fun _ => nofun)) fun _ => ?_
    exact .fail _ _

theorem ensures_parseExportsSection
    (h : ∀ e ∈ b.exports, ∀ idx, e.description = .funcIdx idx → idx < b.functions.length) :
    Ensures (b.parseExportsSection dangling) fun b' =>
      ∀ e ∈ b'.exports, ∀ idx, e.description = .funcIdx idx → idx < b.functions.length := by
  refine .bind fun n => .bind' (P := fun s => s.1.functions = b.functions ∧
    ∀ e ∈ s.1.exports, ∀ idx, e.description = .funcIdx idx → idx < b.functions.length) ?_
    fun s hs => .pure hs.2
  refine Ensures.iterate (fun s hs => ?_) n ⟨rfl, h⟩
  refine (ensures_parseOneExport s.1).bind' fun e he => .ite (fun _ => .fail _ _) fun _ => ?_
  refine .pure ⟨hs.1, fun e' he' => ?_⟩
  rcases List.mem_append.mp he' with he' | he'
  · exact hs.2 e' he'
  · -- the new entry was checked against the declarations
    rw [List.mem_singleton.mp he', ← hs.1]
    exact he

/-! ### The code section -/

/-- A function that was parsed from a code entry. -/
theorem guaranteed_of_parseOneCode {func f : Function} {entry : List Byte}
    (hfunc : func.Guaranteed) (h : Consumes (parseOneCode func) entry f) : f.Guaranteed := by
  obtain ⟨⟨v, hvalid, -, -⟩, hsig⟩ := isValidated_of_parseOneCode h
  refine ⟨?_, (limits_of_parseOneCode h hfunc.locals).1,
    FunctionValidator.localsI32_of_validate hvalid⟩
  rw [hsig]
  exact hfunc.signature

/-! ### One section and all of them -/

namespace ModuleBuilder

/-- **Every section keeps the invariant.** -/
theorem Guaranteed.parseSection (h : b.Guaranteed) (horder : b.InOrder id)
    (hcontents : Consumes (parseSectionContents dangling id size (b.enterSection id)) contents b₁) :
    b₁.Guaranteed := by
  have hframe := frame_parseSectionContents dangling id size _ _ _ _ (hcontents [] 0)
  have hsigs : ∀ sig ∈ b₁.funcSignatures, sig.Limited := by
    by_cases hid : id = 0x01#8
    · subst hid
      exact ensures_parseSignatureSection (b := b.enterSection 0x01#8)
        (by simpa using h.signatures) _ _ _ (hcontents [] 0)
    · rw [hframe.funcSignatures hid, enterSection_funcSignatures]
      exact h.signatures
  -- the functions, and that no index gets out of range
  have hfuncs : (∀ f ∈ b₁.functions, f.Guaranteed) ∧
      b.functions.length ≤ b₁.functions.length ∧ b₁.functions.length ≤ 65536 := by
    by_cases hid : id = 0x03#8
    · subst hid
      have hnil := h.declared (horder.resolve_left (by decide))
      have hsection := ensures_parseFunctionDeclarationSection (b := b.enterSection 0x03#8)
        (by simpa using h.signatures) (by simpa using h.functions) _ _ _ (hcontents [] 0)
      simp only [enterSection_functions, hnil, List.length_nil, Nat.zero_add] at hsection ⊢
      exact hsection
    · by_cases hid' : id = 0x0A#8
      · subst hid'
        obtain ⟨count, es, -, -, hdeclared, rfl, hes⟩ := parseCodeSection_entries hcontents
        have hlen : (es.map (·.2.2)).length = b.functions.length := by
          rw [← enterSection_functions b 0x0A#8, ← hdeclared, List.length_map, List.length_map]
        refine ⟨fun f hf => ?_, hlen.ge, hlen.le.trans h.count⟩
        obtain ⟨e, he, rfl⟩ := List.mem_map.mp hf
        refine guaranteed_of_parseOneCode (h.functions e.1 ?_) (hes e he)
        rw [← enterSection_functions b 0x0A#8, ← hdeclared]
        exact List.mem_map_of_mem he
      · rw [hframe.functions hid hid', enterSection_functions]
        exact ⟨h.functions, le_rfl, h.count⟩
  refine ⟨hsigs, hfuncs.1, fun hlt => ?_, hfuncs.2.2, ?_⟩
  · -- before the function section nothing can have declared functions
    rw [hframe.latestSectionRead, enterSection_latestSectionRead] at hlt
    have hid : id ≠ 0x03#8 ∧ id ≠ 0x0A#8 := by
      constructor <;> rintro rfl <;> simp at hlt
    rw [hframe.functions hid.1 hid.2, enterSection_functions]
    refine h.declared ?_
    split at hlt
    next hne => exact (horder.resolve_left hne).trans hlt
    next => exact hlt
  · by_cases hid : id = 0x07#8
    · subst hid
      rw [hframe.functions (by decide) (by decide)]
      exact ensures_parseExportsSection (b := b.enterSection 0x07#8)
        (by simpa using h.exports) _ _ _ (hcontents [] 0)
    · rw [hframe.exports hid, enterSection_exports]
      exact fun e he idx hidx => (h.exports e he idx hidx).trans_le hfuncs.2.1

/-- **The invariant after any sections.** -/
theorem Sections.guaranteed (h : Sections dangling b bytes secs b') (hb : b.Guaranteed) :
    b'.Guaranteed := by
  induction h with
  | nil => exact hb
  | cons horder _ hcontents _ ih => exact ih (hb.parseSection horder hcontents)

/-- The exports of a module come from its export section. -/
theorem lookup_exportedFunctions {name : Name} {idx : ℕ}
    (h : b.build.exportedFunctions.lookup name = some idx) :
    ∃ e ∈ b.exports, e.name = name ∧ e.description = .funcIdx idx := by
  -- a name is in the map if it was before, or if an export put it there
  have hfold : ∀ (es : List ModuleExport) (m : AList fun _ : Name => ℕ),
      (es.foldl emplaceExport m).lookup name = some idx → m.lookup name = some idx ∨
        ∃ e ∈ es, e.name = name ∧ e.description = .funcIdx idx := by
    intro es
    induction es with
    | nil => exact fun m h => Or.inl h
    | cons e es ih =>
      intro m h
      rcases ih _ h with h | ⟨e', he', h'⟩
      · unfold emplaceExport at h
        split at h
        next i hi =>
          split at h
          · exact Or.inl h
          · by_cases hname : name = e.name
            · subst hname
              rw [AList.lookup_insert] at h
              obtain rfl := Option.some.inj h
              exact Or.inr ⟨e, List.mem_cons_self, rfl, hi⟩
            · rw [AList.lookup_insert_ne hname] at h
              exact Or.inl h
        · exact Or.inl h
      · exact Or.inr ⟨e', List.mem_cons_of_mem e he', h'⟩
  rcases hfold b.exports ∅ h with h | h
  · cases h
  · exact h

end ModuleBuilder

/-- What an accepted module keeps to, and so what its unchecked consumers may index. -/
structure Promises (dangling : List Name → Name → Bool) (bytes : List Byte)
    (parsed : ParsedModule) : Prop where
  /-- The sections that are not custom were seen in increasing order. -/
  ordered : ∃ secs b, CutsInto dangling bytes secs b ∧ parsed = b.build ∧
    (sectionIds secs).Pairwise (· < ·)
  count : parsed.functions.length ≤ 65536
  functions : ∀ f ∈ parsed.functions, f.Guaranteed
  /-- Both compilers have an argument register for each parameter. -/
  arguments : ∀ f ∈ parsed.functions,
    f.meta_.signature.parameterTypes.length ≤ X64.kGpArgs.length ∧
      f.meta_.signature.parameterTypes.length ≤ Arm64.kGpArgs.length
  /-- The locals that a body names have a place in its frame. -/
  locals : ∀ f ∈ parsed.functions, ∀ i ∈ f.body, ∀ idx,
    i = .getLocalI32 idx ∨ i = .setLocalI32 idx →
      idx < f.meta_.signature.parameterTypes.length + f.meta_.locals.length ∧
        ∃ offset, (FunctionFrame.new f.meta_).localStackOffset idx = .ok offset
  exports : ∀ name idx, parsed.exportedFunctions.lookup name = some idx →
    idx < parsed.functions.length

/-- The locals that a body names, in its frame. -/
theorem Function.Guaranteed.localStackOffset {f : Function} (h : f.Guaranteed) {i : Instruction}
    (hi : i ∈ f.body) {idx : ℕ} (hidx : i = .getLocalI32 idx ∨ i = .setLocalI32 idx) :
    idx < f.meta_.signature.parameterTypes.length + f.meta_.locals.length ∧
      ∃ offset, (FunctionFrame.new f.meta_).localStackOffset idx = .ok offset := by
  have hlocal : f.meta_.localTypes[idx]? = some .i32 := by
    -- the validator has found a local of type i32 there
    have hnamed := h.named i hi
    rcases hidx with rfl | rfl
    · exact hnamed
    · exact hnamed
  have hlt := (List.getElem?_eq_some_iff.mp hlocal).1
  refine ⟨?_, _, FunctionFrame.localStackOffset_new f.meta_ hlt⟩
  unfold Function.Metadata.localTypes at hlt
  rwa [List.length_append] at hlt

/-- **What `ParseModule` promises.** Whatever it accepts was cut into sections whose ids increase,
and the module it returns keeps the limits that its consumers rely on: the tables of argument
registers, the offsets of the locals and the functions are never indexed out of bounds. -/
theorem parseModule_promises (dangling : List Name → Name → Bool) (bytes : List Byte)
    (parsed : ParsedModule) (c' : Cursor)
    (haccepted : parseModule dangling ⟨bytes, 0⟩ = .ok (parsed, c')) :
    Promises dangling bytes parsed := by
  obtain ⟨-, secs, b, hcut, rfl⟩ := parseModule_eq_ok_iff.mp haccepted
  obtain ⟨rest, -, hsecs⟩ := id hcut
  have hb := hsecs.guaranteed guaranteed_empty
  refine ⟨⟨secs, b, hcut, rfl, (List.pairwise_cons.mp hsecs.increasing).2⟩, hb.count,
    hb.functions, fun f hf => ?_, fun f hf i hi idx hidx => ?_, fun name idx h => ?_⟩
  · -- six argument registers on x64, eight on arm64
    have hparams := (hb.functions f hf).signature.parameters
    exact ⟨hparams, hparams.trans (by decide)⟩
  · exact (hb.functions f hf).localStackOffset hi hidx
  · obtain ⟨e, he, -, hidx⟩ := lookup_exportedFunctions h
    exact hb.exports e he idx hidx

theorem parseModule_promises_oneFunction : ∃ parsed c',
    parseModule (fun _ _ => false) ⟨oneFunctionBytes, 0⟩ = .ok (parsed, c') ∧
      Promises (fun _ _ => false) oneFunctionBytes parsed :=
  ⟨_, _, rfl, parseModule_promises _ oneFunctionBytes _ _ rfl⟩

end Wasmcc
