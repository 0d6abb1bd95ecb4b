import Wasmcc.Basis.Credits
import Wasmcc.Parser.Guarantees

/-!
# How large a parsed module is

The size of what `ParseModule` builds, against the number of bytes it reads. The weight of a builder
counts what is in its vectors: signatures with their types, functions with their locals and their
instructions, names with their bytes. Some bytes stand for more than themselves: a function index
for a copy of a signature, a run of locals for as many as its count says. But signatures and locals
are limited, so one byte never pays for more than `creditsPerByte`.

`ModuleBuilder.Affords` is the invariant of the parser's loops, and `parseModule_weight_le` what
follows for the module.
-/

open Basis

namespace Wasmcc

open Reader ModuleBuilder

/-! ### Weights -/

def BlockType.weight (sig : BlockType) : ℕ :=
  1 + sig.parameterTypes.length + sig.resultTypes.length

def ModuleImport.weight (i : ModuleImport) : ℕ := 1 + i.moduleName.length + i.name.length

def ModuleExport.weight (e : ModuleExport) : ℕ := 1 + e.name.length

def Function.weight (f : Function) : ℕ :=
  f.meta_.signature.weight + f.meta_.locals.length + f.body.length

/-- All that is in the vectors of the builder. -/
def ModuleBuilder.weight (b : ModuleBuilder) : ℕ :=
  (b.funcSignatures.map BlockType.weight).sum + (b.imports.map ModuleImport.weight).sum +
    (b.functions.map Function.weight).sum + b.tables.length + b.memories.length +
    b.globals.length + (b.exports.map ModuleExport.weight).sum

/-- The functions of the module, and the names in its map. -/
def ParsedModule.weight (m : ParsedModule) : ℕ :=
  (m.functions.map Function.weight).sum + (m.exportedFunctions.keys.map (·.length + 1)).sum

/-- What a byte pays for: 256 locals take a count and a type. -/
def creditsPerByte : ℕ := 128

/-- A limited signature weighs at most eight. -/
theorem BlockType.Limited.weight_le {sig : BlockType} (h : sig.Limited) : sig.weight ≤ 8 := by
  have hparameters := h.parameters
  have hresults := h.results
  unfold weight
  omega

/-- The builder is paid for, and its signatures can be copied for a byte. -/
structure ModuleBuilder.Affords (b : ModuleBuilder) (w : ℕ) : Prop where
  signatures : ∀ sig ∈ b.funcSignatures, sig.Limited
  weight : b.weight ≤ w

variable {b : ModuleBuilder} {w : ℕ}

theorem ModuleBuilder.Affords.mono (h : b.Affords w) {w' : ℕ} (hw : w ≤ w') : b.Affords w' :=
  ⟨h.signatures, h.weight.trans hw⟩

/-! ### Parts of a section -/

theorem earns_readByte : Earns creditsPerByte w Stream.readByte fun _ w' =>
    w + creditsPerByte ≤ w' := Earns.readByte _

theorem earns_decodeU32 : Earns creditsPerByte w Leb128.decodeU32 fun _ w' =>
    w + creditsPerByte ≤ w' :=
  .of_progress Leb128.local_decodeU32 fun _ _ _ => Leb128.decodeU32_progress

theorem earns_parseValType : Earns creditsPerByte w parseValType fun _ w' =>
    w + creditsPerByte ≤ w' := by
  refine earns_readByte.bind fun typeId w' hw => ?_
  split
  · exact .pure hw
  · exact .fail _

/-- A vector whose elements are paid for one by one. -/
theorem earns_section {limit : ℕ} {msg : ℕ → String} {σ : Type} {step : σ → Reader Exception σ}
    {I : σ → ℕ → Prop} {s : σ} (hmono : ∀ s w w', I s w → w ≤ w' → I s w')
    (hstep : ∀ s w, I s w → Earns creditsPerByte w (step s) I) (hs : I s w) :
    Earns creditsPerByte w (do
      let vectorSize ← parseVectorSize limit msg
      Reader.iterate step vectorSize s) I :=
  (Earns.of_local (steady_parseVectorSize limit msg).isLocal).bind fun n w' hw =>
    .iterate hstep n s w' (hmono s w w' hs hw)

theorem earns_parseName : Earns creditsPerByte w parseName fun name w' =>
    w + name.length ≤ w' := by
  refine earns_decodeU32.bind fun n w₁ hw₁ => .ite (fun _ => .fail _) fun _ => ?_
  refine (Earns.readBytes _ n).mono fun bs w₂ hw₂ => ?_
  unfold creditsPerByte at hw₁ hw₂
  omega

theorem earns_parseSignatureTypes (kMax : ℕ) :
    Earns creditsPerByte w (parseSignatureTypes kMax) fun types w' => w + types.length ≤ w' := by
  refine earns_section (I := fun (types : List ValType) w' => w + types.length ≤ w') (s := [])
    (fun types w₁ w₂ h hw => h.trans hw) (fun types w₁ h => ?_) (Nat.le_refl w)
  refine earns_parseValType.bind fun vt w₂ hw => .pure ?_
  unfold creditsPerByte at hw
  rw [List.length_append, List.length_singleton]
  omega

theorem earns_parseSignature : Earns creditsPerByte w parseSignature fun sig w' =>
    w + sig.weight ≤ w' := by
  refine earns_readByte.bind fun magic w₁ hw₁ => .ite (fun _ => .fail _) fun _ => ?_
  refine (earns_parseSignatureTypes _).bind fun params w₂ hw₂ => ?_
  refine (earns_parseSignatureTypes _).bind fun results w₃ hw₃ => .pure ?_
  unfold creditsPerByte at hw₁
  show w + (1 + params.length + results.length) ≤ w₃
  omega

theorem earns_parseOneImport : Earns creditsPerByte w b.parseOneImport fun i w' =>
    w + i.weight ≤ w' := by
  refine earns_parseName.bind fun moduleName w₁ hw₁ => earns_parseName.bind fun name w₂ hw₂ =>
    earns_readByte.bind fun type w₃ hw₃ => ?_
  unfold creditsPerByte at hw₃
  -- whatever is imported, the byte of its kind pays for it
  have hdone {w' : ℕ} (hw' : w₃ ≤ w') (description : ModuleImport.Description) :
      w + (ModuleImport.mk moduleName name description).weight ≤ w' := by
    show w + (1 + moduleName.length + name.length) ≤ w'
    omega
  refine .ite (fun _ => ?_) fun _ => .ite (fun _ => ?_) fun _ => .ite (fun _ => ?_) fun _ =>
    .ite (fun _ => ?_) fun _ => .fail _
  · refine (Earns.of_local Leb128.local_decodeU32).bind fun idx w₄ hw₄ => ?_
    exact (Earns.of_local (steady_validateInRange _ _ _).isLocal).bind fun _ w₅ hw₅ =>
      .pure (hdone (hw₄.trans hw₅) _)
  · exact (Earns.of_local steady_parseTableType.isLocal).bind fun t w₄ hw₄ => .pure (hdone hw₄ _)
  · exact (Earns.of_local steady_parseMemType.isLocal).bind fun t w₄ hw₄ => .pure (hdone hw₄ _)
  · exact (Earns.of_local steady_parseGlobalType.isLocal).bind fun t w₄ hw₄ => .pure (hdone hw₄ _)

theorem earns_parseOneExport : Earns creditsPerByte w b.parseOneExport fun e w' =>
    w + e.weight ≤ w' := by
  refine earns_parseName.bind fun name w₁ hw₁ => earns_readByte.bind fun type w₂ hw₂ => ?_
  unfold creditsPerByte at hw₂
  have hdone {w' : ℕ} (hw' : w₂ ≤ w') (description : ModuleExport.Description) :
      w + (ModuleExport.mk name description).weight ≤ w' := by
    show w + (1 + name.length) ≤ w'
    omega
  -- the four kinds differ in what the index is compared with
  have hindex (msg : String) (size : ℕ) (description : ℕ → ModuleExport.Description) :
      Earns creditsPerByte w₂ (do
        let idx ← Leb128.decodeU32
        validateInRange msg idx size
        pure { name, description := description idx } : Reader Exception ModuleExport)
        fun e w' => w + e.weight ≤ w' :=
    (Earns.of_local Leb128.local_decodeU32).bind fun idx w₃ hw₃ =>
      (Earns.of_local (steady_validateInRange _ _ _).isLocal).bind fun _ w₄ hw₄ =>
        .pure (hdone (hw₃.trans hw₄) _)
  exact .ite (fun _ => hindex _ _ _) fun _ => .ite (fun _ => hindex _ _ _) fun _ =>
    .ite (fun _ => hindex _ _ _) fun _ => .ite (fun _ => hindex _ _ _) fun _ => .fail _

theorem earns_parseTable : Earns creditsPerByte w parseTable fun _ w' => w + 1 ≤ w' := by
  refine Earns.bind (R := fun _ w' => w + 1 ≤ w') ?_ fun type w' hw => .pure hw
  refine earns_parseValType.bind fun reftype w₁ hw₁ => .ite (fun _ => .fail _) fun _ => ?_
  unfold creditsPerByte at hw₁
  refine (Earns.of_local steady_parseLimits.isLocal).bind fun limits w₂ hw₂ => .pure ?_
  omega

theorem earns_parseMemory : Earns creditsPerByte w parseMemory fun _ w' => w + 1 ≤ w' := by
  refine Earns.bind (R := fun _ w' => w + 1 ≤ w') ?_ fun type w' hw => .pure hw
  refine Earns.bind (R := fun _ w' => w + 1 ≤ w') ?_ fun limits w' hw => .pure hw
  refine earns_readByte.bind fun hasMax w₁ hw₁ => ?_
  unfold creditsPerByte at hw₁
  have hmin : Earns creditsPerByte w₁ Leb128.decodeU32 fun _ w' => w₁ ≤ w' :=
    .of_local Leb128.local_decodeU32
  refine .ite (fun _ => hmin.bind fun min w₂ hw₂ => ?_) fun _ => hmin.bind fun min w₂ hw₂ => ?_
  · refine (Earns.of_local Leb128.local_decodeU32).bind fun max w₃ hw₃ => .pure ?_
    omega
  · exact .pure (by omega)

theorem earns_parseGlobal : Earns creditsPerByte w parseGlobal fun _ w' => w + 1 ≤ w' := by
  refine Earns.bind (R := fun _ w' => w + 1 ≤ w') ?_ fun type w₁ hw₁ => ?_
  · refine earns_parseValType.bind fun valtype w₁ hw₁ => earns_readByte.bind fun mut_ w₂ hw₂ => ?_
    unfold creditsPerByte at hw₁ hw₂
    exact .pure (by omega)
  · exact (Earns.of_local steady_parseConstExpr.isLocal).bind fun value w₂ hw₂ =>
      .pure (hw₁.trans hw₂)

/-! ### Function bodies -/

/-- Every round reads its opcode and emits at most two instructions. -/
theorem earns_parseNextOp (e : OpEmitter) {base : ℕ} (hw : base + e.instructions.length ≤ w) :
    Earns creditsPerByte w (parseNextOp e) fun x w' =>
      Sum.elim (fun (e' : OpEmitter) w' => base + e'.instructions.length ≤ w')
        (fun (e' : OpEmitter) w' => base + e'.instructions.length ≤ w') x w' := by
  intro c x c' hc
  cases x with
  | inl e' =>
    obtain ⟨used, is, hop, hrest, his, -⟩ := parseNextOp_eq_inl hc
    have hpos := hop.length_pos
    -- a byte read pays for more instructions than it can give
    have htwo : is.length ≤ 2 := by cases hop <;> simp
    have hpays := Nat.le_mul_of_pos_right creditsPerByte hpos
    refine ⟨used.length, by rw [hrest, List.length_append], ?_⟩
    unfold creditsPerByte at hpays ⊢
    show base + e'.instructions.length ≤ _
    rw [his, List.length_append]
    omega
  | inr e' =>
    obtain ⟨rfl, hrest⟩ := parseNextOp_inr hc
    refine ⟨1, by rw [hrest, List.length_cons, Nat.add_comm], ?_⟩
    show base + e'.instructions.length ≤ _
    omega

theorem earns_parseExpression (validator : FunctionValidator) :
    Earns creditsPerByte w (parseExpression validator) fun r w' => w + r.1.length ≤ w' := by
  refine Earns.bind (R := fun e w' => w + e.instructions.length ≤ w') ?_ fun e w₁ hw₁ => ?_
  · exact .loop (fun e w' hw => earns_parseNextOp e hw) (Nat.le_refl w)
  · unfold OpEmitter.finalize
    split
    · exact .pure hw₁
    · exact .fail _

/-- A group of at most 256 locals takes two bytes. -/
theorem earns_parseLocalGroup {base : ℕ} (locals : List ValType) (hw : base + locals.length ≤ w) :
    Earns creditsPerByte w (parseLocalGroup locals) fun locals' w' =>
      base + locals'.length ≤ w' := by
  refine earns_decodeU32.bind fun n w₁ hw₁ => .ite (fun _ => .fail _) fun hlimit => ?_
  refine earns_parseValType.bind fun vt w₂ hw₂ => .pure ?_
  unfold maxFunctionLocals at hlimit
  unfold creditsPerByte at hw₁ hw₂
  rw [List.length_append, List.length_replicate]
  omega

theorem earns_parseOneCode (f : Function) :
    Earns creditsPerByte (w + f.weight) (parseOneCode f) fun f' w' => w + f'.weight ≤ w' := by
  have hstart : w + f.meta_.signature.weight + f.meta_.locals.length ≤ w + f.weight := by
    unfold Function.weight
    omega
  refine (Earns.of_local Leb128.local_decodeU32).bind fun expectedSize w₁ hw₁ => ?_
  refine (Earns.of_looking (R := fun _ w' => w' = w₁) (fun c => ⟨_, rfl⟩) fun _ => rfl).bind ?_
  rintro startPosition _ rfl
  refine (Earns.of_local Leb128.local_decodeU32).bind fun vectorSize w₂ hw₂ => ?_
  -- each group of locals pays for itself
  refine (Earns.iterate (fun locals w' hw' => earns_parseLocalGroup locals hw') vectorSize _ w₂
    (hstart.trans (hw₁.trans hw₂))).bind fun locals w₃ hw₃ => ?_
  refine (earns_parseExpression _).bind fun r w₄ hw₄ => ?_
  refine (Earns.of_looking (R := fun _ w' => w' = w₄) (fun c => ⟨_, rfl⟩) fun _ => rfl).bind ?_
  rintro position _ rfl
  refine .ite (fun _ => .fail _) fun _ => .pure ?_
  show w + (f.meta_.signature.weight + locals.length + r.1.length) ≤ _
  omega

/-! ### Sections -/

namespace ModuleBuilder

/-- Something that weighs `n` was added, and is paid for. -/
theorem Affords.add (h : b.Affords w) {b' : ModuleBuilder} {n w' : ℕ}
    (hsigs : b'.funcSignatures = b.funcSignatures) (hadd : b'.weight = b.weight + n)
    (hw : w + n ≤ w') : b'.Affords w' where
  signatures := hsigs ▸ h.signatures
  weight := hadd ▸ (Nat.add_le_add_right h.weight n).trans hw

theorem Affords.parseSignatureSection (h : b.Affords w) :
    Earns creditsPerByte w b.parseSignatureSection Affords := by
  refine earns_section (fun _ _ _ hb hw => hb.mono hw) (fun b w hb => ?_) h
  refine (earns_parseSignature.and ensures_parseSignature).bind fun sig w' hsig => .pure ⟨?_, ?_⟩
  · exact List.forall_mem_append.mpr ⟨hb.signatures, List.forall_mem_singleton.mpr hsig.1⟩
  · have hweight := hb.weight
    simp only [ModuleBuilder.weight, List.map_append, List.sum_append, List.map_singleton,
      List.sum_singleton] at hweight ⊢
    omega

theorem Affords.parseImportSection (h : b.Affords w) :
    Earns creditsPerByte w b.parseImportSection Affords := by
  refine earns_section (fun _ _ _ hb hw => hb.mono hw) (fun b w hb => ?_) h
  refine earns_parseOneImport.bind fun i w' hi => .pure (hb.add rfl ?_ hi)
  simp only [ModuleBuilder.weight, List.map_append, List.sum_append, List.map_singleton,
    List.sum_singleton]
  omega

/-- A function index stands for a copy of its signature. -/
theorem Affords.parseFunctionDeclarationSection (h : b.Affords w) :
    Earns creditsPerByte w b.parseFunctionDeclarationSection Affords := by
  refine earns_section (fun _ _ _ hb hw => hb.mono hw) (fun b w hb => ?_) h
  refine earns_decodeU32.bind fun idx w₁ hw₁ => ?_
  have hrange : Earns creditsPerByte w₁
      (validateInRange "unknown function signature" idx b.funcSignatures.length)
      fun _ w' => w₁ ≤ w' := .of_local (steady_validateInRange _ _ _).isLocal
  refine (hrange.and (ensures_validateInRange _ _ _)).bind fun _ w₂ ⟨hidx, hw₂⟩ => ?_
  -- the signature that is copied is small, so its index pays for the copy
  have hsig : (b.funcSignatures.getD idx {}).weight ≤ 8 := by
    rw [List.getD_eq_getElem?_getD, List.getElem?_eq_getElem hidx, Option.getD_some]
    exact (hb.signatures _ (List.getElem_mem hidx)).weight_le
  unfold creditsPerByte at hw₁
  refine .pure (hb.add (n := (b.funcSignatures.getD idx {}).weight) rfl ?_ (by omega))
  simp only [ModuleBuilder.weight, Function.weight, List.map_append, List.sum_append,
    List.map_singleton, List.sum_singleton, List.length_nil]
  omega

theorem Affords.parseTableSection (h : b.Affords w) :
    Earns creditsPerByte w b.parseTableSection Affords := by
  refine earns_section (fun _ _ _ hb hw => hb.mono hw) (fun b w hb => ?_) h
  refine earns_parseTable.bind fun t w' ht => .pure (hb.add rfl ?_ ht)
  simp only [ModuleBuilder.weight, List.length_append, List.length_singleton]
  omega

theorem Affords.parseMemoriesSection (h : b.Affords w) :
    Earns creditsPerByte w b.parseMemoriesSection Affords := by
  refine earns_section (fun _ _ _ hb hw => hb.mono hw) (fun b w hb => ?_) h
  refine earns_parseMemory.bind fun m w' hm => .pure (hb.add rfl ?_ hm)
  simp only [ModuleBuilder.weight, List.length_append, List.length_singleton]
  omega

theorem Affords.parseGlobalsSection (h : b.Affords w) :
    Earns creditsPerByte w b.parseGlobalsSection Affords := by
  refine earns_section (fun _ _ _ hb hw => hb.mono hw) (fun b w hb => ?_) h
  refine earns_parseGlobal.bind fun g w' hg => .pure (hb.add rfl ?_ hg)
  simp only [ModuleBuilder.weight, List.length_append, List.length_singleton]
  omega

variable {dangling : List Name → Name → Bool}

theorem Affords.parseExportsSection (h : b.Affords w) :
    Earns creditsPerByte w (b.parseExportsSection dangling) Affords := by
  have hstep : ∀ (s : ModuleBuilder × List Name) w, s.1.Affords w →
      Earns creditsPerByte w (parseNextExport dangling s) fun s w => s.1.Affords w := by
    intro s w hs
    refine earns_parseOneExport.bind fun e w' he => .ite (fun _ => .fail _) fun _ =>
      .pure (hs.add rfl ?_ he)
    simp only [ModuleBuilder.weight, List.map_append, List.sum_append, List.map_singleton,
      List.sum_singleton]
    omega
  refine (Earns.of_local (steady_parseVectorSize _ _).isLocal).bind fun n w₁ hw₁ => ?_
  exact (Earns.iterate hstep n (b, []) w₁ (h.mono hw₁)).bind fun s w₂ hs => .pure hs

theorem Affords.parseCodeSection (h : b.Affords w) :
    Earns creditsPerByte w b.parseCodeSection Affords := by
  refine (Earns.of_local Leb128.local_decodeU32).bind fun n w₁ hw₁ => .ite (fun _ => .fail _)
    fun _ => ?_
  -- what the functions weigh is spent on the functions with their bodies
  have hweight := h.weight.trans hw₁
  unfold ModuleBuilder.weight at hweight
  obtain ⟨w₀, hw₀⟩ := Nat.exists_eq_add_of_le'
    (show (b.functions.map Function.weight).sum ≤ w₁ by omega)
  rw [hw₀] at hweight ⊢
  refine (Earns.forEach (fun f w => earns_parseOneCode f) b.functions w₀).bind fun fs w₂ hfs =>
    .pure ⟨h.signatures, ?_⟩
  unfold ModuleBuilder.weight
  dsimp only
  omega

/-! ### Modules -/

theorem Affords.parseSectionContents (h : b.Affords w) (id : Byte) (size : ℕ) :
    Earns creditsPerByte w (parseSectionContents dangling id size b) Affords := by
  refine .ite (fun _ => ?_) fun _ => .ite (fun _ => h.parseSignatureSection) fun _ =>
    .ite (fun _ => h.parseImportSection) fun _ =>
    .ite (fun _ => h.parseFunctionDeclarationSection) fun _ =>
    .ite (fun _ => h.parseTableSection) fun _ => .ite (fun _ => h.parseMemoriesSection) fun _ =>
    .ite (fun _ => h.parseGlobalsSection) fun _ => .ite (fun _ => h.parseExportsSection) fun _ =>
    .ite (fun _ => ?_) fun _ => .ite (fun _ => .fail _) fun _ =>
    .ite (fun _ => h.parseCodeSection) fun _ => .ite (fun _ => .fail _) fun _ => .fail _
  · exact (Earns.of_local (steady_skip _ size).isLocal).bind fun _ w' hw => .pure (h.mono hw)
  · refine (Earns.of_local Leb128.local_decodeU32).bind fun idx w₁ hw₁ => ?_
    refine (Earns.of_local (steady_validateInRange _ _ _).isLocal).bind fun _ w₂ hw₂ => .pure ?_
    exact ⟨h.signatures, h.weight.trans (hw₁.trans hw₂)⟩

theorem Affords.parseSectionHeader (h : b.Affords w) :
    Earns creditsPerByte w b.parseSectionHeader fun r w' => r.1.Affords w' := by
  refine (Earns.of_local (local_readByte _)).bind fun id w₁ hw₁ => .ite (fun _ => .fail _)
    fun _ => ?_
  refine (Earns.of_local Leb128.local_decodeU32).bind fun size w₂ hw₂ => .pure ?_
  have hb := h.mono (hw₁.trans hw₂)
  -- the number of the section weighs nothing
  dsimp only
  split
  · exact ⟨hb.signatures, hb.weight⟩
  · exact hb

theorem Affords.parseNextSection (h : b.Affords w) :
    Earns creditsPerByte w (parseNextSection dangling b) fun x w' =>
      Sum.elim Affords Affords x w' := by
  refine (Earns.of_looking (R := fun _ w' => w' = w) (fun c => ⟨_, rfl⟩) fun _ => rfl).bind ?_
  rintro more _ rfl
  refine .ite (fun _ => ?_) fun _ => .pure h
  refine Earns.bind (h.parseSectionHeader.bind fun r w' hr => ?_) fun b' w' hb => .pure hb
  exact hr.parseSectionContents r.2.1 r.2.2

theorem earns_parse (dangling : List Name → Name → Bool) :
    Earns creditsPerByte 0 (parse dangling {}) Affords := by
  have hempty : ({} : ModuleBuilder).Affords 0 := ⟨fun _ h => absurd h List.not_mem_nil, rfl.le⟩
  refine (Earns.of_local (local_readBytes _ _)).bind fun magic w₁ hw₁ => .ite (fun _ => .fail _)
    fun _ => ?_
  refine (Earns.of_local (local_readBytes _ _)).bind fun version w₂ hw₂ => .ite (fun _ => .fail _)
    fun _ => ?_
  exact .loop (fun b w hb => hb.parseNextSection) (hempty.mono (Nat.zero_le w₂))

/-- The names in the map are names of exports. -/
theorem keys_exportedFunctions_le (exports : List ModuleExport) (m : AList fun _ : Name => ℕ) :
    ((exports.foldl emplaceExport m).keys.map (·.length + 1)).sum ≤
      (m.keys.map (·.length + 1)).sum + (exports.map ModuleExport.weight).sum := by
  induction exports generalizing m with
  | nil => exact Nat.le_refl _
  | cons e es ih =>
    -- a new key is the name of the export, and an old one costs nothing
    have hone : ((emplaceExport m e).keys.map (·.length + 1)).sum ≤
        (m.keys.map (·.length + 1)).sum + e.weight := by
      unfold emplaceExport ModuleExport.weight
      split
      · split
        · omega
        next hnew =>
          have hkeys := @List.erase_of_not_mem _ instBEqOfDecidableEq _ e.name m.keys
            fun h => hnew (AList.mem_keys.mpr h)
          rw [AList.keys_insert, hkeys, List.map_cons, List.sum_cons]
          omega
      · omega
    rw [List.foldl_cons, List.map_cons, List.sum_cons]
    have hrest := ih (emplaceExport m e)
    omega

end ModuleBuilder

/-- **A module is not much larger than its bytes.** What the parser has built of a module that it
accepts, in all its vectors together, weighs at most 128 for every byte of the module, and so does
the module that it returns. -/
theorem parseModule_weight_le (dangling : List Name → Name → Bool) (bytes : List Byte)
    (m : ParsedModule) (c : Cursor) (h : parseModule dangling ⟨bytes, 0⟩ = .ok (m, c)) :
    ∃ b, ModuleBuilder.parse dangling {} ⟨bytes, 0⟩ = .ok (b, c) ∧ b.build = m ∧
      b.weight ≤ 128 * bytes.length ∧ m.weight ≤ 128 * bytes.length := by
  obtain ⟨b, c', hparse, hbuild⟩ := Reader.bind_eq_ok.mp h
  obtain ⟨rfl, rfl⟩ := pure_eq_ok.mp hbuild
  obtain ⟨n, hn, hb⟩ := earns_parse dangling _ _ _ hparse
  -- no more bytes are read than there are
  have hread : n ≤ bytes.length := by
    have hlen : bytes.length = n + c'.rest.length := hn
    omega
  have hweight : b.weight ≤ 128 * bytes.length := by
    calc b.weight
      _ ≤ 0 + creditsPerByte * n := hb.weight
      _ = 128 * n := by rw [Nat.zero_add, creditsPerByte]
      _ ≤ 128 * bytes.length := Nat.mul_le_mul_left 128 hread
  refine ⟨b, hparse, rfl, hweight, Nat.le_trans ?_ hweight⟩
  have hkeys := keys_exportedFunctions_le b.exports ∅
  unfold ParsedModule.weight ModuleBuilder.weight
  have hbuilt : (b.build.exportedFunctions.keys.map (·.length + 1)).sum ≤
      (b.exports.map ModuleExport.weight).sum := by
    simpa [build] using hkeys
  show (b.functions.map Function.weight).sum + _ ≤ _
  omega

/-- A function with 32 locals and nothing else, in 18 bytes after the preamble. -/
def manyLocalsBytes : List Byte :=
  kMagicBytes ++ kVersionOne ++
    [0x01#8, 0x04#8, 0x01#8, 0x60#8, 0x00#8, 0x00#8, 0x03#8, 0x02#8, 0x01#8, 0x00#8,
      0x0A#8, 0x06#8, 0x01#8, 0x04#8, 0x01#8, 0x20#8, 0x7F#8, 0x0B#8]

theorem parseModule_weight_le_manyLocals : ∃ m c,
    parseModule (fun _ _ => false) ⟨manyLocalsBytes, 0⟩ = .ok (m, c) ∧
      m.weight = 33 ∧ m.weight ≤ 128 * manyLocalsBytes.length := by
  obtain ⟨b, -, -, -, hm⟩ := parseModule_weight_le (fun _ _ => false) manyLocalsBytes _ _ rfl
  exact ⟨_, _, rfl, rfl, hm⟩

end Wasmcc
