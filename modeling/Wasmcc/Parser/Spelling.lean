import Wasmcc.Parser.Code
import Wasmcc.Parser.Grammar

/-!
# The parser reads the grammar

Each function of the parser reads words of the language that `Parser/Grammar.lean` has for it
(`reads_parseSectionContents`), whatever the builder knows and the lookups of names find. For a
number the converse holds as well: `Decode<uint32_t>` returns `n` after exactly the words of `u32
n`.
-/

open Basis

namespace Wasmcc

open Reader ModuleBuilder Grammar

/-! ### Elements -/

/-- A number is read as the grammar has it. -/
theorem consumes_decodeU32_iff {u : List Byte} {n : ℕ} :
    Consumes Leb128.decodeU32 u n ↔ u ∈ u32 n := by
  have hvalue (u : List Byte) :
      (BitVec.ofInt 32 (groupsValue false u)).toNat = unsignedValue u % 2 ^ 32 := by
    rw [groupsValue_false, BitVec.ofInt_natCast, BitVec.toNat_ofNat]
  constructor
  · intro h
    obtain ⟨v, c, h1, h2⟩ := Reader.bind_eq_ok.mp (h [] 0)
    obtain ⟨rfl, rfl⟩ := pure_eq_ok.mp h2
    -- the decoder reads one group after the other, up to the last one
    obtain ⟨s, hs, -, hgroups, hlen, rfl⟩ := Leb128.decode_eq_ok h1
    have hu : u ++ [] = s ++ [] := hs
    obtain rfl := List.append_cancel_right hu
    exact ⟨⟨hgroups, hlen⟩, (hvalue u).symm⟩
  · rintro ⟨⟨hgroups, hlen⟩, rfl⟩
    rw [← hvalue]
    exact (Leb128.consumes_decode (w := 32) false hgroups hlen).bind_nil (.pure _)

theorem reads_decode (w : ℕ) : Reads (Leb128.decode w false) (leb (Leb128.groups w)) where
  isLocal := Leb128.local_decode w false
  mem u v h := by
    obtain ⟨s, hs, -, hgroups, hlen, -⟩ := Leb128.decode_eq_ok (h [] 0)
    have hu : u ++ [] = s ++ [] := hs
    obtain rfl := List.append_cancel_right hu
    exact ⟨hgroups, hlen⟩

theorem reads_decodeU32 : Reads Leb128.decodeU32 (leb 5) :=
  (reads_decode 32).bind_one fun _ => .pure _

theorem reads_validateInRange (msg : String) (idx size : ℕ) :
    Reads (validateInRange msg idx size) 1 :=
  .ite (fun _ => .fail _ _) fun _ => .pure _

/-- An index, and what checks it without reading. -/
theorem reads_index {β : Type} {f : ℕ → Reader Exception β} (hf : ∀ idx, Reads (f idx) 1) :
    Reads (Leb128.decodeU32 >>= f) (leb 5) :=
  reads_decodeU32.bind_one hf

/-- A count within its limit. -/
theorem mem_of_parseVectorSize {limit : ℕ} {msg : ℕ → String} {u : List Byte} {n : ℕ}
    (h : Consumes (parseVectorSize limit msg) u n) : u ∈ u32 n := by
  obtain ⟨v, w, m, rfl, hv, hw⟩ := Consumes.of_bind Leb128.local_decodeU32
    (fun _ => .ite (.fail _) (.pure _)) h
  -- the check of the limit reads nothing
  obtain ⟨-, hw⟩ := hw.of_guard
  obtain ⟨rfl, rfl⟩ := hw.of_pure
  rw [List.append_nil]
  exact consumes_decodeU32_iff.mp hv

/-- A count, and that many rounds. -/
theorem reads_vector {β : Type} {L : Language Byte} (limit : ℕ) (msg : ℕ → String)
    {f : ℕ → Reader Exception β} (hf : ∀ n, Reads (f n) (L ^ n)) :
    Reads (parseVectorSize limit msg >>= f) (vec L) :=
  .bind_iSup (steady_parseVectorSize limit msg).isLocal (fun _ _ h => mem_of_parseVectorSize h) hf

theorem reads_parseValType : Reads parseValType valType where
  isLocal := steady_parseValType.isLocal
  mem u vt h := by
    obtain ⟨b, c, h1, h2⟩ := Reader.bind_eq_ok.mp (h [] 0)
    obtain ⟨hrest, -⟩ := readByte_eq_ok.mp h1
    cases hvt : valTypeOfByte b with
    | none =>
      simp only [hvt] at h2
      exact absurd h2 fail_ne_ok
    | some vt' =>
      simp only [hvt] at h2
      obtain ⟨rfl, rfl⟩ := pure_eq_ok.mp h2
      -- the type that was found has this byte
      have hfind := List.find?_some hvt
      have hmem := List.mem_of_find?_eq_some hvt
      rw [List.append_nil] at hrest
      refine ⟨vt', ?_, hrest.trans (congrArg (fun b => [b]) (eq_of_beq hfind).symm)⟩
      rintro rfl
      exact absurd hmem (by decide)

theorem reads_parseName : Reads parseName name := by
  refine .bind_iSup Leb128.local_decodeU32 (fun u n h => consumes_decodeU32_iff.mp h) fun n => ?_
  exact .ite (fun _ => .fail _ _) fun _ => .readBytes _ n

/-- And the name that is returned is the one that was read. -/
theorem mem_of_parseName {u : List Byte} {s : Name} (h : Consumes parseName u s) :
    u ∈ u32 s.length * {s} := by
  obtain ⟨v, w, n, rfl, hv, hw⟩ := Consumes.of_bind Leb128.local_decodeU32
    (fun _ => .ite (.fail _) (local_readBytes _ _)) h
  obtain ⟨-, hw⟩ := hw.of_guard
  obtain ⟨rfl, hrest, -⟩ := readBytes_eq_ok.mp (hw [] 0)
  have hbytes : w ++ [] = s ++ [] := hrest
  obtain rfl := List.append_cancel_right hbytes
  exact Language.append_mem_mul (consumes_decodeU32_iff.mp hv) rfl

theorem reads_parseSignatureTypes (kMax : ℕ) : Reads (parseSignatureTypes kMax) (vec valType) :=
  reads_vector _ _ fun n => .iterate (fun _ => reads_parseValType.bind_one fun _ => .pure _) n _

theorem reads_parseSignature : Reads parseSignature signature where
  isLocal := steady_parseSignature.isLocal
  mem u sig h := by
    obtain ⟨v, w, b, rfl, hv, hw⟩ := Consumes.of_bind (local_readByte _)
      (fun _ => .ite (.fail _) ((steady_parseSignatureTypes _).isLocal.bind fun _ =>
        (steady_parseSignatureTypes _).isLocal.bind fun _ => .pure _)) h
    -- the first byte is 0x60, or the parser throws
    obtain ⟨hmagic, hw⟩ := hw.of_guard
    obtain ⟨hrest, -⟩ := readByte_eq_ok.mp (hv [] 0)
    rw [List.append_nil] at hrest
    have htypes : Reads _ (vec valType * vec valType) :=
      (reads_parseSignatureTypes kMaxFunctionParameters).bind fun parameterTypes =>
        (reads_parseSignatureTypes kMaxFunctionResults).bind_one fun resultTypes =>
          .pure ({ parameterTypes, resultTypes } : BlockType)
    refine Language.append_mem_mul ?_ (htypes.mem hw)
    exact hrest.trans (congrArg (fun b => [b]) (not_not.mp hmagic))

theorem reads_parseLimits : Reads parseLimits limits :=
  .readByte_bind fun _ => .ite_ite
    (reads_decodeU32.bind fun _ => reads_decodeU32.bind_one fun _ => .pure _)
    (reads_decodeU32.bind_one fun _ => .pure _)

theorem reads_parseTableType : Reads parseTableType tableType :=
  reads_parseValType.bind fun _ => .ite (fun _ => .fail _ _) fun _ =>
    reads_parseLimits.bind_one fun _ => .pure _

theorem reads_parseMemType : Reads parseMemType limits :=
  reads_parseLimits.bind_one fun _ => .pure _

theorem reads_parseGlobalType : Reads parseGlobalType globalType :=
  reads_parseValType.bind fun _ => (Reads.readByte _).bind_one fun _ => .pure _

theorem reads_parseConstExpr : Reads parseConstExpr (⨆ opcode, {[opcode]} * constant opcode) :=
  .readByte_bind fun _ => .ite_ite ((reads_decode 32).bind_one fun _ => .pure _) <|
    .ite_ite ((reads_decode 64).bind_one fun _ => .pure _) <|
      .ite_ite ((Reads.readBytes _ 4).bind_one fun _ => .pure _) <|
        .ite_ite ((Reads.readBytes _ 8).bind_one fun _ => .pure _) (.fail _ _)

theorem reads_parseGlobal : Reads parseGlobal globalEntry :=
  reads_parseGlobalType.bind fun _ => reads_parseConstExpr.bind_one fun _ => .pure _

/-! ### Entries that know the builder -/

namespace ModuleBuilder

variable (b : ModuleBuilder)

theorem reads_parseOneImport : Reads b.parseOneImport importEntry := by
  refine reads_parseName.bind fun _ => reads_parseName.bind fun _ => .readByte_bind fun _ => ?_
  exact .ite_ite (reads_index fun _ => (reads_validateInRange _ _ _).bind_one fun _ => .pure _) <|
    .ite_ite (reads_parseTableType.bind_one fun _ => .pure _) <|
      .ite_ite (reads_parseMemType.bind_one fun _ => .pure _) <|
        .ite_ite (reads_parseGlobalType.bind_one fun _ => .pure _) (.fail _ _)

/-- An entry of the export section is read under the name that it has. -/
theorem mem_of_parseOneExport {u : List Byte} {e : ModuleExport}
    (h : Consumes b.parseOneExport u e) : u ∈ exportNamed e.name := by
  -- four kinds, each with an index
  have hidx {kind : Byte} {msg : String} {size : ℕ} {f : ℕ → ModuleExport}
      (hkind : kind.toNat ≤ 3) : Reads (Leb128.decodeU32 >>= fun idx =>
        validateInRange msg idx size >>= fun _ => pure (f idx))
        (if kind.toNat ≤ 3 then leb 5 else 0) := by
    rw [if_pos hkind]
    exact reads_index fun _ => (reads_validateInRange _ _ _).bind_one fun _ => .pure _
  have hidx' (msg : String) (size : ℕ) (f : ℕ → ModuleExport) : Local (Leb128.decodeU32 >>=
      fun idx => validateInRange msg idx size >>= fun _ => pure (f idx)) :=
    (reads_index fun _ => (reads_validateInRange _ _ _).bind_one fun _ => .pure _).isLocal
  have hother {name : Name} {msg : String} {size : ℕ} {d : ℕ → ModuleExport.Description} :
      Ensures (Leb128.decodeU32 >>= fun idx => validateInRange msg idx size >>= fun _ =>
        pure ({ name, description := d idx } : ModuleExport)) fun e => e.name = name :=
    .bind fun _ => .bind fun _ => .pure rfl
  obtain ⟨v, w, name, rfl, hv, hw⟩ := Consumes.of_bind steady_parseName.isLocal
    (fun name => (local_readByte _).bind fun type => .ite (hidx' _ _ _) <| .ite (hidx' _ _ _) <|
      .ite (hidx' _ _ _) <| .ite (hidx' _ _ _) <| .fail _) h
  have hname : e.name = name := by
    refine Ensures.bind (Q := fun e : ModuleExport => e.name = name) (fun type => ?_) _ _ _
      (hw [] 0)
    exact .ite (fun _ => hother) fun _ => .ite (fun _ => hother) fun _ =>
      .ite (fun _ => hother) fun _ => .ite (fun _ => hother) fun _ => .fail _ _
  rw [hname]
  refine Language.append_mem_mul (mem_of_parseName hv)
    (Reads.mem (.readByte_bind fun kind => ?_) hw)
  refine .ite (fun h => hidx (by rw [h]; decide)) fun _ => ?_
  refine .ite (fun h => hidx (by rw [h]; decide)) fun _ => ?_
  refine .ite (fun h => hidx (by rw [h]; decide)) fun _ => ?_
  exact .ite (fun h => hidx (by rw [h]; decide)) fun _ => .fail _ _

theorem reads_parseOneExport : Reads b.parseOneExport exportEntry where
  isLocal := b.steady_parseOneExport.isLocal
  mem _ e h := Language.mem_iSup.mpr ⟨e.name, b.mem_of_parseOneExport h⟩

/-! ### Bodies -/

/-- A round of `ParseExpression`: an opcode with its immediate, or the end. -/
theorem reads_parseNextOp (e : OpEmitter) : Reads (parseNextOp e)
    (⨆ opcode, {[opcode]} * if opcode = 0x0B#8 then 1 else immediate opcode) := by
  refine .readByte_bind fun opcode => .ite_ite (.pure _) ?_
  have hemit (e : OpEmitter) (i : Instruction) : Reads (e.emit i) 1 := by
    unfold OpEmitter.emit
    cases e.validator.visit i with
    | ok v => exact .pure _
    | error ex => exact .fail _ _
  have hone (e : OpEmitter) (i : Instruction) :
      Reads (e.emit i >>= fun e => (pure (.inl e) : Reader Exception (OpEmitter ⊕ OpEmitter))) 1 :=
    (hemit e i).bind_one fun _ => .pure _
  have htwo (i j : Instruction) : Reads (e.emit i >>= fun e => e.emit j >>= fun e =>
      (pure (.inl e) : Reader Exception (OpEmitter ⊕ OpEmitter))) 1 :=
    (hemit e i).bind_one fun _ => hone _ j
  -- opcodes without and with an immediate
  have hplain (h : opcode ∈ [0x04#8, 0x05#8, 0x0F#8, 0x6A#8]) : immediate opcode = 1 := by
    unfold immediate
    fin_cases h <;> rfl
  have hindex (h : opcode ∈ [0x20#8, 0x21#8, 0x41#8]) : immediate opcode = leb 5 := if_pos h
  refine .ite (fun h => hplain (by simp [h]) ▸ htwo _ _) fun _ => ?_
  refine .ite (fun h => hplain (by simp [h]) ▸ htwo _ _) fun _ => ?_
  refine .ite (fun h => hplain (by simp [h]) ▸ hone _ _) fun _ => ?_
  refine .ite (fun h => hindex (by simp [h]) ▸ reads_index fun _ => hone _ _) fun _ => ?_
  refine .ite (fun h => hindex (by simp [h]) ▸ reads_index fun _ => hone _ _) fun _ => ?_
  refine .ite (fun h => hindex (by simp [h]) ▸ (reads_decode 32).bind_one fun _ => hone _ _)
    fun _ => ?_
  exact .ite (fun h => hplain (by simp [h]) ▸ hone _ _) fun _ => .fail _ _

theorem reads_parseExpression (v : FunctionValidator) : Reads (parseExpression v) expression := by
  have hstep := fun e => (steady_parseNextOp e).isLocal
  have hloop (e : OpEmitter) : Reads (Reader.loop .endOfStream parseNextOp e) expression := by
    refine .loop progress_parseNextOp hstep (fun e u e' h => ?_) (fun e u e' h => ?_) e
    · obtain ⟨opcode, hop⟩ := Language.mem_iSup.mp ((reads_parseNextOp e).mem h)
      obtain ⟨_, rfl, w, hw, rfl⟩ := Language.mem_mul.mp hop
      -- the end would have stopped the loop
      have hne : opcode ≠ 0x0B#8 := by
        rintro rfl
        cases h [] 0
      rw [if_neg hne] at hw
      exact Language.mem_iSup.mpr ⟨opcode, Language.append_mem_mul rfl hw⟩
    · obtain ⟨-, hrest⟩ := parseNextOp_inr (h [] 0)
      rwa [List.append_nil] at hrest
  refine (hloop _).bind_one fun e => ?_
  unfold OpEmitter.finalize
  cases e.validator.finalize with
  | ok v => exact .pure _
  | error ex => exact .fail _ _

theorem reads_parseLocalGroup (locals : List ValType) :
    Reads (parseLocalGroup locals) localGroup :=
  reads_decodeU32.bind fun _ => .ite (fun _ => .fail _ _) fun _ =>
    reads_parseValType.bind_one fun _ => .pure _

theorem reads_parseCodeContents (func : Function) :
    Reads (parseCodeContents func) (vec localGroup * expression) := by
  have hgroups (n : ℕ) : Reads (Reader.iterate parseLocalGroup n func.meta_.locals)
      (localGroup ^ n) := .iterate reads_parseLocalGroup n _
  have hvec : Reads (Leb128.decodeU32 >>= fun n =>
      Reader.iterate parseLocalGroup n func.meta_.locals) (vec localGroup) :=
    .bind_iSup Leb128.local_decodeU32 (fun u n h => consumes_decodeU32_iff.mp h) hgroups
  have hall := hvec.bind fun locals =>
    (reads_parseExpression (.new func.meta_.signature locals)).bind_one fun r =>
      Reads.pure (ε := Exception) (locals, r)
  rwa [bind_assoc] at hall

theorem reads_parseOneCode (func : Function) : Reads (parseOneCode func) codeEntry where
  isLocal := (steady_parseOneCode func).isLocal
  mem u f h := by
    obtain ⟨leb, contents, r, rfl, hsize, hcons, -⟩ := consumes_parseOneCode_iff.mp h
    refine Language.mem_iSup.mpr ⟨contents.length, ?_⟩
    refine Language.append_mem_mul (consumes_decodeU32_iff.mp hsize)
      (Language.mem_inf.mpr ⟨?_, rfl⟩)
    exact (reads_parseCodeContents func).mem hcons

/-! ### Sections -/

theorem reads_parseCodeSection : Reads b.parseCodeSection (vec codeEntry) where
  isLocal := b.steady_parseCodeSection.isLocal
  mem u b' h := by
    obtain ⟨count, es, rfl, hcount, -, -, hes⟩ := parseCodeSection_entries h
    refine Language.mem_iSup.mpr ⟨es.length, ?_⟩
    refine Language.append_mem_mul (consumes_decodeU32_iff.mp hcount) (Language.mem_pow.mpr ?_)
    refine ⟨es.map (·.2.1), by rw [List.flatMap_def], by rw [List.length_map],
      fun entry hentry => ?_⟩
    obtain ⟨e, he, rfl⟩ := List.mem_map.mp hentry
    exact (reads_parseOneCode e.1).mem (hes e he)

/-- **The contents of every section** are read by the grammar. -/
theorem reads_parseSectionContents (dangling : List Name → Name → Bool) (id : Byte) (size : ℕ) :
    Reads (parseSectionContents dangling id size b) (contents id) := by
  -- a vector whose elements are put into the builder
  have hpush {p : ModuleBuilder → Reader Exception ModuleBuilder} {L : Language Byte}
      (hp : ∀ b, Reads (p b) L) (limit : ℕ) (msg : ℕ → String) :
      Reads (parseVectorSize limit msg >>= fun n => Reader.iterate p n b) (vec L) :=
    reads_vector limit msg fun n => .iterate hp n b
  -- the branches in the order of the source, the first one for custom sections
  refine .ite_ite ⟨(local_skip _ _).bind fun _ => .pure _, fun _ _ _ => trivial⟩ ?_
  refine .ite_ite (hpush (fun _ => reads_parseSignature.bind_one fun _ => .pure _) _ _) ?_
  refine .ite_ite (hpush (fun b => b.reads_parseOneImport.bind_one fun _ => .pure _) _ _) ?_
  refine .ite_ite (hpush (fun _ => reads_index fun _ =>
    (reads_validateInRange _ _ _).bind_one fun _ => .pure _) _ _) ?_
  refine .ite_ite (hpush (fun _ => (reads_parseTableType.bind_one fun _ => .pure _).bind_one
    fun _ => .pure _) _ _) ?_
  refine .ite_ite (hpush (fun _ => (reads_parseMemType.bind_one fun _ => .pure _).bind_one
    fun _ => .pure _) _ _) ?_
  refine .ite_ite (hpush (fun _ => reads_parseGlobal.bind_one fun _ => .pure _) _ _) ?_
  refine .ite_ite (reads_vector _ _ fun n => ?_) ?_
  · -- whether a name is refused does not change what is read
    refine (Reads.iterate (fun s => ?_) n _).bind_one fun _ => .pure _
    exact s.1.reads_parseOneExport.bind_one fun _ => .ite (fun _ => .fail _ _) fun _ => .pure _
  refine .ite_ite (reads_index fun _ => (reads_validateInRange _ _ _).bind_one fun _ => .pure _) ?_
  -- element sections are not implemented
  refine .ite (fun h => h ▸ .fail _ _) fun _ => ?_
  refine .ite_ite b.reads_parseCodeSection ?_
  exact .ite (fun _ => .fail _ _) fun _ => .fail _ _

end ModuleBuilder

end Wasmcc
