import Wasmcc.Parser.Binary
import Wasmcc.Parser.Sections
import Wasmcc.Parser.ValidatorSound
import Wasmcc.Leb128.Groups
import Wasmcc.Runtime.Exports

/-!
# Round trips

Every reader of the parser consumes what `Parser/Binary.lean` writes for it. From the bottom up:
numbers, value types and names, signatures, instructions and bodies, and the four sections. The one
exception is the export section. Its loop asks a set of dangling views whether it has seen a name,
and it goes on as long as the answers are no (`NoFalseFind`).

`parseModule_roundTrips_iff` puts them together. A well-formed module comes back from its encoding,
whatever the dangling views are, if and only if it exports at most one function.
-/

open Basis

namespace Wasmcc

open Reader ModuleBuilder

/-! ### Elements -/

/-- A length and its contents. -/
theorem consumes_encodeSized {α : Type} {p : ℕ → Reader Exception α} {contents : List Byte} {a : α}
    (hlen : contents.length < 2 ^ 32) (hp : Consumes (p contents.length) contents a) :
    Consumes (Leb128.decodeU32 >>= p) (encodeSized contents) a :=
  (Leb128.consumes_decodeU32 hlen).bind hp

/-- The size of a vector, however it is encoded. -/
theorem consumes_vectorSize {n limit : ℕ} {size : List Byte} (msg : ℕ → String)
    (hsize : Consumes Leb128.decodeU32 size n) (h : n ≤ limit) :
    Consumes (parseVectorSize limit msg) size n := by
  refine hsize.bind_nil ?_
  rw [if_neg (Nat.not_lt.mpr h)]
  exact .pure n

theorem consumes_parseVectorSize {n limit : ℕ} (msg : ℕ → String) (h : n ≤ limit)
    (hlimit : limit < 2 ^ 32) :
    Consumes (parseVectorSize limit msg) (Leb128.encodeU32 n) n :=
  consumes_vectorSize msg (Leb128.consumes_decodeU32 (h.trans_lt hlimit)) h

theorem consumes_parseValType {vt : ValType} (h : vt ≠ .v128) :
    Consumes parseValType vt.encode vt := by
  refine (consumes_readByte _ vt.byte).bind_nil ?_
  cases vt with
  | v128 => exact absurd rfl h
  | _ => exact .pure _

theorem consumes_parseName {name : Name} (h : name.length ≤ kMaxNameLength) :
    Consumes parseName (encodeSized name) name := by
  refine consumes_encodeSized (h.trans_lt (by decide)) ?_
  rw [if_neg (Nat.not_lt.mpr h)]
  exact consumes_readBytes _ name

theorem consumes_validateInRange (msg : String) {idx size : ℕ} (h : idx < size) :
    Consumes (validateInRange msg idx size) [] () := by
  unfold validateInRange
  rw [if_neg (Nat.not_le.mpr h)]
  exact .pure ()

/-- Elements of at least one byte each. -/
theorem length_le_flatMap {α : Type} {enc : α → List Byte} (xs : List α)
    (h : ∀ x, 0 < (enc x).length) : xs.length ≤ (xs.flatMap enc).length := by
  induction xs with
  | nil => exact Nat.zero_le _
  | cons x xs ih =>
    have hx := h x
    rw [List.flatMap_cons, List.length_append, List.length_cons]
    omega

/-- Appending the elements of a list one after another. -/
theorem foldl_append_singleton {α : Type} (xs ys : List α) :
    ys.foldl (fun xs y => xs ++ [y]) xs = xs ++ ys := by
  induction ys generalizing xs with
  | nil => exact (List.append_nil xs).symm
  | cons y ys ih =>
    rw [List.foldl_cons, ih, List.append_assoc]
    rfl

theorem consumes_parseSignatureTypes {kMax : ℕ} {vts : List ValType} (hlen : vts.length ≤ kMax)
    (hmax : kMax < 2 ^ 32) (hvts : .v128 ∉ vts) :
    Consumes (parseSignatureTypes kMax) (encodeVector ValType.encode vts) vts := by
  refine (consumes_parseVectorSize _ hlen hmax).bind ?_
  refine Consumes.iterate (P := fun _ vts => .v128 ∉ vts) (foldl_append_singleton [] vts) hvts
    (fun types vt vts h => ?_) (fun types vt vts h hmem => h (List.mem_cons_of_mem vt hmem))
  have hvt : vt ≠ .v128 := fun he => h (he ▸ List.mem_cons_self)
  exact (consumes_parseValType hvt).bind_nil (.pure _)

theorem consumes_parseSignature {sig : BlockType} (h : sig.WellFormed) :
    Consumes parseSignature sig.encode sig := by
  refine (consumes_readByte _ 0x60#8).bind (v := _ ++ _) ?_
  rw [if_neg (by decide)]
  refine (consumes_parseSignatureTypes h.parameters (by decide) h.parameterTypes).bind ?_
  refine (consumes_parseSignatureTypes h.results (by decide) h.resultTypes).bind_nil ?_
  exact .pure _

/-! ### Bodies -/

/-- An instruction that the validator accepts is read and emitted. -/
theorem consumes_parseNextOp {e : OpEmitter} {op : Op} {v : FunctionValidator}
    (h : e.validator.visit op.instruction = .ok v)
    {types : List ValType} (htypes : types.length < 2 ^ 32)
    (hidx : op.instruction.LocalsI32 types) :
    Consumes (parseNextOp e) op.encode (.inl ⟨v, e.instructions ++ [op.instruction]⟩) := by
  have hemit : Consumes (e.emit op.instruction) [] ⟨v, e.instructions ++ [op.instruction]⟩ := by
    unfold OpEmitter.emit
    rw [h]
    exact .pure _
  -- an index in range fits the 32 bits it is encoded in
  have hlt {idx : ℕ} (h : types[idx]? = some .i32) : idx < 2 ^ 32 :=
    (List.getElem?_eq_some_iff.mp h).1.trans htypes
  cases op with
  | constI32 value =>
    have hround := (Leb128.roundTrip_shortest .uint32 value).1
    exact (consumes_readByte _ 0x41#8).bind (hround.bind_nil (hemit.bind_nil (.pure _)))
  | addI32 => exact (consumes_readByte _ 0x6A#8).bind_nil (hemit.bind_nil (.pure _))
  | getLocalI32 idx =>
    have hround := Leb128.consumes_decodeU32 (hlt hidx)
    exact (consumes_readByte _ 0x20#8).bind (hround.bind_nil (hemit.bind_nil (.pure _)))
  | setLocalI32 idx =>
    have hround := Leb128.consumes_decodeU32 (hlt hidx)
    exact (consumes_readByte _ 0x21#8).bind (hround.bind_nil (hemit.bind_nil (.pure _)))
  | return_ => exact (consumes_readByte _ 0x0F#8).bind_nil (hemit.bind_nil (.pure _))

/-- **The loop of `ParseExpression`** over a body that the validator visits. -/
theorem consumes_ops {types : List ValType} (htypes : types.length < 2 ^ 32) {ops : List Op}
    (hops : ∀ op ∈ ops, op.instruction.LocalsI32 types) : ∀ {e : OpEmitter} {v : FunctionValidator},
    e.validator.visitAll (ops.map Op.instruction) = .ok v →
      Consumes (Reader.loop .endOfStream parseNextOp e) (ops.flatMap Op.encode ++ [0x0B#8])
        ⟨v, e.instructions ++ ops.map Op.instruction⟩ := by
  induction ops with
  | nil =>
    intro e v hv
    obtain rfl := Except.ok.inj hv
    -- the byte after the last instruction ends the loop
    have hend : Consumes (parseNextOp e) [0x0B#8] (.inr e) :=
      (consumes_readByte _ 0x0B#8).bind_nil (.pure _)
    rw [List.map_nil, List.append_nil]
    exact .loop_inr progress_parseNextOp hend
  | cons op ops ih =>
    intro e v hv
    obtain ⟨v₁, h1, h2⟩ := bind_eq_ok.mp hv
    have hop := consumes_parseNextOp h1 htypes (hops op List.mem_cons_self)
    have hrest := ih (fun op' hop' => hops op' (List.mem_cons_of_mem op hop'))
      (e := ⟨v₁, e.instructions ++ [op.instruction]⟩) h2
    rw [List.append_assoc] at hrest
    rw [List.flatMap_cons, List.append_assoc]
    exact .loop_inl progress_parseNextOp hop hrest

theorem consumes_parseExpression {types : List ValType} (htypes : types.length < 2 ^ 32)
    {ops : List Op} (hops : ∀ op ∈ ops, op.instruction.LocalsI32 types) {v v' : FunctionValidator}
    (h : v.visitAll (ops.map Op.instruction) >>= FunctionValidator.finalize = .ok v') :
    Consumes (parseExpression v) (ops.flatMap Op.encode ++ [0x0B#8])
      (ops.map Op.instruction, v') := by
  obtain ⟨v₁, h1, h2⟩ := bind_eq_ok.mp h
  refine (consumes_ops htypes hops (e := { validator := v }) h1).bind_nil ?_
  unfold OpEmitter.finalize
  rw [h2]
  exact .pure _

/-! ### Code entries -/

theorem encodeRun_pos (run : ℕ × ValType) : 0 < (encodeRun run).length := by
  rw [encodeRun, List.length_append]
  exact Nat.lt_add_left _ Nat.one_pos

theorem consumes_parseLocalGroup {locals : List ValType} {run : ℕ × ValType}
    (hlen : run.1 + locals.length ≤ maxFunctionLocals) (hrun : run.2 ≠ .v128) :
    Consumes (parseLocalGroup locals) (encodeRun run)
      (locals ++ List.replicate run.1 run.2) := by
  have hmax : maxFunctionLocals < 2 ^ 32 := by decide
  refine (Leb128.consumes_decodeU32 (by omega)).bind ?_
  rw [if_neg (Nat.not_lt.mpr hlen)]
  exact (consumes_parseValType hrun).bind_nil (.pure _)

/-- The runs of a code entry, one after another. -/
theorem consumes_runs {e : CodeEntry} (hlen : e.locals.length ≤ maxFunctionLocals)
    (hruns : ∀ run ∈ e.runs, run.2 ≠ .v128) :
    Consumes (Reader.iterate parseLocalGroup e.runs.length []) (e.runs.flatMap encodeRun)
      e.locals := by
  -- the locals so far and those that are left are within the limit together
  refine Consumes.iterate (P := fun locals runs =>
      locals.length + (CodeEntry.locals ⟨runs, []⟩).length ≤ maxFunctionLocals ∧
        ∀ run ∈ runs, run.2 ≠ .v128) List.flatMap_eq_foldl.symm ⟨?_, hruns⟩
    (fun locals run runs h => ?_) (fun locals run runs h => ?_)
  · rw [List.length_nil, Nat.zero_add]
    exact hlen
  · have hlen := h.1
    rw [CodeEntry.locals, List.flatMap_cons, List.length_append, List.length_replicate] at hlen
    exact consumes_parseLocalGroup (by omega) (h.2 run List.mem_cons_self)
  · refine ⟨?_, fun r hr => h.2 r (List.mem_cons_of_mem run hr)⟩
    have hlen := h.1
    rw [CodeEntry.locals, List.flatMap_cons, List.length_append] at hlen
    rw [List.length_append, Nat.add_assoc]
    exact hlen

/-- The function that a code entry defines, `v` being the validator after it. -/
def CodeEntry.function (sig : BlockType) (e : CodeEntry) (v : FunctionValidator) : Function :=
  codeResult { meta_ := { signature := sig } } (e.locals, e.body, v)

/-- **A code entry** comes back as the function it defines. -/
theorem consumes_parseOneCode {sig : BlockType} {e : CodeEntry} (h : e.WellFormed sig)
    (hsig : sig.parameterTypes.length ≤ kMaxFunctionParameters)
    (hsize : e.encode.length < 2 ^ 32) :
    ∃ v, Consumes (parseOneCode { meta_ := { signature := sig } }) e.encode (e.function sig v) := by
  obtain ⟨v, hv⟩ := h.valid
  -- the two lengths that are encoded fit 32 bits, being lengths of parts of the entry
  have hcontents : e.contents.length < 2 ^ 32 := by
    rw [CodeEntry.encode, encodeSized, List.length_append] at hsize
    omega
  have hruns : e.runs.length < 2 ^ 32 := by
    have hle := length_le_flatMap e.runs fun run => encodeRun_pos run
    rw [CodeEntry.contents, encodeVector] at hcontents
    simp only [List.length_append] at hcontents
    omega
  have hops : ∀ op ∈ e.ops, op.instruction.LocalsI32 (sig.parameterTypes ++ e.locals) := by
    intro op hop
    exact FunctionValidator.localsI32_of_validate (m := { signature := sig, locals := e.locals }) hv
      _ (List.mem_map_of_mem hop)
  have htypes : (sig.parameterTypes ++ e.locals).length < 2 ^ 32 := by
    have hlocals := h.locals
    rw [maxFunctionLocals] at hlocals
    rw [kMaxFunctionParameters] at hsig
    rw [List.length_append]
    omega
  refine ⟨v, consumes_parseOneCode_iff.mpr ⟨_, e.contents, _, rfl,
    Leb128.consumes_decodeU32 hcontents, ?_, rfl⟩⟩
  -- number of runs, runs, expression
  rw [CodeEntry.contents, encodeVector, List.append_assoc]
  refine (Leb128.consumes_decodeU32 hruns).bind ((consumes_runs h.locals h.runs).bind ?_)
  exact (consumes_parseExpression htypes hops hv).bind_nil (.pure _)

/-! ### Sections -/

/-- A function that is declared and has no body yet. -/
def declared (sig : BlockType) : Function where
  meta_ := { signature := sig }
  body := []

theorem consumes_parseSignatureSection (b : ModuleBuilder) {types : List BlockType}
    (hlen : types.length ≤ kMaxFunctionSignatures) (hsigs : ∀ sig ∈ types, sig.WellFormed) :
    Consumes b.parseSignatureSection (encodeVector BlockType.encode types)
      { b with funcSignatures := b.funcSignatures ++ types } := by
  refine (consumes_parseVectorSize _ hlen (by decide)).bind ?_
  -- the loop appends the signatures one by one
  have hfold : types.foldl (fun (b : ModuleBuilder) sig =>
      { b with funcSignatures := b.funcSignatures ++ [sig] }) b =
      { b with funcSignatures := b.funcSignatures ++ types } := by
    clear hlen hsigs
    induction types generalizing b with
    | nil => simp
    | cons sig types ih => simp [ih]
  refine Consumes.iterate (P := fun _ types => ∀ sig ∈ types, BlockType.WellFormed sig) hfold hsigs
    (fun b sig types h => ?_) (fun b sig types h s hs => h s (List.mem_cons_of_mem sig hs))
  exact (consumes_parseSignature (h sig List.mem_cons_self)).bind_nil (.pure _)

theorem consumes_parseFunctionDeclarationSection (b : ModuleBuilder) {idxs : List ℕ}
    (hlen : idxs.length ≤ maxFunctions) (hidxs : ∀ idx ∈ idxs, idx < b.funcSignatures.length)
    (hsigs : b.funcSignatures.length < 2 ^ 32) :
    Consumes b.parseFunctionDeclarationSection (encodeVector Leb128.encodeU32 idxs)
      { b with functions := b.functions ++
        idxs.map fun idx => declared (b.funcSignatures.getD idx {}) } := by
  refine (consumes_parseVectorSize _ hlen (by decide)).bind ?_
  have hfold : idxs.foldl (fun (b : ModuleBuilder) idx =>
      { b with functions := b.functions ++ [declared (b.funcSignatures.getD idx {})] }) b =
      { b with functions := b.functions ++
        idxs.map fun idx => declared (b.funcSignatures.getD idx {}) } := by
    clear hlen hidxs hsigs
    induction idxs generalizing b with
    | nil => simp
    | cons idx idxs ih =>
      rw [List.foldl_cons, ih, List.map_cons]
      simp only [List.append_assoc, List.singleton_append]
  -- the signatures do not change while the functions are declared
  refine Consumes.iterate (P := fun (b' : ModuleBuilder) idxs =>
      b'.funcSignatures = b.funcSignatures ∧ ∀ idx ∈ idxs, idx < b.funcSignatures.length) hfold
    ⟨rfl, hidxs⟩ (fun b' idx idxs h => ?_)
    (fun b' idx idxs h => ⟨h.1, fun i hi => h.2 i (List.mem_cons_of_mem idx hi)⟩)
  have hlt := h.2 idx List.mem_cons_self
  refine (Leb128.consumes_decodeU32 (hlt.trans hsigs)).bind_nil ?_
  exact (consumes_validateInRange _ (by rw [h.1]; exact hlt)).bind_nil (.pure _)

/-- The lookups in the set of dangling views find none of these names, when they are inserted one
after another. -/
def NoFalseFind (dangling : List Name → Name → Bool) : List Name → List Name → Prop
  | _, [] => True
  | names, name :: rest =>
    findsName dangling names name = false ∧ NoFalseFind dangling (names ++ [name]) rest

/-- The export of a function, as the parser keeps it. -/
def functionExport (e : Name × ℕ) : ModuleExport := { name := e.1, description := .funcIdx e.2 }

theorem consumes_functionExport {b : ModuleBuilder} {e : Name × ℕ}
    (hname : e.1.length ≤ kMaxNameLength) (hidx : e.2 < b.functions.length)
    (hfunctions : b.functions.length < 2 ^ 32) :
    Consumes b.parseOneExport (encodeExport e) (functionExport e) :=
  consumes_parseOneExport (consumes_parseName hname)
    (Leb128.consumes_decodeU32 (hidx.trans hfunctions)) hidx

section Exports

variable {dangling : List Name → Name → Bool} {entries : List (List Byte × ModuleExport)}

/-- **The loop of `ParseExportsSection`** goes on as long as no lookup finds a name. -/
theorem consumes_exports : ∀ {b : ModuleBuilder} {names : List Name},
    (∀ p ∈ entries, Consumes b.parseOneExport p.1 p.2) →
      NoFalseFind dangling names (entries.map (·.2.name)) →
      Consumes (Reader.iterate (parseNextExport dangling) entries.length (b, names))
        (entries.flatMap (·.1))
        ({ b with exports := b.exports ++ entries.map (·.2) },
          names ++ entries.map (·.2.name)) := by
  induction entries with
  | nil =>
    intro b names _ _
    rw [List.map_nil, List.map_nil, List.append_nil, List.append_nil]
    exact .pure _
  | cons p entries ih =>
    intro b names hentries hfind
    have hfirst : Consumes (parseNextExport dangling (b, names)) p.1
        ({ b with exports := b.exports ++ [p.2] }, names ++ [p.2.name]) := by
      refine (hentries p List.mem_cons_self).bind_nil ?_
      rw [if_neg (by rw [hfind.1]; decide)]
      exact .pure _
    -- the name that was just inserted is one that later lookups may find
    have hrest := ih (b := { b with exports := b.exports ++ [p.2] })
      (fun q hq => hentries q (List.mem_cons_of_mem p hq)) hfind.2
    rw [List.append_assoc, List.append_assoc] at hrest
    rw [List.length_cons, iterate_succ, List.flatMap_cons]
    exact hfirst.bind hrest

/-- And it stops at the first lookup that finds one, however many entries are to follow. -/
theorem exports_refused : ∀ {b : ModuleBuilder} {names : List Name} {n : ℕ},
    (∀ p ∈ entries, Consumes b.parseOneExport p.1 p.2) →
      ¬NoFalseFind dangling names (entries.map (·.2.name)) → entries.length ≤ n →
      ∃ msg, ∀ rest m, Reader.iterate (parseNextExport dangling) n (b, names)
        ⟨entries.flatMap (·.1) ++ rest, m⟩ = .error (.parse msg) := by
  induction entries with
  | nil => exact fun _ hfind => absurd trivial hfind
  | cons p entries ih =>
    intro b names n hentries hfind hlen
    obtain ⟨n, rfl⟩ := Nat.exists_eq_add_of_le' (Nat.one_le_of_lt (Nat.lt_of_succ_le hlen))
    have hexport := hentries p List.mem_cons_self
    -- either this lookup goes wrong, or a later one does
    by_cases hfirst : findsName dangling names p.2.name = true
    · refine ⟨"duplicate exported name: "
        ++ String.ofList (p.2.name.map fun c => Char.ofNat c.toNat), fun rest m => ?_⟩
      rw [List.flatMap_cons, List.append_assoc]
      refine bind_of_error ((bind_of_ok (hexport _ m) _).trans ?_) _
      rw [if_pos hfirst]
      rfl
    · rw [Bool.not_eq_true] at hfirst
      have hnext : Consumes (parseNextExport dangling (b, names)) p.1
          ({ b with exports := b.exports ++ [p.2] }, names ++ [p.2.name]) := by
        refine hexport.bind_nil ?_
        rw [if_neg (by rw [hfirst]; decide)]
        exact .pure _
      obtain ⟨msg, hmsg⟩ := ih (b := { b with exports := b.exports ++ [p.2] })
        (fun q hq => hentries q (List.mem_cons_of_mem p hq)) (fun hno => hfind ⟨hfirst, hno⟩)
        (Nat.le_of_succ_le_succ hlen)
      refine ⟨msg, fun rest m => ?_⟩
      rw [iterate_succ, List.flatMap_cons, List.append_assoc, bind_of_ok (hnext _ m)]
      exact hmsg rest _

variable {b : ModuleBuilder} {size : List Byte}

theorem consumes_parseExportsSection (hsize : Consumes Leb128.decodeU32 size entries.length)
    (hlen : entries.length ≤ kMaxExports)
    (hentries : ∀ p ∈ entries, Consumes b.parseOneExport p.1 p.2)
    (hfind : NoFalseFind dangling [] (entries.map (·.2.name))) :
    Consumes (b.parseExportsSection dangling) (size ++ entries.flatMap (·.1))
      { b with exports := b.exports ++ entries.map (·.2) } := by
  refine (consumes_vectorSize _ hsize hlen).bind ?_
  exact (consumes_exports hentries hfind).bind_nil (.pure _)

theorem rejects_parseExportsSection (hsize : Consumes Leb128.decodeU32 size entries.length)
    (hlen : entries.length ≤ kMaxExports)
    (hentries : ∀ p ∈ entries, Consumes b.parseOneExport p.1 p.2)
    (hfind : ¬NoFalseFind dangling [] (entries.map (·.2.name))) :
    Rejects (b.parseExportsSection dangling) (size ++ entries.flatMap (·.1)) := by
  obtain ⟨msg, hmsg⟩ := exports_refused hentries hfind le_rfl
  exact (consumes_vectorSize _ hsize hlen).bind_rejects
    (Rejects.bind (fun rest n => ⟨_, hmsg rest n⟩) _)

variable {es : List (Name × ℕ)}

/-- The entries of exports of functions, with their encodings. -/
def functionEntries (es : List (Name × ℕ)) : List (List Byte × ModuleExport) :=
  es.map fun e => (encodeExport e, functionExport e)

theorem names_functionEntries : (functionEntries es).map (·.2.name) = es.map Prod.fst := by
  rw [functionEntries, List.map_map]
  rfl

theorem encodeVector_eq : encodeVector encodeExport es =
    Leb128.encodeU32 (functionEntries es).length ++ (functionEntries es).flatMap (·.1) := by
  rw [encodeVector, functionEntries, List.length_map, List.flatMap_map]

theorem consumes_functionEntries (hnames : ∀ e ∈ es, e.1.length ≤ kMaxNameLength)
    (hfunctions : b.functions.length < 2 ^ 32) (hidxs : ∀ e ∈ es, e.2 < b.functions.length) :
    ∀ p ∈ functionEntries es, Consumes b.parseOneExport p.1 p.2 := by
  intro p hp
  obtain ⟨e, he, rfl⟩ := List.mem_map.mp hp
  exact consumes_functionExport (hnames e he) (hidxs e he) hfunctions

theorem consumes_sizeOfEntries (hlen : es.length ≤ kMaxExports) :
    Consumes Leb128.decodeU32 (Leb128.encodeU32 (functionEntries es).length)
      (functionEntries es).length := by
  rw [functionEntries, List.length_map]
  exact Leb128.consumes_decodeU32 (hlen.trans_lt (by decide))

theorem consumes_functionExports (hlen : es.length ≤ kMaxExports)
    (hnames : ∀ e ∈ es, e.1.length ≤ kMaxNameLength) (hfunctions : b.functions.length < 2 ^ 32)
    (hidxs : ∀ e ∈ es, e.2 < b.functions.length)
    (hfind : NoFalseFind dangling [] (es.map Prod.fst)) :
    Consumes (b.parseExportsSection dangling) (encodeVector encodeExport es)
      { b with exports := b.exports ++ es.map functionExport } := by
  have h := consumes_parseExportsSection (consumes_sizeOfEntries hlen)
    (by rwa [functionEntries, List.length_map])
    (consumes_functionEntries hnames hfunctions hidxs) (names_functionEntries ▸ hfind)
  rwa [← encodeVector_eq, functionEntries, List.map_map] at h

theorem rejects_functionExports (hlen : es.length ≤ kMaxExports)
    (hnames : ∀ e ∈ es, e.1.length ≤ kMaxNameLength) (hfunctions : b.functions.length < 2 ^ 32)
    (hidxs : ∀ e ∈ es, e.2 < b.functions.length)
    (hfind : ¬NoFalseFind dangling [] (es.map Prod.fst)) :
    Rejects (b.parseExportsSection dangling) (encodeVector encodeExport es) := by
  rw [encodeVector_eq]
  exact rejects_parseExportsSection (consumes_sizeOfEntries hlen)
    (by rwa [functionEntries, List.length_map])
    (consumes_functionEntries hnames hfunctions hidxs) (names_functionEntries ▸ hfind)

end Exports

/-- Signature, locals and body of a function. -/
def Function.definition (f : Function) : BlockType × List ValType × List Instruction :=
  (f.meta_.signature, f.meta_.locals, f.body)

/-- **The entries of a code section**, each for the function that was declared at its place. -/
theorem consumes_codeEntries {ps : List (BlockType × CodeEntry)}
    (h : ∀ p ∈ ps, p.2.WellFormed p.1 ∧ p.1.parameterTypes.length ≤ kMaxFunctionParameters)
    (hsize : (ps.flatMap fun p => p.2.encode).length < 2 ^ 32) :
    ∃ fs, Consumes (Reader.forEach parseOneCode (ps.map fun p => declared p.1))
        (ps.flatMap fun p => p.2.encode) fs ∧
      fs.map Function.definition = ps.map fun p => (p.1, p.2.locals, p.2.body) := by
  induction ps with
  | nil => exact ⟨[], .pure [], rfl⟩
  | cons p ps ih =>
    rw [List.flatMap_cons, List.length_append] at hsize
    obtain ⟨hp, hparams⟩ := h p List.mem_cons_self
    -- the entry of the first function, and those of the others
    obtain ⟨v, hv⟩ := consumes_parseOneCode hp hparams (by omega)
    obtain ⟨fs, hfs, hdefs⟩ := ih (fun q hq => h q (List.mem_cons_of_mem p hq)) (by omega)
    refine ⟨p.2.function p.1 v :: fs, ?_, ?_⟩
    · rw [List.map_cons, forEach_cons, List.flatMap_cons]
      exact hv.bind (hfs.bind_nil (.pure _))
    · rw [List.map_cons, hdefs]
      rfl

theorem consumes_parseCodeSection {b : ModuleBuilder} {ps : List (BlockType × CodeEntry)}
    (hfunctions : b.functions = ps.map fun p => declared p.1)
    (h : ∀ p ∈ ps, p.2.WellFormed p.1 ∧ p.1.parameterTypes.length ≤ kMaxFunctionParameters)
    (hlen : ps.length < 2 ^ 32) (hsize : (ps.flatMap fun p => p.2.encode).length < 2 ^ 32) :
    ∃ fs, Consumes b.parseCodeSection
        (Leb128.encodeU32 ps.length ++ ps.flatMap fun p => p.2.encode) { b with functions := fs } ∧
      fs.map Function.definition = ps.map fun p => (p.1, p.2.locals, p.2.body) := by
  obtain ⟨fs, hfs, hdefs⟩ := consumes_codeEntries h hsize
  refine ⟨fs, (Leb128.consumes_decodeU32 hlen).bind ?_, hdefs⟩
  rw [if_neg (by rw [hfunctions, List.length_map, not_not])]
  rw [← hfunctions] at hfs
  exact hfs.bind_nil (.pure _)

/-! ### The stream of sections -/

namespace ModuleBuilder

variable {dangling : List Name → Name → Bool} {b b₁ b' : ModuleBuilder} {id : Byte}
  {contents rest : List Byte} {secs : List Section}

/-- A section whose size is what its parser reads. -/
theorem Sections.encoded (horder : b.InOrder id) (hlen : contents.length < 2 ^ 32)
    (hcontents : Consumes (parseSectionContents dangling id contents.length (b.enterSection id))
      contents b₁) (hrest : Sections dangling b₁ rest secs b') :
    Sections dangling b (encodeSection id contents ++ rest)
      (⟨id, contents.length, contents⟩ :: secs) b' :=
  .cons horder (Leb128.consumes_decodeU32 hlen) hcontents hrest

/-- The contents of the first section are not ones that its parser rejects. -/
theorem Sections.not_rejects {leb : List Byte} {size : ℕ}
    (h : Sections dangling b (id :: leb ++ contents ++ rest) secs b')
    (hsize : Consumes Leb128.decodeU32 leb size) :
    ¬Rejects (parseSectionContents dangling id size (b.enterSection id)) contents := by
  intro hrejects
  generalize hbytes : id :: leb ++ contents ++ rest = bytes at h
  cases h with
  | nil => cases hbytes
  | @cons _ b₁ _ id' size' leb' contents' rest' secs horder hsize' hcontents hrest =>
    -- the header is read from the same bytes
    simp only [List.cons_append, List.append_assoc] at hbytes
    obtain ⟨rfl, hheader⟩ := List.cons_eq_cons.mp hbytes
    obtain ⟨rfl, rfl, hafter⟩ := hsize.det hsize' hheader
    obtain ⟨e, he⟩ := hrejects rest 0
    rw [hafter, hcontents rest' 0] at he
    cases he

end ModuleBuilder

/-! ### Modules -/

/-- `ParseModule` consumes the encoding and returns the module. -/
def RoundTrips (dangling : List Name → Name → Bool) (m : WasmModule) : Prop :=
  ∃ parsed, parseModule dangling ⟨m.encode, 0⟩ = .ok (parsed, ⟨[], m.encode.length⟩) ∧
    parsed.functions.map Function.definition = m.definitions ∧
    ∀ name idx, parsed.exportedFunctions.lookup name = some idx ↔ (name, idx) ∈ m.exports

namespace WasmModule

variable {dangling : List Name → Name → Bool} {m : WasmModule}

/-- The functions before they have bodies. -/
def declarations (m : WasmModule) : List Function :=
  m.functions.map fun idx => declared (m.signature idx)

/-- The builder when the export section comes. -/
def declaring (m : WasmModule) : ModuleBuilder where
  latestSectionRead := 3
  funcSignatures := m.types
  functions := m.declarations

/-- The builder when the code section comes. -/
def exporting (m : WasmModule) : ModuleBuilder where
  latestSectionRead := 7
  funcSignatures := m.types
  functions := m.declarations
  exports := m.exports.map functionExport

/-- The sections fit the size field of their headers. -/
structure Fits (m : WasmModule) : Prop where
  types : (encodeVector BlockType.encode m.types).length < 2 ^ 32
  functions : (encodeVector Leb128.encodeU32 m.functions).length < 2 ^ 32
  exports : (encodeVector encodeExport m.exports).length < 2 ^ 32
  code : (encodeVector CodeEntry.encode m.code).length < 2 ^ 32

theorem WellFormed.fits (hm : m.WellFormed) : m.Fits := by
  have hsize := hm.size
  simp only [encode, encodeSection, encodeSized, List.length_append, List.length_cons] at hsize
  constructor <;> omega

/-- **The type section and the function section** are read, whatever comes after them. -/
theorem WellFormed.declares (hm : m.WellFormed) {rest : List Byte} {secs : List Section}
    {b' : ModuleBuilder} (hrest : Sections dangling m.declaring rest secs b') :
    ∃ s₁ s₂, Sections dangling {} (encodeSection 0x01#8 (encodeVector BlockType.encode m.types) ++
      (encodeSection 0x03#8 (encodeVector Leb128.encodeU32 m.functions) ++ rest))
      (s₁ :: s₂ :: secs) b' := by
  have hfunctions := consumes_parseFunctionDeclarationSection
    { latestSectionRead := 3, funcSignatures := m.types } hm.functions hm.functionTypes
    (hm.types.trans_lt (by decide))
  have htypes := consumes_parseSignatureSection { latestSectionRead := 1 } hm.types hm.signatures
  exact ⟨_, _, .encoded (Or.inr (by decide)) hm.fits.types htypes
    (.encoded (Or.inr (show 1 < 3 by decide)) hm.fits.functions hfunctions hrest)⟩

/-- The exports of a well-formed module are those of the declared functions. -/
theorem WellFormed.exported' (hm : m.WellFormed) :
    ∀ e ∈ m.exports, e.2 < m.declaring.functions.length := by
  intro e he
  have hlen : m.declaring.functions.length = m.functions.length := List.length_map ..
  rw [hlen]
  exact hm.exported e he

theorem WellFormed.declared_lt (hm : m.WellFormed) : m.declaring.functions.length < 2 ^ 32 := by
  have hlen : m.declaring.functions.length = m.functions.length := List.length_map ..
  rw [hlen]
  exact hm.functions.trans_lt (by decide)

/-- The bodies, each with the signature of its function. -/
def definedBodies (m : WasmModule) : List (BlockType × CodeEntry) :=
  (m.functions.zip m.code).map fun p => (m.signature p.1, p.2)

theorem WellFormed.declarations_eq (hm : m.WellFormed) :
    m.declarations = m.definedBodies.map fun p => declared p.1 := by
  have hfst : (m.functions.zip m.code).map Prod.fst = m.functions :=
    List.map_fst_zip (by rw [hm.code])
  rw [declarations, definedBodies, List.map_map]
  conv_lhs => rw [← hfst]
  rw [List.map_map]
  rfl

theorem WellFormed.code_eq (hm : m.WellFormed) : encodeVector CodeEntry.encode m.code =
    Leb128.encodeU32 m.definedBodies.length ++ m.definedBodies.flatMap fun p => p.2.encode := by
  have hsnd : (m.functions.zip m.code).map Prod.snd = m.code :=
    List.map_snd_zip (by rw [hm.code])
  have hlen : m.definedBodies.length = m.code.length := by
    rw [definedBodies, List.length_map, List.length_zip, hm.code, min_self]
  rw [encodeVector, hlen, definedBodies, List.flatMap_map]
  conv_lhs => rw [← hsnd]
  rw [List.flatMap_map, hsnd]

theorem WellFormed.bodies' (hm : m.WellFormed) : ∀ p ∈ m.definedBodies,
    p.2.WellFormed p.1 ∧ p.1.parameterTypes.length ≤ kMaxFunctionParameters := by
  intro p hp
  obtain ⟨q, hq, rfl⟩ := List.mem_map.mp hp
  refine ⟨hm.bodies q hq, ?_⟩
  have hlt := hm.functionTypes q.1 (List.of_mem_zip hq).1
  have hsig : m.signature q.1 ∈ m.types := by
    rw [signature, List.getD_eq_getElem _ _ hlt]
    exact List.getElem_mem hlt
  exact (hm.signatures _ hsig).parameters

/-- The map of the exports has the names of the module, and their indices. -/
theorem WellFormed.lookup_iff (hm : m.WellFormed) {b : ModuleBuilder}
    (hb : b.exports = m.exports.map functionExport) (name : Name) (idx : ℕ) :
    b.build.exportedFunctions.lookup name = some idx ↔ (name, idx) ∈ m.exports := by
  constructor
  · intro h
    obtain ⟨e, he, rfl, hidx⟩ := lookup_exportedFunctions h
    rw [hb] at he
    obtain ⟨p, hp, rfl⟩ := List.mem_map.mp he
    obtain rfl := ModuleExport.Description.funcIdx.inj hidx
    exact hp
  · intro hmem
    -- the names are distinct, so `emplace` never meets a key
    have hun : b.Unambiguous := by
      intro e he e' he' x y hname hx hy
      rw [hb] at he he'
      obtain ⟨p, hp, rfl⟩ := List.mem_map.mp he
      obtain ⟨q, hq, rfl⟩ := List.mem_map.mp he'
      obtain rfl := ModuleExport.Description.funcIdx.inj hx
      obtain rfl := ModuleExport.Description.funcIdx.inj hy
      rw [List.inj_on_of_nodup_map hm.distinct hp hq hname]
    have he : functionExport (name, idx) ∈ b.exports := by
      rw [hb]
      exact List.mem_map_of_mem hmem
    exact hun.lookup he rfl

/-- **Decoding after encoding**, if no lookup of a name goes wrong. -/
theorem WellFormed.roundTrips (hm : m.WellFormed)
    (hfind : NoFalseFind dangling [] (m.exports.map Prod.fst)) : RoundTrips dangling m := by
  have hexports := consumes_functionExports (b := { m.declaring with latestSectionRead := 7 })
    hm.exports hm.names hm.declared_lt hm.exported' hfind
  have hsize := hm.fits.code
  rw [hm.code_eq, List.length_append] at hsize
  have hlen : m.definedBodies.length < 2 ^ 32 := by
    rw [definedBodies, List.length_map, List.length_zip]
    exact (min_le_left _ _).trans_lt (hm.functions.trans_lt (by decide))
  obtain ⟨fs, hfs, hdefs⟩ := consumes_parseCodeSection
    (b := { m.exporting with latestSectionRead := 10 }) hm.declarations_eq hm.bodies' hlen
    (by omega)
  rw [← hm.code_eq] at hfs
  -- from the last section to the first
  have horder₁₀ : m.exporting.InOrder 0x0A#8 := Or.inr (show 7 < 10 by decide)
  have hcode : Sections dangling m.exporting _ _ _ := .encoded horder₁₀ hm.fits.code hfs .nil
  have horder₇ : m.declaring.InOrder 0x07#8 := Or.inr (show 3 < 7 by decide)
  obtain ⟨s₁, s₂, hall⟩ := hm.declares (.encoded horder₇ hm.fits.exports hexports hcode)
  rw [List.append_nil] at hall
  refine ⟨_, parseModule_eq_ok_iff.mpr ⟨rfl, _, _, ⟨_, rfl, hall⟩, rfl⟩, ?_, ?_⟩
  · show fs.map Function.definition = _
    rw [hdefs, definedBodies, List.map_map]
    rfl
  · exact hm.lookup_iff rfl

/-- A lookup that goes wrong makes the parser stop. -/
theorem WellFormed.noFalseFind (hm : m.WellFormed) (h : RoundTrips dangling m) :
    NoFalseFind dangling [] (m.exports.map Prod.fst) := by
  by_contra hno
  obtain ⟨parsed, hparse, -⟩ := h
  obtain ⟨-, secs, b, ⟨rest, hbytes, hsecs⟩, -⟩ := parseModule_eq_ok_iff.mp hparse
  obtain rfl := List.append_cancel_left hbytes
  have hnil : Sections dangling m.declaring [] [] m.declaring := .nil
  obtain ⟨s₁, s₂, hfirst⟩ := hm.declares hnil
  rw [List.append_nil] at hfirst
  rw [← List.append_assoc] at hsecs
  obtain ⟨secs', -, hrest⟩ := hfirst.of_append hsecs
  -- a lookup that is wrong makes the export section fail
  refine Sections.not_rejects hrest (Leb128.consumes_decodeU32 hm.fits.exports) ?_
  exact rejects_functionExports (b := { m.declaring with latestSectionRead := 7 }) hm.exports
    hm.names hm.declared_lt hm.exported' hno

end WasmModule

/-- Names that are found although they are new are found in sets that are not empty. -/
theorem noFalseFind_all_iff {names : List Name} :
    (∀ dangling, NoFalseFind dangling [] names) ↔ names.length ≤ 1 := by
  constructor
  · intro h
    match names with
    | [] => exact Nat.zero_le 1
    | [_] => exact le_rfl
    | _ :: _ :: _ =>
      -- a lookup that finds everything refuses the second name
      have hsecond := (h fun _ _ => true).2.1
      cases hsecond
  · intro hlen dangling
    match names with
    | [] => trivial
    | [_] => exact ⟨rfl, trivial⟩
    | _ :: _ :: _ => simp at hlen

/-- **Round trips of modules.** A well-formed module comes back from its encoding as long as no
lookup of an exported name finds one that is not there. This is so whatever the dangling views are
if and only if at most one function is exported. -/
theorem parseModule_roundTrips_iff (m : WasmModule) (hm : m.WellFormed) :
    (∀ dangling, RoundTrips dangling m ↔ NoFalseFind dangling [] (m.exports.map Prod.fst)) ∧
      ((∀ dangling, RoundTrips dangling m) ↔ m.exports.length ≤ 1) := by
  have hiff (dangling : List Name → Name → Bool) :
      RoundTrips dangling m ↔ NoFalseFind dangling [] (m.exports.map Prod.fst) :=
    ⟨hm.noFalseFind, hm.roundTrips⟩
  refine ⟨hiff, ?_⟩
  rw [forall_congr' hiff, noFalseFind_all_iff, List.length_map]

/-- One function that returns 7, exported under these names. -/
def sevenModule (names : List Name) : WasmModule where
  types := [⟨[], [.i32]⟩]
  functions := [0]
  exports := names.map fun name => (name, 0)
  code := [{ ops := [.constI32 7#32] }]

theorem sevenModule_wellFormed {names : List Name} (hnodup : names.Nodup)
    (hexports : names.length ≤ kMaxExports) (hnames : ∀ name ∈ names, name.length ≤ kMaxNameLength)
    (hsize : (sevenModule names).encode.length < 2 ^ 31) : (sevenModule names).WellFormed where
  types := show 1 ≤ 2 ^ 17 by decide
  signatures := by
    intro sig hsig
    obtain rfl := List.mem_singleton.mp hsig
    exact ⟨by decide, by decide, by decide, by decide⟩
  functions := show 1 ≤ 2 ^ 16 by decide
  functionTypes := by
    intro idx hidx
    obtain rfl := List.mem_singleton.mp hidx
    exact Nat.one_pos
  exports := by rwa [sevenModule, List.length_map]
  names := by
    intro e he
    obtain ⟨name, hname, rfl⟩ := List.mem_map.mp he
    exact hnames name hname
  distinct := by
    rw [sevenModule, List.map_map]
    exact (List.map_id names).symm ▸ hnodup
  exported := by
    intro e he
    obtain ⟨name, -, rfl⟩ := List.mem_map.mp he
    exact Nat.one_pos
  code := rfl
  bodies := by
    intro p hp
    obtain rfl := List.mem_singleton.mp hp
    exact ⟨by decide, by decide, _, rfl⟩
  size := hsize

theorem parseModule_roundTrips_iff_oneExport :
    (∀ dangling, RoundTrips dangling (sevenModule [[0x61#8]]) ↔
      NoFalseFind dangling [] ((sevenModule [[0x61#8]]).exports.map Prod.fst)) ∧
    ((∀ dangling, RoundTrips dangling (sevenModule [[0x61#8]])) ↔
      (sevenModule [[0x61#8]]).exports.length ≤ 1) :=
  parseModule_roundTrips_iff _
    (sevenModule_wellFormed (by decide) (by decide) (by decide) (by decide))

/-- One function under the names `a` and `b`: a lookup that finds `b` in the set of dangling views
makes the parser refuse the module. -/
theorem second_name_refused :
    (sevenModule [[0x61#8], [0x62#8]]).WellFormed ∧
    parseModule (fun _ _ => true) ⟨(sevenModule [[0x61#8], [0x62#8]]).encode, 0⟩ =
      .error (.parse "duplicate exported name: b") ∧
    ¬RoundTrips (fun _ _ => true) (sevenModule [[0x61#8], [0x62#8]]) := by
  have hrefused : parseModule (fun _ _ => true)
      ⟨(sevenModule [[0x61#8], [0x62#8]]).encode, 0⟩ =
        .error (.parse "duplicate exported name: b") := rfl
  refine ⟨sevenModule_wellFormed (by decide) (by decide) (by decide) (by decide), hrefused, ?_⟩
  rintro ⟨parsed, hparsed, -⟩
  rw [hrefused] at hparsed
  cases hparsed

end Wasmcc
