import Wasmcc.Parser.Reading

/-!
# Function bodies, as they are parsed

`parseOneCode_eq` puts `ParseOneCode` into the form "read the declared size, then measure how many
bytes the contents take". From it come what a parsed function is: validated for its own signature
and locals (`isValidated_of_parseOneCode`), with at most as many locals as the limit allows, and
with a body no longer than the bytes it was read from.
-/

open Basis

namespace Wasmcc

open Reader

namespace FunctionValidator

theorem visitAll_append {v v' : FunctionValidator} {is : List Instruction}
    (h : v.visitAll is = .ok v') (js : List Instruction) :
    v.visitAll (is ++ js) = v'.visitAll js := by
  induction is generalizing v with
  | nil =>
    obtain rfl := Except.ok.inj h
    rfl
  | cons i is ih =>
    obtain ⟨v₁, h1, h2⟩ := bind_eq_ok.mp h
    rw [List.cons_append, visitAll, h1]
    exact ih h2

end FunctionValidator

namespace ModuleBuilder

/-! ### Expressions -/

theorem steady_parseExpression (validator : FunctionValidator) :
    Steady .endOfStream (parseExpression validator) :=
  (Steady.loop progress_parseNextOp steady_parseNextOp _).bind fun e => e.steady_finalize

/-- What `ParseExpression` returns: a body that the validator accepts, with the validator after
it. -/
structure Expression (v v' : FunctionValidator) (body : List Instruction) (c c' : Cursor) :
    Prop where
  valid : v.visitAll body >>= FunctionValidator.finalize = .ok v'
  bytes : c'.rest.length + (body.map Instruction.minBytes).sum ≤ c.rest.length

/-- **The loop of `ParseExpression`**: at its end the validator has visited what was emitted. -/
theorem parseExpression_eq_ok {v v' : FunctionValidator} {body : List Instruction} {c c' : Cursor}
    (h : parseExpression v c = .ok ((body, v'), c')) : Expression v v' body c c' := by
  obtain ⟨e, c₁, hloop, hfin⟩ := Reader.bind_eq_ok.mp h
  -- the validator has seen what was emitted, and every instruction took its bytes
  have hinv : v.visitAll e.instructions = .ok e.validator ∧
      c₁.rest.length + (e.instructions.map Instruction.minBytes).sum ≤ c.rest.length := by
    refine loop_induction (P := fun e d => v.visitAll e.instructions = .ok e.validator ∧
        d.rest.length + (e.instructions.map Instruction.minBytes).sum ≤ c.rest.length)
      (Q := fun e d => v.visitAll e.instructions = .ok e.validator ∧
        d.rest.length + (e.instructions.map Instruction.minBytes).sum ≤ c.rest.length)
      (fun e d e' d' hP hs => ?_) (fun e d e' d' hP hs => ?_) ⟨rfl, by simp⟩ hloop
    · obtain ⟨is, he⟩ := parseNextOp_inl hs
      have hbytes := he.bytes
      rw [he.instructions, FunctionValidator.visitAll_append hP.1, List.map_append, List.sum_append]
      exact ⟨he.validator, by omega⟩
    · obtain ⟨rfl, hrest⟩ := parseNextOp_inr hs
      have hlen := congrArg List.length hrest
      rw [List.length_cons] at hlen
      exact ⟨hP.1, by omega⟩
  -- the loop has ended, and `Finalize` decides
  unfold OpEmitter.finalize at hfin
  cases hv : e.validator.finalize with
  | error ex =>
    simp only [hv] at hfin
    exact absurd hfin fail_ne_ok
  | ok v₁ =>
    simp only [hv] at hfin
    obtain ⟨hr, rfl⟩ := pure_eq_ok.mp hfin
    obtain ⟨rfl, rfl⟩ := Prod.mk.inj hr
    exact ⟨by rw [hinv.1]; exact hv, hinv.2⟩

/-! ### Locals -/

theorem steady_parseLocalGroup (locals : List ValType) :
    Steady .endOfStream (parseLocalGroup locals) :=
  Leb128.steady_decodeU32.bind fun _ => .ite (.fail _) (steady_parseValType.bind fun _ => .pure _)

theorem parseLocalGroup_length (locals : List ValType) :
    Ensures (parseLocalGroup locals) fun locals' => locals'.length ≤ maxFunctionLocals := by
  refine .bind fun n => .ite (fun _ => .fail _ _) fun hle => .bind fun vt => .pure ?_
  rw [List.length_append, List.length_replicate]
  omega

/-! ### Code entries -/

/-- The part of `ParseOneCode` that its size is checked against. -/
def parseCodeContents (func : Function) :
    Reader Exception (List ValType × List Instruction × FunctionValidator) := do
  let vectorSize ← Leb128.decodeU32
  let locals ← Reader.iterate parseLocalGroup vectorSize func.meta_.locals
  let r ← parseExpression (FunctionValidator.new func.meta_.signature locals)
  pure (locals, r)

/-- The function that `ParseOneCode` makes of the contents. -/
def codeResult (func : Function) (r : List ValType × List Instruction × FunctionValidator) :
    Function where
  meta_ :=
    { signature := func.meta_.signature
      locals := r.1
      maxStackSizeBytes := BitVec.ofNat 32 r.2.2.maximumStackSizeBytes
      maxStackElements := BitVec.ofNat 32 r.2.2.maximumStackElements }
  body := r.2.1

theorem parseOneCode_eq (func : Function) : parseOneCode func = (do
    let expectedSize ← Leb128.decodeU32
    let (actual, r) ← measured (parseCodeContents func)
    if actual ≠ expectedSize then
      Reader.fail (.parse ("unexpected size of function, actual: " ++ toString actual
        ++ " expected: " ++ toString expectedSize))
    else pure (codeResult func r)) := by
  unfold parseOneCode measured parseCodeContents
  simp only [bind_assoc, pure_bind]
  rfl

theorem steady_parseCodeContents (func : Function) :
    Steady .endOfStream (parseCodeContents func) :=
  Leb128.steady_decodeU32.bind fun _ => (Steady.iterate steady_parseLocalGroup _ _).bind fun _ =>
    (steady_parseExpression _).bind fun _ => .pure _

theorem steady_parseOneCode (func : Function) : Steady .endOfStream (parseOneCode func) := by
  rw [parseOneCode_eq]
  exact Leb128.steady_decodeU32.bind fun _ => (steady_parseCodeContents func).measured.bind
    fun _ => .ite (.fail _) (.pure _)

theorem steady_parseCodeSection (b : ModuleBuilder) : Steady .endOfStream b.parseCodeSection :=
  Leb128.steady_decodeU32.bind fun _ => .ite (.fail _)
    ((Steady.forEach steady_parseOneCode _).bind fun _ => .pure _)

/-- **A code entry** is its declared size and that many bytes of contents. -/
theorem consumes_parseOneCode_iff {func f : Function} {entry : List Byte} :
    Consumes (parseOneCode func) entry f ↔ ∃ leb contents r, entry = leb ++ contents ∧
      Consumes Leb128.decodeU32 leb contents.length ∧
      Consumes (parseCodeContents func) contents r ∧ f = codeResult func r := by
  rw [parseOneCode_eq]
  constructor
  · intro h
    -- the size is read first, so the bytes split after it
    have hlocal := (steady_parseCodeContents func).isLocal.measured
    obtain ⟨leb, w, size, rfl, hsize, hw⟩ := Consumes.of_bind Leb128.local_decodeU32
      (fun _ => hlocal.bind fun _ => .ite (.fail _) (.pure _)) h
    obtain ⟨contents, x, ⟨actual, r⟩, rfl, hm, hx⟩ := Consumes.of_bind hlocal
      (fun _ => .ite (.fail _) (.pure _)) hw
    obtain ⟨rfl, hcons⟩ := hm.of_measured (steady_parseCodeContents func).isLocal
    obtain ⟨hne, hx⟩ := hx.of_guard
    obtain ⟨rfl, rfl⟩ := hx.of_pure
    -- the comparison of the sizes was passed
    have hlen : contents.length = size := not_not.mp hne
    exact ⟨leb, contents, r, by rw [List.append_nil], by rwa [hlen], hcons, rfl⟩
  · rintro ⟨leb, contents, r, rfl, hsize, hcons, rfl⟩
    refine hsize.bind (hcons.measured.bind_nil ?_)
    dsimp only
    rw [if_neg (not_not.mpr rfl)]
    exact .pure _

/-- **A code section** is a count and as many entries as functions were declared. -/
theorem parseCodeSection_entries {b b' : ModuleBuilder} {contents : List Byte}
    (h : Consumes b.parseCodeSection contents b') :
    ∃ (count : List Byte) (es : List (Function × List Byte × Function)),
      contents = count ++ es.flatMap (·.2.1) ∧ Consumes Leb128.decodeU32 count es.length ∧
      es.map (·.1) = b.functions ∧ b' = { b with functions := es.map (·.2.2) } ∧
      ∀ e ∈ es, Consumes (parseOneCode e.1) e.2.1 e.2.2 := by
  have hentry := fun func => (steady_parseOneCode func).isLocal
  have hlocal := Local.forEach hentry b.functions
  obtain ⟨count, w, n, rfl, hcount, hw⟩ := Consumes.of_bind Leb128.local_decodeU32
    (fun _ => .ite (.fail _) (hlocal.bind fun _ => .pure _)) h
  obtain ⟨hn, hw⟩ := hw.of_guard
  obtain ⟨entries, x, fs, rfl, hentries, hx⟩ := Consumes.of_bind hlocal (fun _ => .pure _) hw
  obtain ⟨rfl, rfl⟩ := hx.of_pure
  -- one entry for each declared function, in their order
  obtain ⟨es, hfuncs, rfl, rfl, hes⟩ := hentries.of_forEach hentry
  have hlen : n = es.length := by
    rw [not_not.mp hn, ← hfuncs, List.length_map]
  exact ⟨count, es, by rw [List.append_nil], by rwa [← hlen], hfuncs, rfl, hes⟩

/-- What the contents of a code entry say. -/
structure CodeContents (func : Function) (r : List ValType × List Instruction × FunctionValidator)
    (bytes : ℕ) : Prop where
  valid : FunctionValidator.validate func.meta_.signature r.1 r.2.1 = .ok r.2.2
  locals : func.meta_.locals.length ≤ maxFunctionLocals → r.1.length ≤ maxFunctionLocals
  minBytes : (r.2.1.map Instruction.minBytes).sum ≤ bytes

theorem parseCodeContents_eq_ok {func : Function} {contents : List Byte}
    {r : List ValType × List Instruction × FunctionValidator}
    (h : Consumes (parseCodeContents func) contents r) : CodeContents func r contents.length := by
  obtain ⟨n, c₁, h1, h2⟩ := Reader.bind_eq_ok.mp (h [] 0)
  obtain ⟨locals, c₂, h3, h4⟩ := Reader.bind_eq_ok.mp h2
  obtain ⟨⟨body, v⟩, c₃, h5, h6⟩ := Reader.bind_eq_ok.mp h4
  obtain ⟨rfl, rfl⟩ := pure_eq_ok.mp h6
  have he := parseExpression_eq_ok h5
  have hlen1 := Leb128.local_decodeU32.length_le h1
  have hlen2 := (Steady.iterate steady_parseLocalGroup _ _).isLocal.length_le h3
  refine ⟨he.valid, fun hfunc => ?_, ?_⟩
  · exact Ensures.iterate (fun s _ => parseLocalGroup_length s) n hfunc _ _ _ h3
  · -- the bytes of the expression are among those of the entry
    have hbytes := he.bytes
    simp only [List.append_nil, List.length_nil, Nat.zero_add] at hlen1 hbytes
    change (body.map Instruction.minBytes).sum ≤ contents.length
    omega

/-- **A parsed function is validated**, for the signature it was declared with. -/
theorem isValidated_of_parseOneCode {func f : Function} {entry : List Byte}
    (h : Consumes (parseOneCode func) entry f) :
    f.IsValidated ∧ f.meta_.signature = func.meta_.signature := by
  obtain ⟨leb, contents, r, -, -, hcons, rfl⟩ := consumes_parseOneCode_iff.mp h
  exact ⟨⟨r.2.2, (parseCodeContents_eq_ok hcons).valid, rfl, rfl⟩, rfl⟩

/-- The limits that a parsed function keeps. -/
theorem limits_of_parseOneCode {func f : Function} {entry : List Byte}
    (h : Consumes (parseOneCode func) entry f)
    (hlocals : func.meta_.locals.length ≤ maxFunctionLocals) :
    f.meta_.locals.length ≤ maxFunctionLocals ∧
      (f.body.map Instruction.minBytes).sum < 2 ^ 32 := by
  obtain ⟨leb, contents, r, -, hsize, hcons, rfl⟩ := consumes_parseOneCode_iff.mp h
  have hc := parseCodeContents_eq_ok hcons
  have hlt := Leb128.decodeU32_lt (hsize [] 0)
  exact ⟨hc.locals hlocals, lt_of_le_of_lt hc.minBytes hlt⟩

end ModuleBuilder

end Wasmcc
