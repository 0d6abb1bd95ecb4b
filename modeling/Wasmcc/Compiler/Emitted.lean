import Wasmcc.Compiler.StackFit
import Wasmcc.Parser.Guarantees

/-!
# The instructions that are emitted

`Emitted` lists what the visitors emit for a body, with the registers and the stack slots that can
occur in each place: registers are always allocated ones, and slots are those of elements that are
on the stack. `Visits.emitted` says that the list is complete.

A function that the parser accepts (`Function.Accepted`) is compiled to a prologue, such
instructions, and an epilogue (`Function.Accepted.compiled`).
-/

open Basis

namespace Wasmcc

open FunctionValidator StackMachine Reader ModuleBuilder

namespace Assembler

variable {ι : Type} (a : Assembler ι)

/-- The instructions emitted for a body, when its stack has at most `depth` elements. -/
inductive Emitted (frame : FunctionFrame) (exitLabel : Label) (depth : ℕ)
    (body : List Instruction) : ι → Prop
  /-- A spill, below an element that is being pushed. -/
  | spill {k : ℕ} {r : Reg} (hk : k + 1 < depth) :
      Emitted frame exitLabel depth body (a.store (BitVec.ofNat 32 (4 * (k + 1))) (Reg.r32 r))
  | reload {k : ℕ} {r : Reg} (hk : k < depth) (hr : a.callerSaved.test r = true) :
      Emitted frame exitLabel depth body (a.load (Reg.r32 r) (BitVec.ofNat 32 (4 * (k + 1))))
  | const {r : Reg} (value : BitVec 32) (hr : a.callerSaved.test r = true) :
      Emitted frame exitLabel depth body (a.const r value)
  | add {x1 x2 : Reg} (hr : a.callerSaved.test x1 = true) :
      Emitted frame exitLabel depth body (a.add x1 x2)
  | get {idx : ℕ} {offset : BitVec 32} {r : Reg} (hidx : .getLocalI32 idx ∈ body)
      (ho : frame.localStackOffset idx = .ok offset) (hr : a.callerSaved.test r = true) :
      Emitted frame exitLabel depth body (a.load (Reg.r32 r) offset)
  | set {idx : ℕ} {offset : BitVec 32} {r : Reg} (hidx : .setLocalI32 idx ∈ body)
      (ho : frame.localStackOffset idx = .ok offset) (hr : a.callerSaved.test r = true) :
      Emitted frame exitLabel depth body (a.setLocal offset r)
  | jump (hret : .return_ ∈ body) : Emitted frame exitLabel depth body (a.jump exitLabel)

variable {a} {frame : FunctionFrame} {exitLabel : Label} {w w' : Window} {r : Reg} {code : List ι}
  {depth depth' : ℕ} {body body' : List Instruction}

theorem Emitted.mono {i : ι} (h : a.Emitted frame exitLabel depth body i) (hd : depth ≤ depth')
    (hb : body ⊆ body') : a.Emitted frame exitLabel depth' body' i := by
  cases h with
  | spill hk => exact .spill (hk.trans_le hd)
  | reload hk hr => exact .reload (hk.trans_le hd) hr
  | const value hr => exact .const value hr
  | add hr => exact .add hr
  | get hidx ho hr => exact .get (hb hidx) ho hr
  | set hidx ho hr => exact .set (hb hidx) ho hr
  | jump hret => exact .jump (hb hret)

/-! ### One instruction -/

theorem mem_spillCode {k : ℕ} {rs : List Reg} {i : ι} (h : i ∈ a.spillCode k rs) :
    ∃ r j, j < k + rs.length ∧ i = a.store (BitVec.ofNat 32 (4 * (j + 1))) (Reg.r32 r) := by
  induction rs with
  | nil => cases h
  | cons r rs ih =>
    rw [spillCode, List.mem_append, List.mem_singleton] at h
    rcases h with h | rfl
    · obtain ⟨r', j, hj, rfl⟩ := ih h
      exact ⟨r', j, hj.trans (by simp), rfl⟩
    · exact ⟨r, k + rs.length, by simp, rfl⟩

/-- **A register for a new value**: it may be allocated, and the spills are below the new
element. -/
theorem Acquire.emitted (h : a.Acquire w r w' code) (hw : w.Valid a.callerSaved)
    (hd : w.depth < depth) : a.callerSaved.test r = true ∧ w'.Valid a.callerSaved ∧
      ∀ i ∈ code, a.Emitted frame exitLabel depth body i := by
  cases h with
  | free hp hr => exact ⟨hp, hw.push hr hp, fun i hi => absurd hi List.not_mem_nil⟩
  | @spill r rs k hfull =>
    refine ⟨hw.pool r List.mem_cons_self, ⟨hw.nodup, hw.pool⟩, fun i hi => ?_⟩
    obtain ⟨q, j, hj, rfl⟩ := mem_spillCode hi
    have hdepth : Window.depth ⟨r :: rs, k⟩ = (r :: rs).length + k := rfl
    exact .spill (by omega)

/-- **A value popped**: its register may be allocated, and it is not one of those left. -/
theorem Release.emitted {held : List Reg} (h : a.Release held w r w' code)
    (hw : w.Valid a.callerSaved) (hd : w.depth ≤ depth) : (w'.push r).Valid a.callerSaved ∧
      ∀ i ∈ code, a.Emitted frame exitLabel depth body i := by
  cases h with
  | reg => exact ⟨hw, fun i hi => absurd hi List.not_mem_nil⟩
  | @reload r k hp hr =>
    refine ⟨⟨List.nodup_singleton r, fun q hq => ?_⟩, fun i hi => ?_⟩
    · obtain rfl := List.mem_singleton.mp hq
      exact hp
    · obtain rfl := List.mem_singleton.mp hi
      have hdepth : Window.depth ⟨[], k + 1⟩ = 0 + (k + 1) := rfl
      exact .reload (by omega) hp

theorem Visit.emitted {i : Instruction} (h : a.Visit frame exitLabel w i w' code)
    (hw : w.Valid a.callerSaved) (hd : max w.depth (i.depthAfter w.depth) ≤ depth)
    (hi : i ∈ body) :
    w'.Valid a.callerSaved ∧ ∀ j ∈ code, a.Emitted frame exitLabel depth body j := by
  -- the depth before and after is within the bound, and so is every spill on the way
  have hd1 := (le_max_left _ _).trans hd
  have hd2 := (le_max_right _ _).trans hd
  cases h with
  | const value hr =>
    have hlt : w.depth < depth := hd2
    obtain ⟨hp, hw', hcode⟩ := hr.emitted hw hlt
    refine ⟨hw', fun j hj => ?_⟩
    simp only [List.mem_append, List.mem_singleton] at hj
    rcases hj with (hj | rfl) | rfl
    · exact hcode j hj
    · exact .reload hlt hp
    · exact .const _ hp
  | @add w₁ w₂ x1 x2 code2 code1 h2 h1 =>
    obtain ⟨hw₁, hcode2⟩ := h2.emitted hw hd1
    have hdepth := h2.depth
    have hle : w₁.depth ≤ depth := by omega
    obtain ⟨hw₂, hcode1⟩ := h1.emitted hw₁.below.2 hle
    refine ⟨hw₂, fun j hj => ?_⟩
    simp only [List.mem_append, List.mem_singleton] at hj
    rcases hj with (hj | hj) | rfl
    · exact hcode2 j hj
    · exact hcode1 j hj
    · exact .add (hw₂.pool x1 List.mem_cons_self)
  | get hr ho =>
    have hlt : w.depth < depth := hd2
    obtain ⟨hp, hw', hcode⟩ := hr.emitted hw hlt
    refine ⟨hw', fun j hj => ?_⟩
    rcases List.mem_append.mp hj with hj | hj
    · exact hcode j hj
    · obtain rfl := List.mem_singleton.mp hj
      exact .get hi ho hp
  | @set _ r code idx offset hr ho =>
    obtain ⟨hw', hcode⟩ := hr.emitted hw hd1
    refine ⟨hw'.below.2, fun j hj => ?_⟩
    rcases List.mem_append.mp hj with hj | hj
    · exact hcode j hj
    · obtain rfl := List.mem_singleton.mp hj
      exact .set hi ho (hw'.pool r List.mem_cons_self)
  | return_ =>
    refine ⟨hw, fun j hj => ?_⟩
    obtain rfl := List.mem_singleton.mp hj
    exact .jump hi

/-! ### Bodies -/

theorem Visits.emitted {sub : List Instruction} (h : a.Visits frame exitLabel w sub w' code)
    (hw : w.Valid a.callerSaved) (hd : Instruction.maxDepth w.depth sub ≤ depth)
    (hsub : sub ⊆ body) :
    w'.Valid a.callerSaved ∧ ∀ j ∈ code, a.Emitted frame exitLabel depth body j := by
  induction h with
  | nil => exact ⟨hw, fun j hj => absurd hj List.not_mem_nil⟩
  | @cons w w₁ w₂ i is code rest hi his ih =>
    have hmax : max w.depth (Instruction.maxDepth (i.depthAfter w.depth) is) ≤ depth := hd
    -- both the depth in front and the depth behind are below the greatest one
    have hself := Instruction.le_maxDepth (i.depthAfter w.depth) is
    have hstep : max w.depth (i.depthAfter w.depth) ≤ depth := by omega
    obtain ⟨hw₁, hcode⟩ := hi.emitted hw hstep (hsub List.mem_cons_self)
    have hnext := hi.depth
    obtain ⟨hw₂, hrest⟩ := ih hw₁ (by rw [hnext]; omega)
      (fun j hj => hsub (List.mem_cons_of_mem i hj))
    exact ⟨hw₂, fun j hj => (List.mem_append.mp hj).elim (hcode j) (hrest j)⟩

/-- The code of a body is the code of its parts. -/
theorem Visits.of_append {done rest : List Instruction}
    (h : a.Visits frame exitLabel w (done ++ rest) w' code) :
    ∃ w₁ code₁ code₂, code = code₁ ++ code₂ ∧ a.Visits frame exitLabel w done w₁ code₁ ∧
      a.Visits frame exitLabel w₁ rest w' code₂ := by
  induction done generalizing w code with
  | nil => exact ⟨w, [], code, rfl, .nil, h⟩
  | cons i is ih =>
    cases h with
    | cons hi his =>
      obtain ⟨w₂, code₁, code₂, rfl, h₁, h₂⟩ := ih his
      exact ⟨w₂, _, code₂, (List.append_assoc _ _ _).symm, .cons hi h₁, h₂⟩

end Assembler

/-! ### Functions that the parser accepts -/

/-- `ParseOneCode` returned the function, for a declaration made by the earlier sections. -/
def Function.Accepted (f : Function) : Prop :=
  ∃ func entry, func.Guaranteed ∧ Consumes (parseOneCode func) entry f

/-- The depth of the stack is bounded by the length of the body. -/
theorem maxDepth_le_minBytes (body : List Instruction) : ∀ n,
    Instruction.maxDepth n body ≤ n + (body.map Instruction.minBytes).sum := by
  induction body with
  | nil => exact fun n => Nat.le_add_right n 0
  | cons i is ih =>
    intro n
    have hstep : i.depthAfter n ≤ n + i.minBytes := by
      cases i <;> simp only [Instruction.depthAfter, Instruction.minBytes] <;> omega
    have hrest := ih (i.depthAfter n)
    rw [List.map_cons, List.sum_cons, Instruction.maxDepth]
    omega

namespace Function.Accepted

variable {f : Function}

theorem isValidated (h : f.Accepted) : f.IsValidated := by
  obtain ⟨func, entry, -, hparse⟩ := h
  exact (isValidated_of_parseOneCode hparse).1

theorem limited (h : f.Accepted) : f.meta_.signature.Limited := by
  obtain ⟨func, entry, hfunc, hparse⟩ := h
  rw [(isValidated_of_parseOneCode hparse).2]
  exact hfunc.signature

theorem maxDepth_lt (h : f.Accepted) : Instruction.maxDepth 0 f.body < 2 ^ 32 := by
  obtain ⟨func, entry, hfunc, hparse⟩ := h
  have hbytes := (limits_of_parseOneCode hparse (hfunc.locals.trans (by decide))).2
  have hle := maxDepth_le_minBytes f.body 0
  omega

/-- **An accepted function is compiled.** -/
theorem compiled {ι : Type} (a : Assembler ι) (exitLabel : Label) (h : f.Accepted)
    (hcore : CoreBody f.body) (hdead : deadCode f.body = []) (hargs : 6 ≤ a.gpArgs.length) :
    ∃ code, a.compile exitLabel f = .ok code ∧ a.Compiled exitLabel f code := by
  obtain ⟨hnamed, hfit⟩ := h.isValidated.fitsAll hcore hdead h.maxDepth_lt
  exact Assembler.compile_of_fits exitLabel hnamed (h.limited.parameters.trans hargs) hfit

end Function.Accepted

/-- A function that was only declared is one that an entry without code would define, if it has no
result. -/
theorem accepted_of_no_result {sig : BlockType} (hsig : sig.Limited) (h : sig.resultTypes = []) :
    Function.Accepted { meta_ := { signature := sig } } := by
  obtain ⟨params, results⟩ := sig
  obtain rfl : results = [] := h
  refine ⟨{ meta_ := { signature := ⟨params, []⟩ } }, [0x02#8] ++ [0x00#8, 0x0B#8],
    ⟨hsig, Nat.zero_le _, fun i hi => absurd hi List.not_mem_nil⟩, ?_⟩
  exact consumes_parseOneCode_iff.mpr ⟨_, _, _, rfl, fun _ _ => rfl, fun _ _ => rfl, rfl⟩

/-- A parameter is returned. -/
def returnFn : Function where
  meta_ := { signature := ⟨[.i32], [.i32]⟩, maxStackSizeBytes := 4, maxStackElements := 1 }
  body := [.getLocalI32 0, .return_]

theorem returnFn_accepted : returnFn.Accepted := by
  refine ⟨{ meta_ := { signature := ⟨[.i32], [.i32]⟩ } },
    [0x05#8] ++ [0x00#8, 0x20#8, 0x00#8, 0x0F#8, 0x0B#8],
    ⟨⟨by decide, by decide⟩, by decide, fun i hi => absurd hi List.not_mem_nil⟩, ?_⟩
  exact consumes_parseOneCode_iff.mpr ⟨_, _, _, rfl, fun _ _ => rfl, fun _ _ => rfl, rfl⟩

namespace ModuleBuilder

variable {dangling : List Name → Name → Bool} {b b' : ModuleBuilder} {bytes : List Byte}
  {secs : List Section}

/-- **With a code section** every function of the module is accepted. -/
theorem Sections.accepted (h : Sections dangling b bytes secs b') (hb : b.Guaranteed)
    (hcode : ∃ s ∈ secs, s.id = 0x0A#8) : ∀ f ∈ b'.functions, f.Accepted := by
  induction h with
  | nil => obtain ⟨s, hs, -⟩ := hcode; exact absurd hs List.not_mem_nil
  | @cons b b₁ b' id size leb contents rest secs horder hsize hcontents hrest ih =>
    by_cases hid : id = 0x0A#8
    · subst hid
      have hframe := frame_parseSectionContents dangling 0x0A#8 size _ _ _ _ (hcontents [] 0)
      rw [hrest.functions_of_done (by rw [hframe.latestSectionRead]; exact le_rfl)]
      obtain ⟨count, es, -, -, hfuncs, rfl, hes⟩ := parseCodeSection_entries
        (show Consumes (b.enterSection 0x0A#8).parseCodeSection contents b₁ from hcontents)
      intro f hf
      obtain ⟨e, he, rfl⟩ := List.mem_map.mp hf
      -- the entry was parsed for one of the functions declared before
      have hdeclared : e.1 ∈ b.functions := by
        rw [← enterSection_functions b 0x0A#8, ← hfuncs]
        exact List.mem_map_of_mem he
      exact ⟨e.1, e.2.1, hb.functions _ hdeclared, hes e he⟩
    · refine ih (hb.parseSection horder hcontents) ?_
      obtain ⟨s, hs, hsid⟩ := hcode
      rcases List.mem_cons.mp hs with rfl | hs
      · exact absurd hsid hid
      · exact ⟨s, hs, hsid⟩

end ModuleBuilder

end Wasmcc
