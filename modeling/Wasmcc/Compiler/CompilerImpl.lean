import Wasmcc.Compiler.Labels
import Wasmcc.Compiler.X64
import Wasmcc.Compiler.Arm64

/-!
# Compiling modules

`CompilerImpl` of `compiler/compiler.cc`: one asmjit `CodeHolder` and one `JitRuntime` for all the
functions that a compiler is ever given. What asmjit does is assumed here, as its documentation has
it: an assembler attached to the holder appends to the end of its text section, and
`JitRuntime::add` copies the whole text section into fresh executable memory and returns the address
of its first byte.

Nothing ever empties the holder. So the copy made for a function starts with the code of the very
first function that this compiler compiled, and `compiledModule_entersOwnCode_iff` says that the
entry pointer of a function is right for that first function only.
-/

open Basis

namespace Wasmcc

/-- The text section of an asmjit `CodeHolder`, and how many labels it has handed out. -/
structure CodeHolder (ι : Type) where
  text : List ι := []
  labels : ℕ := 0

/-- An address in executable memory: a block, and a position in it. -/
structure CodeAddress where
  block : ℕ
  offset : ℕ
deriving DecidableEq

/-- The executable memory of an asmjit `JitRuntime`, block by block. -/
structure JitRuntime (ι : Type) where
  blocks : List (List ι) := []

/-- `JitRuntime::add`. -/
def JitRuntime.add {ι : Type} (r : JitRuntime ι) (holder : CodeHolder ι) :
    CodeAddress × JitRuntime ι :=
  (⟨r.blocks.length, 0⟩, ⟨r.blocks ++ [holder.text]⟩)

/-- The instructions from an address on. -/
def JitRuntime.codeAt {ι : Type} (r : JitRuntime ι) (p : CodeAddress) : List ι :=
  (r.blocks.getD p.block []).drop p.offset

structure CompiledFunction where
  ptr : CodeAddress
  meta_ : Function.Metadata

structure CompiledModule where
  functions : List CompiledFunction
  exportedFunctions : AList (fun _ : Name => ℕ)

structure CompilerImpl (ι : Type) where
  runtime : JitRuntime ι := {}
  codeHolder : CodeHolder ι := {}

namespace CompilerImpl

variable {ι : Type} (a : Assembler ι)

/-- `Compile` of one function. -/
def compileFunction (c : CompilerImpl ι) (func : Function) :
    Except Undefined (CompiledFunction × CompilerImpl ι) := do
  let exitLabel := c.codeHolder.labels
  let code ← a.compile exitLabel func
  let codeHolder := { text := c.codeHolder.text ++ code, labels := exitLabel + 1 }
  let (compiled, runtime) := c.runtime.add codeHolder
  return ({ ptr := compiled, meta_ := func.meta_ }, { runtime, codeHolder })

/-- The loop of `Compile` over the functions of a module. -/
def compileFunctions (c : CompilerImpl ι) :
    List Function → Except Undefined (List CompiledFunction × CompilerImpl ι)
  | [] => .ok ([], c)
  | func :: funcs => do
    let (compiled, c) ← c.compileFunction a func
    let (rest, c) ← compileFunctions c funcs
    return (compiled :: rest, c)

/-- `Compile` of a module. -/
def compile (c : CompilerImpl ι) (parsed : ParsedModule) :
    Except Undefined (CompiledModule × CompilerImpl ι) := do
  let (functions, c) ← c.compileFunctions a parsed.functions
  return ({ functions, exportedFunctions := parsed.exportedFunctions }, c)

/-- Calls of `Compile` one after the other. -/
def compileAll (c : CompilerImpl ι) : List ParsedModule → Except Undefined (CompilerImpl ι)
  | [] => .ok c
  | m :: ms => do
    let (_, c) ← c.compile a m
    compileAll c ms

end CompilerImpl

/-- The address holds the code that was generated for `func`, whose exit label is `exitLabel`, from
its first instruction on. -/
def EntersOwnCode {ι : Type} (a : Assembler ι) (runtime : JitRuntime ι) (exitLabel : Label)
    (func : Function) (p : CodeAddress) : Prop :=
  ∃ code, a.compile exitLabel func = .ok code ∧ code <+: runtime.codeAt p

/-! ### The text section after any calls -/

variable {ι : Type} {t : Target ι}

namespace CompilerImpl

/-- The text section holds the code of as many functions as labels were handed out, and each label
in it is one of these. -/
structure Inv (t : Target ι) (c : CompilerImpl ι) : Prop where
  empty : c.codeHolder.labels = 0 → c.codeHolder.text = []
  bound : 0 < c.codeHolder.labels → ∃ i ∈ c.codeHolder.text, ∃ l, t.isa.binds i = some l
  below : ∀ i ∈ c.codeHolder.text, ∀ l, t.isa.binds i = some l → l < c.codeHolder.labels

theorem Inv.new (t : Target ι) : Inv t {} where
  empty _ := rfl
  bound h := absurd h (lt_irrefl 0)
  below _ hi := absurd hi List.not_mem_nil

/-- `r'` still has the blocks of `r`. -/
def Extends (r r' : JitRuntime ι) : Prop := r.blocks <+: r'.blocks

theorem codeAt_of_extends {r r' : JitRuntime ι} (h : Extends r r') {p : CodeAddress}
    (hp : p.block < r.blocks.length) : r'.codeAt p = r.codeAt p := by
  obtain ⟨more, hm⟩ := h
  rw [JitRuntime.codeAt, JitRuntime.codeAt, ← hm, List.getD_append _ _ _ _ hp]

variable {c c' : CompilerImpl ι}

/-- **One function**: its code goes to the end of the text, and its pointer to the start. -/
theorem compileFunction_eq_ok {func : Function} {cf : CompiledFunction}
    (h : c.compileFunction t.toAssembler func = .ok (cf, c')) :
    ∃ code, t.compile c.codeHolder.labels func = .ok code ∧
      c'.codeHolder.text = c.codeHolder.text ++ code ∧
      c'.codeHolder.labels = c.codeHolder.labels + 1 ∧
      cf.ptr.block < c'.runtime.blocks.length ∧
      c'.runtime.codeAt cf.ptr = c.codeHolder.text ++ code ∧ Extends c.runtime c'.runtime := by
  obtain ⟨code, hc, hr⟩ := bind_eq_ok.mp h
  obtain ⟨rfl, rfl⟩ := Prod.mk.inj (Except.ok.inj hr)
  refine ⟨code, hc, rfl, rfl, ?_, ?_, ⟨[c.codeHolder.text ++ code], rfl⟩⟩
  · -- the new block is the last one
    change c.runtime.blocks.length < (c.runtime.blocks ++ [c.codeHolder.text ++ code]).length
    simp
  · change ((c.runtime.blocks ++ [c.codeHolder.text ++ code]).getD c.runtime.blocks.length
      []).drop 0 = _
    simp

theorem Inv.compileFunction (hc : Inv t c) {func : Function} {cf : CompiledFunction}
    (h : c.compileFunction t.toAssembler func = .ok (cf, c')) : Inv t c' := by
  obtain ⟨code, hcode, htext, hlabels, -⟩ := compileFunction_eq_ok h
  obtain ⟨pre, post, rfl, hpre, hpost⟩ := Target.compile_binds hcode
  refine ⟨fun h0 => ?_, fun _ => ?_, fun i hi l hl => ?_⟩
  · rw [hlabels] at h0
    exact absurd h0 (Nat.succ_ne_zero _)
  · rw [htext]
    exact ⟨t.bind c.codeHolder.labels, by simp, _, t.binds_bind _⟩
  · rw [htext] at hi
    rw [hlabels]
    -- the text before, then this function with its one label
    rcases List.mem_append.mp hi with hi | hi
    · exact Nat.lt_succ_of_lt (hc.below i hi l hl)
    · rcases List.mem_append.mp hi with hi | hi
      · rw [hpre i hi] at hl
        cases hl
      · rcases List.mem_cons.mp hi with rfl | hi
        · rw [t.binds_bind] at hl
          obtain rfl := Option.some.inj hl
          exact Nat.lt_succ_self _
        · rw [hpost i hi] at hl
          cases hl

/-- **The pointer of one function is right** exactly when nothing was compiled before it. -/
theorem Inv.entersOwnCode_iff (hc : Inv t c) {func : Function} {cf : CompiledFunction}
    (h : c.compileFunction t.toAssembler func = .ok (cf, c')) :
    EntersOwnCode t.toAssembler c'.runtime c.codeHolder.labels func cf.ptr ↔
      c.codeHolder.labels = 0 := by
  obtain ⟨code, hcode, -, -, -, hat, -⟩ := compileFunction_eq_ok h
  -- the pointer is to the text, so the question is what stands at its front
  have hown : EntersOwnCode t.toAssembler c'.runtime c.codeHolder.labels func cf.ptr ↔
      code <+: c.codeHolder.text ++ code := by
    rw [← hat]
    refine ⟨?_, fun hp => ⟨code, hcode, hp⟩⟩
    rintro ⟨code', hcode', hp⟩
    obtain rfl := Except.ok.inj (hcode.symm.trans hcode')
    exact hp
  rw [hown]
  constructor
  · rintro ⟨more, hm⟩
    by_contra h0
    obtain ⟨pre, post, rfl, hpre, hpost⟩ := Target.compile_binds hcode
    rcases List.append_eq_append_iff.mp hm with ⟨mid, h1, -⟩ | ⟨mid, h1, -⟩
    · -- the text would hold this function's label already
      have hmem : t.bind c.codeHolder.labels ∈ c.codeHolder.text := by simp [h1]
      exact lt_irrefl _ (hc.below _ hmem _ (t.binds_bind _))
    · -- or this function's code would hold an earlier label
      obtain ⟨i, hi, l, hl⟩ := hc.bound (Nat.pos_of_ne_zero h0)
      have hlt := hc.below i hi l hl
      have hmem : i ∈ pre ++ t.bind c.codeHolder.labels :: post := by
        rw [h1]
        exact List.mem_append_left mid hi
      rcases List.mem_append.mp hmem with hm | hm
      · rw [hpre i hm] at hl
        cases hl
      · rcases List.mem_cons.mp hm with rfl | hm
        · rw [t.binds_bind] at hl
          obtain rfl := Option.some.inj hl
          exact lt_irrefl _ hlt
        · rw [hpost i hm] at hl
          cases hl
  · intro h0
    rw [hc.empty h0, List.nil_append]

/-! ### Modules and sequences of modules -/

/-- What the loop over the functions of a module leaves. -/
structure After (t : Target ι) (c c' : CompilerImpl ι) (functions : ℕ) : Prop where
  inv : Inv t c'
  labels : c'.codeHolder.labels = c.codeHolder.labels + functions
  extends_ : Extends c.runtime c'.runtime

theorem compileFunctions_after {funcs : List Function} :
    ∀ {c c' : CompilerImpl ι} {compiled : List CompiledFunction}, Inv t c →
      c.compileFunctions t.toAssembler funcs = .ok (compiled, c') →
      After t c c' funcs.length := by
  induction funcs with
  | nil =>
    intro c c' compiled hc h
    obtain ⟨-, rfl⟩ := Prod.mk.inj (Except.ok.inj h)
    exact ⟨hc, rfl, List.prefix_refl _⟩
  | cons func funcs ih =>
    intro c c' compiled hc h
    obtain ⟨⟨cf, c₁⟩, h1, h2⟩ := bind_eq_ok.mp h
    obtain ⟨⟨rest, c₂⟩, h3, hr⟩ := bind_eq_ok.mp h2
    obtain ⟨-, rfl⟩ := Prod.mk.inj (Except.ok.inj hr)
    obtain ⟨code, -, -, hlabels, -, -, hext⟩ := compileFunction_eq_ok h1
    -- the label counter of the first function is where the others begin
    have hrest := ih (hc.compileFunction h1) h3
    refine ⟨hrest.inv, ?_, hext.trans hrest.extends_⟩
    rw [hrest.labels, hlabels, List.length_cons]
    omega

theorem compileFunctions_entersOwnCode_iff {funcs : List Function} :
    ∀ {c c' : CompilerImpl ι} {compiled : List CompiledFunction}, Inv t c →
      c.compileFunctions t.toAssembler funcs = .ok (compiled, c') →
      ∀ {i : ℕ} {func : Function}, funcs[i]? = some func →
      ∃ cf, compiled[i]? = some cf ∧
        (EntersOwnCode t.toAssembler c'.runtime (c.codeHolder.labels + i) func cf.ptr ↔
          c.codeHolder.labels + i = 0) := by
  induction funcs with
  | nil => intro c c' compiled hc h i func hi; cases hi
  | cons func funcs ih =>
    intro c c' compiled hc h i func' hi
    obtain ⟨⟨cf, c₁⟩, h1, h2⟩ := bind_eq_ok.mp h
    obtain ⟨⟨rest, c₂⟩, h3, hr⟩ := bind_eq_ok.mp h2
    obtain ⟨rfl, rfl⟩ := Prod.mk.inj (Except.ok.inj hr)
    obtain ⟨code, -, -, hlabels, hblock, -, -⟩ := compileFunction_eq_ok h1
    have hc₁ := hc.compileFunction h1
    cases i with
    | zero =>
      obtain rfl := Option.some.inj hi
      refine ⟨cf, rfl, ?_⟩
      -- code that is added later leaves the block as it is
      rw [EntersOwnCode, codeAt_of_extends (compileFunctions_after hc₁ h3).extends_ hblock]
      exact hc.entersOwnCode_iff h1
    | succ i =>
      obtain ⟨cf', hcf', hiff⟩ := ih hc₁ h3 (show funcs[i]? = some func' from hi)
      rw [show c₁.codeHolder.labels + i = c.codeHolder.labels + (i + 1) by
        rw [hlabels]; omega] at hiff
      exact ⟨cf', hcf', hiff⟩

/-- How many functions the modules have. -/
def functionCount (ms : List ParsedModule) : ℕ := (ms.map fun m => m.functions.length).sum

theorem compileAll_after {ms : List ParsedModule} : ∀ {c c' : CompilerImpl ι}, Inv t c →
    c.compileAll t.toAssembler ms = .ok c' → After t c c' (functionCount ms) := by
  induction ms with
  | nil =>
    intro c c' hc h
    obtain rfl := Except.ok.inj h
    exact ⟨hc, rfl, List.prefix_refl _⟩
  | cons m ms ih =>
    intro c c' hc h
    obtain ⟨⟨compiled, c₁⟩, h1, h2⟩ := bind_eq_ok.mp h
    obtain ⟨⟨functions, c₂⟩, h3, hr⟩ := bind_eq_ok.mp h1
    obtain ⟨-, rfl⟩ := Prod.mk.inj (Except.ok.inj hr)
    have hm := compileFunctions_after hc h3
    have hms := ih hm.inv h2
    refine ⟨hms.inv, ?_, hm.extends_.trans hms.extends_⟩
    -- the labels of the first module and of the others add up
    rw [hms.labels, hm.labels, functionCount, functionCount, List.map_cons, List.sum_cons]
    omega

end CompilerImpl

open CompilerImpl

/-- **Which entry pointers are right.** On a compiler that has compiled the modules `earlier`, the
pointer of function `i` of the next module addresses the code of that function if and only if none
of the earlier modules had a function and `i` is 0. -/
theorem compiledModule_entersOwnCode_iff {ι : Type} (t : Target ι) (earlier : List ParsedModule)
    (parsed : ParsedModule) (c c' : CompilerImpl ι) (compiled : CompiledModule)
    (hearlier : CompilerImpl.compileAll t.toAssembler {} earlier = .ok c)
    (hcompiled : c.compile t.toAssembler parsed = .ok (compiled, c')) (i : ℕ) (func : Function)
    (hfunc : parsed.functions[i]? = some func) :
    ∃ cf, compiled.functions[i]? = some cf ∧
      (EntersOwnCode t.toAssembler c'.runtime (functionCount earlier + i) func cf.ptr ↔
        (∀ m ∈ earlier, m.functions = []) ∧ i = 0) := by
  have hafter := compileAll_after (Inv.new t) hearlier
  have hlabels : c.codeHolder.labels = functionCount earlier := by
    rw [hafter.labels]
    exact Nat.zero_add _
  obtain ⟨⟨functions, c₁⟩, h1, hr⟩ := bind_eq_ok.mp hcompiled
  obtain ⟨rfl, rfl⟩ := Prod.mk.inj (Except.ok.inj hr)
  obtain ⟨cf, hcf, hiff⟩ := compileFunctions_entersOwnCode_iff hafter.inv h1 hfunc
  refine ⟨cf, hcf, ?_⟩
  -- no labels have been handed out exactly if no function was compiled before
  rw [hlabels] at hiff
  rw [hiff, Nat.add_eq_zero_iff, functionCount, List.sum_eq_zero_iff]
  simp

/-- A module of two functions that return the constants 1 and 2. -/
def twoConstants : ParsedModule where
  functions := [1, 2].map fun v =>
    { meta_ := { signature := ⟨[], [.i32]⟩, maxStackSizeBytes := 4, maxStackElements := 1 }
      body := [.constI32 ⟨v⟩] }
  exportedFunctions := ∅

theorem compiledModule_entersOwnCode_iff_twoConstants :
    ∃ compiled c', CompilerImpl.compile X64.assembler {} twoConstants = .ok (compiled, c') ∧
      ∃ func, twoConstants.functions[1]? = some func ∧ ∃ cf, compiled.functions[1]? = some cf ∧
        (EntersOwnCode X64.assembler c'.runtime (0 + 1) func cf.ptr ↔
          (∀ m ∈ ([] : List ParsedModule), m.functions = []) ∧ 1 = 0) :=
  ⟨_, _, rfl, _, rfl, compiledModule_entersOwnCode_iff X64.target [] twoConstants _ _ _ rfl rfl 1 _
    rfl⟩

/-- Calling the second of the two functions runs the first one. -/
theorem entersOwnCode_fails_for_second :
    ∃ compiled c', CompilerImpl.compile X64.assembler {} twoConstants = .ok (compiled, c') ∧
      ∃ func cf, twoConstants.functions[1]? = some func ∧ compiled.functions[1]? = some cf ∧
        ¬EntersOwnCode X64.assembler c'.runtime 1 func cf.ptr ∧
        (X64.isa.call (c'.runtime.codeAt cf.ptr) ⟨fun _ => 0, 0x1000, false, fun _ => 0, 0⟩).map
          (fun m => m.lo X64.rax) = some 1 := by
  refine ⟨_, _, rfl, _, _, rfl, rfl, ?_, by decide +kernel⟩
  rintro ⟨code, hc, hp⟩
  obtain rfl := Except.ok.inj hc
  revert hp
  decide +kernel

end Wasmcc
