import Wasmcc.Compiler.CompilerImpl

/-!
# Where entry pointers lead

`Compiler/CompilerImpl.lean` says which entry pointers are right. Here is what the others are: since
every copy of the text section starts with the code of the first function that the compiler ever
compiled, calling any pointer is calling that function.
-/

open Basis

namespace Wasmcc

variable {ι : Type} {t : Target ι}

namespace CompilerImpl

variable {c c' : CompilerImpl ι} {funcs : List Function}

/-- The compiler has compiled these functions since it was made. -/
structure HasCompiled (t : Target ι) (c : CompilerImpl ι) (funcs : List Function) : Prop where
  labels : c.codeHolder.labels = funcs.length
  empty : funcs = [] → c.codeHolder.text = []
  first : ∀ f₀, funcs.head? = some f₀ →
    ∃ code, t.compile 0 f₀ = .ok code ∧ code <+: c.codeHolder.text

theorem HasCompiled.new (t : Target ι) : HasCompiled t {} [] where
  labels := rfl
  empty _ := rfl
  first _ h := by cases h

/-- One more function. Its pointer is to a copy of the text section. -/
theorem HasCompiled.compileFunction (h : HasCompiled t c funcs) {func : Function}
    {cf : CompiledFunction} (hc : c.compileFunction t.toAssembler func = .ok (cf, c')) :
    HasCompiled t c' (funcs ++ [func]) ∧ c'.runtime.codeAt cf.ptr = c'.codeHolder.text := by
  obtain ⟨code, hcode, htext, hlabels, -, hat, -⟩ := compileFunction_eq_ok hc
  refine ⟨⟨?_, fun hnil => ?_, fun f₀ hf₀ => ?_⟩, hat.trans htext.symm⟩
  · rw [hlabels, h.labels, List.length_append]
    rfl
  · exact absurd hnil (by simp)
  · cases funcs with
    | nil =>
      -- it is the first one
      obtain rfl : func = f₀ := Option.some.inj hf₀
      rw [h.labels] at hcode
      exact ⟨code, hcode, by rw [htext, h.empty rfl]; exact List.prefix_refl _⟩
    | cons f fs =>
      obtain ⟨code₀, hcode₀, hfront⟩ := h.first f₀ hf₀
      exact ⟨code₀, hcode₀, htext ▸ hfront.trans (List.prefix_append _ _)⟩

/-- **The pointers of a module's functions** all enter the first function. -/
theorem HasCompiled.compileFunctions {more : List Function} :
    ∀ {c c' : CompilerImpl ι} {funcs : List Function} {compiled : List CompiledFunction},
      Inv t c → HasCompiled t c funcs → c.compileFunctions t.toAssembler more = .ok (compiled, c') →
      HasCompiled t c' (funcs ++ more) ∧ ∀ cf ∈ compiled, ∀ f₀, (funcs ++ more).head? = some f₀ →
        EntersOwnCode t.toAssembler c'.runtime 0 f₀ cf.ptr := by
  induction more with
  | nil =>
    intro c c' funcs compiled _ h hc
    obtain ⟨rfl, rfl⟩ := Prod.mk.inj (Except.ok.inj hc)
    rw [List.append_nil]
    exact ⟨h, fun cf hcf => absurd hcf List.not_mem_nil⟩
  | cons func more ih =>
    intro c c' funcs compiled hinv h hc
    obtain ⟨⟨cf, c₁⟩, h1, h2⟩ := bind_eq_ok.mp hc
    obtain ⟨⟨rest, c₂⟩, h3, hr⟩ := bind_eq_ok.mp h2
    obtain ⟨rfl, rfl⟩ := Prod.mk.inj (Except.ok.inj hr)
    obtain ⟨hone, hat⟩ := h.compileFunction h1
    obtain ⟨hall, hrest⟩ := ih (hinv.compileFunction h1) hone h3
    rw [List.append_assoc, List.singleton_append] at hall hrest
    refine ⟨hall, fun cf' hcf' f₀ hf₀ => ?_⟩
    rcases List.mem_cons.mp hcf' with rfl | hcf'
    · obtain ⟨-, -, -, -, hblock, -, -⟩ := compileFunction_eq_ok h1
      have hextends := (compileFunctions_after (hinv.compileFunction h1) h3).extends_
      -- the function at the head was compiled by then
      have hf₀' : (funcs ++ [func]).head? = some f₀ := by
        cases funcs with
        | nil => exact hf₀
        | cons f fs => exact hf₀
      obtain ⟨code, hcode, hfront⟩ := hone.first f₀ hf₀'
      exact ⟨code, hcode, by rw [codeAt_of_extends hextends hblock, hat]; exact hfront⟩
    · exact hrest cf' hcf' f₀ hf₀

/-- The functions of the modules, in the order in which they are compiled. -/
def functionsOf (ms : List ParsedModule) : List Function := ms.flatMap (·.functions)

theorem HasCompiled.compileAll {ms : List ParsedModule} :
    ∀ {c c' : CompilerImpl ι} {funcs : List Function}, Inv t c → HasCompiled t c funcs →
      c.compileAll t.toAssembler ms = .ok c' → HasCompiled t c' (funcs ++ functionsOf ms) := by
  induction ms with
  | nil =>
    intro c c' funcs _ h hc
    obtain rfl := Except.ok.inj hc
    rwa [functionsOf, List.flatMap_nil, List.append_nil]
  | cons m ms ih =>
    intro c c' funcs hinv h hc
    obtain ⟨⟨compiled, c₁⟩, h1, h2⟩ := bind_eq_ok.mp hc
    obtain ⟨⟨functions, c₂⟩, h3, hr⟩ := bind_eq_ok.mp h1
    obtain ⟨-, rfl⟩ := Prod.mk.inj (Except.ok.inj hr)
    -- one module, then the others
    have hms := ih (compileFunctions_after hinv h3).inv (h.compileFunctions hinv h3).1 h2
    rwa [List.append_assoc] at hms

/-- The pointers of a module that was compiled after others. -/
theorem entersFirst {earlier : List ParsedModule} {parsed : ParsedModule}
    {compiled : CompiledModule}
    (hearlier : CompilerImpl.compileAll t.toAssembler {} earlier = .ok c)
    (hcompiled : c.compile t.toAssembler parsed = .ok (compiled, c')) {f₀ : Function}
    (hf₀ : (functionsOf (earlier ++ [parsed])).head? = some f₀) :
    ∃ code, t.compile 0 f₀ = .ok code ∧
      ∀ cf ∈ compiled.functions, code <+: c'.runtime.codeAt cf.ptr := by
  obtain ⟨⟨functions, c₁⟩, h1, hr⟩ := bind_eq_ok.mp hcompiled
  obtain ⟨rfl, rfl⟩ := Prod.mk.inj (Except.ok.inj hr)
  -- all functions that were ever compiled are in the text, in their order
  have hinv := (compileAll_after (Inv.new t) hearlier).inv
  have hbefore := HasCompiled.compileAll (Inv.new t) (.new t) hearlier
  obtain ⟨hafter, hpointers⟩ := hbefore.compileFunctions hinv h1
  have hfuncs : [] ++ functionsOf earlier ++ parsed.functions =
      functionsOf (earlier ++ [parsed]) := by
    simp [functionsOf]
  rw [hfuncs] at hafter hpointers
  obtain ⟨code, hcode, -⟩ := hafter.first f₀ hf₀
  refine ⟨code, hcode, fun cf hcf => ?_⟩
  -- so the code at every pointer starts with the first of them
  obtain ⟨code', hcode', hfront⟩ := hpointers cf hcf f₀ hf₀
  obtain rfl := Except.ok.inj (hcode.symm.trans hcode')
  exact hfront

end CompilerImpl

open CompilerImpl

/-- **Every entry pointer calls the first function.** Whatever modules were compiled before, calling
the entry pointer of any function of the next module does what the code of the very first function
that this compiler was given does. -/
theorem compiledModule_callsFirst {ι : Type} (t : Target ι) (earlier : List ParsedModule)
    (parsed : ParsedModule) (c c' : CompilerImpl ι) (compiled : CompiledModule)
    (hearlier : CompilerImpl.compileAll t.toAssembler {} earlier = .ok c)
    (hcompiled : c.compile t.toAssembler parsed = .ok (compiled, c')) (f₀ : Function)
    (hf₀ : (functionsOf (earlier ++ [parsed])).head? = some f₀) :
    ∃ code, t.compile 0 f₀ = .ok code ∧ ∀ cf ∈ compiled.functions, ∀ s s',
      t.isa.call code s = some s' → t.isa.call (c'.runtime.codeAt cf.ptr) s = some s' := by
  obtain ⟨code, hcode, hfront⟩ := entersFirst hearlier hcompiled hf₀
  exact ⟨code, hcode, fun cf hcf s s' => Isa.call_prefix (hfront cf hcf)⟩

/-- The functions of a second module call the first function of the first one. -/
theorem compiledModule_callsFirst_twoConstants :
    ∃ c compiled c', CompilerImpl.compileAll X64.assembler {} [twoConstants] = .ok c ∧
      c.compile X64.assembler twoConstants = .ok (compiled, c') ∧
      ∃ f₀ code, twoConstants.functions[0]? = some f₀ ∧ X64.target.compile 0 f₀ = .ok code ∧
        ∀ cf ∈ compiled.functions, ∀ s s', X64.target.isa.call code s = some s' →
          X64.target.isa.call (c'.runtime.codeAt cf.ptr) s = some s' := by
  obtain ⟨code, hcode, hcalls⟩ := compiledModule_callsFirst X64.target [twoConstants] twoConstants
    _ _ _ rfl rfl _ rfl
  exact ⟨_, _, _, rfl, rfl, _, code, rfl, hcode, hcalls⟩

end Wasmcc
