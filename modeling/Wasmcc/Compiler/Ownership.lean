import Wasmcc.Compiler.StackFit

/-!
# Who owns the registers

A register in use belongs to one element of the compile-time stack, or to an operand that a visitor
has popped and not released yet. `CompilerState.Owned` says this of a state alone, from the tracker
and the elements, without reference to the windows of `Compiler/Window.lean`; a state that a window
describes satisfies it (`Holds.owned`).

`compilers_own_registers` is the invariant over whole bodies: it holds before and after every
visited instruction and inside those that pop, and no allocation fails.
-/

namespace Wasmcc

open FunctionValidator StackMachine

/-- The registers recorded for the elements, from the top on. -/
def RuntimeStack.registers (s : RuntimeStack) : List Reg := s.stack.filterMap RuntimeValue.reg

/-- The registers in `held`, which belong to popped operands, and those of the elements are pairwise
distinct, and together they are exactly the registers in use. -/
structure CompilerState.Owned (s : CompilerState) (held : List Reg) : Prop where
  distinct : (held ++ s.stack.registers).Nodup
  inUse : ∀ r, s.regTracker.gpRegMask.test r = true ↔ r ∈ held ++ s.stack.registers

namespace Assembler

variable {ι : Type} (a : Assembler ι)

/-- Inside a visitor, a popped operand keeps its register until it is released: what is handed out
for another operand is a different one. -/
def OperandsOwned (s : CompilerState) : Instruction → Prop
  | .addI32 => ∃ x2 stack x2Reg s₂ code2 x1Reg s₁ code1,
      s.stack.pop = .ok (x2, stack) ∧ CompilerState.Owned { s with stack } x2.reg.toList ∧
      a.ensureInRegister { s with stack } x2 = .ok (x2Reg, s₂, code2) ∧ s₂.Owned [x2Reg] ∧
      a.ensureTopInRegister s₂ = .ok (x1Reg, s₁, code1) ∧ s₁.Owned [x2Reg] ∧ x1Reg ≠ x2Reg
  | .setLocalI32 _ => ∃ v stack vReg s₁ code,
      s.stack.pop = .ok (v, stack) ∧ CompilerState.Owned { s with stack } v.reg.toList ∧
      a.ensureInRegister { s with stack } v = .ok (vReg, s₁, code) ∧ s₁.Owned [vReg]
  | .constI32 _ | .getLocalI32 _ | .return_ | .label _ | .br _ | .brIf _ _ => True

/-- Compiling a body, wherever it is cut in two: the visitors of the first part succeed, every
register is owned at the cut and inside the visitor after it, and in the end the epilogue succeeds
too. -/
structure OwnsRegisters (frame : FunctionFrame) (exitLabel : Label) (capacity : ℕ)
    (body : List Instruction) : Prop where
  between : ∀ done rest, body = done ++ rest → ∃ s code,
    a.visitAll frame exitLabel { stack := { capacity } } done = .ok (s, code) ∧ s.Owned [] ∧
      ∀ i, rest.head? = some i → a.OperandsOwned s i
  allocates : ∃ code, a.compileBody frame exitLabel capacity body = .ok code

end Assembler

/-! ### Owned states -/

section Owned

variable {capacity : ℕ} {held : List Reg} {s : CompilerState} {w : Window}

theorem stackEntries_registers (locs : List (Option Reg)) :
    (stackEntries locs).filterMap RuntimeValue.reg = locs.filterMap id := by
  induction locs with
  | nil => rfl
  | cons reg below ih =>
    rw [stackEntries, List.filterMap_cons, List.filterMap_cons, ih]
    rfl

theorem Window.locations_registers (w : Window) : w.locations.filterMap id = w.regs := by
  unfold locations
  rw [List.filterMap_append, List.filterMap_map]
  simp

/-- **The window owns its registers.** -/
theorem Holds.owned {pool : RegisterMask} (h : Holds pool s capacity held w) : s.Owned held := by
  have hregs : s.stack.registers = w.regs := by
    rw [h.stack]
    show (stackEntries w.locations).filterMap RuntimeValue.reg = w.regs
    rw [stackEntries_registers, Window.locations_registers]
  constructor
  · rw [hregs]
    exact h.nodup
  · rw [hregs]
    exact h.used

/-- A pop moves the register of the element, if it has one, to the popped operand. -/
theorem CompilerState.Owned.pop (h : s.Owned []) {v : RuntimeValue} {stack : RuntimeStack}
    (hpop : s.stack.pop = .ok (v, stack)) :
    CompilerState.Owned { s with stack } v.reg.toList := by
  -- the register of the popped value is no more on the stack, but is held
  have hregs : v.reg.toList ++ stack.registers = s.stack.registers := by
    unfold RuntimeStack.pop at hpop
    split at hpop
    · cases hpop
    next top below hs =>
      obtain ⟨rfl, rfl⟩ := Prod.mk.inj (Except.ok.inj hpop)
      show top.reg.toList ++ below.filterMap RuntimeValue.reg = s.stack.stack.filterMap _
      rw [hs, List.filterMap_cons]
      cases top.reg with
      | none => rfl
      | some r => rfl
  constructor
  · show (v.reg.toList ++ stack.registers).Nodup
    rw [hregs]
    exact h.distinct
  · intro r
    show s.regTracker.gpRegMask.test r = true ↔ r ∈ v.reg.toList ++ stack.registers
    rw [hregs]
    exact h.inUse r

end Owned

/-! ### One visitor -/

namespace Assembler

variable {ι : Type} {a : Assembler ι} {capacity : ℕ} {s : CompilerState} {w : Window}
  {frame : FunctionFrame}

theorem operandsOwned_of_fits (h : Holds a.callerSaved s capacity [] w) {i : Instruction}
    (hfit : i.Fits capacity w.depth) : a.OperandsOwned s i := by
  cases i with
  | addI32 =>
    have htwo : 2 ≤ w.depth := hfit
    obtain ⟨x2, stack, x2Reg, w₁, code2, s₂, hpop, -, h2, hrel, hs₂⟩ :=
      pop_ensureInRegister h (by omega)
    have hdepth := hrel.depth
    obtain ⟨x1Reg, w₂, code1, s₁, h1, -, hs₁⟩ := ensureTopInRegister_spec hs₂ (by omega)
    refine ⟨x2, stack, x2Reg, s₂, code2, x1Reg, s₁, code1, hpop, h.owned.pop hpop, h2,
      hs₂.owned, h1, hs₁.owned, ?_⟩
    -- the first operand is the top of the window, and the second one is held beside it
    have hnodup : (x2Reg :: x1Reg :: w₂.regs).Nodup := hs₁.nodup
    have hne := (List.nodup_cons.mp hnodup).1
    exact fun he => hne (he ▸ List.mem_cons_self)
  | setLocalI32 idx =>
    have hone : 1 ≤ w.depth := hfit
    obtain ⟨v, stack, vReg, w₁, code, s₁, hpop, -, hv, -, hs₁⟩ := pop_ensureInRegister h hone
    exact ⟨v, stack, vReg, s₁, code, hpop, h.owned.pop hpop, hv, hs₁.owned⟩
  | constI32 value => trivial
  | getLocalI32 idx => trivial
  | return_ => trivial
  | label id => trivial
  | br id => trivial
  | brIf t e => trivial

/-! ### Whole bodies -/

theorem Visits.depth {exitLabel : Label} {w' : Window} {body : List Instruction} {code : List ι}
    (h : a.Visits frame exitLabel w body w' code) :
    w'.depth = body.foldl Instruction.depthAfter w.depth := by
  induction h with
  | nil => rfl
  | cons hi _ ih => rw [ih, hi.depth, List.foldl_cons]

end Assembler

namespace Instruction

/-- Bodies that fit one after the other. -/
theorem fitsAll_append {capacity results : ℕ} {rest : List Instruction} (done : List Instruction) :
    ∀ depth, FitsAll capacity results depth (done ++ rest) ↔
      FitsAll capacity 0 depth done ∧
        FitsAll capacity results (done.foldl depthAfter depth) rest := by
  induction done with
  | nil => exact fun depth => ⟨fun h => ⟨Nat.zero_le depth, h⟩, fun h => h.2⟩
  | cons i is ih =>
    intro depth
    show (i.Fits capacity depth ∧ FitsAll capacity results _ (is ++ rest)) ↔
      (i.Fits capacity depth ∧ FitsAll capacity 0 _ is) ∧ _
    rw [ih, and_assoc]
    rfl

end Instruction

namespace Assembler

variable {ι : Type} {capacity : ℕ} {frame : FunctionFrame}

/-- **A body that fits** keeps the invariant. -/
theorem ownsRegisters_of_fits (a : Assembler ι) (exitLabel : Label) {body : List Instruction}
    (hb : WellNamed frame body)
    (hfit : Instruction.FitsAll capacity (poppedResults frame.meta_.signature.resultTypes) 0 body) :
    a.OwnsRegisters frame exitLabel capacity body := by
  constructor
  · rintro done rest rfl
    -- the visitors so far have run, and the next one has its operands
    obtain ⟨hdone, hrest⟩ := (Instruction.fitsAll_append done 0).mp hfit
    obtain ⟨s, w, code, hv, hvisits, hs, -⟩ :=
      visitAll_of_fits exitLabel hb.beginning (Holds.new a.callerSaved capacity) hdone
    refine ⟨s, code, hv, hs.owned, ?_⟩
    intro i hi
    cases rest with
    | nil => cases hi
    | cons j js =>
      obtain rfl := Option.some.inj hi
      refine operandsOwned_of_fits hs ?_
      rw [hvisits.depth]
      exact hrest.1
  · obtain ⟨w, code, last, hc, -⟩ := compileBody_of_fits a frame exitLabel hb hfit
    exact ⟨_, hc⟩

end Assembler

/-- **Register ownership.** For every body that the validator accepts and that has no instruction
after a `Return`, the invariant holds throughout both compilers. -/
theorem compilers_own_registers (m : Function.Metadata) (body : List Instruction)
    (hcore : CoreBody body) (hdead : deadCode body = []) (v : FunctionValidator)
    (hv : validate m.signature m.locals body = .ok v) (exitLabel : Label) :
    X64.assembler.OwnsRegisters (.new m) exitLabel v.maximumStackElements body ∧
      Arm64.assembler.OwnsRegisters (.new m) exitLabel v.maximumStackElements body := by
  have hb := wellNamed_of_validate hcore hv
  -- without dead code, the validator has counted every push
  have hfit : Instruction.FitsAll v.maximumStackElements (poppedResults m.signature.resultTypes) 0
      body := by
    have hres : poppedResults m.signature.resultTypes ≤ m.signature.resultTypes.length :=
      min_le_right 1 _
    rw [validate_fitsAll_iff hcore hv le_rfl hres, hdead]
    exact hres
  exact ⟨X64.assembler.ownsRegisters_of_fits exitLabel hb hfit,
    Arm64.assembler.ownsRegisters_of_fits exitLabel hb hfit⟩

/-- Ten operands, one more than x64 has registers. -/
theorem compilers_own_registers_ten : ∃ v,
    validate ⟨[], [.i32]⟩ [] (.replicate 10 (.constI32 ⟨1⟩) ++ .replicate 9 .addI32) = .ok v ∧
    X64.assembler.OwnsRegisters (.new { signature := ⟨[], [.i32]⟩ }) 0 v.maximumStackElements
      (.replicate 10 (.constI32 ⟨1⟩) ++ .replicate 9 .addI32) ∧
    Arm64.assembler.OwnsRegisters (.new { signature := ⟨[], [.i32]⟩ }) 0 v.maximumStackElements
      (.replicate 10 (.constI32 ⟨1⟩) ++ .replicate 9 .addI32) :=
  ⟨_, rfl, compilers_own_registers { signature := ⟨[], [.i32]⟩ } _ (by decide) (by decide) _ rfl 0⟩

end Wasmcc
