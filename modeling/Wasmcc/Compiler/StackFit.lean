import Wasmcc.Compiler.Compiled
import Wasmcc.Compiler.X64
import Wasmcc.Compiler.Arm64
import Wasmcc.Parser.ValidatorSound

/-!
# Do validated bodies fit the compiler's stack?

The validator and the compiler count the elements of the operand stack separately. Up to the first
`Return` their counts agree (`Reachable.visit_fits`), so a stack of `maximumStackElements()`
elements is enough there. `Return` then makes the validator forget the stack, while the compiler
still has the result values on it; from there on each goes by its own count.

`Assembler.stackSafe_iff` is the exact condition: the code after the first `Return` fits when
it is visited from a stack of as many elements as there are results.
-/

namespace Wasmcc

open FunctionValidator StackMachine

namespace Instruction

theorem LocalsI32.below {types : List ValType} {i : Instruction} (h : i.LocalsI32 types) :
    i.LocalsBelow types.length := by
  cases i with
  | getLocalI32 idx => exact (List.getElem?_eq_some_iff.mp h).1
  | setLocalI32 idx => exact (List.getElem?_eq_some_iff.mp h).1
  | constI32 value => trivial
  | addI32 => trivial
  | return_ => trivial
  | label id => trivial
  | br id => trivial
  | brIf t e => trivial

end Instruction

namespace FunctionValidator

variable {v v' v₁ v₂ : FunctionValidator} {n : ℕ}

theorem visit_maxStackSize_le {i : Instruction} (h : v.visit i = .ok v') :
    v.maxStackSize ≤ v'.maxStackSize := by
  obtain ⟨v₁, hpop, rfl⟩ := visit_eq_ok h
  rw [← (popAll_frame hpop).maxStackSize]
  cases i with
  | constI32 | addI32 | getLocalI32 => exact le_max_left _ _
  | setLocalI32 | return_ | label | br | brIf => exact le_rfl

theorem visitAll_maxStackSize_le {body : List Instruction} : ∀ {v v' : FunctionValidator},
    v.visitAll body = .ok v' → v.maxStackSize ≤ v'.maxStackSize := by
  induction body with
  | nil =>
    intro v v' h
    obtain rfl := Except.ok.inj h
    exact le_rfl
  | cons i is ih =>
    intro v v' h
    obtain ⟨v₁, h1, h2⟩ := bind_eq_ok.mp h
    exact (visit_maxStackSize_le h1).trans (ih h2)

/-- **In reachable code the two counts agree**: what the validator accepts fits a stack of its
maximal size. -/
theorem Reachable.visit_fits (hr : v.Reachable n) {i : Instruction} (hi : i ≠ .return_)
    (hcore : i.isCore = true) (h : v.visit i = .ok v') :
    i.Fits v'.maxStackSize n ∧ v'.Reachable (i.depthAfter n) := by
  -- a pushed element is counted in the maximum
  have hpush {u : FunctionValidator} {k : ℕ} (hu : u.Reachable k) :
      k < (u.push (.val .i32)).maxStackSize := by
    have : k + 1 ≤ (u.push (.val .i32)).maxStackSize := by
      rw [push_maxStackSize, hu.underlying, List.length_replicate]
      exact le_max_right _ _
    omega
  cases i with
  | constI32 value =>
    obtain rfl := Except.ok.inj h
    exact ⟨hpush hr, hr.push_i32⟩
  | addI32 =>
    obtain ⟨v₁, h1, h2⟩ := bind_eq_ok.mp h
    obtain ⟨v₂, h3, h4⟩ := bind_eq_ok.mp h2
    obtain rfl := Except.ok.inj h4
    -- in reachable code a pop takes an element that is there
    obtain ⟨-, k, rfl, hr1⟩ := hr.pop h1
    obtain ⟨-, j, rfl, hr2⟩ := hr1.pop h3
    exact ⟨Nat.le_add_left 2 j, hr2.push_i32⟩
  | getLocalI32 idx =>
    obtain ⟨u, h1, h2⟩ := bind_eq_ok.mp h
    obtain rfl := Except.ok.inj h2
    exact ⟨hpush hr, hr.push_i32⟩
  | setLocalI32 idx =>
    obtain ⟨v₁, h1, h2⟩ := bind_eq_ok.mp h
    obtain ⟨u, h3, h4⟩ := bind_eq_ok.mp h2
    obtain rfl := Except.ok.inj h4
    obtain ⟨-, k, rfl, hr1⟩ := hr.pop h1
    exact ⟨Nat.le_add_left 1 k, hr1⟩
  | return_ => exact absurd rfl hi
  | label id => cases hcore
  | br id => cases hcore
  | brIf t e => cases hcore

/-- At a `Return` in reachable code, the stack is as high as there are results. -/
theorem Reachable.visit_return (hr : v.Reachable n) (h : v.visit .return_ = .ok v') :
    n = v.returns.length := by
  obtain ⟨v₁, h1, h2⟩ := bind_eq_ok.mp h
  obtain ⟨u, h3, -⟩ := bind_eq_ok.mp h2
  rw [hr.results h1 (assertEmpty_eq_ok.mp h3), List.length_replicate]

theorem Reachable.finalize (hr : v.Reachable n) (h : v.finalize = .ok v') :
    n = v.returns.length := by
  obtain ⟨v₁, h1, h2⟩ := bind_eq_ok.mp h
  obtain ⟨u, h3, -⟩ := bind_eq_ok.mp h2
  rw [hr.results h1 (assertEmpty_eq_ok.mp h3), List.length_replicate]

end FunctionValidator

open FunctionValidator

/-- A larger array fits no less. -/
theorem Instruction.Fits.mono {i : Instruction} {capacity capacity' depth : ℕ}
    (h : i.Fits capacity depth) (hc : capacity ≤ capacity') : i.Fits capacity' depth := by
  cases i with
  | constI32 value => exact lt_of_lt_of_le h hc
  | getLocalI32 idx => exact lt_of_lt_of_le h hc
  | addI32 => exact h
  | setLocalI32 idx => exact h
  | return_ => trivial
  | label id => trivial
  | br id => trivial
  | brIf t e => trivial

/-- **An accepted body fits if and only if its dead code does**, visited with the results on the
stack. -/
theorem fitsAll_iff_deadCode {body : List Instruction} (hcore : CoreBody body)
    {capacity results : ℕ} : ∀ {v v₁ v₂ : FunctionValidator} {n : ℕ}, v.Reachable n →
      v.visitAll body = .ok v₁ → v₁.finalize = .ok v₂ → v₁.maxStackSize ≤ capacity →
      results ≤ v.returns.length →
      (Instruction.FitsAll capacity results n body ↔
        Instruction.FitsAll capacity results v.returns.length (deadCode body)) := by
  induction body with
  | nil =>
    intro v v₁ v₂ n hr hv hf hc hres
    obtain rfl := Except.ok.inj hv
    rw [hr.finalize hf]
    rfl
  | cons i is ih =>
    intro v v₁ v₂ n hr hv hf hc hres
    obtain ⟨v', h1, h2⟩ := bind_eq_ok.mp hv
    by_cases hi : i = .return_
    · subst hi
      -- the first `Return`: what follows is dead code
      obtain rfl := hr.visit_return h1
      exact ⟨fun h => h.2, fun h => ⟨trivial, h⟩⟩
    -- code in front of it fits, and is left out on the other side
    · obtain ⟨hfit, hr'⟩ := hr.visit_fits hi hcore.head h1
      have hsig := (visit_signature h1).2
      have hmax := visitAll_maxStackSize_le h2
      rw [deadCode_cons hi, ← hsig, ← ih hcore.tail hr' h2 hf hc (by rw [hsig]; exact hres)]
      exact ⟨fun h => h.2, fun h => ⟨hfit.mono (hmax.trans hc), h⟩⟩

/-- The same for a whole validator run. -/
theorem validate_fitsAll_iff {ft : BlockType} {locals : List ValType} {body : List Instruction}
    (hcore : CoreBody body) {v : FunctionValidator} (hv : validate ft locals body = .ok v)
    {capacity results : ℕ} (hc : v.maximumStackElements ≤ capacity)
    (hres : results ≤ ft.resultTypes.length) :
    Instruction.FitsAll capacity results 0 body ↔
      Instruction.FitsAll capacity results ft.resultTypes.length (deadCode body) := by
  obtain ⟨v₁, h1, h2⟩ := bind_eq_ok.mp hv
  -- `Finalize` only pops, so the maximum is that of the body
  have hmax : v.maxStackSize = v₁.maxStackSize := by
    obtain ⟨v₂, h3, h4⟩ := bind_eq_ok.mp h2
    obtain ⟨u, -, h5⟩ := bind_eq_ok.mp h4
    obtain rfl := Except.ok.inj h5
    exact (popAll_frame h3).maxStackSize
  exact fitsAll_iff_deadCode (v := FunctionValidator.new ft locals) hcore ⟨rfl, rfl⟩ h1 h2
    (hmax ▸ hc) hres

/-- An accepted body only names locals that its frame has. -/
theorem wellNamed_of_validate {m : Function.Metadata} {body : List Instruction}
    (hcore : CoreBody body) {v : FunctionValidator}
    (hv : validate m.signature m.locals body = .ok v) : Assembler.WellNamed (.new m) body := by
  obtain ⟨v₁, h1, -⟩ := bind_eq_ok.mp hv
  refine ⟨hcore, fun i hi => ?_⟩
  rw [FunctionFrame.new_localsStackOffset_length]
  exact (visitAll_locals h1 i hi).below

/-! ### The maxima of a body without dead code -/

/-- A validator in reachable code, with its counts of bytes. -/
structure Counted (v : FunctionValidator) (n : ℕ) : Prop where
  reachable : v.Reachable n
  le_max : n ≤ v.maxStackSize
  current : v.currentMemoryUsage = 4 * n
  usage : v.maxMemoryUsage = 4 * v.maxStackSize

namespace Counted

variable {v v' : FunctionValidator} {n : ℕ}

theorem push (h : Counted v n) (hn : 4 * (n + 1) < 2 ^ 64) :
    Counted (v.push (.val .i32)) (n + 1) := by
  have hcur : (v.push (.val .i32)).currentMemoryUsage = 4 * (n + 1) := by
    change (v.currentMemoryUsage + 4) % 2 ^ 64 = _
    rw [h.current]
    omega
  -- there are `n` operands in front of the push
  have hmax : (v.push (.val .i32)).maxStackSize = max v.maxStackSize (n + 1) := by
    rw [push_maxStackSize, h.reachable.underlying, List.length_replicate]
  refine ⟨h.reachable.push_i32, ?_, hcur, ?_⟩
  · rw [hmax]
    exact le_max_right _ _
  · change max v.maxMemoryUsage (v.push (.val .i32)).currentMemoryUsage = _
    rw [hcur, hmax, h.usage]
    omega

theorem pop (h : Counted v (n + 1)) (hn : 4 * (n + 1) < 2 ^ 64) (hp : v.pop (.val .i32) = .ok v') :
    Counted v' n := by
  have hframe := pop_frame hp
  -- in live code there is an operand to pop
  obtain ⟨-, k, hk, hr⟩ := h.reachable.pop hp
  obtain rfl : n = k := by omega
  have hu := h.reachable.underlying
  rw [List.replicate_succ] at hu
  rw [pop_cons hu, if_pos (accepts_val.mpr (Or.inr rfl))] at hp
  have hle := h.le_max
  refine ⟨hr, by rw [hframe.maxStackSize]; omega, ?_, ?_⟩
  · obtain rfl := Except.ok.inj hp
    change (v.currentMemoryUsage + 2 ^ 64 - 4) % 2 ^ 64 = 4 * n
    rw [h.current]
    omega
  · rw [hframe.maxMemoryUsage, hframe.maxStackSize, h.usage]

/-- One instruction before the first `Return`. -/
theorem visit (h : Counted v n) {i : Instruction} (hi : i ≠ .return_) (hcore : i.isCore = true)
    (hn : 4 * max n (i.depthAfter n) < 2 ^ 64) (hv : v.visit i = .ok v') :
    Counted v' (i.depthAfter n) ∧ v'.maxStackSize = max v.maxStackSize (i.depthAfter n) := by
  have hle := h.le_max
  -- the maximum after a push
  have hmax {u : FunctionValidator} {k : ℕ} (hu : u.Reachable k) :
      (u.push (.val .i32)).maxStackSize = max u.maxStackSize (k + 1) := by
    rw [push_maxStackSize, hu.underlying, List.length_replicate]
  cases i with
  | constI32 value =>
    obtain rfl := Except.ok.inj hv
    exact ⟨h.push (by simp only [Instruction.depthAfter] at hn; omega), hmax h.reachable⟩
  | addI32 =>
    obtain ⟨v₁, h1, h2⟩ := bind_eq_ok.mp hv
    obtain ⟨v₂, h3, h4⟩ := bind_eq_ok.mp h2
    obtain rfl := Except.ok.inj h4
    obtain ⟨-, k, rfl, hr1⟩ := h.reachable.pop h1
    obtain ⟨-, j, rfl, hr2⟩ := hr1.pop h3
    -- two elements are popped and one is pushed
    have hc1 := h.pop (by omega) h1
    have hc2 := hc1.pop (by omega) h3
    refine ⟨hc2.push (by omega), ?_⟩
    change (v₂.push (.val .i32)).maxStackSize = max v.maxStackSize (j + 1)
    rw [hmax hr2, (pop_frame h3).maxStackSize, (pop_frame h1).maxStackSize]
  | getLocalI32 idx =>
    obtain ⟨u, h1, h2⟩ := bind_eq_ok.mp hv
    obtain rfl := Except.ok.inj h2
    exact ⟨h.push (by simp only [Instruction.depthAfter] at hn; omega), hmax h.reachable⟩
  | setLocalI32 idx =>
    obtain ⟨v₁, h1, h2⟩ := bind_eq_ok.mp hv
    obtain ⟨u, h3, h4⟩ := bind_eq_ok.mp h2
    obtain rfl := Except.ok.inj h4
    obtain ⟨-, k, rfl, hr1⟩ := h.reachable.pop h1
    refine ⟨h.pop (by omega) h1, ?_⟩
    change v₁.maxStackSize = max v.maxStackSize k
    rw [(pop_frame h1).maxStackSize]
    omega
  | return_ => exact absurd rfl hi
  | label id => cases hcore
  | br id => cases hcore
  | brIf t e => cases hcore

/-- **The maxima of a body without dead code** are those of its depths. -/
theorem visitAll {body : List Instruction} (hcore : CoreBody body) :
    ∀ {v v₁ : FunctionValidator} {n : ℕ}, Counted v n → deadCode body = [] →
      4 * Instruction.maxDepth n body < 2 ^ 64 → v.visitAll body = .ok v₁ →
      v₁.maxStackSize = max v.maxStackSize (Instruction.maxDepth n body) ∧
        v₁.maxMemoryUsage = 4 * v₁.maxStackSize := by
  induction body with
  | nil =>
    intro v v₁ n h _ _ hv
    obtain rfl := Except.ok.inj hv
    exact ⟨(max_eq_left h.le_max).symm, h.usage⟩
  | cons i is ih =>
    intro v v₁ n h hdead hn hv
    obtain ⟨v', h1, h2⟩ := bind_eq_ok.mp hv
    have hle := h.le_max
    rw [Instruction.maxDepth] at hn ⊢
    -- a `Return` is the last instruction, and only pops
    by_cases hi : i = .return_
    · subst hi
      obtain rfl : is = [] := hdead
      obtain rfl := Except.ok.inj h2
      obtain ⟨v₂, h3, h4⟩ := bind_eq_ok.mp h1
      obtain ⟨u, -, h5⟩ := bind_eq_ok.mp h4
      obtain rfl := Except.ok.inj h5
      have hframe := popAll_frame h3
      change v₂.maxStackSize = max v.maxStackSize (max n n) ∧
        v₂.maxMemoryUsage = 4 * v₂.maxStackSize
      rw [hframe.maxStackSize, hframe.maxMemoryUsage]
      exact ⟨by omega, h.usage⟩
    · have hself := Instruction.le_maxDepth (i.depthAfter n) is
      obtain ⟨h', hmax⟩ := h.visit hi hcore.head (by omega) h1
      rw [deadCode_cons hi] at hdead
      obtain ⟨hm, husage⟩ := ih hcore.tail h' hdead (by omega) h2
      refine ⟨?_, husage⟩
      rw [hm, hmax]
      omega

end Counted

/-- The same for a whole validator run. -/
theorem validate_maxima {ft : BlockType} {locals : List ValType} {body : List Instruction}
    (hcore : CoreBody body) (hdead : deadCode body = [])
    (hn : 4 * Instruction.maxDepth 0 body < 2 ^ 64) {v : FunctionValidator}
    (hv : validate ft locals body = .ok v) :
    v.maximumStackElements = Instruction.maxDepth 0 body ∧
      v.maximumStackSizeBytes = 4 * Instruction.maxDepth 0 body := by
  obtain ⟨v₁, h1, h2⟩ := bind_eq_ok.mp hv
  obtain ⟨v₂, h3, h4⟩ := bind_eq_ok.mp h2
  obtain ⟨u, -, h5⟩ := bind_eq_ok.mp h4
  obtain rfl := Except.ok.inj h5
  -- the pops of `Finalize` change no maximum
  have hnew : Counted (FunctionValidator.new ft locals) 0 := ⟨⟨rfl, rfl⟩, le_rfl, rfl, rfl⟩
  obtain ⟨hmax, husage⟩ := Counted.visitAll hcore hnew hdead hn h1
  have hframe := popAll_frame h3
  have hzero : (FunctionValidator.new ft locals).maxStackSize = 0 := rfl
  rw [hzero, Nat.zero_max] at hmax
  rw [maximumStackElements, maximumStackSizeBytes, hframe.maxStackSize, hframe.maxMemoryUsage,
    husage, hmax]
  exact ⟨rfl, rfl⟩

/-- **A validated function without dead code fits** the stack that is made for it, when the number
of its elements is not too large for 32 bits. -/
theorem Function.IsValidated.fitsAll {f : Function} (hvalid : f.IsValidated)
    (hcore : CoreBody f.body) (hdead : deadCode f.body = [])
    (hdepth : Instruction.maxDepth 0 f.body < 2 ^ 32) :
    Assembler.WellNamed (.new f.meta_) f.body ∧
      Instruction.FitsAll f.meta_.maxStackElements.toNat
        (poppedResults f.meta_.signature.resultTypes) 0 f.body := by
  obtain ⟨v, hv, -, helements⟩ := hvalid
  obtain ⟨hmax, -⟩ := validate_maxima hcore hdead (by omega) hv
  -- the maximum is not cut, because it is below 2^32
  have hcapacity : f.meta_.maxStackElements.toNat = v.maximumStackElements := by
    rw [helements, hmax, BitVec.toNat_ofNat, Nat.mod_eq_of_lt hdepth]
  have hres : poppedResults f.meta_.signature.resultTypes ≤
      f.meta_.signature.resultTypes.length := min_le_right _ _
  refine ⟨wellNamed_of_validate hcore hv, ?_⟩
  rw [validate_fitsAll_iff hcore hv hcapacity.ge hres, hdead]
  exact hres

/-! ### The exact condition -/

/-- Visiting a body and running the epilogue, with a stack of `capacity` elements, never leaves the
array of the stack. -/
def Assembler.StackSafe {ι : Type} (a : Assembler ι) (m : Function.Metadata) (capacity : ℕ)
    (body : List Instruction) : Prop :=
  ∀ exitLabel, a.compileBody (.new m) exitLabel capacity body ≠ .error .stackIndex

theorem Assembler.stackSafe_iff {ι : Type} (a : Assembler ι) {m : Function.Metadata}
    {body : List Instruction} (hcore : CoreBody body) {v : FunctionValidator}
    (hv : validate m.signature m.locals body = .ok v) :
    a.StackSafe m v.maximumStackElements body ↔
      Instruction.FitsAll v.maximumStackElements (poppedResults m.signature.resultTypes)
        m.signature.resultTypes.length (deadCode body) := by
  have hb := wellNamed_of_validate hcore hv
  have hiff := validate_fitsAll_iff hcore hv le_rfl
    (show poppedResults m.signature.resultTypes ≤ _ from min_le_right 1 _)
  rw [← hiff]
  -- a body that fits compiles, and one that does not leaves the array
  by_cases hfit : Instruction.FitsAll v.maximumStackElements
      (poppedResults m.signature.resultTypes) 0 body
  · refine iff_of_true (fun exitLabel he => ?_) hfit
    obtain ⟨w, code, last, hc, -⟩ :=
      Assembler.compileBody_of_fits a (.new m) exitLabel hb hfit
    rw [hc] at he
    cases he
  · exact iff_of_false (fun hsafe =>
      hsafe 0 (Assembler.compileBody_of_not_fits a (.new m) 0 hb hfit)) hfit

/-- **When validated bodies fit the compiler's stack.** For a signature with at most one result, a
compiler does not leave the array of its stack if and only if the instructions after the first
`Return` fit, counted from as many elements as there are results: each of their pops finds an
element, each of their pushes finds fewer than `maximumStackElements()`, and in the end the result
is there to be popped. -/
theorem compilers_stackSafe_iff (m : Function.Metadata) (body : List Instruction)
    (hcore : CoreBody body) (hresults : m.signature.resultTypes.length ≤ 1)
    (v : FunctionValidator) (hv : validate m.signature m.locals body = .ok v) :
    (X64.assembler.StackSafe m v.maximumStackElements body ↔
      Instruction.FitsAll v.maximumStackElements m.signature.resultTypes.length
        m.signature.resultTypes.length (deadCode body)) ∧
    (Arm64.assembler.StackSafe m v.maximumStackElements body ↔
      Instruction.FitsAll v.maximumStackElements m.signature.resultTypes.length
        m.signature.resultTypes.length (deadCode body)) := by
  -- with one result at most, the epilogue pops all of them
  have hpop : poppedResults m.signature.resultTypes = m.signature.resultTypes.length :=
    min_eq_right hresults
  have hx := X64.assembler.stackSafe_iff hcore hv
  have ha := Arm64.assembler.stackSafe_iff hcore hv
  rw [hpop] at hx ha
  exact ⟨hx, ha⟩

/-- A sum that is returned, and after it a constant that is added to it: this needs no more elements
than the sum did. -/
def addAfterReturn : List Instruction :=
  [.getLocalI32 0, .constI32 ⟨7⟩, .addI32, .return_, .constI32 ⟨1⟩, .addI32]

theorem compilers_stackSafe_iff_deadCode :
    X64.assembler.StackSafe { signature := ⟨[.i32], [.i32]⟩ } 2 addAfterReturn ∧
    Arm64.assembler.StackSafe { signature := ⟨[.i32], [.i32]⟩ } 2 addAfterReturn := by
  have hiff := compilers_stackSafe_iff { signature := ⟨[.i32], [.i32]⟩ } addAfterReturn (by decide)
    (by decide) _ rfl
  have hfits : Instruction.FitsAll 2 1 1 (deadCode addAfterReturn) := by decide
  exact ⟨hiff.1.mpr hfits, hiff.2.mpr hfits⟩

/-- A constant after a `Return` of one value: the validator has forgotten that value, and a stack of
one element is full. -/
theorem stackSafe_fails_after_return :
    ∃ v, validate ⟨[], [.i32]⟩ [] [.constI32 ⟨0⟩, .return_, .constI32 ⟨1⟩] = .ok v ∧
      ¬X64.assembler.StackSafe { signature := ⟨[], [.i32]⟩ } v.maximumStackElements
        [.constI32 ⟨0⟩, .return_, .constI32 ⟨1⟩] ∧
      ¬Arm64.assembler.StackSafe { signature := ⟨[], [.i32]⟩ } v.maximumStackElements
        [.constI32 ⟨0⟩, .return_, .constI32 ⟨1⟩] :=
  ⟨_, rfl, fun h => h 0 rfl, fun h => h 0 rfl⟩

end Wasmcc
