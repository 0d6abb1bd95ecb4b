import Wasmcc.Compiler.Ownership
import Wasmcc.Compiler.Pointers

/-!
# How much code a compiler emits

A visitor may have to spill, and the loop of `AllocateRegister` stores every register that an
element of the stack is in. These are no more than there are registers to allocate, so a visitor
emits a bounded number of instructions, and a function a number linear in the length of its body.
This holds of all functions that compile, also of those that no parser accepts: what it takes is
`CompilerState.Tidy`, that no register is recorded twice.

The executable memory is another matter. `compileAll_memory` says what is in it after any calls of
`Compile`: a copy of all code so far for each function.
-/

open Basis

namespace Wasmcc

/-- The registers of the elements and those in `held`, which belong to popped operands, are pairwise
distinct. They are registers of the pool and marked as used. -/
structure CompilerState.Tidy (pool : RegisterMask) (s : CompilerState) (held : List Reg) :
    Prop where
  distinct : (held ++ s.stack.registers).Nodup
  used : ∀ r ∈ held ++ s.stack.registers, s.regTracker.gpRegMask.test r = true
  pool : ∀ r ∈ held ++ s.stack.registers, pool.test r = true

/-- How many registers a compiler allocates. -/
def RegisterMask.size (pool : RegisterMask) : ℕ := pool.toList.length

namespace CompilerState.Tidy

variable {pool : RegisterMask} {s s' : CompilerState} {held held' : List Reg} {r : Reg}

theorem new (pool : RegisterMask) (capacity : ℕ) :
    Tidy pool { stack := { capacity } } [] where
  distinct := List.nodup_nil
  used _ h := absurd h List.not_mem_nil
  pool _ h := absurd h List.not_mem_nil

/-- **No more registers than there are.** -/
theorem length_le (h : s.Tidy pool held) : s.stack.registers.length ≤ pool.size := by
  have hsub : held ++ s.stack.registers ⊆ pool.toList := fun r hr =>
    RegisterMask.mem_toList.mpr (h.pool r hr)
  have hlen := (h.distinct.subperm hsub).length_le
  rw [List.length_append] at hlen
  exact Nat.le_trans (Nat.le_add_left ..) hlen

/-- The same registers in another place. -/
theorem of_perm (h : s.Tidy pool held) (htracker : s'.regTracker = s.regTracker)
    (hperm : (held' ++ s'.stack.registers).Perm (held ++ s.stack.registers)) :
    s'.Tidy pool held' where
  distinct := hperm.nodup_iff.mpr h.distinct
  used r hr := htracker ▸ h.used r (hperm.mem_iff.mp hr)
  pool r hr := h.pool r (hperm.mem_iff.mp hr)

/-- A register that nobody has is taken. -/
theorem take (h : s.Tidy pool held) (hr : pool.test r = true)
    (hfree : s.regTracker.gpRegMask.test r = false)
    (hs' : s'.regTracker = ⟨s.regTracker.gpRegMask.set r⟩) (hstack : s'.stack = s.stack) :
    s'.Tidy pool (r :: held) := by
  -- the register was not marked used, so nobody holds it
  have hnew : r ∉ held ++ s.stack.registers := by
    intro hmem
    rw [h.used r hmem] at hfree
    cases hfree
  refine ⟨?_, fun q hq => ?_, fun q hq => ?_⟩
  · rw [hstack, List.cons_append]
    exact List.nodup_cons.mpr ⟨hnew, h.distinct⟩
  · rw [hstack, List.cons_append] at hq
    rw [hs', RegisterMask.test_set]
    exact (List.mem_cons.mp hq).imp id (h.used q)
  · rw [hstack, List.cons_append] at hq
    rcases List.mem_cons.mp hq with rfl | hq
    · exact hr
    · exact h.pool q hq

/-- An operand is done with, and its register is free again. -/
theorem release (h : s.Tidy pool (r :: held)) :
    Tidy pool { s with regTracker := s.regTracker.markRegisterUnused r } held := by
  have hcons : (r :: (held ++ s.stack.registers)).Nodup := h.distinct
  obtain ⟨hnot, hnodup⟩ := List.nodup_cons.mp hcons
  refine ⟨hnodup, fun q hq => ?_, fun q hq => h.pool q (List.mem_cons_of_mem r hq)⟩
  show (s.regTracker.gpRegMask.reset r).test q = true
  rw [RegisterMask.test_reset]
  exact ⟨fun hqr => hnot (hqr ▸ hq), h.used q (List.mem_cons_of_mem r hq)⟩

end CompilerState.Tidy

/-! ### The stack -/

namespace RuntimeStack

variable {s s' : RuntimeStack} {v : RuntimeValue} {r : Reg}

theorem registers_push (h : s.push v = .ok s') (hv : v.reg = none) :
    s'.registers = s.registers ∧ ∃ top below, s'.stack = top :: below ∧ top.reg = none := by
  unfold push at h
  split at h
  · obtain rfl := Except.ok.inj h
    refine ⟨?_, _, _, rfl, hv⟩
    show List.filterMap _ (_ :: s.stack) = _
    rw [List.filterMap_cons]
    simp [hv, registers]
  · cases h

/-- The register of the element moves to the popped value. -/
theorem registers_pop (h : s.pop = .ok (v, s')) :
    v.reg.toList ++ s'.registers = s.registers := by
  unfold pop at h
  split at h
  · cases h
  next top below hs =>
    obtain ⟨rfl, rfl⟩ := Prod.mk.inj (Except.ok.inj h)
    show top.reg.toList ++ below.filterMap RuntimeValue.reg = s.stack.filterMap _
    rw [hs, List.filterMap_cons]
    cases top.reg with
    | none => rfl
    | some r => rfl

/-- The element on top is in a register now. -/
theorem registers_setTopReg {top : RuntimeValue} {below : List RuntimeValue}
    (hs : s.stack = top :: below) (htop : top.reg = none) :
    (s.setTopReg r).registers = r :: s.registers := by
  simp [setTopReg, registers, hs, htop]

theorem setTopReg_of_reg {top : RuntimeValue} {below : List RuntimeValue}
    (hs : s.stack = top :: below) (htop : top.reg = some r) : s.setTopReg r = s := by
  have hsame : { top with reg := some r } = top := by rw [← htop]
  rw [setTopReg, hs]
  dsimp only
  rw [hsame, ← hs]

end RuntimeStack

/-! ### Allocation -/

namespace Assembler

variable {ι : Type} {a : Assembler ι} {s s' : CompilerState} {held : List Reg} {r : Reg}
  {code : List ι}

/-- **The loop of `AllocateRegister`** stores each register once. It hands the registers on, and one
is left over. -/
theorem spill_spec (stack : List RuntimeValue) :
    (a.spill stack).2.2.length = (stack.filterMap RuntimeValue.reg).length ∧
      ((a.spill stack).1.toList ++ (a.spill stack).2.1.filterMap RuntimeValue.reg).Perm
        (stack.filterMap RuntimeValue.reg) := by
  induction stack with
  | nil => exact ⟨rfl, List.Perm.refl _⟩
  | cons v below ih =>
    obtain ⟨hlen, hperm⟩ := ih
    rw [spill]
    cases hv : v.reg with
    | none =>
      have hcons (vs : List RuntimeValue) :
          (v :: vs).filterMap RuntimeValue.reg = vs.filterMap RuntimeValue.reg := by
        rw [List.filterMap_cons, hv]
      simp only [hcons]
      exact ⟨hlen, hperm⟩
    | some q =>
      have hcons : (v :: below).filterMap RuntimeValue.reg =
          q :: below.filterMap RuntimeValue.reg := by
        rw [List.filterMap_cons, hv]
      simp only [hcons]
      refine ⟨by rw [List.length_append, hlen]; rfl, ?_⟩
      -- the element gets the register that was left over below it
      rw [List.filterMap_cons]
      cases hreg : (a.spill below).1 with
      | none =>
        rw [hreg] at hperm
        exact List.Perm.cons q hperm
      | some p =>
        rw [hreg] at hperm
        exact List.Perm.cons q hperm

/-- An element on top that is in memory stays there. -/
theorem spill_cons_of_none {v : RuntimeValue} (hv : v.reg = none) (below : List RuntimeValue) :
    ∃ below', (a.spill (v :: below)).2.1 = v :: below' := by
  rw [spill]
  simp only [hv]
  exact ⟨_, rfl⟩

/-- **`AllocateRegister`** emits at most one store for each register there is. -/
theorem allocateRegister_cost (h : s.Tidy a.callerSaved held)
    (ha : a.allocateRegister s = .ok (r, s', code)) :
    code.length ≤ a.callerSaved.size ∧ s'.Tidy a.callerSaved (r :: held) ∧
      ∀ top below, s.stack.stack = top :: below → top.reg = none →
        ∃ below', s'.stack.stack = top :: below' := by
  unfold allocateRegister at ha
  split at ha
  next reg tracker htake =>
    obtain ⟨rfl, hpair⟩ := Prod.mk.inj (Except.ok.inj ha)
    obtain ⟨rfl, rfl⟩ := Prod.mk.inj hpair
    obtain ⟨hpool, hfree, rfl⟩ := RegisterTracker.takeUnusedRegister_eq_some htake
    exact ⟨Nat.zero_le _, h.take hpool hfree rfl rfl, fun top below hs _ => ⟨below, hs⟩⟩
  next htake =>
    obtain ⟨hlen, hperm⟩ := a.spill_spec s.stack.stack
    split at ha
    next reg stack' code' hspill =>
      obtain ⟨rfl, hpair⟩ := Prod.mk.inj (Except.ok.inj ha)
      obtain ⟨rfl, rfl⟩ := Prod.mk.inj hpair
      rw [hspill] at hlen hperm
      refine ⟨hlen.le.trans h.length_le, h.of_perm rfl ?_, fun top below hs htop => ?_⟩
      · -- the register that is left over is held, and the others are on the stack
        refine List.Perm.trans ?_ (List.Perm.append_left held hperm)
        exact List.perm_middle.symm
      · obtain ⟨below', hbelow⟩ := a.spill_cons_of_none htop below
        rw [← hs, hspill] at hbelow
        exact ⟨below', hbelow⟩
    · cases ha

/-- `EnsureInRegister` of a popped operand. -/
theorem ensureInRegister_cost {v : RuntimeValue} (h : s.Tidy a.callerSaved (v.reg.toList ++ held))
    (ha : a.ensureInRegister s v = .ok (r, s', code)) :
    code.length ≤ a.callerSaved.size + 1 ∧ s'.Tidy a.callerSaved (r :: held) := by
  unfold ensureInRegister at ha
  cases hv : v.reg with
  | some q =>
    rw [hv] at h
    simp only [hv] at ha
    obtain ⟨rfl, hpair⟩ := Prod.mk.inj (Except.ok.inj ha)
    obtain ⟨rfl, rfl⟩ := Prod.mk.inj hpair
    exact ⟨Nat.zero_le _, h⟩
  | none =>
    rw [hv] at h
    simp only [hv] at ha
    -- a spilled value costs an allocation and one load
    obtain ⟨⟨q, s₁, code₁⟩, halloc, hr⟩ := bind_eq_ok.mp ha
    obtain ⟨rfl, hpair⟩ := Prod.mk.inj (Except.ok.inj hr)
    obtain ⟨rfl, rfl⟩ := Prod.mk.inj hpair
    obtain ⟨hlen, htidy, -⟩ := allocateRegister_cost h halloc
    rw [List.length_append]
    exact ⟨Nat.add_le_add_right hlen 1, htidy⟩

/-- The register that was found for an element on top is that of the element. -/
theorem tidy_setTopReg (h : s.Tidy a.callerSaved (r :: held)) {top : RuntimeValue}
    {below : List RuntimeValue} (hs : s.stack.stack = top :: below) (htop : top.reg = none) :
    CompilerState.Tidy a.callerSaved { s with stack := s.stack.setTopReg r } held := by
  refine h.of_perm rfl ?_
  show (held ++ (s.stack.setTopReg r).registers).Perm _
  rw [RuntimeStack.registers_setTopReg hs htop]
  exact List.perm_middle

/-- `EnsureInRegister` of the element on top. -/
theorem ensureTopInRegister_cost (h : s.Tidy a.callerSaved held)
    (ha : a.ensureTopInRegister s = .ok (r, s', code)) :
    code.length ≤ a.callerSaved.size + 1 ∧ s'.Tidy a.callerSaved held := by
  obtain ⟨top, hpeek, h1⟩ := bind_eq_ok.mp ha
  obtain ⟨⟨q, s₁, code₁⟩, hensure, hr⟩ := bind_eq_ok.mp h1
  obtain ⟨rfl, hpair⟩ := Prod.mk.inj (Except.ok.inj hr)
  obtain ⟨rfl, rfl⟩ := Prod.mk.inj hpair
  -- `Peek` has found an element
  obtain ⟨below, hs⟩ : ∃ below, s.stack.stack = top :: below := by
    unfold RuntimeStack.peek at hpeek
    split at hpeek
    · cases hpeek
    next top' below hs =>
      obtain rfl := Except.ok.inj hpeek
      exact ⟨below, hs⟩
  cases htop : top.reg with
  | some p =>
    rw [ensureInRegister_of_reg a htop] at hensure
    obtain ⟨rfl, hsame⟩ := Prod.mk.inj (Except.ok.inj hensure)
    obtain ⟨rfl, rfl⟩ := Prod.mk.inj hsame
    rw [RuntimeStack.setTopReg_of_reg hs htop]
    exact ⟨Nat.zero_le _, h⟩
  | none =>
    unfold ensureInRegister at hensure
    simp only [htop] at hensure
    -- the allocation spills others and leaves the top where it is
    obtain ⟨⟨p, s₂, code₂⟩, halloc, hr⟩ := bind_eq_ok.mp hensure
    obtain ⟨rfl, hsame⟩ := Prod.mk.inj (Except.ok.inj hr)
    obtain ⟨rfl, rfl⟩ := Prod.mk.inj hsame
    obtain ⟨hlen, htidy, hkeeps⟩ := allocateRegister_cost h halloc
    obtain ⟨below', hs'⟩ := hkeeps top below hs htop
    rw [List.length_append]
    exact ⟨Nat.add_le_add_right hlen 1, tidy_setTopReg htidy hs' htop⟩

/-! ### Visitors -/

theorem tidy_push (h : s.Tidy a.callerSaved held) {v : RuntimeValue} {stack : RuntimeStack}
    (hpush : s.stack.push v = .ok stack) (hv : v.reg = none) :
    CompilerState.Tidy a.callerSaved { s with stack } held := by
  refine h.of_perm rfl ?_
  show (held ++ stack.registers).Perm _
  rw [(RuntimeStack.registers_push hpush hv).1]

theorem tidy_pop (h : s.Tidy a.callerSaved []) {v : RuntimeValue} {stack : RuntimeStack}
    (hpop : s.stack.pop = .ok (v, stack)) :
    CompilerState.Tidy a.callerSaved { s with stack } (v.reg.toList ++ []) := by
  refine h.of_perm rfl ?_
  show ((v.reg.toList ++ []) ++ stack.registers).Perm s.stack.registers
  rw [List.append_nil, RuntimeStack.registers_pop hpop]

/-- The instructions that a visitor may emit: both operands of an addition may have to be reloaded,
each after a spill. -/
def visitCost (a : Assembler ι) : ℕ := 2 * a.callerSaved.size + 3

variable {frame : FunctionFrame} {exitLabel : Label}

/-- **The step lemma.** -/
theorem visit_cost (h : s.Tidy a.callerSaved []) {i : Instruction}
    (ha : a.visit frame exitLabel s i = .ok (s', code)) :
    code.length ≤ a.visitCost ∧ s'.Tidy a.callerSaved [] := by
  unfold visitCost
  cases i with
  | constI32 value =>
    obtain ⟨stack, hpush, h1⟩ := bind_eq_ok.mp ha
    obtain ⟨⟨reg, s₁, code₁⟩, htop, hr⟩ := bind_eq_ok.mp h1
    obtain ⟨rfl, rfl⟩ := Prod.mk.inj (Except.ok.inj hr)
    obtain ⟨hlen, htidy⟩ := ensureTopInRegister_cost (tidy_push h hpush rfl) htop
    refine ⟨?_, htidy⟩
    rw [List.length_append, List.length_singleton]
    omega
  | addI32 =>
    -- both operands may have to be reloaded
    obtain ⟨⟨x2, stack⟩, hpop, h1⟩ := bind_eq_ok.mp ha
    obtain ⟨⟨x2Reg, s₂, code₂⟩, hensure, h2⟩ := bind_eq_ok.mp h1
    obtain ⟨⟨x1Reg, s₁, code₁⟩, htop, hr⟩ := bind_eq_ok.mp h2
    obtain ⟨rfl, rfl⟩ := Prod.mk.inj (Except.ok.inj hr)
    obtain ⟨hlen₂, htidy₂⟩ := ensureInRegister_cost (tidy_pop h hpop) hensure
    obtain ⟨hlen₁, htidy₁⟩ := ensureTopInRegister_cost htidy₂ htop
    refine ⟨?_, htidy₁.release⟩
    rw [List.length_append, List.length_append, List.length_singleton]
    omega
  | getLocalI32 idx =>
    obtain ⟨stack, hpush, h1⟩ := bind_eq_ok.mp ha
    obtain ⟨⟨reg, s₁, code₁⟩, halloc, h2⟩ := bind_eq_ok.mp h1
    obtain ⟨offset, hoffset, hr⟩ := bind_eq_ok.mp h2
    obtain ⟨rfl, rfl⟩ := Prod.mk.inj (Except.ok.inj hr)
    obtain ⟨hlen, htidy, hkeeps⟩ := allocateRegister_cost (tidy_push h hpush rfl) halloc
    -- the new element has no register until one is allocated for it
    obtain ⟨-, top, below, hs, htop⟩ := RuntimeStack.registers_push hpush rfl
    obtain ⟨below', hs'⟩ := hkeeps top below hs htop
    refine ⟨?_, tidy_setTopReg htidy hs' htop⟩
    rw [List.length_append, List.length_singleton]
    omega
  | setLocalI32 idx =>
    obtain ⟨⟨v, stack⟩, hpop, h1⟩ := bind_eq_ok.mp ha
    obtain ⟨⟨reg, s₁, code₁⟩, hensure, h2⟩ := bind_eq_ok.mp h1
    obtain ⟨offset, hoffset, hr⟩ := bind_eq_ok.mp h2
    obtain ⟨rfl, rfl⟩ := Prod.mk.inj (Except.ok.inj hr)
    obtain ⟨hlen, htidy⟩ := ensureInRegister_cost (tidy_pop h hpop) hensure
    refine ⟨?_, htidy.release⟩
    rw [List.length_append, List.length_singleton]
    omega
  | return_ =>
    obtain ⟨rfl, rfl⟩ := Prod.mk.inj (Except.ok.inj ha)
    exact ⟨by rw [List.length_singleton]; omega, h⟩
  | label id | br id | brIf thenId elseId =>
    obtain ⟨rfl, rfl⟩ := Prod.mk.inj (Except.ok.inj ha)
    exact ⟨Nat.zero_le _, h⟩

/-- **The run lemma.** -/
theorem visitAll_cost {body : List Instruction} : ∀ {s s' : CompilerState} {code : List ι},
    s.Tidy a.callerSaved [] → a.visitAll frame exitLabel s body = .ok (s', code) →
      code.length ≤ a.visitCost * body.length ∧ s'.Tidy a.callerSaved [] := by
  induction body with
  | nil =>
    intro s s' code h ha
    obtain ⟨rfl, rfl⟩ := Prod.mk.inj (Except.ok.inj ha)
    exact ⟨Nat.zero_le _, h⟩
  | cons i body ih =>
    intro s s' code h ha
    obtain ⟨⟨s₁, code₁⟩, hvisit, h1⟩ := bind_eq_ok.mp ha
    obtain ⟨⟨s₂, rest⟩, hrest, hr⟩ := bind_eq_ok.mp h1
    obtain ⟨rfl, rfl⟩ := Prod.mk.inj (Except.ok.inj hr)
    -- the cost of the first instruction, and of the others from the state it leaves
    obtain ⟨hlen₁, htidy₁⟩ := visit_cost h hvisit
    obtain ⟨hlen, htidy⟩ := ih htidy₁ hrest
    refine ⟨?_, htidy⟩
    calc (code₁ ++ rest).length
      _ = code₁.length + rest.length := List.length_append
      _ ≤ a.visitCost + a.visitCost * body.length := Nat.add_le_add hlen₁ hlen
      _ = a.visitCost * (i :: body).length := by
        rw [List.length_cons, Nat.mul_succ, Nat.add_comm]

/-! ### Functions -/

theorem saveParameters_length {vts : List ValType} : ∀ {i : ℕ} {code : List ι},
    a.saveParameters frame i vts = .ok code → code.length = vts.length := by
  induction vts with
  | nil =>
    intro i code ha
    obtain rfl := Except.ok.inj ha
    rfl
  | cons vt vts ih =>
    intro i code ha
    unfold saveParameters at ha
    cases hreg : a.gpArgs[i]? with
    | none =>
      rw [hreg] at ha
      cases ha
    | some reg =>
      rw [hreg] at ha
      -- one store for each parameter
      obtain ⟨offset, -, h1⟩ := bind_eq_ok.mp ha
      obtain ⟨rest, hrest, hr⟩ := bind_eq_ok.mp h1
      obtain rfl := Except.ok.inj hr
      rw [List.length_cons, List.length_cons, ih hrest]

theorem moveResult_length (h : s.Tidy a.callerSaved []) {vts : List ValType}
    (ha : a.moveResult s vts = .ok code) : code.length ≤ a.callerSaved.size + 2 := by
  cases vts with
  | nil =>
    obtain rfl := Except.ok.inj ha
    exact Nat.zero_le _
  | cons vt vts =>
    obtain ⟨⟨v, stack⟩, hpop, h1⟩ := bind_eq_ok.mp ha
    obtain ⟨⟨reg, s₁, code₁⟩, hensure, hr⟩ := bind_eq_ok.mp h1
    -- one reload at most, and one move into the return register
    obtain ⟨hlen, -⟩ := ensureInRegister_cost (tidy_pop h hpop) hensure
    have hcode := Except.ok.inj hr
    subst hcode
    split
    · rw [List.length_append, List.length_singleton]
      exact Nat.add_le_add_right hlen 1
    · exact hlen.trans (Nat.le_succ _)

/-- **The code of a function** is linear in its body. -/
theorem compile_length {f : Function} (ha : a.compile exitLabel f = .ok code) :
    code.length ≤ a.visitCost * f.body.length + f.meta_.signature.parameterTypes.length +
      a.callerSaved.size + 6 := by
  obtain ⟨prologue, hprologue, h1⟩ := bind_eq_ok.mp ha
  obtain ⟨rest, hbody, hr⟩ := bind_eq_ok.mp h1
  obtain rfl := Except.ok.inj hr
  obtain ⟨saves, hsaves, hp⟩ := bind_eq_ok.mp hprologue
  obtain rfl := Except.ok.inj hp
  obtain ⟨⟨s₁, code₁⟩, hvisit, h2⟩ := bind_eq_ok.mp hbody
  obtain ⟨epilogue, hepilogue, hr⟩ := bind_eq_ok.mp h2
  obtain rfl := Except.ok.inj hr
  obtain ⟨moves, hmoves, he⟩ := bind_eq_ok.mp hepilogue
  obtain rfl := Except.ok.inj he
  -- the body is linear in its length, and what is around it does not depend on it
  obtain ⟨hlen, htidy⟩ := visitAll_cost (.new a.callerSaved _) hvisit
  have hparams := saveParameters_length hsaves
  have hresult := moveResult_length htidy hmoves
  have hmeta : (FunctionFrame.new f.meta_).meta_ = f.meta_ := rfl
  rw [hmeta] at hparams
  simp only [List.length_append, List.length_cons, List.length_nil]
  omega

end Assembler

example : X64.assembler.visitCost = 21 ∧ Arm64.assembler.visitCost = 33 := by decide

/-! ### Executable memory -/

namespace CompilerImpl

variable {ι : Type} {t : Target ι} {c c' : CompilerImpl ι} {funcs : List Function}
  {codes : List (List ι)}

/-- The instructions that a function may take. -/
def codeBound (t : Target ι) (f : Function) : ℕ :=
  t.visitCost * f.body.length + f.meta_.signature.parameterTypes.length + t.callerSaved.size + 6

/-- All that the compiler was given are these functions, and it has this code for them. -/
structure HoldsCode (t : Target ι) (c : CompilerImpl ι) (funcs : List Function)
    (codes : List (List ι)) : Prop where
  length : codes.length = funcs.length
  compiled : ∀ k f, funcs[k]? = some f → ∃ code, codes[k]? = some code ∧
    t.compile k f = .ok code ∧ code.length ≤ codeBound t f
  labels : c.codeHolder.labels = funcs.length
  text : c.codeHolder.text = codes.flatten
  /-- The block of a function is a copy of all code up to its own. -/
  blocks : c.runtime.blocks = (List.range codes.length).map fun k => (codes.take (k + 1)).flatten

theorem HoldsCode.new (t : Target ι) : HoldsCode t {} [] [] where
  length := rfl
  compiled _ _ h := by simp at h
  labels := rfl
  text := rfl
  blocks := rfl

theorem HoldsCode.compileFunction (h : HoldsCode t c funcs codes) {func : Function}
    {cf : CompiledFunction} (hc : c.compileFunction t.toAssembler func = .ok (cf, c')) :
    ∃ code, HoldsCode t c' (funcs ++ [func]) (codes ++ [code]) := by
  obtain ⟨code, hcode, hr⟩ := bind_eq_ok.mp hc
  obtain ⟨rfl, rfl⟩ := Prod.mk.inj (Except.ok.inj hr)
  have htext : c.codeHolder.text ++ code = (codes ++ [code]).flatten := by
    rw [h.text, List.flatten_append, List.flatten_singleton]
  refine ⟨code, ?_, fun k f hf => ?_, ?_, htext, ?_⟩
  · rw [List.length_append, List.length_append, h.length]
    rfl
  · by_cases hk : k < funcs.length
    · rw [List.getElem?_append_left hk] at hf
      obtain ⟨code', hcode', hcompiled⟩ := h.compiled k f hf
      exact ⟨code', by rw [List.getElem?_append_left (h.length ▸ hk), hcode'], hcompiled⟩
    · -- it is the new one
      have hlast : k = funcs.length := by
        obtain ⟨hlt, -⟩ := List.getElem?_eq_some_iff.mp hf
        rw [List.length_append, List.length_singleton] at hlt
        exact Nat.le_antisymm (Nat.le_of_lt_succ hlt) (Nat.le_of_not_lt hk)
      subst hlast
      rw [List.getElem?_append_right (Nat.le_refl _), Nat.sub_self] at hf
      obtain rfl : func = f := Option.some.inj hf
      rw [h.labels] at hcode
      refine ⟨code, ?_, hcode, Assembler.compile_length hcode⟩
      rw [← h.length, List.getElem?_append_right (Nat.le_refl _), Nat.sub_self]
      rfl
  · show c.codeHolder.labels + 1 = _
    rw [h.labels, List.length_append]
    rfl
  · show c.runtime.blocks ++ [c.codeHolder.text ++ code] = _
    rw [List.length_append, List.length_singleton, List.range_succ, List.map_append, h.blocks]
    congr 1
    · refine List.map_congr_left fun k hk => ?_
      rw [List.take_append_of_le_length (List.mem_range.mp hk)]
    · rw [htext, List.map_singleton, List.take_of_length_le (by simp)]

theorem HoldsCode.compileFunctions {more : List Function} :
    ∀ {c c' : CompilerImpl ι} {funcs : List Function} {codes : List (List ι)}
      {compiled : List CompiledFunction}, HoldsCode t c funcs codes →
      c.compileFunctions t.toAssembler more = .ok (compiled, c') →
      ∃ codes', HoldsCode t c' (funcs ++ more) codes' := by
  induction more with
  | nil =>
    intro c c' funcs codes compiled h hc
    obtain ⟨-, rfl⟩ := Prod.mk.inj (Except.ok.inj hc)
    exact ⟨codes, by rwa [List.append_nil]⟩
  | cons func more ih =>
    intro c c' funcs codes compiled h hc
    obtain ⟨⟨cf, c₁⟩, h1, h2⟩ := bind_eq_ok.mp hc
    obtain ⟨⟨rest, c₂⟩, h3, hr⟩ := bind_eq_ok.mp h2
    obtain ⟨-, rfl⟩ := Prod.mk.inj (Except.ok.inj hr)
    -- the code of one more function follows the codes so far
    obtain ⟨code, hone⟩ := h.compileFunction h1
    obtain ⟨codes', hall⟩ := ih hone h3
    exact ⟨codes', by rwa [List.append_assoc] at hall⟩

theorem HoldsCode.compileAll {ms : List ParsedModule} :
    ∀ {c c' : CompilerImpl ι} {funcs : List Function} {codes : List (List ι)},
      HoldsCode t c funcs codes → c.compileAll t.toAssembler ms = .ok c' →
      ∃ codes', HoldsCode t c' (funcs ++ functionsOf ms) codes' := by
  induction ms with
  | nil =>
    intro c c' funcs codes h hc
    obtain rfl := Except.ok.inj hc
    exact ⟨codes, by rwa [functionsOf, List.flatMap_nil, List.append_nil]⟩
  | cons m ms ih =>
    intro c c' funcs codes h hc
    obtain ⟨⟨compiled, c₁⟩, h1, h2⟩ := bind_eq_ok.mp hc
    obtain ⟨⟨functions, c₂⟩, h3, hr⟩ := bind_eq_ok.mp h1
    obtain ⟨-, rfl⟩ := Prod.mk.inj (Except.ok.inj hr)
    -- one module after the other, with the same compiler
    obtain ⟨codes₁, hm⟩ := h.compileFunctions h3
    obtain ⟨codes', hms⟩ := ih hm h2
    exact ⟨codes', by rwa [List.append_assoc] at hms⟩

end CompilerImpl

open CompilerImpl

/-- **What is in executable memory.** After any calls of `Compile` that succeed, whatever the
functions are, there is a block for each function. Block number `k` holds the code of the functions
number 0 to `k`, and the code of each is linear in the length of its body. -/
theorem compileAll_memory {ι : Type} (t : Target ι) (ms : List ParsedModule) (c : CompilerImpl ι)
    (h : CompilerImpl.compileAll t.toAssembler {} ms = .ok c) :
    ∃ codes, HoldsCode t c (functionsOf ms) codes := by
  obtain ⟨codes, hcodes⟩ := (HoldsCode.new t).compileAll h
  exact ⟨codes, by rwa [List.nil_append] at hcodes⟩

/-- Two modules of two functions each: the last block has the code of all four. -/
theorem compileAll_memory_twice :
    ∃ c codes, CompilerImpl.compileAll X64.assembler {} [twoConstants, twoConstants] = .ok c ∧
      HoldsCode X64.target c (functionsOf [twoConstants, twoConstants]) codes := by
  obtain ⟨codes, hcodes⟩ := compileAll_memory X64.target [twoConstants, twoConstants] _ rfl
  exact ⟨_, codes, rfl, hcodes⟩

end Wasmcc
