import Wasmcc.Basis.Runs
import Wasmcc.Compiler.Window

/-!
# Which registers the compiler takes

`TakeUnusedRegister` goes through its registers in order, so the registers of the window are not
just any: three numbers determine them. A `Usage` counts the elements in registers and those in
memory, and remembers whether the two lowest registers were taken in the other order. That happens
when an addition finds its first operand in memory, as the register of the second one is still in
use while the first is reloaded.

`Usage.step` is what an instruction does to these counts, and `visitAll_usage` says that the
visitors follow them. The registers themselves, and the order of the elements, are then
`Usage.window`.
-/

open Basis

namespace Wasmcc

/-! ### The first free register -/

namespace RegisterMask

/-- The first register of the set that is not among `used`. -/
def firstFree (pool : RegisterMask) (used : List Reg) : Option Reg :=
  pool.toList.find? fun r => decide (r ∉ used)

theorem firstFree_eq_some {pool : RegisterMask} {used : List Reg} {r : Reg}
    (h : pool.firstFree used = some r) : pool.test r = true ∧ r ∉ used :=
  ⟨mem_toList.mp (List.mem_of_find?_eq_some h), by simpa using List.find?_some h⟩

theorem firstFree_eq_none {pool : RegisterMask} {used : List Reg}
    (h : pool.firstFree used = none) {r : Reg} (hr : pool.test r = true) : r ∈ used := by
  have hall := List.find?_eq_none.mp h r (mem_toList.mpr hr)
  simpa using hall

end RegisterMask

theorem RegisterTracker.takeUnusedRegister_of_used {t : RegisterTracker} {pool : RegisterMask}
    {used : List Reg} (h : ∀ r, t.gpRegMask.test r = true ↔ r ∈ used) {r : Reg}
    (hr : pool.firstFree used = some r) :
    t.takeUnusedRegister pool = some (r, ⟨t.gpRegMask.set r⟩) := by
  have hpred : (fun r => !t.gpRegMask.test r) = fun r => decide (r ∉ used) := by
    funext r
    rw [Bool.eq_iff_iff, Bool.not_eq_true', decide_eq_true_iff, ← h r, Bool.not_eq_true]
  rw [RegisterMask.firstFree] at hr
  rw [takeUnusedRegister, hpred, hr]

namespace Assembler

variable {ι : Type} {a : Assembler ι} {frame : FunctionFrame} {exitLabel : Label} {capacity : ℕ}
  {held : List Reg} {s : CompilerState} {w : Window}

theorem allocateRegister_of_free (h : Holds a.callerSaved s capacity held w) {r : Reg}
    (hr : a.callerSaved.firstFree (held ++ w.regs) = some r) (stack : RuntimeStack) :
    a.allocateRegister { s with stack } = .ok (r, ⟨⟨s.regTracker.gpRegMask.set r⟩, stack⟩, []) := by
  rw [allocateRegister, RegisterTracker.takeUnusedRegister_of_used h.used hr]

/-- **A new element** with a register free: it gets the first of them. -/
theorem allocateRegister_push_first (h : Holds a.callerSaved s capacity [] w) {r : Reg}
    (hr : a.callerSaved.firstFree w.regs = some r) :
    ∃ s' code, a.allocateRegister { s with stack := stackOf capacity (none :: w.locations) } =
        .ok (r, s', code) ∧
      Holds a.callerSaved { s' with stack := s'.stack.setTopReg r } capacity [] (w.push r) := by
  obtain ⟨r', w', code, s', halloc, hacq, h'⟩ := allocateRegister_push h
  have hfirst := allocateRegister_of_free h hr (stackOf capacity (none :: w.locations))
  obtain ⟨rfl, -⟩ := Prod.mk.inj (Except.ok.inj (halloc.symm.trans hfirst))
  refine ⟨s', code, halloc, ?_⟩
  -- with a free register in the pool, there is no spill
  cases hacq with
  | free hp hnot => exact h'
  | spill hfull =>
    obtain ⟨hpool, hnot⟩ := RegisterMask.firstFree_eq_some hr
    exact absurd (hfull _ hpool) hnot

/-- A new element without a register free. -/
theorem allocateRegister_push_full (h : Holds a.callerSaved s capacity [] w)
    (hr : a.callerSaved.firstFree w.regs = none) :
    ∃ r s' code, a.allocateRegister { s with stack := stackOf capacity (none :: w.locations) } =
        .ok (r, s', code) ∧
      Holds a.callerSaved { s' with stack := s'.stack.setTopReg r } capacity []
        ⟨w.regs, w.spilled + 1⟩ := by
  obtain ⟨r, w', code, s', halloc, hacq, h'⟩ := allocateRegister_push h
  refine ⟨r, s', code, halloc, ?_⟩
  cases hacq with
  | free hp hnot => exact absurd (RegisterMask.firstFree_eq_none hr hp) hnot
  | spill hfull => exact h'

/-- A value in memory is reloaded to the first free register. -/
theorem ensureInRegister_first (h : Holds a.callerSaved s capacity held w) {r : Reg}
    (hr : a.callerSaved.firstFree (held ++ w.regs) = some r) {v : RuntimeValue}
    (hv : v.reg = none) (stack : RuntimeStack) :
    ∃ s' code, a.ensureInRegister { s with stack } v = .ok (r, s', code) :=
  ⟨_, _, a.ensureInRegister_of_alloc hv (allocateRegister_of_free h hr stack)⟩

theorem pop_memory {k : ℕ} (h : Holds a.callerSaved s capacity held ⟨[], k + 1⟩)
    {v : RuntimeValue} {stack : RuntimeStack} (hpop : s.stack.pop = .ok (v, stack)) :
    v.reg = none := by
  rw [h.stack, Window.locations_memory, stackOf_pop] at hpop
  rw [← (Prod.mk.inj (Except.ok.inj hpop)).1]

theorem ensureTopInRegister_first {k : ℕ} (h : Holds a.callerSaved s capacity held ⟨[], k + 1⟩)
    {r : Reg} (hr : a.callerSaved.firstFree held = some r) :
    ∃ s' code, a.ensureTopInRegister s = .ok (r, s', code) := by
  have hpeek := stackOf_peek capacity none (Window.locations ⟨[], k⟩)
  rw [← Window.locations_memory, ← h.stack] at hpeek
  obtain ⟨s', code, he⟩ := ensureInRegister_first h (by rwa [List.append_nil])
    (show RuntimeValue.reg ⟨_, none, .i32⟩ = none from rfl) s.stack
  exact ⟨_, _, a.ensureTopInRegister_eq hpeek he⟩

/-- **An addition**, in terms of the registers of its operands: those that are reloaded go to the
first free one each. -/
theorem visitAddI32_window (h : Holds a.callerSaved s capacity [] w) (hfit : 2 ≤ w.depth) :
    ∃ s' code x1 x2 w₁ w₂ code1 code2, a.visitAddI32 s = .ok (s', code) ∧
      a.Release [] w x2 w₁ code2 ∧ a.Release [x2] w₁ x1 w₂ code1 ∧
      Holds a.callerSaved s' capacity [] (w₂.push x1) ∧
      (∀ r, w.regs = [] → a.callerSaved.firstFree [] = some r → x2 = r) ∧
      ∀ r, w₁.regs = [] → a.callerSaved.firstFree [x2] = some r → x1 = r := by
  obtain ⟨v, stack, x2, w₁, code2, s₁, hpop, hv, he, hrel2, h₁⟩ :=
    pop_ensureInRegister h (by omega)
  have hdepth := hrel2.depth
  obtain ⟨x1, w₂, code1, s₂, htop, hrel1, h₂⟩ := ensureTopInRegister_spec h₁ (by omega)
  refine ⟨_, _, x1, x2, w₁, w₂, code1, code2, visitAddI32_eq hpop he htop, hrel2, hrel1, h₂.release,
    fun r hregs hr => ?_, fun r hregs hr => ?_⟩
  · obtain ⟨regs, k⟩ := w
    obtain rfl : regs = [] := hregs
    obtain ⟨k, rfl⟩ : ∃ j, k = j + 1 := ⟨k - 1, by rw [Window.depth_memory] at hfit; omega⟩
    -- a spilled operand is reloaded into the register that is found for it
    obtain ⟨s', code, hfirst⟩ := ensureInRegister_first h hr (pop_memory h hpop) stack
    exact (Prod.mk.inj (Except.ok.inj (he.symm.trans hfirst))).1
  · obtain ⟨regs, k⟩ := w₁
    obtain rfl : regs = [] := hregs
    obtain ⟨k, rfl⟩ : ∃ j, k = j + 1 := ⟨k - 1, by rw [Window.depth_memory] at hdepth; omega⟩
    obtain ⟨s', code, hfirst⟩ := ensureTopInRegister_first h₁ hr
    exact (Prod.mk.inj (Except.ok.inj (htop.symm.trans hfirst))).1

end Assembler

/-! ### Counting -/

/-- How many elements are in registers and how many below them in memory, and whether the two lowest
registers hold them the other way round. -/
structure Usage where
  registers : ℕ := 0
  swapped : Bool := false
  memory : ℕ := 0
deriving DecidableEq, Repr

namespace Usage

def depth (u : Usage) : ℕ := u.registers + u.memory

/-- A new element, with `n` registers to allocate. -/
def push (n : ℕ) (u : Usage) : Usage :=
  if u.registers = 0 then ⟨1, false, u.memory⟩
  else if u.registers < n then { u with registers := u.registers + 1 }
  else { u with memory := u.memory + 1 }

/-- The sum of two elements stays in the register of the first one. -/
def add (u : Usage) : Usage :=
  match u.registers with
  | 0 => ⟨1, true, u.memory - 2⟩
  | 1 => ⟨1, !u.swapped, u.memory - 1⟩
  | r + 2 => { u with registers := r + 1 }

def pop (u : Usage) : Usage :=
  match u.registers with
  | 0 => { u with memory := u.memory - 1 }
  | r + 1 => { u with registers := r }

def step (n : ℕ) (u : Usage) : Instruction → Usage
  | .constI32 _ | .getLocalI32 _ => u.push n
  | .addI32 => u.add
  | .setLocalI32 _ => u.pop
  | .return_ | .label _ | .br _ | .brIf _ _ => u

/-- The registers of the elements from the lowest on, and those that come after them. -/
def order (pool : List Reg) (u : Usage) : List Reg :=
  match u.swapped, pool with
  | true, r₀ :: r₁ :: rs => r₁ :: r₀ :: rs
  | _, pool => pool

def window (pool : List Reg) (u : Usage) : Window :=
  ⟨((u.order pool).take u.registers).reverse, u.memory⟩

variable {n : ℕ} {u : Usage} {pool : List Reg}

/-- The counts add up to the number of elements. -/
theorem step_depth {capacity : ℕ} {i : Instruction} (hcore : i.isCore = true)
    (hfit : i.Fits capacity u.depth) : (u.step n i).depth = i.depthAfter u.depth := by
  have hpush : (u.push n).depth = u.depth + 1 := by
    unfold push depth
    split
    · simp only
      omega
    · split
      · exact Nat.add_right_comm _ _ _
      · rfl
  -- what a pop takes from depends on how many registers are in use
  obtain ⟨j, swapped, k⟩ := u
  cases i with
  | constI32 value => exact hpush
  | getLocalI32 idx => exact hpush
  | addI32 =>
    have hle : 2 ≤ j + k := hfit
    change (add ⟨j, swapped, k⟩).depth = j + k - 1
    match j with
    | 0 => simp only [add, depth]; omega
    | 1 => simp only [add, depth]; omega
    | r + 2 => simp only [add, depth]; omega
  | setLocalI32 idx =>
    have hle : 1 ≤ j + k := hfit
    change (pop ⟨j, swapped, k⟩).depth = j + k - 1
    match j with
    | 0 => simp only [pop, depth]; omega
    | r + 1 => simp only [pop, depth]; omega
  | return_ => rfl
  | label id => cases hcore
  | br id => cases hcore
  | brIf t e => cases hcore

theorem order_perm (u : Usage) (pool : List Reg) : (u.order pool).Perm pool := by
  unfold order
  split
  · exact .swap _ _ _
  · exact .refl _

theorem order_length (u : Usage) (pool : List Reg) : (u.order pool).length = pool.length :=
  (u.order_perm pool).length_eq

theorem window_depth (h : u.registers ≤ pool.length) : (u.window pool).depth = u.depth := by
  rw [Window.depth, window, List.length_reverse, List.length_take, order_length,
    Nat.min_eq_left h, depth]

/-- The sum needs a register of its own only if neither operand had one. -/
theorem add_registers_le (hn : 1 ≤ n) (hle : u.registers ≤ n) : u.add.registers ≤ n := by
  obtain ⟨j, swapped, k⟩ := u
  match j with
  | 0 => exact hn
  | 1 => exact hle
  | r + 2 => exact Nat.le_of_succ_le hle

/-- The register on top. -/
theorem window_succ {r : ℕ} (swapped : Bool) (k : ℕ) (hle : r + 1 ≤ pool.length) :
    window pool ⟨r + 1, swapped, k⟩ =
      (window pool ⟨r, swapped, k⟩).push ((order pool ⟨r + 1, swapped, k⟩).getD r 0) := by
  have hlt : r < (order pool ⟨r + 1, swapped, k⟩).length := by
    rw [order_length]
    exact hle
  change Window.mk ((order pool ⟨r + 1, swapped, k⟩).take (r + 1)).reverse k = _
  rw [List.take_succ_eq_append_getElem hlt, List.reverse_append, List.getD_eq_getElem _ _ hlt]
  rfl

/-- With the first `k` elements of a list used up, the next one is the first that is not. -/
theorem find?_not_mem {l used : List Reg} (hl : l.Nodup) {k : ℕ}
    (hused : ∀ r ∈ l, r ∈ used ↔ r ∈ l.take k) :
    l.find? (fun r => decide (r ∉ used)) = l[k]? := by
  by_cases hk : k < l.length
  · -- the first `k` are used, and the next one is not
    have hdrop := List.drop_eq_getElem_cons hk
    rw [List.getElem?_eq_getElem hk, List.find?_eq_some_iff_append]
    refine ⟨?_, l.take k, l.drop (k + 1), ?_, fun r hr => ?_⟩
    · rw [decide_eq_true_iff, hused _ (List.getElem_mem hk)]
      refine fun hmem => List.disjoint_take_drop hl (le_refl k) hmem ?_
      rw [hdrop]
      exact List.mem_cons_self
    · rw [← hdrop, List.take_append_drop]
    · simpa using (hused r (List.mem_of_mem_take hr)).mpr hr
  · -- all are used
    rw [List.getElem?_eq_none (Nat.le_of_not_lt hk), List.find?_eq_none]
    intro r hr
    have hmem := (hused r hr).mpr (by rwa [List.take_of_length_le (Nat.le_of_not_lt hk)])
    simpa using hmem

/-- **The next register** is the next in the order, if there is one. -/
theorem firstFree_window {pool : RegisterMask} (h0 : 0 < u.registers) :
    pool.firstFree (u.window pool.toList).regs = (u.order pool.toList)[u.registers]? := by
  have hnodup := pool.toList_nodup
  unfold RegisterMask.firstFree window order
  generalize pool.toList = l at hnodup
  obtain ⟨j, hj⟩ : ∃ j, u.registers = j + 1 := ⟨u.registers - 1, by omega⟩
  rw [hj]
  split
  next r₀ r₁ rs hswap =>
    cases j with
    | zero =>
      have hne : r₀ ∉ [r₁] := by
        have := (List.nodup_cons.mp hnodup).1
        simp only [List.mem_cons, not_or] at this
        simpa using this.1
      change List.find? _ (r₀ :: r₁ :: rs) = some r₀
      rw [List.find?_cons_of_pos (by simpa using hne)]
    | succ j =>
      -- the two lowest are both used, so their order does not matter
      have hused : ∀ r ∈ r₀ :: r₁ :: rs, r ∈ ((r₁ :: r₀ :: rs).take (j + 2)).reverse ↔
          r ∈ (r₀ :: r₁ :: rs).take (j + 2) := by
        intro r _
        simp only [List.mem_reverse, List.take_succ_cons, List.mem_cons]
        exact or_left_comm
      exact find?_not_mem hnodup hused
  · exact find?_not_mem hnodup fun r _ => List.mem_reverse

end Usage

/-! ### The visitors follow the counts -/

section Follows

variable {ι : Type} {a : Assembler ι} {frame : FunctionFrame} {exitLabel : Label} {capacity : ℕ}
  {s : CompilerState} {u : Usage}

/-- The compiler is in a state with this usage of its registers. -/
structure Follows (a : Assembler ι) (s : CompilerState) (capacity : ℕ) (u : Usage) : Prop where
  holds : Holds a.callerSaved s capacity [] (u.window a.callerSaved.toList)
  le : u.registers ≤ a.callerSaved.toList.length

/-- There are at least two registers to allocate. -/
theorem Assembler.exists_pool (a : Assembler ι) :
    ∃ r₀ r₁ rs, a.callerSaved.toList = r₀ :: r₁ :: rs := by
  obtain ⟨q₁, q₂, hne, h1, h2⟩ := a.twoRegisters
  have hmem1 := RegisterMask.mem_toList.mpr h1
  have hmem2 := RegisterMask.mem_toList.mpr h2
  match hl : a.callerSaved.toList with
  | [] =>
    rw [hl] at hmem1
    cases hmem1
  | [r] =>
    rw [hl, List.mem_singleton] at hmem1 hmem2
    exact absurd (hmem1.trans hmem2.symm) hne
  | r₀ :: r₁ :: rs => exact ⟨r₀, r₁, rs, rfl⟩

/-- Of the two lowest ones, the first is free unless it is used, and then the second is. -/
theorem Assembler.exists_lowest (a : Assembler ι) :
    ∃ r₀ r₁ rs, a.callerSaved.toList = r₀ :: r₁ :: rs ∧
      a.callerSaved.firstFree [] = some r₀ ∧ a.callerSaved.firstFree [r₀] = some r₁ ∧
      a.callerSaved.firstFree [r₁] = some r₀ := by
  obtain ⟨r₀, r₁, rs, hpool⟩ := a.exists_pool
  have hne : r₁ ≠ r₀ := by
    have hnodup := a.callerSaved.toList_nodup
    rw [hpool] at hnodup
    exact fun he => (List.nodup_cons.mp hnodup).1 (he ▸ List.mem_cons_self)
  -- whichever of the two is used, the lower one of the others is found
  refine ⟨r₀, r₁, rs, hpool, ?_, ?_, ?_⟩
  · rw [RegisterMask.firstFree, hpool]
    rfl
  · rw [RegisterMask.firstFree, hpool, List.find?_cons_of_neg (by simp),
      List.find?_cons_of_pos (by simpa using hne)]
  · rw [RegisterMask.firstFree, hpool, List.find?_cons_of_pos (by simpa using hne.symm)]

namespace Follows

theorem new (a : Assembler ι) (capacity : ℕ) : Follows a { stack := { capacity } } capacity {} where
  holds := .new a.callerSaved capacity
  le := Nat.zero_le _

theorem depth (h : Follows a s capacity u) :
    (u.window a.callerSaved.toList).depth = u.depth := Usage.window_depth h.le

/-- **A register for a new element.** -/
theorem alloc (h : Follows a s capacity u) :
    ∃ r s' code, a.allocateRegister { s with
        stack := stackOf capacity (none :: (u.window a.callerSaved.toList).locations) } =
          .ok (r, s', code) ∧
      Follows a { s' with stack := s'.stack.setTopReg r } capacity
        (u.push a.callerSaved.toList.length) := by
  obtain ⟨r₀, r₁, rs, hpool, hfree, -⟩ := a.exists_lowest
  have hle := h.le
  unfold Usage.push
  split
  next h0 =>
    -- nothing is in a register: the first one of the pool is free
    have hregs : (u.window a.callerSaved.toList).regs = [] := by
      rw [Usage.window, h0, List.take_zero, List.reverse_nil]
    have hfirst : a.callerSaved.firstFree (u.window a.callerSaved.toList).regs = some r₀ := by
      rw [hregs, hfree]
    obtain ⟨s', code, halloc, h'⟩ := Assembler.allocateRegister_push_first h.holds hfirst
    refine ⟨r₀, s', code, halloc, ?_, by rw [hpool]; exact Nat.le_add_left 1 _⟩
    have hwindow : (u.window a.callerSaved.toList).push r₀ =
        Usage.window a.callerSaved.toList ⟨1, false, u.memory⟩ := by
      rw [Window.push, hregs, hpool]
      rfl
    rwa [← hwindow]
  next h0 =>
    have hfirst : a.callerSaved.firstFree (u.window a.callerSaved.toList).regs = _ :=
      Usage.firstFree_window (Nat.pos_of_ne_zero h0)
    split
    next hlt =>
      -- the next one in the order is free
      have hlt' : u.registers < (u.order a.callerSaved.toList).length := by
        rwa [Usage.order_length]
      rw [List.getElem?_eq_getElem hlt'] at hfirst
      obtain ⟨s', code, halloc, h'⟩ := Assembler.allocateRegister_push_first h.holds hfirst
      refine ⟨_, s', code, halloc, ?_, hlt⟩
      have htake := List.take_succ_eq_append_getElem hlt'
      have hwindow : (u.window a.callerSaved.toList).push
          (u.order a.callerSaved.toList)[u.registers] =
            Usage.window a.callerSaved.toList { u with registers := u.registers + 1 } := by
        change Window.mk _ _ = Window.mk ((u.order a.callerSaved.toList).take _).reverse _
        rw [htake, List.reverse_append]
        rfl
      rwa [← hwindow]
    next hge =>
      -- all are in use, and the value goes to the stack memory
      rw [List.getElem?_eq_none (by rw [Usage.order_length]; omega)] at hfirst
      obtain ⟨r, s', code, halloc, h'⟩ := Assembler.allocateRegister_push_full h.holds hfirst
      exact ⟨r, s', code, halloc, h', hle⟩

/-- The register of a sum, and what is below it. -/
theorem add_window (hle : u.registers ≤ a.callerSaved.toList.length) {x1 x2 : Reg}
    {w₁ w₂ : Window} {code1 code2 : List ι}
    (h2 : a.Release [] (u.window a.callerSaved.toList) x2 w₁ code2)
    (h1 : a.Release [x2] w₁ x1 w₂ code1)
    (hfirst2 : ∀ r, (u.window a.callerSaved.toList).regs = [] →
      a.callerSaved.firstFree [] = some r → x2 = r)
    (hfirst1 : ∀ r, w₁.regs = [] → a.callerSaved.firstFree [x2] = some r → x1 = r) :
    u.add.window a.callerSaved.toList = w₂.push x1 := by
  obtain ⟨r₀, r₁, rs, hpool, hfree, hfree₀, hfree₁⟩ := a.exists_lowest
  obtain ⟨j, swapped, k⟩ := u
  match j with
  | 0 =>
    -- both operands are reloaded
    have hw : Usage.window a.callerSaved.toList ⟨0, swapped, k⟩ = ⟨[], k⟩ := rfl
    rw [hw] at h2 hfirst2
    cases h2 with
    | reload _ _ =>
      cases h1 with
      | reload _ _ =>
        obtain rfl := hfirst2 r₀ rfl hfree
        obtain rfl := hfirst1 r₁ rfl hfree₀
        rw [hpool]
        rfl
  | 1 =>
    -- the first operand is reloaded, to the lowest register that the second one is not in
    have hw : Usage.window a.callerSaved.toList ⟨1, swapped, k⟩ =
        ⟨[if swapped then r₁ else r₀], k⟩ := by
      rw [hpool]
      cases swapped <;> rfl
    rw [hw] at h2
    cases h2 with
    | reg =>
      cases h1 with
      | reload _ _ =>
        have hfree' : a.callerSaved.firstFree [if swapped then r₁ else r₀] =
            some (if swapped then r₀ else r₁) := by
          cases swapped
          · exact hfree₀
          · exact hfree₁
        obtain rfl := hfirst1 _ rfl hfree'
        rw [hpool]
        cases swapped <;> rfl
  | r + 2 =>
    -- both are in registers, the lower of which the sum stays in
    have hbelow := Usage.window_succ swapped k (Nat.le_of_succ_le hle)
    rw [Usage.window_succ swapped k hle, hbelow] at h2
    cases h2 with
    | reg =>
      cases h1 with
      | reg => exact hbelow

/-- **An addition.** -/
theorem add (h : Follows a s capacity u) (hfit : 2 ≤ u.depth) :
    ∃ s' code, a.visitAddI32 s = .ok (s', code) ∧ Follows a s' capacity u.add := by
  obtain ⟨s', code, x1, x2, w₁, w₂, code1, code2, hv, h2, h1, h', hfirst2, hfirst1⟩ :=
    Assembler.visitAddI32_window h.holds (by rw [h.depth]; exact hfit)
  refine ⟨s', code, hv, ?_, ?_⟩
  · rwa [add_window h.le h2 h1 hfirst2 hfirst1]
  · obtain ⟨r₀, r₁, rs, hpool⟩ := a.exists_pool
    exact Usage.add_registers_le (by rw [hpool]; exact Nat.le_add_left 1 _) h.le

/-- A value that is popped. -/
theorem pop (h : Follows a s capacity u) (hfit : 1 ≤ u.depth) {idx : ℕ}
    (hlocal : idx < frame.localsStackOffset.length) :
    ∃ s' code, a.visitSetLocalI32 frame s idx = .ok (s', code) ∧ Follows a s' capacity u.pop := by
  have hle := h.le
  obtain ⟨s', w', code, hv, hvisit, h'⟩ : ∃ s' w' code,
      a.visitSetLocalI32 frame s idx = .ok (s', code) ∧
        a.Visit frame 0 (u.window a.callerSaved.toList) (.setLocalI32 idx) w' code ∧
        Holds a.callerSaved s' capacity [] w' :=
    Assembler.visitSetLocalI32_of_fits h.holds (by rw [h.depth]; exact hfit) hlocal
  refine ⟨s', code, hv, ?_⟩
  obtain ⟨j, swapped, k⟩ := u
  cases hvisit with
  | set hr ho =>
    match j with
    | 0 =>
      -- nothing in a register: the operand comes back from memory
      have hw : Usage.window a.callerSaved.toList ⟨0, swapped, k⟩ = ⟨[], k⟩ := rfl
      rw [hw] at hr
      cases hr with
      | reload _ _ => exact ⟨h', hle⟩
    | r + 1 =>
      -- the operand is in the register on top
      rw [Usage.window_succ swapped k hle] at hr
      cases hr with
      | reg => exact ⟨h', Nat.le_of_succ_le hle⟩

/-- **One visitor**, where its instruction fits. -/
theorem visit (exitLabel : Label) (h : Follows a s capacity u) {i : Instruction}
    (hcore : i.isCore = true) (hlocal : i.LocalsBelow frame.localsStackOffset.length)
    (hfit : i.Fits capacity u.depth) :
    ∃ s' code, a.visit frame exitLabel s i = .ok (s', code) ∧
      Follows a s' capacity (u.step a.callerSaved.toList.length i) := by
  cases i with
  | constI32 value =>
    obtain ⟨r, s', code, halloc, h'⟩ := h.alloc
    exact ⟨_, _, Assembler.visitConstI32_of_alloc h.holds (by rw [h.depth]; exact hfit) halloc
      value, h'⟩
  | addI32 => exact h.add hfit
  | getLocalI32 idx =>
    obtain ⟨r, s', code, halloc, h'⟩ := h.alloc
    obtain ⟨offset, ho⟩ := FunctionFrame.localStackOffset_of_lt hlocal
    exact ⟨_, _, Assembler.visitGetLocalI32_of_alloc h.holds (by rw [h.depth]; exact hfit) halloc
      ho, h'⟩
  | setLocalI32 idx => exact h.pop hfit hlocal
  | return_ => exact ⟨s, _, rfl, h⟩
  -- not core instructions
  | label id => cases hcore
  | br id => cases hcore
  | brIf t e => cases hcore

/-- **The visitors on a body that fits** follow the counts. -/
theorem visitAll (exitLabel : Label) {results : ℕ} {body : List Instruction}
    (hb : Assembler.WellNamed frame body) :
    ∀ {s : CompilerState} {u : Usage}, Follows a s capacity u →
      Instruction.FitsAll capacity results u.depth body →
      ∃ s' code, a.visitAll frame exitLabel s body = .ok (s', code) ∧
        Follows a s' capacity (runCalls (Usage.step a.callerSaved.toList.length) u body) ∧
        results ≤ (runCalls (Usage.step a.callerSaved.toList.length) u body).depth := by
  induction body with
  | nil => exact fun {s u} h hfit => ⟨s, [], rfl, h, hfit⟩
  | cons i is ih =>
    intro s u h hfit
    obtain ⟨s₁, code, hv, h₁⟩ :=
      h.visit exitLabel hb.core.head (hb.locals i List.mem_cons_self) hfit.1
    obtain ⟨s₂, rest, hvs, h₂, hres⟩ := ih hb.tail h₁ (by
      -- the depth that the counting goes on with is that of the allocator
      rw [Usage.step_depth hb.core.head hfit.1]
      exact hfit.2)
    exact ⟨s₂, code ++ rest, bind_eq_ok.mpr ⟨_, hv, bind_eq_ok.mpr ⟨_, hvs, rfl⟩⟩, h₂, hres⟩

end Follows

end Follows

end Wasmcc
