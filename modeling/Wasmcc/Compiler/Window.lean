import Wasmcc.Compiler.Emit

/-!
# The register window

What the compile-time stack of a `Compiler` looks like at every point of every body. All elements
are `i32`. The upper ones are in distinct registers and the lower ones in memory, element `k` from
the bottom at offset `4 * k`: a `Window` is the registers, the top first, and the number of elements
below them. `Holds` ties it to a `CompilerState`, whose tracker has exactly these registers in use.

An allocation takes a free register or spills (`Acquire`). The spill loop stores every register of
the window, and since it keeps swapping, each of these elements but the lowest ends up with the
register of the one below it. With a new element on top the registers of the window are the same
as before, and one more element is in memory. A pop gives up the top register or, when all of the
stack is in memory, reloads the top element (`Release`).

`Visit` is the effect of one instruction in these terms, with its code. The visitor does one such
step where `Fits` lets it (`visit_of_fits`) and leaves the array of the stack where not
(`visit_of_not_fits`).
-/

namespace Wasmcc

/-! ### Stacks of `i32` elements -/

/-- The elements of a stack whose registers are `locs`, the top first. -/
def stackEntries : List (Option Reg) → List RuntimeValue
  | [] => []
  | reg :: below =>
    { stackPointer := BitVec.ofNat 32 (4 * (below.length + 1)), reg } :: stackEntries below

/-- The stack of `capacity` elements with these elements on it. -/
def stackOf (capacity : ℕ) (locs : List (Option Reg)) : RuntimeStack :=
  ⟨capacity, BitVec.ofNat 32 (4 * locs.length), stackEntries locs⟩

@[simp] theorem stackEntries_length (locs : List (Option Reg)) :
    (stackEntries locs).length = locs.length := by
  induction locs with
  | nil => rfl
  | cons reg below ih => simp [stackEntries, ih]

section stackOf

variable (capacity : ℕ) (reg : Option Reg) (r : Reg) (locs : List (Option Reg))

theorem stackOf_push (h : locs.length < capacity) :
    (stackOf capacity locs).push { type := .i32 } = .ok (stackOf capacity (none :: locs)) := by
  have hoff : BitVec.ofNat 32 (4 * locs.length) + BitVec.ofNat 32 ValType.i32.sizeBytes =
      BitVec.ofNat 32 (4 * (locs.length + 1)) := by
    rw [← BitVec.ofNat_add]
    rfl
  have hlen : (stackOf capacity locs).stack.length < (stackOf capacity locs).capacity := by
    simpa [stackOf] using h
  rw [RuntimeStack.push, if_pos hlen]
  simp only [stackOf, stackEntries, List.length_cons, hoff]

theorem stackOf_push_full (h : ¬locs.length < capacity) :
    (stackOf capacity locs).push { type := .i32 } = .error .stackIndex := by
  rw [RuntimeStack.push, if_neg (by simpa [stackOf] using h)]

theorem stackOf_pop : (stackOf capacity (reg :: locs)).pop =
    .ok ({ stackPointer := BitVec.ofNat 32 (4 * (locs.length + 1)), reg },
      stackOf capacity locs) := by
  have hoff : BitVec.ofNat 32 (4 * (locs.length + 1)) - BitVec.ofNat 32 ValType.i32.sizeBytes =
      BitVec.ofNat 32 (4 * locs.length) := by
    rw [Nat.mul_add, BitVec.ofNat_add]
    exact add_sub_cancel_right _ _
  simp only [RuntimeStack.pop, stackOf, stackEntries, List.length_cons, hoff]

theorem stackOf_peek : (stackOf capacity (reg :: locs)).peek =
    .ok { stackPointer := BitVec.ofNat 32 (4 * (locs.length + 1)), reg } := rfl

theorem stackOf_setTopReg : (stackOf capacity (reg :: locs)).setTopReg r =
    stackOf capacity (some r :: locs) := rfl

end stackOf

/-! ### Windows -/

/-- Registers, the top first, and the number of elements in memory below them. -/
structure Window where
  regs : List Reg
  spilled : ℕ
deriving DecidableEq

namespace Window

def depth (w : Window) : ℕ := w.regs.length + w.spilled

def locations (w : Window) : List (Option Reg) := w.regs.map some ++ List.replicate w.spilled none

/-- The window with one more value on top, in register `r`. -/
def push (w : Window) (r : Reg) : Window := ⟨r :: w.regs, w.spilled⟩

@[simp] theorem locations_length (w : Window) : w.locations.length = w.depth := by
  simp [locations, depth]

@[simp] theorem push_depth (w : Window) (r : Reg) : (w.push r).depth = w.depth + 1 := by
  simp only [push, depth, List.length_cons]
  omega

theorem locations_push (w : Window) (r : Reg) :
    (w.push r).locations = some r :: w.locations := rfl

theorem locations_memory (k : ℕ) : locations ⟨[], k + 1⟩ = none :: locations ⟨[], k⟩ := by
  simp [locations, List.replicate_succ]

theorem depth_memory (k : ℕ) : depth ⟨[], k⟩ = k := Nat.zero_add k

/-- The registers are distinct, and the compiler's to allocate. -/
structure Valid (pool : RegisterMask) (w : Window) : Prop where
  nodup : w.regs.Nodup
  pool : ∀ r ∈ w.regs, pool.test r = true

theorem Valid.below {pool : RegisterMask} {w : Window} {r : Reg} (h : (w.push r).Valid pool) :
    r ∉ w.regs ∧ w.Valid pool :=
  ⟨(List.nodup_cons.mp h.nodup).1, (List.nodup_cons.mp h.nodup).2,
    fun q hq => h.pool q (List.mem_cons_of_mem r hq)⟩

theorem Valid.push {pool : RegisterMask} {w : Window} {r : Reg} (h : w.Valid pool)
    (hr : r ∉ w.regs) (hp : pool.test r = true) : (w.push r).Valid pool where
  nodup := List.nodup_cons.mpr ⟨hr, h.nodup⟩
  pool q hq := by
    rcases List.mem_cons.mp hq with rfl | hq
    · exact hp
    · exact h.pool q hq

end Window

/-- The stack of `s` is the window. The registers in use are those of the window and those in
`held`, which were popped and are not released yet. -/
structure Holds (pool : RegisterMask) (s : CompilerState) (capacity : ℕ) (held : List Reg)
    (w : Window) : Prop where
  stack : s.stack = stackOf capacity w.locations
  nodup : (held ++ w.regs).Nodup
  used : ∀ r, s.regTracker.gpRegMask.test r = true ↔ r ∈ held ++ w.regs
  pool : ∀ r ∈ held ++ w.regs, pool.test r = true

namespace Holds

variable {pool : RegisterMask} {s : CompilerState} {capacity : ℕ} {held : List Reg} {w : Window}

theorem new (pool : RegisterMask) (capacity : ℕ) :
    Holds pool { stack := { capacity } } capacity [] ⟨[], 0⟩ where
  stack := rfl
  nodup := by simp
  used := by simp
  pool := by simp

theorem valid (h : Holds pool s capacity held w) : w.Valid pool :=
  ⟨(List.nodup_append.mp h.nodup).2.1, fun r hr => h.pool r (List.mem_append_right held hr)⟩

/-- A held register is given back. -/
theorem release {r : Reg} (h : Holds pool s capacity [r] w) :
    Holds pool { s with regTracker := s.regTracker.markRegisterUnused r } capacity [] w where
  stack := h.stack
  nodup := (List.nodup_cons.mp h.nodup).2
  used := by
    intro q
    have hr : r ∉ w.regs := (List.nodup_cons.mp h.nodup).1
    have hq := h.used q
    simp only [List.singleton_append, List.mem_cons] at hq
    rw [RegisterTracker.markRegisterUnused, RegisterMask.test_reset, hq, List.nil_append]
    -- what is still in use is in use by the stack
    constructor
    · rintro ⟨hne, rfl | hmem⟩
      · exact absurd rfl hne
      · exact hmem
    · intro hmem
      exact ⟨fun he => hr (he ▸ hmem), Or.inr hmem⟩
  pool := fun q hq => h.pool q (List.mem_cons_of_mem r hq)

/-- A register that was free is taken. -/
theorem take {r : Reg} (h : Holds pool s capacity held w)
    (hfree : s.regTracker.gpRegMask.test r = false) :
    r ∉ held ++ w.regs ∧
      ∀ q, (s.regTracker.gpRegMask.set r).test q = true ↔ q ∈ r :: (held ++ w.regs) := by
  refine ⟨fun hmem => ?_, fun q => ?_⟩
  · rw [(h.used r).mpr hmem] at hfree
    cases hfree
  · rw [RegisterMask.test_set, h.used q, List.mem_cons]

end Holds

/-! ### What an instruction needs -/

namespace Instruction

/-- The number of elements on the compile-time stack after an instruction. -/
def depthAfter (depth : ℕ) : Instruction → ℕ
  | .constI32 _ | .getLocalI32 _ => depth + 1
  | .addI32 | .setLocalI32 _ => depth - 1
  | .return_ | .label _ | .br _ | .brIf _ _ => depth

/-- An instruction finds the elements it pops, and room for the one it pushes. -/
def Fits (capacity depth : ℕ) : Instruction → Prop
  | .constI32 _ | .getLocalI32 _ => depth < capacity
  | .addI32 => 2 ≤ depth
  | .setLocalI32 _ => 1 ≤ depth
  | .return_ | .label _ | .br _ | .brIf _ _ => True

/-- The largest number of elements on the stack from `depth` on. -/
def maxDepth : ℕ → List Instruction → ℕ
  | depth, [] => depth
  | depth, i :: is => max depth (maxDepth (i.depthAfter depth) is)

theorem le_maxDepth (depth : ℕ) (body : List Instruction) : depth ≤ maxDepth depth body := by
  cases body with
  | nil => exact le_rfl
  | cons i is => exact le_max_left _ _

/-- The local that an instruction names is one of the first `n`. -/
def LocalsBelow (n : ℕ) : Instruction → Prop
  | .getLocalI32 idx | .setLocalI32 idx => idx < n
  | .constI32 _ | .addI32 | .return_ | .label _ | .br _ | .brIf _ _ => True

/-- Every instruction of a body fits, from `depth` elements on, and in the end there are elements
for all the results. -/
def FitsAll (capacity results : ℕ) : ℕ → List Instruction → Prop
  | depth, [] => results ≤ depth
  | depth, i :: is => i.Fits capacity depth ∧ FitsAll capacity results (i.depthAfter depth) is

instance (capacity depth : ℕ) : (i : Instruction) → Decidable (i.Fits capacity depth)
  | .constI32 _ | .getLocalI32 _ => inferInstanceAs (Decidable (_ < _))
  | .addI32 | .setLocalI32 _ => inferInstanceAs (Decidable (_ ≤ _))
  | .return_ | .label _ | .br _ | .brIf _ _ => inferInstanceAs (Decidable True)

instance instDecidableFitsAll (capacity results : ℕ) :
    (depth : ℕ) → (body : List Instruction) → Decidable (FitsAll capacity results depth body)
  | depth, [] => inferInstanceAs (Decidable (results ≤ depth))
  | depth, i :: is =>
    have := instDecidableFitsAll capacity results (i.depthAfter depth) is
    inferInstanceAs (Decidable (_ ∧ _))

end Instruction

namespace Assembler

variable {ι : Type} (a : Assembler ι)

/-! ### One instruction in terms of windows -/

/-- The stores of the spill loop: the registers of the window, each to the slot of its element. -/
def spillCode (k : ℕ) : List Reg → List ι
  | [] => []
  | r :: rs => spillCode k rs ++ [a.store (BitVec.ofNat 32 (4 * (k + rs.length + 1))) (Reg.r32 r)]

/-- A register for a new value: a free one, or the top one of the window after a spill. -/
inductive Acquire : Window → Reg → Window → List ι → Prop
  | free {w : Window} {r : Reg} (hp : a.callerSaved.test r = true) (hr : r ∉ w.regs) :
      Acquire w r (w.push r) []
  | spill {r : Reg} {rs : List Reg} {k : ℕ}
      (hfull : ∀ q, a.callerSaved.test q = true → q ∈ r :: rs) :
      Acquire ⟨r :: rs, k⟩ r ⟨r :: rs, k + 1⟩ (a.spillCode k (r :: rs))

/-- The value on top leaves the window, in its register or in a free one it is reloaded to. -/
inductive Release (held : List Reg) : Window → Reg → Window → List ι → Prop
  | reg {r : Reg} {rs : List Reg} {k : ℕ} : Release held ⟨r :: rs, k⟩ r ⟨rs, k⟩ []
  | reload {r : Reg} {k : ℕ} (hp : a.callerSaved.test r = true) (hr : r ∉ held) :
      Release held ⟨[], k + 1⟩ r ⟨[], k⟩ [a.load (Reg.r32 r) (BitVec.ofNat 32 (4 * (k + 1)))]

/-- One instruction, with its code. -/
inductive Visit (frame : FunctionFrame) (exitLabel : Label) :
    Window → Instruction → Window → List ι → Prop
  /-- The new element has no register yet, so one is loaded from its slot before the constant is
  moved there. -/
  | const {w w' : Window} {r : Reg} {code : List ι} (value : Value)
      (hr : a.Acquire w r w' code) :
      Visit frame exitLabel w (.constI32 value) w'
        (code ++ [a.load (Reg.r32 r) (BitVec.ofNat 32 (4 * (w.depth + 1)))]
          ++ [a.const r value.asI32])
  | add {w w₁ w₂ : Window} {x1 x2 : Reg} {code2 code1 : List ι}
      (h2 : a.Release [] w x2 w₁ code2) (h1 : a.Release [x2] w₁ x1 w₂ code1) :
      Visit frame exitLabel w .addI32 (w₂.push x1) (code2 ++ code1 ++ [a.add x1 x2])
  | get {w w' : Window} {r : Reg} {code : List ι} {idx : ℕ} {offset : BitVec 32}
      (hr : a.Acquire w r w' code) (ho : frame.localStackOffset idx = .ok offset) :
      Visit frame exitLabel w (.getLocalI32 idx) w' (code ++ [a.load (Reg.r32 r) offset])
  | set {w w' : Window} {r : Reg} {code : List ι} {idx : ℕ} {offset : BitVec 32}
      (hr : a.Release [] w r w' code) (ho : frame.localStackOffset idx = .ok offset) :
      Visit frame exitLabel w (.setLocalI32 idx) w' (code ++ [a.setLocal offset r])
  | return_ {w : Window} : Visit frame exitLabel w .return_ w [a.jump exitLabel]

/-- A sequence of instructions. -/
inductive Visits (frame : FunctionFrame) (exitLabel : Label) :
    Window → List Instruction → Window → List ι → Prop
  | nil {w : Window} : Visits frame exitLabel w [] w []
  | cons {w w₁ w₂ : Window} {i : Instruction} {is : List Instruction} {code rest : List ι}
      (hi : a.Visit frame exitLabel w i w₁ code) (his : Visits frame exitLabel w₁ is w₂ rest) :
      Visits frame exitLabel w (i :: is) w₂ (code ++ rest)

/-! ### Allocation -/

variable {a} {capacity : ℕ} {held : List Reg} {s : CompilerState} {w : Window}

theorem spill_memory (k : ℕ) :
    a.spill (stackEntries (List.replicate k none)) =
      (none, stackEntries (List.replicate k none), []) := by
  induction k with
  | zero => rfl
  | succ k ih => rw [List.replicate_succ, stackEntries, spill, ih]

/-- **The spill loop**: every register is stored, the top one is free afterwards, and the others
have moved up by one element. -/
theorem spill_window (r : Reg) (rs : List Reg) (k : ℕ) :
    a.spill (stackEntries (Window.locations ⟨r :: rs, k⟩)) =
      (some r, stackEntries (Window.locations ⟨rs, k + 1⟩), a.spillCode k (r :: rs)) := by
  induction rs generalizing r with
  | nil =>
    have hloc : Window.locations ⟨[r], k⟩ = some r :: List.replicate k none := rfl
    rw [hloc, stackEntries, spill, spill_memory]
    simp [Window.locations, List.replicate_succ, stackEntries, spillCode]
  | cons r' rs ih =>
    have hloc : Window.locations ⟨r :: r' :: rs, k⟩ = some r :: Window.locations ⟨r' :: rs, k⟩ :=
      rfl
    -- the lower elements are spilled first, and each takes over the register of the one below
    rw [hloc, stackEntries, spill, ih]
    have hlen : (Window.locations ⟨r' :: rs, k⟩).length =
        (Window.locations ⟨rs, k + 1⟩).length := by
      simp [Window.depth]
      omega
    have hslot : (Window.locations ⟨r' :: rs, k⟩).length = k + (r' :: rs).length := by
      simp [Window.depth]
      omega
    simp only [hslot, Reg.cast_i32]
    rw [hlen] at hslot
    rw [show Window.locations ⟨r' :: rs, k + 1⟩ = some r' :: Window.locations ⟨rs, k + 1⟩ from rfl,
      stackEntries, hslot]
    rfl

/-- The spill loop under an element that has no register yet. -/
theorem spill_push (r : Reg) (rs : List Reg) (k : ℕ) :
    a.spill (stackOf capacity (none :: Window.locations ⟨r :: rs, k⟩)).stack =
      (some r, (stackOf capacity (none :: Window.locations ⟨rs, k + 1⟩)).stack,
        a.spillCode k (r :: rs)) := by
  simp only [stackOf, stackEntries, spill, spill_window, Window.locations_length]
  have hlen : Window.depth ⟨r :: rs, k⟩ = Window.depth ⟨rs, k + 1⟩ := by
    simp only [Window.depth, List.length_cons]
    omega
  rw [hlen]

/-- **Allocating for a new element.** -/
theorem allocateRegister_push (h : Holds a.callerSaved s capacity [] w) :
    ∃ r w' code s',
      a.allocateRegister { s with stack := stackOf capacity (none :: w.locations) } =
        .ok (r, s', code) ∧
      a.Acquire w r w' code ∧
      Holds a.callerSaved { s' with stack := s'.stack.setTopReg r } capacity [] w' := by
  cases ht : s.regTracker.takeUnusedRegister a.callerSaved with
  | some p =>
    obtain ⟨r, t⟩ := p
    obtain ⟨hp, hfree, rfl⟩ := RegisterTracker.takeUnusedRegister_eq_some ht
    obtain ⟨hr, hused⟩ := h.take hfree
    refine ⟨r, w.push r, [], _, by rw [allocateRegister, ht], .free hp hr, ⟨?_, ?_, hused, ?_⟩⟩
    · exact stackOf_setTopReg capacity none r w.locations
    · exact List.nodup_cons.mpr ⟨hr, h.nodup⟩
    · intro q hq
      rcases List.mem_cons.mp hq with rfl | hq
      · exact hp
      · exact h.pool q hq
  | none =>
    -- every register is in use, and by an element of the stack
    have hall := RegisterTracker.takeUnusedRegister_eq_none.mp ht
    have hfull : ∀ q, a.callerSaved.test q = true → q ∈ w.regs := fun q hq =>
      (h.used q).mp (hall q hq)
    obtain ⟨regs, k⟩ := w
    cases regs with
    | nil =>
      obtain ⟨r₁, -, -, h1, -⟩ := a.twoRegisters
      exact absurd (hfull r₁ h1) List.not_mem_nil
    | cons r rs =>
      refine ⟨r, ⟨r :: rs, k + 1⟩, a.spillCode k (r :: rs),
        { s with stack := stackOf capacity (none :: Window.locations ⟨rs, k + 1⟩) }, ?_,
        .spill hfull, ⟨stackOf_setTopReg capacity none r _, h.nodup, h.used, h.pool⟩⟩
      have hlen : Window.depth ⟨r :: rs, k⟩ = Window.depth ⟨rs, k + 1⟩ := by
        simp only [Window.depth, List.length_cons]
        omega
      rw [allocateRegister, ht, spill_push]
      simp only [stackOf, List.length_cons, Window.locations_length, hlen]

/-- **Allocating for an element in memory.** Then nothing is in the window, and at most one register
is held. -/
theorem allocateRegister_reload {k : ℕ} (h : Holds a.callerSaved s capacity held ⟨[], k⟩)
    (hheld : held.length ≤ 1) (stack : RuntimeStack) :
    ∃ r t, a.allocateRegister { s with stack } = .ok (r, ⟨t, stack⟩, []) ∧
      a.callerSaved.test r = true ∧ r ∉ held ∧
      ∀ q, t.gpRegMask.test q = true ↔ q ∈ r :: held := by
  have hregs : held ++ Window.regs ⟨[], k⟩ = held := List.append_nil held
  cases ht : s.regTracker.takeUnusedRegister a.callerSaved with
  | some p =>
    obtain ⟨r, t⟩ := p
    obtain ⟨hp, hfree, rfl⟩ := RegisterTracker.takeUnusedRegister_eq_some ht
    obtain ⟨hr, hused⟩ := h.take hfree
    rw [hregs] at hr hused
    exact ⟨r, ⟨s.regTracker.gpRegMask.set r⟩, by rw [allocateRegister, ht], hp, hr, hused⟩
  | none =>
    have hall := RegisterTracker.takeUnusedRegister_eq_none.mp ht
    have hfull : ∀ q, a.callerSaved.test q = true → q ∈ held := fun q hq => by
      have := (h.used q).mp (hall q hq)
      rwa [hregs] at this
    obtain ⟨r₁, r₂, hne, h1, h2⟩ := a.twoRegisters
    -- one held register is not two
    have hsub : [r₁, r₂] ⊆ held := by simp [hfull r₁ h1, hfull r₂ h2]
    have hnd : [r₁, r₂].Nodup := by simpa using hne
    have := (hnd.subperm hsub).length_le
    simp only [List.length_cons, List.length_nil] at this
    omega

/-- **Popping a value into a register.** -/
theorem pop_ensureInRegister (h : Holds a.callerSaved s capacity [] w) (hd : 0 < w.depth) :
    ∃ v stack r w' code s', s.stack.pop = .ok (v, stack) ∧ v.type = .i32 ∧
      a.ensureInRegister { s with stack } v = .ok (r, s', code) ∧ a.Release [] w r w' code ∧
      Holds a.callerSaved s' capacity [r] w' := by
  obtain ⟨regs, k⟩ := w
  -- the top is in the last register, or everything is in memory
  cases regs with
  | cons r rs =>
    have hpop := stackOf_pop capacity (some r) (Window.locations ⟨rs, k⟩)
    rw [← Window.locations_push, Window.push, ← h.stack] at hpop
    exact ⟨_, _, r, ⟨rs, k⟩, [], { s with stack := stackOf capacity (Window.locations ⟨rs, k⟩) },
      hpop, rfl, a.ensureInRegister_of_reg rfl, .reg, ⟨rfl, h.nodup, h.used, h.pool⟩⟩
  | nil =>
    obtain ⟨k, rfl⟩ : ∃ j, k = j + 1 := ⟨k - 1, by simp [Window.depth] at hd; omega⟩
    obtain ⟨r, t, hr, hp, -, hused⟩ :=
      allocateRegister_reload h (Nat.zero_le 1) (stackOf capacity (Window.locations ⟨[], k⟩))
    have hpop := stackOf_pop capacity none (Window.locations ⟨[], k⟩)
    rw [← Window.locations_memory, ← h.stack, Window.locations_length, Window.depth_memory] at hpop
    exact ⟨_, _, r, ⟨[], k⟩, _, _, hpop, rfl, a.ensureInRegister_of_alloc rfl hr,
      .reload hp List.not_mem_nil, ⟨rfl, by simp, by simpa using hused, by simpa using hp⟩⟩

/-- The code for a popped value reloads it from its slot, if it is in no register. -/
theorem popped_code (h : Holds a.callerSaved s capacity [] w) {v : RuntimeValue}
    {stack : RuntimeStack} (hpop : s.stack.pop = .ok (v, stack)) :
    v.type = .i32 ∧ ∃ r s' code, a.ensureInRegister { s with stack } v = .ok (r, s', code) ∧
      (v.reg = some r ∧ code = [] ∨
        v.reg = none ∧ code = [a.load (Reg.r32 r) v.stackPointer]) := by
  -- there was something to pop
  have hd : 0 < w.depth := by
    by_contra hd
    have hnil : w.locations = [] :=
      List.eq_nil_of_length_eq_zero (by rw [w.locations_length]; omega)
    rw [h.stack, hnil] at hpop
    cases hpop
  obtain ⟨v', stack', r, w', code, s', hpop', hv, he, hrel, -⟩ := pop_ensureInRegister h hd
  obtain ⟨rfl, rfl⟩ := Prod.mk.inj (Except.ok.inj (hpop'.symm.trans hpop))
  refine ⟨hv, r, s', code, he, ?_⟩
  cases hrel with
  | @reg r rs k =>
    have hstack := stackOf_pop capacity (some r) (Window.locations ⟨rs, k⟩)
    rw [← Window.locations_push, Window.push, ← h.stack, hpop'] at hstack
    rw [(Prod.mk.inj (Except.ok.inj hstack)).1]
    exact .inl ⟨rfl, rfl⟩
  | @reload r k hp hr =>
    have hstack := stackOf_pop capacity none (Window.locations ⟨[], k⟩)
    rw [← Window.locations_memory, ← h.stack, hpop', Window.locations_length,
      Window.depth_memory] at hstack
    rw [(Prod.mk.inj (Except.ok.inj hstack)).1]
    exact .inr ⟨rfl, rfl⟩

/-- **The first operand of an addition**, which stays on the stack. -/
theorem ensureTopInRegister_spec {x2 : Reg} (h : Holds a.callerSaved s capacity [x2] w)
    (hd : 0 < w.depth) :
    ∃ r w' code s', a.ensureTopInRegister s = .ok (r, s', code) ∧ a.Release [x2] w r w' code ∧
      Holds a.callerSaved s' capacity [x2] (w'.push r) := by
  obtain ⟨regs, k⟩ := w
  cases regs with
  | cons r rs =>
    have hpeek := stackOf_peek capacity (some r) (Window.locations ⟨rs, k⟩)
    rw [← Window.locations_push, Window.push, ← h.stack] at hpeek
    refine ⟨r, ⟨rs, k⟩, [], _, a.ensureTopInRegister_eq hpeek (a.ensureInRegister_of_reg rfl), .reg,
      ⟨?_, h.nodup, h.used, h.pool⟩⟩
    rw [h.stack]
    exact stackOf_setTopReg capacity (some r) r (Window.locations ⟨rs, k⟩)
  | nil =>
    obtain ⟨k, rfl⟩ : ∃ j, k = j + 1 := ⟨k - 1, by simp [Window.depth] at hd; omega⟩
    obtain ⟨r, t, hr, hp, hx2, hused⟩ := allocateRegister_reload h (le_refl 1) s.stack
    have hpeek := stackOf_peek capacity none (Window.locations ⟨[], k⟩)
    rw [← Window.locations_memory, ← h.stack, Window.locations_length, Window.depth_memory] at hpeek
    -- the register that is held is not given out again
    have hne : x2 ≠ r := fun he => hx2 (List.mem_singleton.mpr he.symm)
    refine ⟨r, ⟨[], k⟩, _, _, a.ensureTopInRegister_eq hpeek (a.ensureInRegister_of_alloc rfl hr),
      .reload hp hx2, ⟨?_, by simpa [Window.push] using hne, ?_, ?_⟩⟩
    · rw [h.stack, Window.locations_memory]
      exact stackOf_setTopReg capacity none r (Window.locations ⟨[], k⟩)
    · intro q
      rw [hused q]
      simp [Window.push, or_comm]
    · intro q hq
      rcases List.mem_cons.mp hq with rfl | hq
      · exact h.pool _ (by simp)
      · obtain rfl := List.mem_singleton.mp hq
        exact hp

/-! ### The visitors -/

variable {frame : FunctionFrame} {exitLabel : Label}

theorem Acquire.depth {w' : Window} {r : Reg} {code : List ι} (h : a.Acquire w r w' code) :
    w'.depth = w.depth + 1 := by
  cases h with
  | free hp hr => exact w.push_depth r
  | spill hfull => rfl

/-- With fewer elements than registers nothing spills: a new value takes a free register. -/
theorem Acquire.of_room {w' : Window} {r : Reg} {code : List ι} (h : a.Acquire w r w' code)
    (hroom : w.depth < a.callerSaved.toList.length) :
    r ∉ w.regs ∧ a.callerSaved.test r = true ∧ w' = w.push r ∧ code = [] := by
  cases h with
  | free hp hr => exact ⟨hr, hp, rfl, rfl⟩
  | @spill r rs k hfull =>
    have hsub : a.callerSaved.toList ⊆ r :: rs := fun q hq =>
      hfull q (RegisterMask.mem_toList.mp hq)
    have hle := (a.callerSaved.toList_nodup.subperm hsub).length_le
    exact absurd hroom (Nat.not_lt.mpr (hle.trans (Nat.le_add_right _ k)))

/-- With no element in memory, a value that is popped is in a register. -/
theorem Release.of_spilled {w' : Window} {r : Reg} {code : List ι}
    (h : a.Release held w r w' code) (h0 : w.spilled = 0) : w = w'.push r ∧ code = [] := by
  cases h with
  | reg => exact ⟨rfl, rfl⟩
  | reload hp hr => exact absurd h0 (Nat.succ_ne_zero _)

theorem Release.depth {w' : Window} {r : Reg} {code : List ι} (h : a.Release held w r w' code) :
    w.depth = w'.depth + 1 := by
  cases h with
  | @reg r rs k => exact Window.push_depth ⟨rs, k⟩ r
  | reload hp hr => rfl

theorem Visit.depth {w' : Window} {i : Instruction} {code : List ι}
    (h : a.Visit frame exitLabel w i w' code) : w'.depth = i.depthAfter w.depth := by
  cases h with
  | const value hr => exact hr.depth
  | add h2 h1 =>
    -- two operands are popped before the sum is pushed
    have := h2.depth
    have := h1.depth
    rw [Window.push_depth, Instruction.depthAfter]
    omega
  | get hr ho => exact hr.depth
  | set hr ho =>
    have := hr.depth
    rw [Instruction.depthAfter]
    omega
  | return_ => rfl

/-- An entry without a register, pushed where there is room. -/
theorem push_of_lt (h : Holds a.callerSaved s capacity held w) (hfit : w.depth < capacity) :
    s.stack.push { type := .i32 } = .ok (stackOf capacity (none :: w.locations)) := by
  rw [h.stack]
  exact stackOf_push capacity w.locations (by rw [Window.locations_length]; exact hfit)

theorem visitConstI32_of_alloc (h : Holds a.callerSaved s capacity [] w)
    (hfit : w.depth < capacity) {r : Reg} {s' : CompilerState} {code : List ι}
    (hr : a.allocateRegister { s with stack := stackOf capacity (none :: w.locations) } =
      .ok (r, s', code)) (value : Value) :
    a.visitConstI32 s value = .ok ({ s' with stack := s'.stack.setTopReg r },
      code ++ [a.load (Reg.r32 r) (BitVec.ofNat 32 (4 * (w.depth + 1)))]
        ++ [a.const r value.asI32]) := by
  have hpeek := stackOf_peek capacity none w.locations
  rw [Window.locations_length] at hpeek
  have htop := a.ensureTopInRegister_eq hpeek (a.ensureInRegister_of_alloc rfl hr)
  rw [visitConstI32, push_of_lt h hfit, ok_bind, htop]
  rfl

theorem visitConstI32_of_fits (h : Holds a.callerSaved s capacity [] w) (hfit : w.depth < capacity)
    (value : Value) :
    ∃ s' w' code, a.visitConstI32 s value = .ok (s', code) ∧
      a.Visit frame exitLabel w (.constI32 value) w' code ∧
      Holds a.callerSaved s' capacity [] w' := by
  obtain ⟨r, w', code, s', hr, hacq, h'⟩ := allocateRegister_push h
  exact ⟨_, w', _, visitConstI32_of_alloc h hfit hr value, .const value hacq, h'⟩

/-- The second operand is popped first. -/
theorem visitAddI32_eq {v : RuntimeValue} {stack : RuntimeStack} {x1 x2 : Reg}
    {s₁ s₂ : CompilerState} {code1 code2 : List ι} (hpop : s.stack.pop = .ok (v, stack))
    (h2 : a.ensureInRegister { s with stack } v = .ok (x2, s₁, code2))
    (h1 : a.ensureTopInRegister s₁ = .ok (x1, s₂, code1)) :
    a.visitAddI32 s = .ok ({ s₂ with regTracker := s₂.regTracker.markRegisterUnused x2 },
      code2 ++ code1 ++ [a.add x1 x2]) := by
  rw [visitAddI32, hpop, ok_bind]
  dsimp only
  rw [h2, ok_bind]
  dsimp only
  rw [h1]
  rfl

theorem visitAddI32_of_fits (h : Holds a.callerSaved s capacity [] w) (hfit : 2 ≤ w.depth) :
    ∃ s' w' code, a.visitAddI32 s = .ok (s', code) ∧
      a.Visit frame exitLabel w .addI32 w' code ∧ Holds a.callerSaved s' capacity [] w' := by
  obtain ⟨v, stack, x2, w₁, code2, s₁, hpop, hv, he, hrel2, h₁⟩ :=
    pop_ensureInRegister h (by omega)
  have hdepth := hrel2.depth
  obtain ⟨x1, w₂, code1, s₂, htop, hrel1, h₂⟩ := ensureTopInRegister_spec h₁ (by omega)
  exact ⟨_, w₂.push x1, _, visitAddI32_eq hpop he htop, .add hrel2 hrel1, h₂.release⟩

theorem visitGetLocalI32_of_alloc (h : Holds a.callerSaved s capacity [] w)
    (hfit : w.depth < capacity) {r : Reg} {s' : CompilerState} {code : List ι}
    (hr : a.allocateRegister { s with stack := stackOf capacity (none :: w.locations) } =
      .ok (r, s', code)) {idx : ℕ} {offset : BitVec 32}
    (ho : frame.localStackOffset idx = .ok offset) :
    a.visitGetLocalI32 frame s idx = .ok ({ s' with stack := s'.stack.setTopReg r },
      code ++ [a.load (Reg.r32 r) offset]) := by
  rw [visitGetLocalI32, push_of_lt h hfit, ok_bind, hr, ho]
  rfl

theorem visitGetLocalI32_of_fits (h : Holds a.callerSaved s capacity [] w)
    (hfit : w.depth < capacity) {idx : ℕ} (hlocal : idx < frame.localsStackOffset.length) :
    ∃ s' w' code, a.visitGetLocalI32 frame s idx = .ok (s', code) ∧
      a.Visit frame exitLabel w (.getLocalI32 idx) w' code ∧
      Holds a.callerSaved s' capacity [] w' := by
  obtain ⟨r, w', code, s', hr, hacq, h'⟩ := allocateRegister_push h
  obtain ⟨offset, ho⟩ := FunctionFrame.localStackOffset_of_lt hlocal
  exact ⟨_, w', _, visitGetLocalI32_of_alloc h hfit hr ho, .get hacq ho, h'⟩

theorem visitSetLocalI32_of_fits (h : Holds a.callerSaved s capacity [] w) (hfit : 1 ≤ w.depth)
    {idx : ℕ} (hlocal : idx < frame.localsStackOffset.length) :
    ∃ s' w' code, a.visitSetLocalI32 frame s idx = .ok (s', code) ∧
      a.Visit frame exitLabel w (.setLocalI32 idx) w' code ∧
      Holds a.callerSaved s' capacity [] w' := by
  obtain ⟨v, stack, r, w', code, s', hpop, hv, he, hrel, h'⟩ := pop_ensureInRegister h hfit
  obtain ⟨offset, ho⟩ := FunctionFrame.localStackOffset_of_lt hlocal
  refine ⟨_, w', _, ?_, .set hrel ho, h'.release⟩
  rw [visitSetLocalI32, hpop, ok_bind]
  dsimp only
  rw [he, ho]
  rfl

/-- **One visitor**, where its instruction fits. -/
theorem visit_of_fits (exitLabel : Label) (h : Holds a.callerSaved s capacity [] w)
    {i : Instruction} (hcore : i.isCore = true)
    (hlocal : i.LocalsBelow frame.localsStackOffset.length)
    (hfit : i.Fits capacity w.depth) :
    ∃ s' w' code, a.visit frame exitLabel s i = .ok (s', code) ∧
      a.Visit frame exitLabel w i w' code ∧ Holds a.callerSaved s' capacity [] w' := by
  cases i with
  | constI32 value => exact visitConstI32_of_fits h hfit value
  | addI32 => exact visitAddI32_of_fits h hfit
  | getLocalI32 idx => exact visitGetLocalI32_of_fits h hfit hlocal
  | setLocalI32 idx => exact visitSetLocalI32_of_fits h hfit hlocal
  | return_ => exact ⟨s, w, _, rfl, .return_, h⟩
  -- the other three are not core instructions
  | label id => cases hcore
  | br id => cases hcore
  | brIf t e => cases hcore

theorem pop_empty (h : Holds a.callerSaved s capacity held w) (hd : w.depth = 0) :
    s.stack.pop = .error .stackIndex := by
  have hl : w.locations = [] := List.eq_nil_of_length_eq_zero (by rw [w.locations_length, hd])
  rw [h.stack, hl]
  rfl

/-- **One visitor**, where its instruction does not fit: it leaves the array of the stack. -/
theorem visit_of_not_fits (h : Holds a.callerSaved s capacity [] w) {i : Instruction}
    (hfit : ¬i.Fits capacity w.depth) :
    a.visit frame exitLabel s i = .error .stackIndex := by
  have hpush (hd : ¬w.depth < capacity) :
      s.stack.push { type := .i32 } = .error .stackIndex := by
    rw [h.stack]
    exact stackOf_push_full capacity w.locations (by rwa [Window.locations_length])
  cases i with
  | constI32 value =>
    rw [visit, visitConstI32, hpush hfit]
    rfl
  | addI32 =>
    have hd : ¬2 ≤ w.depth := hfit
    by_cases h0 : w.depth = 0
    · rw [visit, visitAddI32, pop_empty h h0]
      rfl
    · obtain ⟨v, stack, x2, w₁, code2, s₁, hpop, hv, he, hrel2, h₁⟩ :=
        pop_ensureInRegister h (by omega)
      -- the only element is popped, and the second operand is missing
      have hl : w₁.locations = [] := by
        have := hrel2.depth
        exact List.eq_nil_of_length_eq_zero (by rw [w₁.locations_length]; omega)
      have hpeek : s₁.stack.peek = .error .stackIndex := by
        rw [h₁.stack, hl]
        rfl
      rw [visit, visitAddI32, hpop, ok_bind]
      dsimp only
      rw [he, ok_bind]
      dsimp only
      rw [ensureTopInRegister, hpeek]
      rfl
  | getLocalI32 idx =>
    rw [visit, visitGetLocalI32, hpush hfit]
    rfl
  | setLocalI32 idx =>
    have hd : ¬1 ≤ w.depth := hfit
    rw [visit, visitSetLocalI32, pop_empty h (by omega)]
    rfl
  | return_ => exact absurd trivial hfit
  | label id => exact absurd trivial hfit
  | br id => exact absurd trivial hfit
  | brIf t e => exact absurd trivial hfit

/-- **One visitor**, whatever its instruction: where it succeeds, it leaves a window. -/
theorem visit_holds (h : Holds a.callerSaved s capacity [] w) {i : Instruction}
    {s' : CompilerState} {code : List ι} (hv : a.visit frame exitLabel s i = .ok (s', code)) :
    ∃ w', Holds a.callerSaved s' capacity [] w' := by
  have hfit : i.Fits capacity w.depth := by
    by_contra hfit
    rw [visit_of_not_fits h hfit] at hv
    cases hv
  have hnext (hcore : i.isCore = true) (hlocal : i.LocalsBelow frame.localsStackOffset.length) :
      ∃ w', Holds a.callerSaved s' capacity [] w' := by
    obtain ⟨s₁, w₁, code₁, hv₁, -, h₁⟩ := visit_of_fits exitLabel h hcore hlocal hfit
    obtain ⟨rfl, -⟩ := Prod.mk.inj (Except.ok.inj (hv₁.symm.trans hv))
    exact ⟨w₁, h₁⟩
  cases i with
  | constI32 value => exact hnext rfl trivial
  | addI32 => exact hnext rfl trivial
  | getLocalI32 idx =>
    obtain ⟨stack, -, hv⟩ := bind_eq_ok.mp hv
    obtain ⟨p, -, hv⟩ := bind_eq_ok.mp hv
    obtain ⟨offset, ho, -⟩ := bind_eq_ok.mp hv
    exact hnext rfl (FunctionFrame.lt_of_localStackOffset ho)
  | setLocalI32 idx =>
    obtain ⟨p, -, hv⟩ := bind_eq_ok.mp hv
    obtain ⟨q, -, hv⟩ := bind_eq_ok.mp hv
    obtain ⟨offset, ho, -⟩ := bind_eq_ok.mp hv
    exact hnext rfl (FunctionFrame.lt_of_localStackOffset ho)
  | return_ => exact hnext rfl trivial
  -- nothing is emitted for labels and branches
  | label id => cases hv; exact ⟨w, h⟩
  | br id => cases hv; exact ⟨w, h⟩
  | brIf t e => cases hv; exact ⟨w, h⟩

/-! ### Whole bodies -/

/-- **The visitors on any body**: where they succeed, they leave a window. -/
theorem visitAll_holds {body : List Instruction} {s' : CompilerState} :
    ∀ {s : CompilerState} {w : Window} {code : List ι}, Holds a.callerSaved s capacity [] w →
      a.visitAll frame exitLabel s body = .ok (s', code) →
      ∃ w', Holds a.callerSaved s' capacity [] w' := by
  induction body with
  | nil =>
    intro s w code h hv
    obtain ⟨rfl, -⟩ := Prod.mk.inj (Except.ok.inj hv)
    exact ⟨w, h⟩
  | cons i is ih =>
    intro s w code h hv
    obtain ⟨⟨s₁, code₁⟩, hi, hv⟩ := bind_eq_ok.mp hv
    obtain ⟨⟨s₂, rest⟩, his, hv⟩ := bind_eq_ok.mp hv
    obtain ⟨rfl, -⟩ := Prod.mk.inj (Except.ok.inj hv)
    -- one visit keeps the window, whatever it is
    obtain ⟨w₁, h₁⟩ := visit_holds h hi
    exact ih h₁ his

/-- The core instructions of a body, naming locals that the frame has. -/
structure WellNamed (frame : FunctionFrame) (body : List Instruction) : Prop where
  core : CoreBody body
  locals : ∀ i ∈ body, i.LocalsBelow frame.localsStackOffset.length

theorem WellNamed.tail {i : Instruction} {is : List Instruction} (h : WellNamed frame (i :: is)) :
    WellNamed frame is := ⟨h.core.tail, fun j hj => h.locals j (List.mem_cons_of_mem i hj)⟩

theorem WellNamed.beginning {done rest : List Instruction} (h : WellNamed frame (done ++ rest)) :
    WellNamed frame done :=
  ⟨fun i hi => h.core i (List.mem_append_left rest hi),
    fun i hi => h.locals i (List.mem_append_left rest hi)⟩

/-- **The visitors on a body that fits** follow the windows. -/
theorem visitAll_of_fits (exitLabel : Label) {results : ℕ} {body : List Instruction}
    (hb : WellNamed frame body) :
    ∀ {s : CompilerState} {w : Window}, Holds a.callerSaved s capacity [] w →
      Instruction.FitsAll capacity results w.depth body →
      ∃ s' w' code, a.visitAll frame exitLabel s body = .ok (s', code) ∧
        a.Visits frame exitLabel w body w' code ∧ Holds a.callerSaved s' capacity [] w' ∧
        results ≤ w'.depth := by
  induction body with
  | nil => exact fun {s w} h hfit => ⟨s, w, [], rfl, .nil, h, hfit⟩
  | cons i is ih =>
    intro s w h hfit
    -- the first instruction, and the others from the window it leaves
    obtain ⟨s₁, w₁, code, hv, hvisit, h₁⟩ := visit_of_fits exitLabel h hb.core.head
      (hb.locals i List.mem_cons_self) hfit.1
    obtain ⟨s₂, w₂, rest, hvs, hvisits, h₂, hres⟩ := ih hb.tail h₁ (by
      rw [hvisit.depth]
      exact hfit.2)
    refine ⟨s₂, w₂, code ++ rest, ?_, .cons hvisit hvisits, h₂, hres⟩
    rw [visitAll, hv, ok_bind]
    dsimp only
    rw [hvs]
    rfl

/-- **The visitors and the epilogue on a body that does not fit** leave the array of the stack. -/
theorem visitAll_of_not_fits (exitLabel : Label) {results : ℕ} {body : List Instruction}
    (hb : WellNamed frame body) :
    ∀ {s : CompilerState} {w : Window}, Holds a.callerSaved s capacity [] w →
      ¬Instruction.FitsAll capacity results w.depth body →
      a.visitAll frame exitLabel s body = .error .stackIndex ∨
      ∃ s' w' code, a.visitAll frame exitLabel s body = .ok (s', code) ∧
        Holds a.callerSaved s' capacity [] w' ∧ w'.depth < results := by
  induction body with
  | nil => exact fun {s w} h hfit => Or.inr ⟨s, w, [], rfl, h, Nat.lt_of_not_le hfit⟩
  | cons i is ih =>
    intro s w h hfit
    -- this instruction does not fit, or a later one
    by_cases hi : i.Fits capacity w.depth
    · obtain ⟨s₁, w₁, code, hv, hvisit, h₁⟩ := visit_of_fits exitLabel h
        hb.core.head (hb.locals i List.mem_cons_self) hi
      rw [visitAll, hv, ok_bind]
      dsimp only
      rcases ih hb.tail h₁ (fun hall => hfit ⟨hi, by rwa [← hvisit.depth]⟩) with
        he | ⟨s₂, w₂, rest, hvs, h₂, hres⟩
      · rw [he]
        exact Or.inl rfl
      · rw [hvs]
        exact Or.inr ⟨s₂, w₂, _, rfl, h₂, hres⟩
    · rw [visitAll, visit_of_not_fits h hi]
      exact Or.inl rfl

end Assembler

end Wasmcc
