import Wasmcc.Basis.Runs
import Wasmcc.Parser.Validator
import Mathlib.Order.Bounds.Basic

/-!
# The stack sizes that the validator computes

`FunctionValidator` counts the bytes of its stack in a `size_t` that every push and pop updates, and
keeps the greatest count. In a body of the five core instructions the stack holds nothing but `i32`,
so the right numbers only depend on the depths (`visitAll_underlying`).

A pop that finds the stack empty, in code after a `Return`, subtracts the sixteen bytes of `any`,
which were never added, and the counter wraps. `memoryAccounted_iff` says that the accounting is
right exactly if no pop finds the stack empty, those of `Finalize` included, and the greatest size
fits the 32 bits that it is stored in.
-/

open Basis

namespace Wasmcc

/-! ### Depths -/

namespace Instruction

/-- How many entries its visitor pushes. -/
def pushes : Instruction → ℕ
  | .constI32 _ | .addI32 | .getLocalI32 _ => 1
  | _ => 0

/-- The depth after an instruction. A pop from an empty stack leaves it empty. -/
def depthStep (returns : List ValType) (n : ℕ) (i : Instruction) : ℕ :=
  n - (i.popped returns).length + i.pushes

/-- The greatest depth on the way through a body. -/
def peak (returns : List ValType) : ℕ → List Instruction → ℕ
  | n, [] => n
  | n, i :: is => max n (peak returns (depthStep returns n i) is)

end Instruction

open Instruction

/-- No pop finds the stack empty, in the body or in `Finalize`. -/
def PopsHeld (returns : List ValType) (body : List Instruction) : Prop :=
  EachStep (depthStep returns) (fun n i => (i.popped returns).length ≤ n) 0 body ∧
    returns.length ≤ runCalls (depthStep returns) 0 body

theorem le_peak (returns : List ValType) (n : ℕ) (body : List Instruction) :
    n ≤ peak returns n body := by
  cases body with
  | nil => exact le_rfl
  | cons i is => exact le_max_left _ _

/-- The peak of a body is the depth somewhere in it. -/
theorem exists_peak (returns : List ValType) (n : ℕ) (body : List Instruction) :
    ∃ p, p <+: body ∧ runCalls (depthStep returns) n p = peak returns n body := by
  induction body generalizing n with
  | nil => exact ⟨[], List.prefix_rfl, rfl⟩
  | cons i is ih =>
    rw [peak]
    by_cases hle : peak returns (depthStep returns n i) is ≤ n
    · exact ⟨[], List.nil_prefix, (max_eq_left hle).symm⟩
    · obtain ⟨p, hp, hdepth⟩ := ih (depthStep returns n i)
      exact ⟨i :: p, List.cons_prefix_cons.mpr ⟨rfl, hp⟩,
        hdepth.trans (max_eq_right (Nat.le_of_not_le hle)).symm⟩

/-- No depth in a body is greater. -/
theorem depth_le_peak (returns : List ValType) (n : ℕ) {p body : List Instruction}
    (hp : p <+: body) : runCalls (depthStep returns) n p ≤ peak returns n body := by
  induction body generalizing n p with
  | nil =>
    obtain rfl := List.prefix_nil.mp hp
    exact le_rfl
  | cons i is ih =>
    cases p with
    | nil => exact le_peak returns n (i :: is)
    | cons j p =>
      obtain ⟨rfl, hpis⟩ := List.cons_prefix_cons.mp hp
      exact (ih (depthStep returns n _) hpis).trans (le_max_right _ _)

/-! ### The accounting -/

namespace FunctionValidator

/-- The bytes of the types on the stack. -/
def stackBytes (v : FunctionValidator) : ℕ := (v.underlying.map ValidationType.sizeBytes).sum

/-- The size that the next pop subtracts. -/
def topSize (v : FunctionValidator) : ℕ := (v.underlying.headD .any).sizeBytes

/-- No subtraction wraps when these operands are popped. -/
def NoWrap (v : FunctionValidator) : List ValType → Prop
  | [] => True
  | vt :: vts => v.topSize ≤ v.currentMemoryUsage ∧ ∀ v', v.pop (.val vt) = .ok v' → v'.NoWrap vts

/-- The sizes of the stack up to this point of a body. -/
def sizesUpTo (v : FunctionValidator) (size : FunctionValidator → ℕ) (pre : List Instruction) :
    Set ℕ := {n | ∃ p u, p <+: pre ∧ v.visitAll p = .ok u ∧ size u = n}

/-- The validator's counts are right after every visitor call, no subtraction wraps, and what is
stored of the result `v'` is the greatest size. -/
structure MemoryAccounted (v : FunctionValidator) (body : List Instruction)
    (v' : FunctionValidator) : Prop where
  usage : ∀ pre w, pre <+: body → v.visitAll pre = .ok w → w.currentMemoryUsage = w.stackBytes
  bytes : ∀ pre w, pre <+: body → v.visitAll pre = .ok w →
    IsGreatest (v.sizesUpTo stackBytes pre) w.maximumStackSizeBytes
  elements : ∀ pre w, pre <+: body → v.visitAll pre = .ok w →
    IsGreatest (v.sizesUpTo (·.underlying.length) pre) w.maximumStackElements
  noWrap : ∀ pre i w, pre ++ [i] <+: body → v.visitAll pre = .ok w →
    w.NoWrap (i.popped w.returns)
  finalize : ∀ w, v.visitAll body = .ok w → w.NoWrap w.returns
  stored : IsGreatest (v.sizesUpTo stackBytes body)
    (BitVec.ofNat 32 v'.maximumStackSizeBytes).toNat

/-! ### Stacks of `i32` -/

variable {v v' w : FunctionValidator} {n : ℕ}

theorem stackBytes_of_replicate (h : v.underlying = List.replicate n (.val .i32)) :
    v.stackBytes = 4 * n := by
  rw [stackBytes, h, List.map_replicate, List.sum_replicate, smul_eq_mul, Nat.mul_comm]
  rfl

theorem pop_underlying (h : v.underlying = List.replicate n (.val .i32)) {vt : ValType}
    (hp : v.pop (.val vt) = .ok v') : v'.underlying = List.replicate (n - 1) (.val .i32) := by
  cases n with
  | zero =>
    -- a pop from the empty stack of dead code leaves it empty
    rw [pop_nil h] at hp
    split at hp
    · obtain rfl := Except.ok.inj hp
      exact h
    · cases hp
  | succ n =>
    rw [pop_cons h] at hp
    split at hp
    · obtain rfl := Except.ok.inj hp
      rfl
    · cases hp

theorem popAll_underlying {vts : List ValType} (h : v.underlying = List.replicate n (.val .i32))
    (hp : v.popAll vts = .ok v') :
    v'.underlying = List.replicate (n - vts.length) (.val .i32) := by
  induction vts generalizing v n with
  | nil =>
    obtain rfl := Except.ok.inj hp
    exact h
  | cons vt vts ih =>
    obtain ⟨v₁, h1, h2⟩ := bind_eq_ok.mp hp
    rw [ih (pop_underlying h h1) h2, List.length_cons, Nat.sub_sub, Nat.add_comm]

theorem leave_underlying (h : v.underlying = List.replicate n (.val .i32)) (i : Instruction) :
    (v.leave i).underlying = List.replicate (n + i.pushes) (.val .i32) := by
  cases i with
  | constI32 | addI32 | getLocalI32 =>
    show .val .i32 :: v.underlying = _
    rw [h]
    rfl
  | _ => exact h

theorem visit_underlying (h : v.underlying = List.replicate n (.val .i32)) {i : Instruction}
    (hv : v.visit i = .ok v') :
    v'.underlying = List.replicate (depthStep v.returns n i) (.val .i32) := by
  obtain ⟨v₁, hpop, rfl⟩ := visit_eq_ok hv
  exact leave_underlying (popAll_underlying h hpop) i

/-- **The stack holds nothing but `i32`**, as many as the depth says, in dead code too. -/
theorem visitAll_underlying {body : List Instruction}
    (h : v.underlying = List.replicate n (.val .i32)) (hv : v.visitAll body = .ok v') :
    v'.underlying = List.replicate (runCalls (depthStep v.returns) n body) (.val .i32) ∧
      v'.returns = v.returns := by
  induction body generalizing v n with
  | nil =>
    obtain rfl := Except.ok.inj hv
    exact ⟨h, rfl⟩
  | cons i is ih =>
    obtain ⟨v₁, h1, h2⟩ := bind_eq_ok.mp hv
    obtain ⟨hund, hret⟩ := ih (visit_underlying h h1) h2
    -- no visit changes the results that a `Return` pops
    have hsig := (visit_signature h1).2
    rw [hsig] at hund hret
    exact ⟨hund, hret⟩

/-! ### The counter -/

/-- **A subtraction wraps exactly if the stack is empty.** -/
theorem popAll_noWrap {vts : List ValType} (h : v.underlying = List.replicate n (.val .i32))
    (hcur : v.currentMemoryUsage = 4 * n) (hn : 4 * n < 2 ^ 64) (hp : v.popAll vts = .ok v') :
    (v.NoWrap vts ↔ vts.length ≤ n) ∧
      (vts.length ≤ n → v'.currentMemoryUsage = 4 * (n - vts.length)) := by
  induction vts generalizing v n with
  | nil =>
    obtain rfl := Except.ok.inj hp
    exact ⟨⟨fun _ => Nat.zero_le n, fun _ => trivial⟩, fun _ => hcur⟩
  | cons vt vts ih =>
    obtain ⟨v₁, h1, h2⟩ := bind_eq_ok.mp hp
    have hund := pop_underlying h h1
    cases n with
    | zero =>
      -- sixteen bytes are taken from none
      have htop : v.topSize = 16 := by
        rw [topSize, h]
        rfl
      refine ⟨iff_of_false (fun hno => ?_) (Nat.not_succ_le_zero _),
        fun hle => absurd hle (Nat.not_succ_le_zero _)⟩
      have hle := hno.1
      omega
    | succ n =>
      have htop : v.topSize = 4 := by
        rw [topSize, h]
        rfl
      have hcur₁ : v₁.currentMemoryUsage = 4 * n := by
        rw [pop_cons h] at h1
        split at h1
        · obtain rfl := Except.ok.inj h1
          show (v.currentMemoryUsage + 2 ^ 64 - 4) % 2 ^ 64 = 4 * n
          omega
        · cases h1
      obtain ⟨hiff, hcur'⟩ := ih hund hcur₁ (by omega) h2
      refine ⟨⟨fun hno => Nat.succ_le_succ (hiff.mp (hno.2 v₁ h1)), fun hle => ⟨by omega, ?_⟩⟩,
        fun hle => ?_⟩
      · intro v₂ hv₂
        obtain rfl := Except.ok.inj (hv₂.symm.trans h1)
        exact hiff.mpr (Nat.le_of_succ_le_succ hle)
      · rw [hcur' (Nat.le_of_succ_le_succ hle), List.length_cons]
        omega

/-- A stack of `n` operands with the right counts, where the greatest depth was `m`. -/
structure Tracked (v : FunctionValidator) (n m : ℕ) : Prop where
  underlying : v.underlying = List.replicate n (.val .i32)
  current : v.currentMemoryUsage = 4 * n
  elements : v.maxStackSize = m
  bytes : v.maxMemoryUsage = 4 * m
  le : n ≤ m

variable {m : ℕ}

/-- What a visitor does after its pops. -/
theorem Tracked.leave (h : v.Tracked n m) (i : Instruction) (hn : 4 * (n + i.pushes) < 2 ^ 64) :
    (v.leave i).Tracked (n + i.pushes) (max m (n + i.pushes)) := by
  have hunderlying := leave_underlying h.underlying i
  have hle := h.le
  cases i with
  | constI32 | addI32 | getLocalI32 =>
    -- a push: the counter does not wrap, as the stack is small
    have hsum : 4 * (n + 1) < 2 ^ 64 := hn
    have hcur : (v.currentMemoryUsage + 4) % 2 ^ 64 = 4 * (n + 1) := by
      rw [h.current]
      omega
    refine ⟨hunderlying, hcur, ?_, ?_, le_max_right _ _⟩
    · show max v.maxStackSize (v.underlying.length + 1) = max m (n + 1)
      rw [h.elements, h.underlying, List.length_replicate]
    · show max v.maxMemoryUsage ((v.currentMemoryUsage + 4) % 2 ^ 64) = 4 * max m (n + 1)
      rw [h.bytes, hcur]
      omega
  | _ => exact ⟨h.underlying, h.current, h.elements.trans (max_eq_left hle).symm,
      h.bytes.trans (congrArg _ (max_eq_left hle).symm), le_max_right _ _⟩

/-- **One visitor** whose pops find what they want. -/
theorem Tracked.visit (h : v.Tracked n m) {i : Instruction}
    (hpops : (i.popped v.returns).length ≤ n) (hn : 4 * n < 2 ^ 64)
    (hn' : 4 * depthStep v.returns n i < 2 ^ 64) (hv : v.visit i = .ok v') :
    v'.Tracked (depthStep v.returns n i) (max m (depthStep v.returns n i)) := by
  obtain ⟨v₁, hpop, rfl⟩ := visit_eq_ok hv
  have hframe := popAll_frame hpop
  have hpopped : v₁.Tracked (n - (i.popped v.returns).length) m :=
    ⟨popAll_underlying h.underlying hpop, (popAll_noWrap h.underlying h.current hn hpop).2 hpops,
      hframe.maxStackSize.trans h.elements, hframe.maxMemoryUsage.trans h.bytes,
      (Nat.sub_le _ _).trans h.le⟩
  exact hpopped.leave i hn'

/-- **A run of the validator** whose pops find what they want. -/
theorem Tracked.visitAll {body : List Instruction} (h : v.Tracked n m)
    (hheld : EachStep (depthStep v.returns) (fun n i => (i.popped v.returns).length ≤ n) n body)
    (hpeak : 4 * peak v.returns n body < 2 ^ 64) (hv : v.visitAll body = .ok v') :
    v'.Tracked (runCalls (depthStep v.returns) n body) (max m (peak v.returns n body)) := by
  induction body generalizing v n m with
  | nil =>
    obtain rfl := Except.ok.inj hv
    rw [peak, max_eq_left h.le]
    exact h
  | cons i is ih =>
    obtain ⟨v₁, h1, h2⟩ := bind_eq_ok.mp hv
    rw [peak] at hpeak
    have hfirst := le_peak v.returns (depthStep v.returns n i) is
    -- the first instruction, and then the others from the depth it leaves
    have h' := h.visit hheld.1 (by omega) (by omega) h1
    have hsig := (visit_signature h1).2
    have hrest := hheld.2
    rw [← hsig] at hrest hfirst hpeak h'
    have hrun := ih h' hrest (by omega) h2
    rw [hsig] at hrun hfirst
    -- the highest depth is that of the first step or one later on
    have hmax : max (max m (depthStep v.returns n i))
        (peak v.returns (depthStep v.returns n i) is) = max m (peak v.returns n (i :: is)) := by
      have hle := h.le
      rw [peak]
      omega
    rw [hmax] at hrun
    exact hrun

/-! ### Whole bodies -/

theorem visitAll_of_append {p q : List Instruction} (hv : v.visitAll (p ++ q) = .ok w) :
    ∃ u, v.visitAll p = .ok u ∧ u.visitAll q = .ok w := by
  induction p generalizing v with
  | nil => exact ⟨v, rfl, hv⟩
  | cons i p ih =>
    obtain ⟨v₁, h1, h2⟩ := bind_eq_ok.mp hv
    obtain ⟨u, h3, h4⟩ := ih h2
    exact ⟨u, bind_eq_ok.mpr ⟨v₁, h1, h3⟩, h4⟩

theorem visitAll_of_prefix {p body : List Instruction} (hp : p <+: body)
    (hv : v.visitAll body = .ok w) : ∃ u, v.visitAll p = .ok u := by
  obtain ⟨q, rfl⟩ := hp
  obtain ⟨u, hu, -⟩ := visitAll_of_append hv
  exact ⟨u, hu⟩

/-- The peak is the greatest depth, in entries of any size. -/
theorem isGreatest_sizesUpTo {size : FunctionValidator → ℕ} {c : ℕ} {pre : List Instruction}
    (hsize : ∀ p u, v.visitAll p = .ok u → size u = c * runCalls (depthStep v.returns) 0 p)
    (hv : v.visitAll pre = .ok w) :
    IsGreatest (v.sizesUpTo size pre) (c * peak v.returns 0 pre) := by
  constructor
  · obtain ⟨p, hp, hdepth⟩ := exists_peak v.returns 0 pre
    obtain ⟨u, hu⟩ := visitAll_of_prefix hp hv
    exact ⟨p, u, hp, hu, by rw [hsize p u hu, hdepth]⟩
  · rintro n ⟨p, u, hp, hu, rfl⟩
    rw [hsize p u hu]
    exact Nat.mul_le_mul_left c (depth_le_peak v.returns 0 hp)

theorem peak_mono (returns : List ValType) {pre body : List Instruction} (h : pre <+: body) :
    peak returns 0 pre ≤ peak returns 0 body := by
  obtain ⟨p, hp, hdepth⟩ := exists_peak returns 0 pre
  rw [← hdepth]
  exact depth_le_peak returns 0 (hp.trans h)

section Accounting

variable {ft : BlockType} {locals : List ValType} {body : List Instruction}

theorem underlying_new {p : List Instruction} {u : FunctionValidator}
    (hu : (new ft locals).visitAll p = .ok u) : u.underlying =
      List.replicate (runCalls (depthStep ft.resultTypes) 0 p) (.val .i32) ∧
      u.returns = ft.resultTypes :=
  visitAll_underlying (v := new ft locals) (n := 0) rfl hu

/-- If no pop finds the stack empty and the sizes fit, the accounting is right. -/
theorem memoryAccounted_of_popsHeld (hv : validate ft locals body = .ok v)
    (hheld : PopsHeld ft.resultTypes body) (hpeak : 4 * peak ft.resultTypes 0 body < 2 ^ 32) :
    MemoryAccounted (new ft locals) body v := by
  obtain ⟨v₁, h1, h2⟩ := bind_eq_ok.mp hv
  obtain ⟨v₂, h3, h4⟩ := bind_eq_ok.mp h2
  obtain ⟨u, -, h5⟩ := bind_eq_ok.mp h4
  obtain rfl := Except.ok.inj h5
  -- after each prefix of the body the counters are those of its depths
  have htracked : ∀ pre w, pre <+: body → (new ft locals).visitAll pre = .ok w →
      w.Tracked (runCalls (depthStep ft.resultTypes) 0 pre) (peak ft.resultTypes 0 pre) := by
    intro pre w hpre hw
    have hmono := peak_mono ft.resultTypes hpre
    have hnew : (new ft locals).Tracked 0 0 := ⟨rfl, rfl, rfl, rfl, le_rfl⟩
    have hsteps : EachStep (depthStep ft.resultTypes)
        (fun n i => (i.popped ft.resultTypes).length ≤ n) 0 pre :=
      eachStep_iff_forall.mpr fun p i hp => eachStep_iff_forall.mp hheld.1 p i (hp.trans hpre)
    have hrun := hnew.visitAll hsteps (by show 4 * peak ft.resultTypes 0 pre < _; omega) hw
    rwa [Nat.zero_max] at hrun
  have hdepth : ∀ pre, pre <+: body →
      4 * runCalls (depthStep ft.resultTypes) 0 pre < 2 ^ 64 := by
    intro pre hpre
    have hle := depth_le_peak ft.resultTypes 0 hpre
    omega
  -- so the memory that the stack takes is four bytes for each of its elements
  have hsize : ∀ p u, (new ft locals).visitAll p = .ok u →
      u.stackBytes = 4 * runCalls (depthStep ft.resultTypes) 0 p := fun p u hu =>
    stackBytes_of_replicate (underlying_new hu).1
  have hlength : ∀ p u, (new ft locals).visitAll p = .ok u →
      u.underlying.length = 1 * runCalls (depthStep ft.resultTypes) 0 p := fun p u hu => by
    rw [(underlying_new hu).1, List.length_replicate, Nat.one_mul]
  refine ⟨fun pre w hpre hw => ?_, fun pre w hpre hw => ?_, fun pre w hpre hw => ?_,
    fun pre i w hpre hw => ?_, fun w hw => ?_, ?_⟩
  -- the current usage, the largest one and the largest number of elements
  · rw [(htracked pre w hpre hw).current, hsize pre w hw]
  · rw [maximumStackSizeBytes, (htracked pre w hpre hw).bytes]
    exact isGreatest_sizesUpTo hsize hw
  · rw [maximumStackElements, (htracked pre w hpre hw).elements, ← Nat.one_mul (peak _ _ _)]
    exact isGreatest_sizesUpTo hlength hw
  · -- the visitor of this instruction pops what is there
    have hprefix : pre <+: body := (List.prefix_append pre [i]).trans hpre
    obtain ⟨u', hu'⟩ := visitAll_of_prefix hpre h1
    obtain ⟨w', hw', hvisit⟩ := visitAll_of_append hu'
    obtain rfl := Except.ok.inj (hw'.symm.trans hw)
    obtain ⟨w₁, hw₁, -⟩ := bind_eq_ok.mp hvisit
    obtain ⟨w₂, hpop, -⟩ := visit_eq_ok hw₁
    have ht := htracked pre w' hprefix hw
    refine (popAll_noWrap ht.underlying ht.current (hdepth pre hprefix) hpop).1.mpr ?_
    rw [(underlying_new hw).2]
    exact eachStep_iff_forall.mp hheld.1 pre i hpre
  -- `Finalize` pops the results in the same way
  · obtain rfl := Except.ok.inj (h1.symm.trans hw)
    have ht := htracked body v₁ List.prefix_rfl hw
    refine (popAll_noWrap ht.underlying ht.current (hdepth body List.prefix_rfl) h3).1.mpr ?_
    rw [(underlying_new hw).2]
    exact hheld.2
  -- and the maximum is small enough for the 32 bits that the metadata has
  · have hbytes : v₂.maximumStackSizeBytes = 4 * peak ft.resultTypes 0 body :=
      (popAll_frame h3).maxMemoryUsage.trans (htracked body v₁ List.prefix_rfl h1).bytes
    rw [hbytes, BitVec.toNat_ofNat, Nat.mod_eq_of_lt hpeak]
    exact isGreatest_sizesUpTo hsize h1

/-- If the accounting is right, no pop finds the stack empty and the sizes fit. -/
theorem popsHeld_of_memoryAccounted (hv : validate ft locals body = .ok v)
    (h : MemoryAccounted (new ft locals) body v) :
    PopsHeld ft.resultTypes body ∧ 4 * peak ft.resultTypes 0 body < 2 ^ 32 := by
  obtain ⟨v₁, h1, h2⟩ := bind_eq_ok.mp hv
  obtain ⟨v₂, h3, -⟩ := bind_eq_ok.mp h2
  -- the greatest size fits, so every size does
  have hbound : ∀ p, p <+: body → 4 * runCalls (depthStep ft.resultTypes) 0 p < 2 ^ 32 := by
    intro p hp
    obtain ⟨u, hu⟩ := visitAll_of_prefix hp h1
    have hle := h.stored.2 ⟨p, u, hp, hu, stackBytes_of_replicate (underlying_new hu).1⟩
    exact hle.trans_lt (BitVec.isLt _)
  -- and the counter shows every size
  have hcurrent : ∀ p u, p <+: body → (new ft locals).visitAll p = .ok u →
      u.currentMemoryUsage = 4 * runCalls (depthStep ft.resultTypes) 0 p := fun p u hp hu => by
    rw [h.usage p u hp hu, stackBytes_of_replicate (underlying_new hu).1]
  refine ⟨⟨eachStep_iff_forall.mpr fun pre i hpre => ?_, ?_⟩, ?_⟩
  · have hprefix : pre <+: body := (List.prefix_append pre [i]).trans hpre
    obtain ⟨u', hu'⟩ := visitAll_of_prefix hpre h1
    obtain ⟨w, hw, hvisit⟩ := visitAll_of_append hu'
    obtain ⟨w₁, hw₁, -⟩ := bind_eq_ok.mp hvisit
    obtain ⟨w₂, hpop, -⟩ := visit_eq_ok hw₁
    have hlt := hbound pre hprefix
    have hno := h.noWrap pre i w hpre hw
    rw [(popAll_noWrap (underlying_new hw).1 (hcurrent pre w hprefix hw) (by omega) hpop).1,
      (underlying_new hw).2] at hno
    exact hno
  · have hlt := hbound body List.prefix_rfl
    have hno := h.finalize v₁ h1
    rw [(popAll_noWrap (underlying_new h1).1 (hcurrent body v₁ List.prefix_rfl h1) (by omega) h3).1,
      (underlying_new h1).2] at hno
    exact hno
  · obtain ⟨p, hp, hdepth⟩ := exists_peak ft.resultTypes 0 body
    rw [← hdepth]
    exact hbound p hp

/-- **When the accounting is right**: no pop of the body or of `Finalize` finds the stack empty, and
the greatest size of the stack fits 32 bits. -/
theorem memoryAccounted_iff (hv : validate ft locals body = .ok v) :
    MemoryAccounted (new ft locals) body v ↔
      PopsHeld ft.resultTypes body ∧ 4 * peak ft.resultTypes 0 body < 2 ^ 32 :=
  ⟨popsHeld_of_memoryAccounted hv, fun h => memoryAccounted_of_popsHeld hv h.1 h.2⟩

end Accounting

/-- A function that doubles its parameter, without a `Return`. -/
theorem memoryAccounted_double :
    MemoryAccounted (new ⟨[.i32], []⟩ []) [.getLocalI32 0, .getLocalI32 0, .addI32, .setLocalI32 0]
      ⟨[.i32], [], false, [], 0, 2, 8⟩ :=
  (memoryAccounted_iff rfl).mpr
    ⟨⟨⟨by decide, by decide, by decide, by decide, trivial⟩, by decide⟩, by decide⟩

/-- An addition after a `Return` leaves one `i32` on the stack, and `2 ^ 64 - 28` in the counter. -/
theorem accounting_wraps : ∃ v,
    validate ⟨[], []⟩ [.i32] [.return_, .addI32, .setLocalI32 0] = .ok v ∧
      ¬MemoryAccounted (new ⟨[], []⟩ [.i32]) [.return_, .addI32, .setLocalI32 0] v := by
  refine ⟨_, rfl, fun h => ?_⟩
  have husage := h.usage [.return_, .addI32] _ ⟨[.setLocalI32 0], rfl⟩ rfl
  exact absurd husage (by decide)

end FunctionValidator

end Wasmcc
