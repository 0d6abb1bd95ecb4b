import Wasmcc.Compiler.Allocation
import Wasmcc.Compiler.StackFit

/-!
# Where `Return` leaves the result and where the epilogue takes it from

The epilogue is emitted once, from the compile-time stack as it is after the whole body, and every
`Return` jumps to it. `Return` does not change the compile-time stack, so the instructions after it
are visited as if they were run, and what they push and pop moves the top.

`returnAgrees_iff` says when the two places are the same all the same: the body fits the array of
the stack, and counting its pushes and pops puts the top where it was at the `Return`. With no more
elements than there are registers this is to say that one element is left in the end
(`resultStays_iff_of_le`).
-/

open Basis

namespace Wasmcc

open FunctionValidator StackMachine

/-! ### Places -/

/-- A register, or a slot relative to the stack pointer. -/
inductive Location where
  | register (r : Reg)
  | slot (offset : BitVec 32)
deriving DecidableEq, Repr

def RuntimeValue.location (v : RuntimeValue) : Location :=
  match v.reg with
  | some r => .register r
  | none => .slot v.stackPointer

/-- The place of the top element. -/
def Usage.top (pool : List Reg) (u : Usage) : Location :=
  match u.registers with
  | 0 => .slot (BitVec.ofNat 32 (4 * u.memory))
  | r + 1 => .register ((u.order pool).getD r 0)

theorem Follows.pop_location {ι : Type} {a : Assembler ι} {s : CompilerState} {capacity : ℕ}
    {u : Usage} (h : Follows a s capacity u) (hd : 1 ≤ u.depth) :
    ∃ v stack, s.stack.pop = .ok (v, stack) ∧ v.location = u.top a.callerSaved.toList := by
  have hstack := h.holds.stack
  have hle := h.le
  obtain ⟨j, swapped, k⟩ := u
  -- the top is in memory only if no element is in a register
  match j with
  | 0 =>
    obtain ⟨k, rfl⟩ : ∃ i, k = i + 1 := ⟨k - 1, by simp only [Usage.depth] at hd; omega⟩
    have hw : Usage.window a.callerSaved.toList ⟨0, swapped, k + 1⟩ = ⟨[], k + 1⟩ := rfl
    rw [hw, Window.locations_memory] at hstack
    rw [hstack, stackOf_pop]
    refine ⟨_, _, rfl, ?_⟩
    rw [Window.locations_length, Window.depth_memory]
    rfl
  | r + 1 =>
    rw [Usage.window_succ swapped k hle, Window.locations_push] at hstack
    rw [hstack, stackOf_pop]
    exact ⟨_, _, rfl, rfl⟩

/-! ### The property and the condition -/

namespace Assembler

variable {ι : Type}

/-- At the first `Return` and at the end of the body the top of the compile-time stack is at the
same place: the one that `Return` leaves the result at, and the one that `Epilogue` pops. -/
def ReturnAgrees (a : Assembler ι) (f : Function) (exitLabel : Label) : Prop :=
  ∀ live dead, f.body = live ++ .return_ :: dead → .return_ ∉ live →
    ∃ s code s' code' v stack v' stack',
      a.visitAll (.new f.meta_) exitLabel
        { stack := { capacity := f.meta_.maxStackElements.toNat } } live = .ok (s, code) ∧
      a.visitAll (.new f.meta_) exitLabel
        { stack := { capacity := f.meta_.maxStackElements.toNat } } f.body = .ok (s', code') ∧
      s.stack.pop = .ok (v, stack) ∧ s'.stack.pop = .ok (v', stack') ∧ v'.location = v.location

end Assembler

/-- The counts after a body, with `n` registers to allocate. -/
def usageAfter (n : ℕ) (body : List Instruction) : Usage := runCalls (Usage.step n) {} body

/-- The body fits its stack, and by the counts of pushes and pops its top is in the end where it was
at the first `Return`. -/
def ResultStays (pool : List Reg) (capacity : ℕ) (body : List Instruction) : Prop :=
  .return_ ∈ body → Instruction.FitsAll capacity 1 0 body ∧
    (usageAfter pool.length body).top pool =
      (usageAfter pool.length (body.takeWhile (· ≠ .return_))).top pool

instance (pool : List Reg) (capacity : ℕ) (body : List Instruction) :
    Decidable (ResultStays pool capacity body) := inferInstanceAs (Decidable (_ → _ ∧ _))

/-- Up to the first `Return` an accepted body fits, and then the results are there. -/
theorem FunctionValidator.Reachable.fitsAll_live {live dead : List Instruction}
    {capacity results : ℕ} (hcore : CoreBody (live ++ .return_ :: dead)) (hno : .return_ ∉ live) :
    ∀ {v v' : FunctionValidator} {n : ℕ}, v.Reachable n →
      v.visitAll (live ++ .return_ :: dead) = .ok v' →
      Instruction.FitsAll capacity results n (live ++ .return_ :: dead) →
      Instruction.FitsAll capacity v.returns.length n live := by
  induction live with
  | nil =>
    intro v v' n hr hv _
    -- the `Return` pops the results, and finds the stack empty then
    obtain ⟨v₁, h1, -⟩ := bind_eq_ok.mp hv
    exact (hr.visit_return h1).ge
  | cons i is ih =>
    intro v v' n hr hv hfit
    obtain ⟨v₁, h1, h2⟩ := bind_eq_ok.mp hv
    have hi : i ≠ .return_ := fun he => hno (he ▸ List.mem_cons_self)
    have hnext := ih hcore.tail (fun hmem => hno (List.mem_cons_of_mem i hmem))
      (hr.visit_fits hi hcore.head h1).2 h2 hfit.2
    rw [(visit_signature h1).2] at hnext
    exact ⟨hfit.1, hnext⟩

theorem takeWhile_live {live dead : List Instruction} (hno : .return_ ∉ live) :
    (live ++ .return_ :: dead).takeWhile (· ≠ .return_) = live := by
  rw [List.takeWhile_append_of_pos, List.takeWhile_cons_of_neg (by simp), List.append_nil]
  intro i hi
  exact decide_eq_true fun he => hno (he ▸ hi)

/-- A body that does not fit leaves the array of the compile-time stack. -/
theorem Assembler.not_returnAgrees_of_not_fits {ι : Type} (a : Assembler ι) {f : Function}
    (exitLabel : Label) (hb : Assembler.WellNamed (.new f.meta_) f.body) (hret : .return_ ∈ f.body)
    (hfit : ¬Instruction.FitsAll f.meta_.maxStackElements.toNat 1 0 f.body) :
    ¬a.ReturnAgrees f exitLabel := by
  intro h
  obtain ⟨live, dead, hbody, hno⟩ := List.eq_append_cons_of_mem hret
  obtain ⟨s, code, s', code', v, stack, v', stack', -, hall, -, hpop, -⟩ := h live dead hbody hno
  rcases Assembler.visitAll_of_not_fits exitLabel hb (.new a.callerSaved _) hfit with
    he | ⟨s₁, w₁, code₁, hall₁, hw₁, hd⟩
  · rw [he] at hall
    cases hall
  · -- nothing is left for the epilogue to pop
    obtain ⟨rfl, -⟩ := Prod.mk.inj (Except.ok.inj (hall₁.symm.trans hall))
    rw [Assembler.pop_empty hw₁ (Nat.lt_one_iff.mp hd)] at hpop
    cases hpop

/-- **When `Return` and the end of the body agree on the place of the result**, in either compiler:
there is no `Return`, or the compile-time stack holds the whole body and the counts of its elements
in registers and in memory put the top back where it was. -/
theorem returnAgrees_iff {ι : Type} (a : Assembler ι) {f : Function} (hcore : CoreBody f.body)
    (hvalid : f.IsValidated) (hres : f.meta_.signature.resultTypes.length = 1)
    (exitLabel : Label) :
    a.ReturnAgrees f exitLabel ↔
      ResultStays a.callerSaved.toList f.meta_.maxStackElements.toNat f.body := by
  obtain ⟨v, hv, -⟩ := hvalid
  have hb := wellNamed_of_validate hcore hv
  by_cases hret : .return_ ∈ f.body
  swap
  · refine iff_of_true (fun live dead hbody _ => absurd ?_ hret) fun h => absurd h hret
    rw [hbody]
    exact List.mem_append_right _ List.mem_cons_self
  obtain ⟨live, dead, hbody, hno⟩ := List.eq_append_cons_of_mem hret
  by_cases hfit : Instruction.FitsAll f.meta_.maxStackElements.toNat 1 0 f.body
  swap
  · exact iff_of_false (a.not_returnAgrees_of_not_fits exitLabel hb hret hfit) fun h =>
      hfit (h hret).1
  have hlive : Instruction.FitsAll f.meta_.maxStackElements.toNat 1 0 live := by
    obtain ⟨v₁, h1, -⟩ := bind_eq_ok.mp hv
    have hnew : (FunctionValidator.new f.meta_.signature f.meta_.locals).Reachable 0 := ⟨rfl, rfl⟩
    rw [hbody] at h1 hfit hcore
    have hfits := Reachable.fitsAll_live hcore hno hnew h1 hfit
    rwa [show (FunctionValidator.new f.meta_.signature f.meta_.locals).returns.length = 1
      from hres] at hfits
  have hblive : Assembler.WellNamed (.new f.meta_) live := (hbody ▸ hb).beginning
  obtain ⟨s', code', hall, hs', hd'⟩ := (Follows.new a _).visitAll exitLabel hb hfit
  obtain ⟨s, code, hpre, hs, hd⟩ := (Follows.new a _).visitAll exitLabel hblive hlive
  obtain ⟨top', stack', hpop', hloc'⟩ := hs'.pop_location hd'
  obtain ⟨top, stack, hpop, hloc⟩ := hs.pop_location hd
  have htake : f.body.takeWhile (· ≠ .return_) = live := by rw [hbody, takeWhile_live hno]
  have hiff : ResultStays a.callerSaved.toList f.meta_.maxStackElements.toNat f.body ↔
      top'.location = top.location := by
    rw [ResultStays, htake, hloc, hloc']
    exact ⟨fun h => (h hret).2, fun h _ => ⟨hfit, h⟩⟩
  rw [hiff]
  constructor
  · intro h
    obtain ⟨s₁, code₁, s₂, code₂, v₁, stack₁, v₂, stack₂, hpre₁, hall₂, hpop₁, hpop₂, hsame⟩ :=
      h live dead hbody hno
    obtain ⟨rfl, -⟩ := Prod.mk.inj (Except.ok.inj (hpre₁.symm.trans hpre))
    obtain ⟨rfl, -⟩ := Prod.mk.inj (Except.ok.inj (hall₂.symm.trans hall))
    obtain ⟨rfl, -⟩ := Prod.mk.inj (Except.ok.inj (hpop₁.symm.trans hpop))
    obtain ⟨rfl, -⟩ := Prod.mk.inj (Except.ok.inj (hpop₂.symm.trans hpop'))
    exact hsame
  · intro hsame live₁ dead₁ hbody₁ hno₁
    -- the body has one first `Return`
    obtain rfl : live₁ = live := by rw [← htake, hbody₁, takeWhile_live hno₁]
    exact ⟨s, code, s', code', top, stack, top', stack', hpre, hall, hpop, hpop', hsame⟩

/-- Code after a `Return` that pops what it pushes. -/
def balancedFn : Function where
  meta_ := ⟨⟨[], [.i32]⟩, [.i32], 8, 2⟩
  body := [.constI32 ⟨1⟩, .constI32 ⟨2⟩, .addI32, .return_, .constI32 ⟨3⟩, .setLocalI32 0]

theorem returnAgrees_balanced :
    X64.assembler.ReturnAgrees balancedFn 0 ∧ Arm64.assembler.ReturnAgrees balancedFn 0 :=
  ⟨(returnAgrees_iff X64.assembler (by decide) ⟨_, rfl, rfl, rfl⟩ rfl 0).mpr (by decide),
    (returnAgrees_iff Arm64.assembler (by decide) ⟨_, rfl, rfl, rfl⟩ rfl 0).mpr (by decide)⟩

/-- A value that is left on top of the result. -/
def leaveFn : Function where
  meta_ := ⟨⟨[], [.i32]⟩, [], 8, 2⟩
  body := [.constI32 ⟨1⟩, .constI32 ⟨2⟩, .addI32, .return_, .constI32 ⟨3⟩]

/-- `Return` leaves the sum in the first register, and the epilogue takes the second one. -/
theorem leave_disagrees : leaveFn.IsValidated ∧ ¬X64.assembler.ReturnAgrees leaveFn 0 ∧
    ¬Arm64.assembler.ReturnAgrees leaveFn 0 := by
  refine ⟨⟨_, rfl, rfl, rfl⟩, fun h => ?_, fun h => ?_⟩
  · obtain ⟨s, code, s', code', v, stack, v', stack', hpre, hall, hpop, hpop', hsame⟩ :=
      h [.constI32 ⟨1⟩, .constI32 ⟨2⟩, .addI32] [.constI32 ⟨3⟩] rfl (by decide)
    -- both runs are evaluated, and end in different registers
    cases hpre
    cases hall
    cases hpop
    cases hpop'
    exact absurd hsame (by decide)
  · obtain ⟨s, code, s', code', v, stack, v', stack', hpre, hall, hpop, hpop', hsame⟩ :=
      h [.constI32 ⟨1⟩, .constI32 ⟨2⟩, .addI32] [.constI32 ⟨3⟩] rfl (by decide)
    cases hpre
    cases hall
    cases hpop
    cases hpop'
    exact absurd hsame (by decide)

/-! ### Few elements -/

/-- With no more elements than registers, all of them are in the lowest registers, in order. -/
theorem runCalls_usage_of_le {n capacity results : ℕ} {body rest : List Instruction}
    (hcore : CoreBody (body ++ rest)) :
    ∀ {d : ℕ}, Instruction.FitsAll capacity results d (body ++ rest) →
      Instruction.maxDepth d (body ++ rest) ≤ n →
      runCalls (Usage.step n) ⟨d, false, 0⟩ body =
          ⟨runCalls (fun d i => i.depthAfter d) d body, false, 0⟩ ∧
        runCalls (fun d i => i.depthAfter d) d body ≤ n := by
  induction body with
  | nil => exact fun _ hle => ⟨rfl, (Instruction.le_maxDepth _ rest).trans hle⟩
  | cons i is ih =>
    intro d hfit hle
    have hnext := (Instruction.le_maxDepth (i.depthAfter d) (is ++ rest)).trans
      ((le_max_right d _).trans hle)
    have hstep : Usage.step n ⟨d, false, 0⟩ i = ⟨i.depthAfter d, false, 0⟩ := by
      have hi := hfit.1
      -- with a register left, a push takes it and the order stays as it is
      have hpush (hroom : d + 1 ≤ n) : Usage.push n ⟨d, false, 0⟩ = ⟨d + 1, false, 0⟩ := by
        rw [Usage.push]
        split
        next h0 => rw [show d = 0 from h0]
        next h0 => rw [if_pos (show d < n from hroom)]
      have hcore' := hcore.head
      cases i with
      | constI32 value => exact hpush hnext
      | getLocalI32 idx => exact hpush hnext
      | addI32 =>
        obtain ⟨k, rfl⟩ : ∃ k, d = k + 2 := ⟨d - 2, by have : 2 ≤ d := hi; omega⟩
        rfl
      | setLocalI32 idx =>
        obtain ⟨k, rfl⟩ : ∃ k, d = k + 1 := ⟨d - 1, by have : 1 ≤ d := hi; omega⟩
        rfl
      | return_ => rfl
      | label id => cases hcore'
      | br id => cases hcore'
      | brIf t e => cases hcore'
    change runCalls (Usage.step n) (Usage.step n ⟨d, false, 0⟩ i) is = _ ∧ _
    rw [hstep]
    exact ih hcore.tail hfit.2 ((le_max_right d _).trans hle)

theorem Usage.top_eq_iff {pool : List Reg} (hpool : pool.Nodup) {d d' : ℕ} (hd : d ≤ pool.length)
    (hd' : d' ≤ pool.length) : Usage.top pool ⟨d, false, 0⟩ = Usage.top pool ⟨d', false, 0⟩ ↔
      d = d' := by
  refine ⟨fun h => ?_, fun h => by rw [h]⟩
  match d, d' with
  | 0, 0 => rfl
  | 0, r + 1 => cases h
  | r + 1, 0 => cases h
  | r + 1, r' + 1 =>
    have hget : pool.getD r 0 = pool.getD r' 0 := Location.register.inj h
    rw [List.getD_eq_getElem _ _ hd, List.getD_eq_getElem _ _ hd'] at hget
    rw [(hpool.getElem_inj_iff).mp hget]

/-- **With no more elements than registers**, the result stays where it is exactly if, in the end,
the stack is as high again as at the `Return`. -/
theorem resultStays_iff_of_le {pool : List Reg} (hpool : pool.Nodup) {capacity : ℕ}
    {body : List Instruction} (hcore : CoreBody body)
    (hle : Instruction.maxDepth 0 body ≤ pool.length) :
    ResultStays pool capacity body ↔ (.return_ ∈ body → Instruction.FitsAll capacity 1 0 body ∧
      runCalls (fun d i => i.depthAfter d) 0 body =
        runCalls (fun d i => i.depthAfter d) 0 (body.takeWhile (· ≠ .return_))) := by
  refine imp_congr_right fun _ => and_congr_right fun hfit => ?_
  have hsplit := List.takeWhile_append_dropWhile (p := (· ≠ .return_)) (l := body)
  generalize hlive : body.takeWhile (· ≠ .return_) = live at hsplit
  rw [← hsplit] at hcore hfit hle
  obtain ⟨hu, hn⟩ := runCalls_usage_of_le hcore hfit hle
  rw [← List.append_nil (live ++ _)] at hcore hfit hle
  obtain ⟨hu', hn'⟩ := runCalls_usage_of_le hcore hfit hle
  rw [hsplit] at hu' hn'
  change Usage.top pool (runCalls (Usage.step pool.length) ⟨0, false, 0⟩ body) =
    Usage.top pool (runCalls (Usage.step pool.length) ⟨0, false, 0⟩ live) ↔ _
  -- nothing is spilled, so both tops are where the depth says
  rw [hu, hu', Usage.top_eq_iff hpool hn' hn]

end Wasmcc
