import Wasmcc.Basis.Runs
import Wasmcc.Compiler.Common
import Mathlib.Order.Interval.Set.Disjoint
import Mathlib.Data.List.Chain

/-!
# Spill slots

`RuntimeStack::Push` adds the size of a value to the offset and then records the offset as the place
of the value, so a value is stored above the end of what it was given: its slot starts at the sum of
the sizes up to and including its own. Two neighbours of one size are still apart. A smaller value
on top of a larger one is not, since the upper one's slot starts before the lower one's ends.

`slotsApart_iff` is this for one stack, and `slotsApart_runs_iff` for all states of a run of pushes
and pops: they are right as long as no value is pushed onto a larger one and the offset stays an
`int32_t`.
-/

open Basis

namespace Wasmcc

/-- The addresses, relative to the stack pointer, that a value is spilled to. -/
def RuntimeValue.slot (v : RuntimeValue) : Set ℤ :=
  Set.Ico v.stackPointer.toInt (v.stackPointer.toInt + v.type.sizeBytes)

namespace RuntimeStack

/-! ### Runs -/

inductive Call where
  | push (v : RuntimeValue)
  | pop
deriving DecidableEq, Repr

/-- The stack after a call. One that is undefined changes nothing. -/
def step (s : RuntimeStack) : Call → RuntimeStack
  | .push v =>
    match s.push v with
    | .ok s' => s'
    | .error _ => s
  | .pop =>
    match s.pop with
    | .ok (_, s') => s'
    | .error _ => s

/-- The call indexes inside the array. -/
def InCapacity (s : RuntimeStack) : Call → Prop
  | .push _ => s.stack.length < s.capacity
  | .pop => s.stack ≠ []

instance (s : RuntimeStack) : DecidablePred s.InCapacity
  | .push _ => inferInstanceAs (Decidable (_ < _))
  | .pop => inferInstanceAs (Decidable (_ ≠ _))

/-- The current offset, an `int32_t`. -/
def pointer (s : RuntimeStack) : ℤ := s.stackMemoryOffset.toInt

/-- The bytes of the values on a stack. -/
def sizeOfValues (vs : List RuntimeValue) : ℕ := sizeOfTypes (vs.map RuntimeValue.type)

/-- No two values that are on the stack share an address, and the offset is the size of all. -/
structure SlotsApart (s : RuntimeStack) : Prop where
  slots : s.stack.Pairwise fun v w => Disjoint v.slot w.slot
  pointer : s.pointer = sizeOfValues s.stack

/-- A push of a value that is no smaller than the one on top, and fits the offset. -/
def KeepsApart (s : RuntimeStack) : Call → Prop
  | .push v => (∀ top ∈ s.stack.head?, top.type.sizeBytes ≤ v.type.sizeBytes) ∧
      sizeOfValues s.stack + v.type.sizeBytes < 2 ^ 31
  | .pop => True

instance (s : RuntimeStack) : DecidablePred s.KeepsApart
  | .push _ => inferInstanceAs (Decidable (_ ∧ _))
  | .pop => inferInstanceAs (Decidable True)

/-! ### Where the values are -/

/-- Every value has been recorded where the ones up to it end. -/
def Recorded : List RuntimeValue → Prop
  | [] => True
  | v :: vs => v.stackPointer = BitVec.ofNat 32 (sizeOfValues (v :: vs)) ∧ Recorded vs

/-- The sizes do not grow from the top down, and their sum is an `int32_t`. -/
def Ordered (s : RuntimeStack) : Prop :=
  s.stack.IsChain (fun v w => w.type.sizeBytes ≤ v.type.sizeBytes) ∧ sizeOfValues s.stack < 2 ^ 31

structure Inv (s : RuntimeStack) : Prop where
  recorded : Recorded s.stack
  offset : s.stackMemoryOffset = BitVec.ofNat 32 (sizeOfValues s.stack)

variable {s : RuntimeStack} {v : RuntimeValue} {vs : List RuntimeValue}

theorem sizeOfValues_cons (v : RuntimeValue) (vs : List RuntimeValue) :
    sizeOfValues (v :: vs) = v.type.sizeBytes + sizeOfValues vs := rfl

/-- A push with room for it. -/
theorem step_push (h : s.stack.length < s.capacity) (v : RuntimeValue) :
    s.step (.push v) = { s with
      stackMemoryOffset := s.stackMemoryOffset + BitVec.ofNat 32 v.type.sizeBytes
      stack := { v with
        stackPointer := s.stackMemoryOffset + BitVec.ofNat 32 v.type.sizeBytes } :: s.stack } := by
  rw [step, push, if_pos h]

theorem step_pop (h : s.stack = v :: vs) :
    s.step .pop = { s with
      stackMemoryOffset := s.stackMemoryOffset - BitVec.ofNat 32 v.type.sizeBytes
      stack := vs } := by
  rw [step, pop, h]

theorem inv_empty (capacity : ℕ) : Inv { capacity } := ⟨trivial, rfl⟩

/-- **The step lemma**: where the values are recorded. -/
theorem Inv.step (h : s.Inv) {c : Call} (hc : s.InCapacity c) : (s.step c).Inv := by
  cases c with
  | push v =>
    -- `Push` records the offset behind the value
    have hoffset : s.stackMemoryOffset + BitVec.ofNat 32 v.type.sizeBytes =
        BitVec.ofNat 32 (v.type.sizeBytes + sizeOfValues s.stack) := by
      rw [h.offset, ← BitVec.ofNat_add, Nat.add_comm]
    rw [step_push hc, hoffset]
    exact ⟨⟨rfl, h.recorded⟩, rfl⟩
  | pop =>
    obtain ⟨v, vs, hs⟩ := List.exists_cons_of_ne_nil hc
    have hoffset := h.offset
    have hrecorded := h.recorded
    rw [hs] at hoffset hrecorded
    -- and `Pop` takes its size off again
    rw [step_pop hs, hoffset, sizeOfValues_cons, BitVec.ofNat_add, BitVec.add_comm,
      BitVec.add_sub_cancel]
    exact ⟨hrecorded.2, rfl⟩

/-! ### Slots of one stack -/

theorem toInt_ofNat {n : ℕ} (h : n < 2 ^ 31) : (BitVec.ofNat 32 n).toInt = n := by
  rw [BitVec.toInt_ofNat', Int.bmod_eq_of_le (by omega) (by omega)]

/-- The slot of the top value starts where all values up to it end. -/
theorem slot_eq (h : Recorded (v :: vs)) (hlt : sizeOfValues (v :: vs) < 2 ^ 31) :
    v.slot = Set.Ico (sizeOfValues (v :: vs) : ℤ) (sizeOfValues (v :: vs) + v.type.sizeBytes) := by
  rw [RuntimeValue.slot, h.1, toInt_ofNat hlt]

/-- **Two neighbours**: they are apart exactly if the upper one is no smaller. -/
theorem disjoint_neighbours_iff {w : RuntimeValue} (h : Recorded (v :: w :: vs))
    (hlt : sizeOfValues (v :: w :: vs) < 2 ^ 31) :
    Disjoint v.slot w.slot ↔ w.type.sizeBytes ≤ v.type.sizeBytes := by
  have hv := v.type.sizeBytes_pos
  have hw := w.type.sizeBytes_pos
  have hsize := sizeOfValues_cons v (w :: vs)
  have hlt' : sizeOfValues (w :: vs) < 2 ^ 31 := by omega
  rw [slot_eq h hlt, slot_eq h.2 hlt', Set.Ico_disjoint_Ico]
  omega

/-- Slots below the top one end before it starts. -/
theorem slot_subset {v : RuntimeValue} (h : Recorded (v :: vs))
    (hlt : sizeOfValues (v :: vs) < 2 ^ 31)
    (hchain : (v :: vs).IsChain fun v w => w.type.sizeBytes ≤ v.type.sizeBytes) :
    ∀ u ∈ vs, u.slot ⊆ Set.Iio (sizeOfValues (v :: vs) : ℤ) := by
  induction vs generalizing v with
  | nil => exact fun u hu => absurd hu List.not_mem_nil
  | cons w vs ih =>
    intro u hu
    obtain ⟨hle, hchain'⟩ := List.isChain_cons_cons.mp hchain
    have hsize := sizeOfValues_cons v (w :: vs)
    have hlt' : sizeOfValues (w :: vs) < 2 ^ 31 := by omega
    obtain rfl | hu := List.mem_cons.mp hu
    · rw [slot_eq h.2 hlt']
      intro x hx
      have hend : x < sizeOfValues (u :: vs) + u.type.sizeBytes := hx.2
      show x < sizeOfValues (v :: u :: vs)
      omega
    · -- it ends before the one between them starts
      intro x hx
      have hend : x < sizeOfValues (w :: vs) := ih h.2 hlt' hchain' u hu hx
      show x < sizeOfValues (v :: w :: vs)
      omega

/-- **All slots of a stack** are apart exactly if neighbours are. -/
theorem slots_pairwise_iff (h : Recorded vs) (hlt : sizeOfValues vs < 2 ^ 31) :
    (vs.Pairwise fun v w => Disjoint v.slot w.slot) ↔
      vs.IsChain fun v w => w.type.sizeBytes ≤ v.type.sizeBytes := by
  induction vs with
  | nil => exact iff_of_true .nil .nil
  | cons v vs ih =>
    have hsize := sizeOfValues_cons v vs
    have hih := ih h.2 (by omega)
    constructor
    · intro hpair
      obtain ⟨hv, hvs⟩ := List.pairwise_cons.mp hpair
      have hchain := hih.mp hvs
      cases vs with
      | nil => exact .singleton v
      | cons w vs =>
        -- neighbours are apart, so the sizes do not grow from one to the next
        refine List.isChain_cons_cons.mpr ⟨?_, hchain⟩
        exact (disjoint_neighbours_iff h hlt).mp (hv w List.mem_cons_self)
    · intro hchain
      refine List.pairwise_cons.mpr ⟨fun u hu => ?_, hih.mpr hchain.tail⟩
      rw [slot_eq h hlt, Set.disjoint_left]
      intro x hx hxu
      -- every slot below ends where those values end, and this one starts there
      have hbelow : x < sizeOfValues (v :: vs) := slot_subset h hlt hchain u hu hxu
      exact absurd hx.1 (by omega)

/-- **One stack.** -/
theorem slotsApart_iff (h : s.Inv) : s.SlotsApart ↔ s.Ordered := by
  have hpointer : s.pointer = sizeOfValues s.stack ↔ sizeOfValues s.stack < 2 ^ 31 := by
    rw [pointer, h.offset]
    refine ⟨fun heq => ?_, toInt_ofNat⟩
    have := BitVec.toInt_lt (x := BitVec.ofNat 32 (sizeOfValues s.stack))
    omega
  constructor
  · intro hapart
    have hlt := hpointer.mp hapart.pointer
    exact ⟨(slots_pairwise_iff h.recorded hlt).mp hapart.slots, hlt⟩
  · intro hordered
    exact ⟨(slots_pairwise_iff h.recorded hordered.2).mpr hordered.1, hpointer.mpr hordered.2⟩

/-! ### All stacks of a run -/

/-- From an ordered stack, the calls that keep the slots apart lead to an ordered one. -/
theorem ordered_step_iff (h : s.Ordered) {c : Call} (hc : s.InCapacity c) :
    (s.step c).Ordered ↔ s.KeepsApart c := by
  cases c with
  | push v =>
    -- the new value is compared with its neighbour only
    rw [step_push hc, Ordered, sizeOfValues_cons, List.isChain_cons, Nat.add_comm]
    exact and_congr_left fun _ => and_iff_left h.1
  | pop =>
    obtain ⟨v, vs, hs⟩ := List.exists_cons_of_ne_nil hc
    obtain ⟨hchain, hlt⟩ := h
    rw [hs] at hchain hlt
    rw [sizeOfValues_cons] at hlt
    have hbelow : sizeOfValues vs < 2 ^ 31 := by omega
    rw [step_pop hs]
    -- what is left was in order before
    exact iff_of_true ⟨hchain.tail, hbelow⟩ trivial

/-- **When spill slots never overlap**: in all states of a run of pushes and pops within the
capacity the slots are apart and the offset is the size of the values, exactly if no push of the run
puts a value on a larger one or brings the size to `2 ^ 31` bytes. -/
theorem slotsApart_runs_iff (capacity : ℕ) (calls : List Call)
    (hcap : EachStep step InCapacity { capacity } calls) :
    (∀ pre, pre <+: calls → (runCalls step { capacity } pre).SlotsApart) ↔
      EachStep step KeepsApart { capacity } calls := by
  have hempty := inv_empty capacity
  refine forall_states_iff (fun s c (hs : Inv s) hc => hs.step hc) (fun s c hs hc hapart => ?_)
    hempty ((slotsApart_iff hempty).mpr ⟨.nil, Nat.two_pow_pos 31⟩) hcap
  rw [slotsApart_iff (hs.step hc)]
  exact ordered_step_iff ((slotsApart_iff hs).mp hapart) hc

/-- Two `i64`, of which one is popped for a `v128`. -/
theorem slotsApart_growing :
    (runCalls step { capacity := 2 } [.push { type := .i64 }, .push { type := .i64 }, .pop,
      .push { type := .v128 }]).SlotsApart :=
  (slotsApart_runs_iff 2 _ (by decide)).mpr (by decide) _ List.prefix_rfl

/-- An `i32` on an `i64`: the slots are 8 to 15 and 12 to 15. -/
theorem slots_overlap :
    ¬(runCalls step { capacity := 2 }
      [.push { type := .i64 }, .push { type := .i32 }]).SlotsApart := by
  intro h
  have hdisjoint := (List.pairwise_cons.mp h.slots).1 _ List.mem_cons_self
  have hmem : (12 : ℤ) ∈ Set.Ico 12 16 ∩ Set.Ico 8 16 := by decide
  exact Set.disjoint_left.mp hdisjoint hmem.1 hmem.2

end RuntimeStack

end Wasmcc
