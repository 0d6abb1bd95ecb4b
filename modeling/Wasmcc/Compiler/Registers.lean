import Wasmcc.Basis.Runs
import Wasmcc.Compiler.X64
import Wasmcc.Compiler.Arm64
import Mathlib.Data.Finset.Basic

/-!
# Registers one by one

The iterator of `RegisterMask` and the range-based loop over it, as `compiler/common` has them: an
index that starts at -1, `SeekNext` that moves it to the next bit that is set, and an end at 32.
`rangeFor_begin` says that the loop ends and has then seen `toList`, which the compilers are
described with, and `rangeFor_takeIfUnused` that `TakeUnusedRegister` is the search that
`takeUnusedRegister` makes in it.

The tracker gives registers out and takes them back in any order. `registers_never_doubled` compares
it with the set of the registers that are out, counted by the answers alone.
-/

open Basis

namespace Wasmcc

deriving instance DecidableEq for RegisterMask

namespace RegisterMask

/-! ### The iterator -/

/-- `kMaxRegGroupNumRegisters`. -/
abbrev kMaxRegGroupNumRegisters : ℕ := 32

structure ConstIterator where
  mask : RegisterMask
  index : ℤ := -1
deriving DecidableEq

/-- The loop of `SeekNext`, from the value of `_index` after the next increment. -/
def seek (m : RegisterMask) (index : ℕ) : ℕ :=
  if h : index < kMaxRegGroupNumRegisters then
    if m.test ⟨index, h⟩ then index else m.seek (index + 1)
  else index
termination_by kMaxRegGroupNumRegisters - index

namespace ConstIterator

def seekNext (it : ConstIterator) : ConstIterator :=
  { it with index := it.mask.seek (it.index + 1).toNat }

/-- `operator*`. There is no register with another index. -/
def deref (it : ConstIterator) : Option Reg :=
  if h : it.index.toNat < kMaxRegGroupNumRegisters then some ⟨it.index.toNat, h⟩ else none

end ConstIterator

def begin_ (m : RegisterMask) : ConstIterator := ConstIterator.seekNext { mask := m }

def end_ (m : RegisterMask) : ConstIterator where
  mask := m
  index := kMaxRegGroupNumRegisters

/-- A range-based `for` loop over the set, from an iterator on. The body goes on with `.ok` or
leaves the loop with `.error`. The result is `none` if that takes more than `fuel` rounds. -/
def rangeFor {β σ : Type} (m : RegisterMask) (body : σ → Reg → Except β σ) :
    ℕ → σ → ConstIterator → Option (Except β σ)
  | 0, _, _ => none
  | fuel + 1, s, it =>
    if it = m.end_ then some (.ok s)
    else
      match it.deref with
      | none => none
      | some reg =>
        match body s reg with
        | .error b => some (.error b)
        | .ok s' => m.rangeFor body fuel s' it.seekNext

end RegisterMask

/-- The body of the loop of `TakeUnusedRegister`. -/
def RegisterTracker.takeIfUnused (t : RegisterTracker) (_ : Unit) (reg : Reg) :
    Except (Reg × RegisterTracker) Unit :=
  if !t.gpRegMask.test reg then .error (reg, ⟨t.gpRegMask.set reg⟩) else .ok ()

namespace RegisterMask

/-! ### What the loop sees -/

/-- The registers of the set from an index on. -/
def listFrom (m : RegisterMask) (n : ℕ) : List Reg :=
  ((List.finRange kMaxRegGroupNumRegisters).drop n).filter m.test

variable {m : RegisterMask} {n : ℕ}

theorem listFrom_of_lt (h : n < kMaxRegGroupNumRegisters) :
    m.listFrom n = if m.test ⟨n, h⟩ then ⟨n, h⟩ :: m.listFrom (n + 1) else m.listFrom (n + 1) := by
  have hlen : n < (List.finRange kMaxRegGroupNumRegisters).length := by rwa [List.length_finRange]
  rw [listFrom, List.drop_eq_getElem_cons hlen, List.filter_cons]
  simp only [List.getElem_finRange]
  rfl

theorem listFrom_of_le (h : kMaxRegGroupNumRegisters ≤ n) : m.listFrom n = [] := by
  rw [listFrom, List.drop_of_length_le (by rwa [List.length_finRange]), List.filter_nil]

/-- **`SeekNext`** stops at the first register of the set from an index on, or at the end if there
is none. -/
theorem seek_spec (m : RegisterMask) (h : n ≤ kMaxRegGroupNumRegisters) :
    (∃ hlt : m.seek n < kMaxRegGroupNumRegisters, n ≤ m.seek n ∧
      m.listFrom n = ⟨m.seek n, hlt⟩ :: m.listFrom (m.seek n + 1)) ∨
    m.seek n = kMaxRegGroupNumRegisters ∧ m.listFrom n = [] := by
  induction n using seek.induct m with
  | case1 n hlt htest =>
    have hseek : m.seek n = n := by rw [seek, dif_pos hlt, if_pos htest]
    left
    simp only [hseek]
    exact ⟨hlt, le_rfl, by rw [listFrom_of_lt hlt, if_pos htest]⟩
  | case2 n hlt htest ih =>
    -- the bit is not set, and the list has no element for it
    have hseek : m.seek n = m.seek (n + 1) := by rw [seek, dif_pos hlt, if_neg htest]
    rw [listFrom_of_lt hlt, if_neg htest]
    simp only [hseek]
    obtain ⟨hlt', hle, hlist⟩ | hend := ih hlt
    · exact .inl ⟨hlt', Nat.le_of_succ_le hle, hlist⟩
    · exact .inr hend
  | case3 n hge =>
    have hseek : m.seek n = n := by rw [seek, dif_neg hge]
    exact .inr ⟨hseek.trans (le_antisymm h (Nat.le_of_not_lt hge)),
      listFrom_of_le (Nat.le_of_not_lt hge)⟩

/-- An iterator that `SeekNext` has left at the first register from `n` on. -/
def iteratorAt (m : RegisterMask) (n : ℕ) : ConstIterator := ⟨m, m.seek n⟩

theorem seekNext_iteratorAt (m : RegisterMask) (n : ℕ) :
    (m.iteratorAt n).seekNext = m.iteratorAt (m.seek n + 1) := rfl

theorem iteratorAt_eq_end_iff : m.iteratorAt n = m.end_ ↔ m.seek n = kMaxRegGroupNumRegisters := by
  rw [iteratorAt, end_, ConstIterator.mk.injEq, Nat.cast_inj]
  exact and_iff_right rfl

theorem deref_iteratorAt (h : m.seek n < kMaxRegGroupNumRegisters) :
    (m.iteratorAt n).deref = some ⟨m.seek n, h⟩ := dif_pos h

section Loop

variable {β σ : Type} (body : σ → Reg → Except β σ)

theorem rangeFor_iteratorAt {fuel : ℕ} : ∀ {n : ℕ} (s : σ), n ≤ kMaxRegGroupNumRegisters →
    kMaxRegGroupNumRegisters < fuel + n →
    m.rangeFor body fuel s (m.iteratorAt n) = some ((m.listFrom n).foldlM body s) := by
  induction fuel with
  | zero =>
    intro n s hle hfuel
    omega
  | succ fuel ih =>
    intro n s hle hfuel
    rw [rangeFor]
    -- the iterator is at the next element of the list, or at the end
    obtain ⟨hlt, hge, hlist⟩ | ⟨hend, hlist⟩ := m.seek_spec hle
    · rw [if_neg fun heq => hlt.ne (iteratorAt_eq_end_iff.mp heq), deref_iteratorAt hlt,
        seekNext_iteratorAt, hlist, List.foldlM_cons]
      cases hbody : body s ⟨m.seek n, hlt⟩ with
      | error b => simp only [hbody]; rfl
      | ok s' =>
        simp only [hbody]
        exact ih s' hlt (by omega)
    · rw [if_pos (iteratorAt_eq_end_iff.mpr hend), hlist]
      rfl

/-- **A range-based loop** ends, and has its body see the registers of `toList`, in this order. -/
theorem rangeFor_begin (m : RegisterMask) (s : σ) {fuel : ℕ} (h : kMaxRegGroupNumRegisters < fuel) :
    m.rangeFor body fuel s m.begin_ = some (m.toList.foldlM body s) :=
  rangeFor_iteratorAt body s (Nat.zero_le _) h

end Loop

/-- The registers of the set by ascending id, each once. -/
theorem toList_sorted (m : RegisterMask) : m.toList.Pairwise (· < ·) :=
  (List.pairwise_lt_finRange 32).filter _

end RegisterMask

namespace RegisterTracker

/-! ### The tracker -/

/-- **The loop of `TakeUnusedRegister`** is the search in `toList`. -/
theorem rangeFor_takeIfUnused (t : RegisterTracker) (callerSaved : RegisterMask) {fuel : ℕ}
    (h : RegisterMask.kMaxRegGroupNumRegisters < fuel) :
    callerSaved.rangeFor t.takeIfUnused fuel () callerSaved.begin_ =
      some (match t.takeUnusedRegister callerSaved with
        | some taken => .error taken
        | none => .ok ()) := by
  rw [RegisterMask.rangeFor_begin _ _ _ h, takeUnusedRegister]
  congr 1
  induction callerSaved.toList with
  | nil => rfl
  | cons reg regs ih =>
    rw [List.foldlM_cons, List.find?_cons, takeIfUnused]
    -- the loop ends at the first register that is not taken
    cases hreg : t.gpRegMask.test reg with
    | false => rfl
    | true => exact ih

inductive Call where
  | takeUnusedRegister
  | markRegisterUnused (reg : Reg)
deriving DecidableEq, Repr

/-- The tracker of a set of caller-saved registers, and the registers that are out by its
answers. -/
structure Ledger where
  tracker : RegisterTracker := {}
  taken : Finset Reg := ∅

namespace Ledger

def step (callerSaved : RegisterMask) (l : Ledger) : Call → Ledger
  | .takeUnusedRegister =>
    match l.tracker.takeUnusedRegister callerSaved with
    | some (reg, tracker) => { tracker, taken := insert reg l.taken }
    | none => l
  | .markRegisterUnused reg =>
    { tracker := l.tracker.markRegisterUnused reg, taken := l.taken.erase reg }

/-- What the tracker has in use is what is out. -/
def Agrees (l : Ledger) : Prop := ∀ reg, l.tracker.gpRegMask.test reg = true ↔ reg ∈ l.taken

variable {callerSaved : RegisterMask} {l : Ledger}

theorem agrees_empty : Agrees {} := fun _ => iff_of_false Bool.false_ne_true (Finset.notMem_empty _)

theorem Agrees.step (h : l.Agrees) (c : Call) : (l.step callerSaved c).Agrees := by
  intro reg
  cases c with
  | takeUnusedRegister =>
    rw [Ledger.step]
    split
    next r tracker heq =>
      -- the register that is handed out is new in both
      obtain ⟨-, -, rfl⟩ := takeUnusedRegister_eq_some heq
      rw [RegisterMask.test_set, Finset.mem_insert, h reg]
    · exact h reg
  | markRegisterUnused r =>
    show (l.tracker.gpRegMask.reset r).test reg = true ↔ reg ∈ l.taken.erase r
    rw [RegisterMask.test_reset, Finset.mem_erase, h reg]

theorem agrees_runCalls (callerSaved : RegisterMask) (calls : List Call) :
    (runCalls (step callerSaved) {} calls).Agrees := by
  induction calls using List.reverseRecOn with
  | nil => exact agrees_empty
  | append_singleton calls c ih =>
    rw [runCalls, List.foldl_append]
    exact ih.step c

end Ledger

/-- **A register is never given out twice**: after any calls, `TakeUnusedRegister` has a register of
the caller-saved ones that is not out, if there is one, and nothing only if all of them are out.
Both come from the loop over the mask, which has the body see each register of the set once, by
ascending id, and then ends. -/
theorem registers_never_doubled (callerSaved : RegisterMask) (calls : List Call) :
    let l := runCalls (Ledger.step callerSaved) {} calls
    (∀ reg tracker, l.tracker.takeUnusedRegister callerSaved = some (reg, tracker) →
      callerSaved.test reg = true ∧ reg ∉ l.taken) ∧
    (l.tracker.takeUnusedRegister callerSaved = none ↔
      ∀ reg, callerSaved.test reg = true → reg ∈ l.taken) ∧
    (∀ fuel, RegisterMask.kMaxRegGroupNumRegisters < fuel →
      callerSaved.rangeFor l.tracker.takeIfUnused fuel () callerSaved.begin_ =
        some (match l.tracker.takeUnusedRegister callerSaved with
          | some taken => .error taken
          | none => .ok ())) ∧
    ∀ m : RegisterMask,
      (∀ {β σ : Type} (body : σ → Reg → Except β σ) (s : σ) fuel,
        RegisterMask.kMaxRegGroupNumRegisters < fuel →
        m.rangeFor body fuel s m.begin_ = some (m.toList.foldlM body s)) ∧
      m.toList.Pairwise (· < ·) ∧ ∀ reg, reg ∈ m.toList ↔ m.test reg = true := by
  intro l
  have hagrees : l.Agrees := Ledger.agrees_runCalls callerSaved calls
  refine ⟨fun reg tracker htake => ?_, ?_, fun fuel hfuel => ?_, fun m => ⟨?_, ?_, ?_⟩⟩
  · obtain ⟨htest, hunused, -⟩ := takeUnusedRegister_eq_some htake
    refine ⟨htest, fun hmem => ?_⟩
    -- a register that is out is in use
    rw [(hagrees reg).mpr hmem] at hunused
    cases hunused
  · rw [takeUnusedRegister_eq_none]
    exact forall_congr' fun reg => imp_congr_right fun _ => hagrees reg
  · exact rangeFor_takeIfUnused l.tracker callerSaved hfuel
  · intro β σ body s fuel hfuel
    exact m.rangeFor_begin body s hfuel
  · exact m.toList_sorted
  · exact fun reg => RegisterMask.mem_toList

/-- What has been given back is given out first, if its id is the lowest. -/
example : (runCalls (Ledger.step X64.kGpCallerSavedRegisters) {}
      [.takeUnusedRegister, .takeUnusedRegister, .markRegisterUnused X64.rax]).taken = {X64.rcx} ∧
    (runCalls (Ledger.step Arm64.kGpCallerSavedRegisters) {}
      [.takeUnusedRegister, .takeUnusedRegister, .markRegisterUnused 0,
        .takeUnusedRegister]).taken = {0, 1} := by
  decide

end RegisterTracker

end Wasmcc
