import Mathlib.Data.List.Basic
import Mathlib.Data.Set.Basic
import Mathlib.Logic.Function.Basic

/-!
# Address spaces

An address space by pages: which pages are mapped, and what may be done with them. `protect` gives
some pages other rights, and fails if one of them is not mapped.

`turned` compares two address spaces: the pages that had some rights and now have others.
-/

namespace Basis

inductive Access where
  | read
  | readWrite
deriving DecidableEq, Repr

/-- The rights of each page, by its number. `none` for a page that is not mapped. -/
abbrev AddressSpace : Type := ℕ → Option Access

namespace AddressSpace

variable {m m' : AddressSpace} {rights : Access}

/-- `count` pages get new rights, if they are all mapped. -/
def protect (m : AddressSpace) (rights : Access) (first count : ℕ) : Option AddressSpace :=
  if ∀ page ∈ List.range' first count, m page ≠ none then
    some fun page => if page ∈ List.range' first count then some rights else m page
  else none

/-- **One page** gets new rights. -/
theorem protect_one {page : ℕ} (h : m page ≠ none) :
    m.protect rights page 1 = some (Function.update m page (some rights)) := by
  have hall : ∀ p ∈ [page], m p ≠ none := List.forall_mem_singleton.mpr h
  rw [protect, List.range'_one, if_pos hall]
  congr 1
  ext1 p
  simp only [List.mem_singleton, Function.update_apply]

theorem protect_one_eq_some {page : ℕ} (h : m.protect rights page 1 = some m') :
    m page ≠ none ∧ m' = Function.update m page (some rights) := by
  by_cases hmapped : m page = none
  · have hsome : ¬∀ p ∈ [page], m p ≠ none := fun hall => hall page List.mem_cons_self hmapped
    rw [protect, List.range'_one, if_neg hsome] at h
    cases h
  · rw [protect_one hmapped] at h
    exact ⟨hmapped, (Option.some.inj h).symm⟩

/-- The pages whose rights were `a` and have become `b`. -/
def turned (a b : Access) (m m' : AddressSpace) : Set ℕ :=
  {page | m page = some a ∧ m' page = some b}

theorem mem_turned_iff {a b : Access} {page : ℕ} :
    page ∈ turned a b m m' ↔ m page = some a ∧ m' page = some b := Iff.rfl

end AddressSpace

end Basis
