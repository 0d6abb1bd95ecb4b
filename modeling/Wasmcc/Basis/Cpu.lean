import Wasmcc.Basis.Memory
import Mathlib.Logic.Relation

/-!
# Code at addresses

A `Cpu` has registers, named by a type, a program counter and memory. What it runs is a `Text`: the
instruction at each address, where there is one. An `Encoding` says what an instruction does, with
the program counter already at the next one, and how many bytes it takes.

* `Leaves` is a run up to the place where the program counter leaves the text. A state leaves it
  at one place at most (`Leaves.unique`).
* `Steps.block` runs a block without jumps.
* A `Layout` assigns offsets to registers. `save` stores them there and `restore` loads them;
  `word_save` and `restore_of_mem` are what they do for one register.
-/

namespace Basis

/-- Registers, program counter and memory. -/
structure Cpu (R : Type) where
  reg : R → BitVec 64
  pc : BitVec 64
  mem : Memory

namespace Memory

/-- The eight bytes from `a` on. -/
def word (m : Memory) (a : BitVec 64) : BitVec 64 := BitVec.ofNat 64 (m.read a 8)

theorem word_congr {m m' : Memory} {a : BitVec 64} (h : AgreeOn m m' a 8) :
    m.word a = m'.word a := by
  rw [word, word, read_congr (by norm_num) h]

theorem word_write (m : Memory) (a v : BitVec 64) : (m.write a 8 v.toNat).word a = v := by
  have hlt : v.toNat < 256 ^ 8 := lt_of_lt_of_eq v.isLt (by norm_num)
  rw [word, read_write_first m a v.toNat le_rfl (by norm_num), Nat.mod_eq_of_lt hlt,
    BitVec.ofNat_toNat, BitVec.setWidth_eq]

theorem word_write_of_disjoint (m : Memory) {a b : BitVec 64} {n : ℕ} (v : ℕ)
    (h : Disjoint a 8 b n) : (m.write b n v).word a = m.word a := by
  rw [word, word, read_write_of_disjoint m v (by norm_num) h]

/-- Bytes that a memory keeps, in a range of them. -/
theorem agreeOn_of_disjoint {m m' : Memory} {a b : BitVec 64} {n n' : ℕ}
    (h : ∀ x, ¬InRange b n' x → m' x = m x) (hd : Disjoint b n' a n) : AgreeOn m m' a n :=
  fun x hx => (h x fun hb => hd x hb hx).symm

end Memory

namespace Cpu

variable {R : Type}

def set [DecidableEq R] (c : Cpu R) (r : R) (v : BitVec 64) : Cpu R :=
  { c with reg := Function.update c.reg r v }

def store (c : Cpu R) (a : BitVec 64) (r : R) : Cpu R :=
  { c with mem := c.mem.write a 8 (c.reg r).toNat }

def load [DecidableEq R] (c : Cpu R) (r : R) (a : BitVec 64) : Cpu R := c.set r (c.mem.word a)

def goto (c : Cpu R) (a : BitVec 64) : Cpu R := { c with pc := a }

variable (c : Cpu R) (a : BitVec 64)

@[simp] theorem goto_reg : (c.goto a).reg = c.reg := rfl

@[simp] theorem goto_mem : (c.goto a).mem = c.mem := rfl

@[simp] theorem goto_pc : (c.goto a).pc = a := rfl

end Cpu

/-! ### Runs -/

/-- The instruction at each address. -/
abbrev Text (ι : Type) := BitVec 64 → Option ι

/-- What instructions do, and how long they are. -/
structure Encoding (ι R : Type) where
  exec : ι → Cpu R → Cpu R
  size : ι → ℕ

namespace Encoding

variable {ι R : Type} (e : Encoding ι R)

/-- One instruction, with the program counter behind it. -/
def run (i : ι) (c : Cpu R) : Cpu R := e.exec i (c.goto (c.pc + BitVec.ofNat 64 (e.size i)))

def step (text : Text ι) (c : Cpu R) : Option (Cpu R) := (text c.pc).map fun i => e.run i c

def Steps (text : Text ι) : Cpu R → Cpu R → Prop :=
  Relation.ReflTransGen fun c c' => e.step text c = some c'

/-- Running on from `c`, the program counter leaves the text in state `c'`. -/
def Leaves (text : Text ι) (c c' : Cpu R) : Prop := e.Steps text c c' ∧ text c'.pc = none

/-- The code is in the text, from this address on. -/
def Loaded (text : Text ι) : BitVec 64 → List ι → Prop
  | _, [] => True
  | a, i :: is => text a = some i ∧ Loaded text (a + BitVec.ofNat 64 (e.size i)) is

instance instDecidableLoaded [DecidableEq ι] (text : Text ι) :
    (a : BitVec 64) → (code : List ι) → Decidable (e.Loaded text a code)
  | _, [] => isTrue trivial
  | a, i :: is =>
    have := instDecidableLoaded text (a + BitVec.ofNat 64 (e.size i)) is
    inferInstanceAs (Decidable (_ ∧ _))

/-- The text with code loaded at an address. -/
def load (text : Text ι) : BitVec 64 → List ι → Text ι
  | _, [] => text
  | a, i :: is => Function.update (load text (a + BitVec.ofNat 64 (e.size i)) is) a (some i)

/-- A block that is run from its front to its end. -/
def runBlock (block : List ι) (c : Cpu R) : Cpu R := block.foldl (fun c i => e.run i c) c

/-- An instruction that does not jump. -/
def Straight (i : ι) : Prop := ∀ c, (e.exec i c).pc = c.pc

variable {e} {text : Text ι}

/-- The second part of code that is loaded. -/
theorem Loaded.drop {a : BitVec 64} {code rest : List ι} (h : e.Loaded text a (code ++ rest)) :
    e.Loaded text (a + BitVec.ofNat 64 (code.map e.size).sum) rest := by
  induction code generalizing a with
  | nil => exact (add_zero a).symm ▸ h
  | cons i is ih =>
    have htail := ih h.2
    rwa [add_assoc, ← BitVec.ofNat_add] at htail

theorem Steps.single {c : Cpu R} {i : ι} (h : text c.pc = some i) : e.Steps text c (e.run i c) := by
  refine Relation.ReflTransGen.single ?_
  rw [step, h]
  rfl

theorem runBlock_cons (i : ι) (block : List ι) (c : Cpu R) :
    e.runBlock (i :: block) c = e.runBlock block (e.run i c) := rfl

theorem runBlock_append (a b : List ι) (c : Cpu R) :
    e.runBlock (a ++ b) c = e.runBlock b (e.runBlock a c) := List.foldl_append ..

/-- **A block without jumps.** -/
theorem Steps.block {block rest : List ι} {c : Cpu R} (hload : e.Loaded text c.pc (block ++ rest))
    (hstraight : ∀ i ∈ block, e.Straight i) :
    e.Steps text c (e.runBlock block c) ∧ e.Loaded text (e.runBlock block c).pc rest := by
  induction block generalizing c with
  | nil => exact ⟨.refl, hload⟩
  | cons i is ih =>
    obtain ⟨hi, htail⟩ := hload
    -- the first instruction goes on behind itself
    have hpc : (e.run i c).pc = c.pc + BitVec.ofNat 64 (e.size i) :=
      hstraight i List.mem_cons_self _
    rw [← hpc] at htail
    obtain ⟨hsteps, hrest⟩ := ih htail fun j hj => hstraight j (List.mem_cons_of_mem i hj)
    exact ⟨(Steps.single hi).trans hsteps, hrest⟩

theorem Leaves.of_steps {c c₁ c' : Cpu R} (h : e.Steps text c c₁) (h' : e.Leaves text c₁ c') :
    e.Leaves text c c' := ⟨h.trans h'.1, h'.2⟩

/-- **A run leaves the text in one way.** -/
theorem Leaves.unique {c c₁ c₂ : Cpu R} (h : e.Leaves text c c₁) (h' : e.Leaves text c c₂) :
    c₁ = c₂ := by
  obtain ⟨hsteps, hout⟩ := h
  obtain ⟨hsteps', hout'⟩ := h'
  induction hsteps using Relation.ReflTransGen.head_induction_on with
  | refl =>
    -- outside of the text there is no next step
    cases hsteps'.cases_head with
    | inl heq => exact heq
    | inr hnext =>
      obtain ⟨d, hd, -⟩ := hnext
      rw [step, hout] at hd
      cases hd
  | head hstep _ ih =>
    cases hsteps'.cases_head with
    | inl heq =>
      rw [heq, step, hout'] at hstep
      cases hstep
    | inr hnext =>
      obtain ⟨d, hd, hrest⟩ := hnext
      obtain rfl := Option.some.inj (hstep.symm.trans hd)
      exact ih hrest

end Encoding

/-! ### Saving registers -/

/-- Registers, and the offsets they are saved at. -/
abbrev Layout (R : Type) := List (R × ℕ)

namespace Layout

variable {R : Type}

/-- Store registers, which hold `f`, at their offsets from `base`. -/
def save (l : Layout R) (m : Memory) (base : BitVec 64) (f : R → BitVec 64) : Memory :=
  l.foldl (fun m p => m.write (base + BitVec.ofNat 64 p.2) 8 (f p.1).toNat) m

/-- Load registers from their offsets. -/
def restore [DecidableEq R] (l : Layout R) (m : Memory) (base : BitVec 64) (f : R → BitVec 64) :
    R → BitVec 64 :=
  l.foldl (fun f p => Function.update f p.1 (m.word (base + BitVec.ofNat 64 p.2))) f

/-- The words of a layout are apart, and take no more than `n` bytes. -/
structure Fits (l : Layout R) (n : ℕ) : Prop where
  within : ∀ p ∈ l, p.2 + 8 ≤ n
  apart : l.Pairwise fun p q => p.2 + 8 ≤ q.2 ∨ q.2 + 8 ≤ p.2

variable {l : Layout R} {n : ℕ} {m m' : Memory} {base : BitVec 64} {f : R → BitVec 64}

theorem Fits.tail {p : R × ℕ} (h : Fits (p :: l) n) : Fits l n where
  within q hq := h.within q (List.mem_cons_of_mem p hq)
  apart := (List.pairwise_cons.mp h.apart).2

/-- Bytes outside of the area are not stored to. -/
theorem save_outside (h : l.Fits n) {b : BitVec 64} (hb : ¬Memory.InRange base n b) :
    l.save m base f b = m b := by
  induction l generalizing m with
  | nil => rfl
  | cons p l ih =>
    change save l (m.write _ 8 _) base f b = m b
    rw [ih h.tail]
    refine Memory.write_of_not_inRange m _ fun hin => hb ?_
    -- a word of the area is inside of it
    have hwithin := h.within p List.mem_cons_self
    have hsub : b - base = (b - (base + BitVec.ofNat 64 p.2)) + BitVec.ofNat 64 p.2 := by abel
    have hin' : (b - (base + BitVec.ofNat 64 p.2)).toNat < 8 := hin
    change (b - base).toNat < n
    rw [hsub, BitVec.toNat_add, BitVec.toNat_ofNat]
    omega

/-- A word that no register of the layout is stored over. -/
theorem word_save_of_apart {o : ℕ} (hn : n ≤ 2 ^ 63) (ho : o + 8 ≤ n)
    (hwithin : ∀ p ∈ l, p.2 + 8 ≤ n) (hapart : ∀ p ∈ l, o + 8 ≤ p.2 ∨ p.2 + 8 ≤ o) :
    (l.save m base f).word (base + BitVec.ofNat 64 o) = m.word (base + BitVec.ofNat 64 o) := by
  induction l generalizing m with
  | nil => rfl
  | cons p l ih =>
    change (save l (m.write _ 8 _) base f).word _ = _
    rw [ih (fun q hq => hwithin q (List.mem_cons_of_mem p hq))
      fun q hq => hapart q (List.mem_cons_of_mem p hq)]
    have hp := hwithin p List.mem_cons_self
    -- the first store is apart from the word too
    exact Memory.word_write_of_disjoint m _
      (Memory.disjoint_of_offsets base (hapart p List.mem_cons_self) (by omega) (by omega))

/-- **Each register is at its offset.** -/
theorem word_save (h : l.Fits n) (hn : n ≤ 2 ^ 63) {r : R} {o : ℕ} (hr : (r, o) ∈ l) :
    (l.save m base f).word (base + BitVec.ofNat 64 o) = f r := by
  induction l generalizing m with
  | nil => cases hr
  | cons p l ih =>
    rcases List.mem_cons.mp hr with rfl | hr
    · -- the others are stored next to it
      change (save l (m.write _ 8 _) base f).word _ = _
      rw [word_save_of_apart hn (h.within _ List.mem_cons_self) h.tail.within
        (List.pairwise_cons.mp h.apart).1]
      exact Memory.word_write m _ (f r)
    · exact ih h.tail hr

variable [DecidableEq R]

theorem restore_of_not_mem {r : R} (hr : r ∉ l.map Prod.fst) : l.restore m base f r = f r := by
  induction l generalizing f with
  | nil => rfl
  | cons p l ih =>
    rw [List.map_cons, List.mem_cons, not_or] at hr
    change restore l m base (Function.update f p.1 _) r = f r
    rw [ih hr.2]
    exact Function.update_of_ne hr.1 _ _

/-- A register is loaded from its offset, whatever is loaded after it. -/
theorem restore_of_mem (h : (l.map Prod.fst).Nodup) {r : R} {o : ℕ} (hr : (r, o) ∈ l) :
    l.restore m base f r = m.word (base + BitVec.ofNat 64 o) := by
  induction l generalizing f with
  | nil => cases hr
  | cons p l ih =>
    rw [List.map_cons, List.nodup_cons] at h
    change restore l m base (Function.update f p.1 _) r = _
    rcases List.mem_cons.mp hr with rfl | hr
    · rw [restore_of_not_mem h.1]
      exact Function.update_self ..
    · exact ih h.2 hr

end Layout

end Basis
