import Mathlib

/-!
# Byte-addressed memory

A `Memory` maps 64-bit addresses to bytes. Multi-byte accesses are little-endian: `read m a n` is
the number held in the `n` bytes from `a` on, and `write m a n v` replaces these bytes by the low
`n` bytes of `v`. Address arithmetic wraps modulo `2 ^ 64`, so "`b` is one of the `n` bytes from
`a` on" is `(b - a).toNat < n` (`InRange`), with no case for a range that crosses zero.

A read sees an earlier write of the same bytes (`read_write_same`) and does not see one of other
bytes (`read_write_of_disjoint`). Accesses at small offsets from one base address are disjoint when
their offset intervals are (`disjoint_of_offsets`).
-/

namespace Basis

/-- The contents of memory, one byte per 64-bit address. -/
abbrev Memory := BitVec 64 → BitVec 8

namespace Memory

/-- `b` is one of the `n` bytes from `a` on. -/
def InRange (a : BitVec 64) (n : ℕ) (b : BitVec 64) : Prop := (b - a).toNat < n

instance (a : BitVec 64) (n : ℕ) (b : BitVec 64) : Decidable (InRange a n b) :=
  inferInstanceAs (Decidable (_ < _))

/-- The number in the `n` bytes from `a` on, least significant byte first. -/
def read (m : Memory) (a : BitVec 64) : ℕ → ℕ
  | 0 => 0
  | n + 1 => read m a n + (m (a + BitVec.ofNat 64 n)).toNat * 256 ^ n

/-- Memory after the low `n` bytes of `v` are stored from `a` on. -/
def write (m : Memory) (a : BitVec 64) (n v : ℕ) : Memory := fun b =>
  if InRange a n b then BitVec.ofNat 8 (v / 256 ^ (b - a).toNat) else m b

/-- The two memories hold the same bytes in `n` bytes from `a` on. -/
def AgreeOn (m m' : Memory) (a : BitVec 64) (n : ℕ) : Prop := ∀ b, InRange a n b → m b = m' b

/-- No byte lies in both ranges. -/
def Disjoint (a : BitVec 64) (n : ℕ) (a' : BitVec 64) (n' : ℕ) : Prop :=
  ∀ b, InRange a n b → ¬InRange a' n' b

/-! ### Ranges -/

theorem inRange_add {a : BitVec 64} {n i : ℕ} (hi : i < n) (hn : n ≤ 2 ^ 64) :
    InRange a n (a + BitVec.ofNat 64 i) := by
  unfold InRange
  rw [add_sub_cancel_left, BitVec.toNat_ofNat, Nat.mod_eq_of_lt (by omega)]
  exact hi

theorem sub_add_ofNat (a : BitVec 64) {i : ℕ} (hi : i < 2 ^ 64) :
    (a + BitVec.ofNat 64 i - a).toNat = i := by
  rw [add_sub_cancel_left, BitVec.toNat_ofNat, Nat.mod_eq_of_lt hi]

theorem Disjoint.symm {a a' : BitVec 64} {n n' : ℕ} (h : Disjoint a n a' n') :
    Disjoint a' n' a n := fun b hb hb' => h b hb' hb

/-- Ranges at offsets `x` and `y` from one base are disjoint when `[x, x + n)` and `[y, y + n')`
are, as long as the offsets stay small enough not to meet again around the address space. -/
theorem disjoint_of_offsets (base : BitVec 64) {x y n n' : ℕ} (h : x + n ≤ y ∨ y + n' ≤ x)
    (hx : x + n ≤ 2 ^ 63) (hy : y + n' ≤ 2 ^ 63) :
    Disjoint (base + BitVec.ofNat 64 x) n (base + BitVec.ofNat 64 y) n' := by
  intro b hb hb'
  unfold InRange at hb hb'
  have hx' : (BitVec.ofNat 64 x).toNat = x := by
    rw [BitVec.toNat_ofNat]; exact Nat.mod_eq_of_lt (by omega)
  have hy' : (BitVec.ofNat 64 y).toNat = y := by
    rw [BitVec.toNat_ofNat]; exact Nat.mod_eq_of_lt (by omega)
  -- offsets below half of the address space do not wrap
  generalize BitVec.ofNat 64 x = X at hb hx'
  generalize BitVec.ofNat 64 y = Y at hb' hy'
  subst hx'
  subst hy'
  bv_omega

theorem disjoint_of_le {a a' : BitVec 64} {n n' : ℕ} (h : n ≤ (a' - a).toNat)
    (h' : n' ≤ (a - a').toNat) : Disjoint a n a' n' := by
  intro b hb hb'
  unfold InRange at hb hb'
  bv_omega

/-- Whether two ranges meet does not depend on the base of their addresses. -/
theorem disjoint_add_iff (base a a' : BitVec 64) (n n' : ℕ) :
    Disjoint (base + a) n (base + a') n' ↔ Disjoint a n a' n' := by
  constructor
  · intro h b hb hb'
    have hshift (c : BitVec 64) : base + b - (base + c) = b - c := by abel
    -- an address in both ranges is shifted into both of the others
    refine h (base + b) ?_ ?_
    · rwa [InRange, hshift]
    · rwa [InRange, hshift]
  · intro h b hb hb'
    have hback (c : BitVec 64) : b - (base + c) = b - base - c := by abel
    rw [InRange, hback] at hb hb'
    -- and shifted back
    exact h (b - base) hb hb'

/-! ### Reads -/

@[simp] theorem read_zero (m : Memory) (a : BitVec 64) : read m a 0 = 0 := rfl

theorem read_succ (m : Memory) (a : BitVec 64) (n : ℕ) :
    read m a (n + 1) = read m a n + (m (a + BitVec.ofNat 64 n)).toNat * 256 ^ n := rfl

theorem read_congr {m m' : Memory} {a : BitVec 64} {n : ℕ} (hn : n ≤ 2 ^ 64)
    (h : AgreeOn m m' a n) : read m a n = read m' a n := by
  induction n with
  | zero => rfl
  | succ n ih =>
    rw [read_succ, read_succ, ih (by omega), h _ (inRange_add (Nat.lt_succ_self n) hn)]
    intro b hb
    exact h b (Nat.lt_succ_of_lt hb)

theorem read_clear (a : BitVec 64) (n : ℕ) : read (fun _ => 0#8) a n = 0 := by
  induction n with
  | zero => rfl
  | succ n ih => simp [read_succ, ih]

theorem read_lt (m : Memory) (a : BitVec 64) (n : ℕ) : read m a n < 256 ^ n := by
  induction n with
  | zero => exact Nat.one_pos
  | succ n ih =>
    have hbyte := (m (a + BitVec.ofNat 64 n)).isLt
    have hmul : (m (a + BitVec.ofNat 64 n)).toNat * 256 ^ n ≤ 255 * 256 ^ n :=
      Nat.mul_le_mul_right _ (by omega)
    rw [read_succ, pow_succ]
    omega

/-- A number determines the bytes that it was read from. -/
theorem agreeOn_of_read_eq {m m' : Memory} {a : BitVec 64} {n : ℕ} (h : read m a n = read m' a n) :
    AgreeOn m m' a n := by
  induction n with
  | zero => exact fun b hb => absurd hb (Nat.not_lt_zero _)
  | succ n ih =>
    rw [read_succ, read_succ] at h
    have hlt := read_lt m a n
    have hlt' := read_lt m' a n
    have hpos : 0 < 256 ^ n := by positivity
    -- the lower bytes are the remainder, the highest one is the quotient
    have hlow : read m a n = read m' a n := by
      have hmod := congrArg (· % 256 ^ n) h
      simpa only [Nat.add_mul_mod_self_right, Nat.mod_eq_of_lt hlt, Nat.mod_eq_of_lt hlt']
        using hmod
    have hhigh : m (a + BitVec.ofNat 64 n) = m' (a + BitVec.ofNat 64 n) := by
      rw [hlow] at h
      exact BitVec.eq_of_toNat_eq (Nat.eq_of_mul_eq_mul_right hpos (Nat.add_left_cancel h))
    intro b hb
    obtain hb | hb := Nat.lt_succ_iff_lt_or_eq.mp hb
    · exact ih hlow b hb
    · have hbyte : b = a + BitVec.ofNat 64 n := by
        rw [← hb, BitVec.ofNat_toNat, BitVec.setWidth_eq, add_sub_cancel]
      rw [hbyte, hhigh]

/-! ### Writes -/

theorem write_of_inRange (m : Memory) {a b : BitVec 64} {n : ℕ} (v : ℕ) (h : InRange a n b) :
    write m a n v b = BitVec.ofNat 8 (v / 256 ^ (b - a).toNat) := if_pos h

theorem write_of_not_inRange (m : Memory) {a b : BitVec 64} {n : ℕ} (v : ℕ)
    (h : ¬InRange a n b) : write m a n v b = m b := if_neg h

/-- Reading bytes that a write did not touch. -/
theorem read_write_of_disjoint (m : Memory) {a a' : BitVec 64} {n n' : ℕ} (v : ℕ)
    (hn : n ≤ 2 ^ 64) (h : Disjoint a n a' n') : read (write m a' n' v) a n = read m a n := by
  refine read_congr hn fun b hb => ?_
  exact write_of_not_inRange m v (h b hb)

/-- Reading `k` bytes from the `j`-th on of a write that covers them. -/
theorem read_write_slice (m : Memory) (a : BitVec 64) {j k n : ℕ} (v : ℕ) (hjk : j + k ≤ n)
    (hn : n ≤ 2 ^ 64) :
    read (write m a n v) (a + BitVec.ofNat 64 j) k = v / 256 ^ j % 256 ^ k := by
  induction k with
  | zero => simp [Nat.mod_one]
  | succ k ih =>
    have hadd : a + BitVec.ofNat 64 j + BitVec.ofNat 64 k = a + BitVec.ofNat 64 (j + k) := by
      rw [BitVec.add_assoc, ← BitVec.ofNat_add]
    have hr : InRange a n (a + BitVec.ofNat 64 (j + k)) := inRange_add (by omega) hn
    -- the byte at the top is the next digit of the number in base 256
    have hbyte : (write m a n v (a + BitVec.ofNat 64 (j + k))).toNat
        = v / 256 ^ j / 256 ^ k % 256 := by
      rw [write_of_inRange m v hr, sub_add_ofNat a (by omega), BitVec.toNat_ofNat, pow_add,
        Nat.div_div_eq_div_mul]
    rw [read_succ, ih (by omega), hadd, hbyte, pow_succ 256 k, Nat.mod_mul, Nat.mul_comm]

/-- Reading the low `k` of the `n` bytes just written. -/
theorem read_write_first (m : Memory) (a : BitVec 64) {k n : ℕ} (v : ℕ) (hk : k ≤ n)
    (hn : n ≤ 2 ^ 64) : read (write m a n v) a k = v % 256 ^ k := by
  have h := read_write_slice m a (j := 0) v (by omega : 0 + k ≤ n) hn
  simpa using h

/-- Writing the same value at the same place keeps two memories equal wherever they were, and makes
them equal on the bytes written. -/
theorem write_congr {m m' : Memory} {b : BitVec 64} (a : BitVec 64) (n v : ℕ)
    (h : m b = m' b ∨ InRange a n b) : write m a n v b = write m' a n v b := by
  by_cases hr : InRange a n b
  · rw [write_of_inRange m v hr, write_of_inRange m' v hr]
  · rw [write_of_not_inRange m v hr, write_of_not_inRange m' v hr]
    exact h.resolve_right hr

theorem AgreeOn.write {m m' : Memory} {a : BitVec 64} {n : ℕ} (h : AgreeOn m m' a n)
    (b : BitVec 64) (k v : ℕ) : AgreeOn (m.write b k v) (m'.write b k v) a n :=
  fun c hc => write_congr b k v (Or.inl (h c hc))

theorem agreeOn_write (m m' : Memory) (a : BitVec 64) (n v : ℕ) :
    AgreeOn (m.write a n v) (m'.write a n v) a n :=
  fun _ hb => write_congr a n v (Or.inr hb)

/-- Agreement on a part of the bytes. -/
theorem AgreeOn.slice {m m' : Memory} {a : BitVec 64} {n j k : ℕ} (h : AgreeOn m m' a n)
    (hjk : j + k ≤ n) : AgreeOn m m' (a + BitVec.ofNat 64 j) k := by
  intro b hb
  refine h b ?_
  have hsub : b - a = (b - (a + BitVec.ofNat 64 j)) + BitVec.ofNat 64 j := by abel
  have hk : (b - (a + BitVec.ofNat 64 j)).toNat < k := hb
  change (b - a).toNat < n
  rw [hsub, BitVec.toNat_add, BitVec.toNat_ofNat]
  omega

theorem write_clear (a : BitVec 64) (n : ℕ) : write (fun _ => 0#8) a n 0 = fun _ => 0#8 := by
  funext b
  by_cases hb : InRange a n b
  · rw [write_of_inRange _ _ hb, Nat.zero_div]
  · rw [write_of_not_inRange _ _ hb]

/-- Fewer zero bytes than are read, where memory was not zero. -/
theorem read_write_narrow (a : BitVec 64) {k n : ℕ} (hkn : k < n) (hn : n ≤ 2 ^ 64) :
    read (write (fun _ => 255#8) a k 0) a n ≠ 0 := by
  intro h
  rw [← read_clear a n] at h
  have hbyte := agreeOn_of_read_eq h (a + BitVec.ofNat 64 k) (inRange_add hkn hn)
  rw [write_of_not_inRange] at hbyte
  · exact absurd hbyte (by decide)
  · rw [InRange, sub_add_ofNat a (by omega)]
    exact lt_irrefl k

/-- **A range that a write runs into**, over its first `i` bytes: it is unchanged exactly if it held
the end of the value already. -/
theorem agreeOn_write_iff (m : Memory) (a : BitVec 64) {i j k : ℕ} (v : ℕ) (hik : i ≤ k)
    (hjk : j + k ≤ 2 ^ 64) :
    AgreeOn m (m.write a (j + i) v) (a + BitVec.ofNat 64 j) k ↔
      m.read (a + BitVec.ofNat 64 j) i = v / 256 ^ j % 256 ^ i := by
  rw [← read_write_slice m a v (le_refl (j + i)) (by omega)]
  constructor
  · intro h
    exact read_congr (by omega) fun b hb => h b (lt_of_lt_of_le hb hik)
  · intro h b hb
    by_cases hr : InRange (a + BitVec.ofNat 64 j) i b
    · exact agreeOn_of_read_eq h b hr
    · refine (write_of_not_inRange m v fun hw => hr ?_).symm
      -- no wrap-around: the byte is `j` further from `a`
      have hsub : b - a = (b - (a + BitVec.ofNat 64 j)) + BitVec.ofNat 64 j := by abel
      have hb' : (b - (a + BitVec.ofNat 64 j)).toNat < k := hb
      have hw' : (b - a).toNat < j + i := hw
      rw [hsub, BitVec.toNat_add, BitVec.toNat_ofNat] at hw'
      change (b - (a + BitVec.ofNat 64 j)).toNat < i
      omega

end Memory

end Basis
