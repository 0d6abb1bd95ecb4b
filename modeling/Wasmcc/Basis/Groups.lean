import Wasmcc.Basis.Cursor

/-!
# Sequences of seven-bit groups

A number can be written low group first, seven bits to a byte, every byte but the last with its top
bit set. `Groups s` says that `s` is such a sequence and `groupsValue isSigned s` is the integer it
stands for, the last group being sign-extended when `isSigned`.

The one fact behind bounds, uniqueness and shortness is `fitsBits_cons`: putting a group in front
of a number adds exactly seven bits to it, whatever the group. From it follow

* `Groups.fitsBits`: `n` groups stand for a number of `7 * n` bits;
* `fitsBits_append_last`: only the last group decides whether a sequence fits in some more bits;
* `IsEncoding.unique`: no sequence for a number is shorter than one whose number does not fit in
  fewer groups, and there is one of each length at most.
-/

namespace Basis

/-- The seven low bits. -/
def group (b : Byte) : ℕ := b.toNat % 128

/-- The top bit is set: another group follows. -/
def Continues (b : Byte) : Prop := 128 ≤ b.toNat

instance (b : Byte) : Decidable (Continues b) := inferInstanceAs (Decidable (128 ≤ b.toNat))

theorem group_lt (b : Byte) : group b < 128 := Nat.mod_lt _ (by norm_num)

/-- A byte is its group and its top bit. -/
theorem byte_ext {b c : Byte} (hgroup : group b = group c) (h : Continues b ↔ Continues c) :
    b = c := by
  apply BitVec.eq_of_toNat_eq
  unfold group at hgroup
  unfold Continues at h
  have hb := b.isLt
  have hc := c.isLt
  omega

/-- All bytes but the last say that another one follows. -/
inductive Groups : List Byte → Prop
  | last {b : Byte} (h : ¬Continues b) : Groups [b]
  | more {b : Byte} {bs : List Byte} (h : Continues b) (hbs : Groups bs) : Groups (b :: bs)

theorem Groups.ne_nil {s : List Byte} (h : Groups s) : s ≠ [] := by
  cases h <;> exact List.cons_ne_nil _ _

theorem Groups.length_pos {s : List Byte} (h : Groups s) : 0 < s.length :=
  List.length_pos_of_ne_nil h.ne_nil

/-- A sequence is some continuing bytes and one that does not continue. -/
theorem Groups.exists_last {s : List Byte} (h : Groups s) :
    ∃ init b, s = init ++ [b] ∧ (∀ x ∈ init, Continues x) ∧ ¬Continues b := by
  induction h with
  | @last b hb => exact ⟨[], b, rfl, fun x hx => absurd hx List.not_mem_nil, hb⟩
  | @more b bs hb _ ih =>
    obtain ⟨init, l, rfl, hinit, hl⟩ := ih
    exact ⟨b :: init, l, rfl, List.forall_mem_cons.mpr ⟨hb, hinit⟩, hl⟩

theorem Groups.of_last {init : List Byte} {b : Byte} (hinit : ∀ x ∈ init, Continues x)
    (hb : ¬Continues b) : Groups (init ++ [b]) := by
  induction init with
  | nil => exact .last hb
  | cons x init ih =>
    obtain ⟨hx, hinit⟩ := List.forall_mem_cons.mp hinit
    exact .more hx (ih hinit)

/-- **How bytes begin**: with a group sequence of at most `n` bytes, or with `n` continuing bytes,
or they all continue and are fewer than `n`. -/
theorem groups_trichotomy (n : ℕ) (bytes : List Byte) :
    (∃ s rest, bytes = s ++ rest ∧ Groups s ∧ s.length ≤ n) ∨
      (∃ s rest, bytes = s ++ rest ∧ (∀ b ∈ s, Continues b) ∧ s.length = n) ∨
      ((∀ b ∈ bytes, Continues b) ∧ bytes.length < n) := by
  induction n generalizing bytes with
  | zero => exact Or.inr (Or.inl ⟨[], bytes, rfl, fun b hb => absurd hb List.not_mem_nil, rfl⟩)
  | succ n ih =>
    cases bytes with
    | nil => exact Or.inr (Or.inr ⟨fun b hb => absurd hb List.not_mem_nil, Nat.succ_pos n⟩)
    | cons b bytes =>
      by_cases hb : Continues b
      · -- a continuing byte in front of one of the three kinds
        rcases ih bytes with ⟨s, rest, rfl, hs, hlen⟩ | ⟨s, rest, rfl, hs, hlen⟩ | ⟨hs, hlen⟩
        · exact Or.inl ⟨b :: s, rest, rfl, .more hb hs, Nat.succ_le_succ hlen⟩
        · exact Or.inr (Or.inl ⟨b :: s, rest, rfl, List.forall_mem_cons.mpr ⟨hb, hs⟩,
            congrArg Nat.succ hlen⟩)
        · exact Or.inr (Or.inr ⟨List.forall_mem_cons.mpr ⟨hb, hs⟩, Nat.succ_lt_succ hlen⟩)
      · exact Or.inl ⟨[b], bytes, rfl, .last hb, Nat.succ_le_succ (Nat.zero_le n)⟩

/-! ### The number that a sequence stands for -/

/-- The groups as digits to the base 128. -/
def unsignedValue : List Byte → ℕ
  | [] => 0
  | b :: bs => group b + 128 * unsignedValue bs

/-- The sign bit of the last group. -/
def Negative (s : List Byte) : Prop := ∃ b ∈ s.getLast?, 64 ≤ group b

instance (s : List Byte) : Decidable (Negative s) :=
  inferInstanceAs (Decidable (∃ b ∈ s.getLast?, 64 ≤ group b))

/-- The number that a sequence stands for, sign-extended from its last group when `isSigned`. -/
def groupsValue (isSigned : Bool) (s : List Byte) : ℤ :=
  if isSigned ∧ Negative s then unsignedValue s - 128 ^ s.length else unsignedValue s

@[simp] theorem groupsValue_false (s : List Byte) : groupsValue false s = unsignedValue s := by
  simp [groupsValue]

theorem negative_cons (b : Byte) {bs : List Byte} (h : bs ≠ []) :
    Negative (b :: bs) ↔ Negative bs := by
  obtain ⟨c, cs, rfl⟩ := List.exists_cons_of_ne_nil h
  unfold Negative
  rw [List.getLast?_cons_cons]

/-- A group in front is the lowest digit. -/
theorem groupsValue_cons (isSigned : Bool) (b : Byte) {bs : List Byte} (h : bs ≠ []) :
    groupsValue isSigned (b :: bs) = group b + 128 * groupsValue isSigned bs := by
  unfold groupsValue
  simp only [negative_cons b h, unsignedValue, List.length_cons, pow_succ]
  split
  · push_cast
    ring
  · push_cast
    rfl

/-- The value of one group. -/
theorem groupsValue_singleton (isSigned : Bool) (b : Byte) :
    groupsValue isSigned [b] =
      if isSigned ∧ 64 ≤ group b then (group b : ℤ) - 128 else group b := by
  have h : Negative [b] ↔ 64 ≤ group b := by simp [Negative]
  simp only [groupsValue, unsignedValue, h]
  simp

theorem unsignedValue_lt (s : List Byte) : unsignedValue s < 2 ^ (7 * s.length) := by
  induction s with
  | nil => norm_num [unsignedValue]
  | cons b bs ih =>
    have hb := group_lt b
    have hpow : 2 ^ (7 * (bs.length + 1)) = 128 * 2 ^ (7 * bs.length) := by
      rw [Nat.mul_add, pow_add]
      norm_num [Nat.mul_comm]
    rw [unsignedValue, List.length_cons, hpow]
    omega

/-- A sequence stands for a negative number exactly if its sign bit is set. -/
theorem negative_iff (s : List Byte) : Negative s ↔ groupsValue true s < 0 := by
  have hlt : (unsignedValue s : ℤ) < 128 ^ s.length := by
    have hbound := unsignedValue_lt s
    rw [pow_mul] at hbound
    exact_mod_cast hbound
  unfold groupsValue
  by_cases hneg : Negative s
  · rw [if_pos ⟨rfl, hneg⟩]
    exact iff_of_true hneg (by omega)
  · rw [if_neg fun h => hneg h.2]
    exact iff_of_false hneg (by omega)

/-- What is read without the sign extension. -/
theorem unsignedValue_eq (s : List Byte) : (unsignedValue s : ℤ) =
    groupsValue true s + if groupsValue true s < 0 then 128 ^ s.length else 0 := by
  by_cases hneg : Negative s
  · rw [if_pos ((negative_iff s).mp hneg), groupsValue, if_pos ⟨rfl, hneg⟩]
    omega
  · rw [if_neg (mt (negative_iff s).mpr hneg), groupsValue, if_neg fun h => hneg h.2, add_zero]

/-! ### How many bits a number needs -/

/-- `v` is an integer of `k` bits. -/
def FitsBits (isSigned : Bool) (k : ℕ) (v : ℤ) : Prop :=
  if isSigned then -2 ^ (k - 1) ≤ v ∧ v < 2 ^ (k - 1) else 0 ≤ v ∧ v < 2 ^ k

instance (isSigned : Bool) (k : ℕ) (v : ℤ) : Decidable (FitsBits isSigned k v) := by
  unfold FitsBits
  infer_instance

theorem FitsBits.mono {isSigned : Bool} {k l : ℕ} {v : ℤ} (h : FitsBits isSigned k v)
    (hkl : k ≤ l) : FitsBits isSigned l v := by
  have hpow : (2 : ℤ) ^ (k - 1) ≤ 2 ^ (l - 1) := by
    gcongr
    · norm_num
  have hpow' : (2 : ℤ) ^ k ≤ 2 ^ l := by
    gcongr
    norm_num
  -- a bound of fewer bits is below one of more, on either side
  cases isSigned with
  | true =>
    obtain ⟨h1, h2⟩ := h
    exact ⟨by linarith, by linarith⟩
  | false =>
    obtain ⟨h1, h2⟩ := h
    exact ⟨h1, by linarith⟩

/-- **A group in front adds seven bits.** -/
theorem fitsBits_cons (isSigned : Bool) {k : ℕ} (hk : 0 < k) {g : ℤ} (hg : 0 ≤ g) (hg' : g < 128)
    (v : ℤ) : FitsBits isSigned (k + 7) (g + 128 * v) ↔ FitsBits isSigned k v := by
  obtain ⟨j, rfl⟩ : ∃ j, k = j + 1 := ⟨k - 1, by omega⟩
  -- both bounds of the wider range are 128 times those of the narrower one
  have hlow : (2 : ℤ) ^ (j + 1 + 7 - 1) = 128 * 2 ^ j := by
    rw [show j + 1 + 7 - 1 = j + 7 by omega, pow_add]
    ring
  have hhigh : (2 : ℤ) ^ (j + 1 + 7) = 128 * 2 ^ (j + 1) := by
    rw [pow_add _ (j + 1) 7]
    ring
  cases isSigned with
  | true =>
    show -(2 : ℤ) ^ (j + 1 + 7 - 1) ≤ g + 128 * v ∧ g + 128 * v < 2 ^ (j + 1 + 7 - 1) ↔
      -(2 : ℤ) ^ j ≤ v ∧ v < 2 ^ j
    rw [hlow]
    generalize (2 : ℤ) ^ j = p
    omega
  | false =>
    show 0 ≤ g + 128 * v ∧ g + 128 * v < (2 : ℤ) ^ (j + 1 + 7) ↔ 0 ≤ v ∧ v < (2 : ℤ) ^ (j + 1)
    rw [hhigh]
    generalize (2 : ℤ) ^ (j + 1) = p
    omega

/-- One group is a number of seven bits. -/
theorem fitsBits_singleton (isSigned : Bool) (b : Byte) :
    FitsBits isSigned 7 (groupsValue isSigned [b]) := by
  have hb := group_lt b
  rw [groupsValue_singleton]
  cases isSigned with
  | true =>
    -- the sign extension puts the upper half of the groups below zero
    show -(2 : ℤ) ^ 6 ≤ _ ∧ _ < (2 : ℤ) ^ 6
    simp only [true_and]
    split <;> omega
  | false =>
    show 0 ≤ _ ∧ _ < (2 : ℤ) ^ 7
    simp only [Bool.false_eq_true, false_and, if_false]
    omega

theorem Groups.fitsBits {s : List Byte} (h : Groups s) (isSigned : Bool) :
    FitsBits isSigned (7 * s.length) (groupsValue isSigned s) := by
  induction h with
  | last _ => exact fitsBits_singleton isSigned _
  | @more b bs _ hbs ih =>
    have hb := group_lt b
    rw [groupsValue_cons _ _ hbs.ne_nil, List.length_cons, Nat.mul_add]
    have hpos := hbs.length_pos
    exact (fitsBits_cons isSigned (by omega) (by omega) (by omega) _).mpr ih

/-- **Only the last group decides** whether a sequence fits in `k` bits more than the groups before
it have. -/
theorem fitsBits_append_last (isSigned : Bool) (init : List Byte) (b : Byte) {k : ℕ} (hk : 0 < k) :
    FitsBits isSigned (7 * init.length + k) (groupsValue isSigned (init ++ [b])) ↔
      FitsBits isSigned k (groupsValue isSigned [b]) := by
  induction init with
  | nil => simp
  | cons x init ih =>
    have hx := group_lt x
    have hbits : 7 * (x :: init).length + k = 7 * init.length + k + 7 := by
      rw [List.length_cons]
      omega
    rw [List.cons_append, groupsValue_cons _ _ (by simp), hbits]
    -- the first group takes its seven bits off both sides
    exact (fitsBits_cons isSigned (by omega) (by omega) (by omega) _).trans ih

/-! ### The shortest sequence -/

/-- `s` stands for `v`, and `v` does not fit in fewer groups. -/
structure IsEncoding (isSigned : Bool) (s : List Byte) (v : ℤ) : Prop where
  groups : Groups s
  value : groupsValue isSigned s = v
  short : ∀ n, 0 < n → n < s.length → ¬FitsBits isSigned (7 * n) v

theorem IsEncoding.last (isSigned : Bool) {b : Byte} (hb : ¬Continues b) :
    IsEncoding isSigned [b] (groupsValue isSigned [b]) where
  groups := .last hb
  value := rfl
  short n hn hlt := by
    rw [List.length_singleton] at hlt
    omega

theorem IsEncoding.more {isSigned : Bool} {b : Byte} {bs : List Byte} {v : ℤ} (hb : Continues b)
    (h : IsEncoding isSigned bs v) (hlong : ¬FitsBits isSigned 7 (group b + 128 * v)) :
    IsEncoding isSigned (b :: bs) (group b + 128 * v) where
  groups := .more hb h.groups
  value := by rw [groupsValue_cons _ _ h.groups.ne_nil, h.value]
  short n hn hlt := by
    have hg := group_lt b
    rw [List.length_cons] at hlt
    obtain ⟨m, rfl⟩ : ∃ m, n = m + 1 := ⟨n - 1, by omega⟩
    -- one group is too few by `hlong`, more than one by what is known of the rest
    rcases Nat.eq_zero_or_pos m with rfl | hm
    · exact hlong
    · rw [Nat.mul_add, Nat.mul_one, fitsBits_cons isSigned (by omega) (by omega) (by omega)]
      exact h.short m hm (by omega)

/-- Sequences of one length with one value are the same. -/
theorem Groups.eq_of_value {isSigned : Bool} {s t : List Byte} (hs : Groups s) (ht : Groups t)
    (hlen : s.length = t.length) (h : groupsValue isSigned s = groupsValue isSigned t) :
    s = t := by
  induction hs generalizing t with
  | @last b hb =>
    cases ht with
    | @last c hc =>
      have hgb := group_lt b
      have hgc := group_lt c
      rw [groupsValue_singleton, groupsValue_singleton] at h
      rw [byte_ext (b := b) (c := c) (by split at h <;> split at h <;> omega)
        (iff_of_false hb hc)]
    | more _ hcs =>
      have := hcs.length_pos
      simp only [List.length_cons, List.length_nil] at hlen
      omega
  | @more b bs hb hbs ih =>
    cases ht with
    | last _ =>
      have := hbs.length_pos
      simp only [List.length_cons, List.length_nil] at hlen
      omega
    | @more c cs hc hcs =>
      have hgb := group_lt b
      have hgc := group_lt c
      rw [groupsValue_cons _ _ hbs.ne_nil, groupsValue_cons _ _ hcs.ne_nil] at h
      -- the lowest digits agree, and so do the numbers above them
      have hgroup : group b = group c := by omega
      have hrest : groupsValue isSigned bs = groupsValue isSigned cs := by omega
      rw [ih hcs (Nat.succ.inj hlen) hrest, byte_ext hgroup (iff_of_true hb hc)]

/-- **An encoding is the shortest sequence** for its number, and the only one of its length. -/
theorem IsEncoding.unique {isSigned : Bool} {s t : List Byte} {v : ℤ}
    (hs : IsEncoding isSigned s v) (ht : Groups t) (hv : groupsValue isSigned t = v) :
    s.length ≤ t.length ∧ (t.length = s.length → t = s) := by
  constructor
  · by_contra hlt
    have hfits := ht.fitsBits isSigned
    rw [hv] at hfits
    exact hs.short t.length ht.length_pos (Nat.lt_of_not_le hlt) hfits
  · intro hlen
    exact ht.eq_of_value hs.groups hlen (hv.trans hs.value.symm)

/-- The length of an encoding is the number of groups that its number needs. -/
theorem IsEncoding.lt_length_iff {isSigned : Bool} {s : List Byte} {v : ℤ}
    (h : IsEncoding isSigned s v) {n : ℕ} (hn : 0 < n) :
    n < s.length ↔ ¬FitsBits isSigned (7 * n) v := by
  refine ⟨h.short n hn, fun hfits => ?_⟩
  by_contra hle
  have hs := h.groups.fitsBits isSigned
  rw [h.value] at hs
  exact hfits (hs.mono (by omega))

end Basis
