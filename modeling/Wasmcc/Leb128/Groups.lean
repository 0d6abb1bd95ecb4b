import Wasmcc.Basis.Groups
import Wasmcc.Leb128

/-!
# What the LEB128 codec reads and writes

In terms of group sequences (`Basis.Groups`): `encode` writes the shortest sequence for its number
(`isEncoding_encode`), and `decode` reads one group sequence of at most `groups w` bytes and returns
its value modulo `2 ^ w` (`consumes_decode`). Where there is no such sequence it throws
(`decode_of_continues`, `decode_of_eof`).

`roundTrip_shortest` puts the two together. `decode_exact_iff` says when a decoder accepts exactly
the numbers of its type: the bits of a last group beyond the width are dropped without a check, so
this holds of a stream unless it begins with a sequence of full length whose last group has such
bits.
-/

open Basis

namespace Wasmcc.Leb128

open Reader

/-- The instances of `Encode` and `Decode` that exist. -/
inductive IntType where
  | int32
  | uint32
  | int64
  | uint64
deriving DecidableEq, Repr

namespace IntType

def width : IntType → ℕ
  | int32 | uint32 => 32
  | int64 | uint64 => 64

def isSigned : IntType → Bool
  | int32 | int64 => true
  | uint32 | uint64 => false

/-- The number that the bits of a value of the type stand for. -/
def toInt (t : IntType) (v : BitVec t.width) : ℤ := if t.isSigned then v.toInt else v.toNat

/-- The bits that the last group of a full-length sequence adds. -/
def lastBits (t : IntType) : ℕ := t.width - 7 * (groups t.width - 1)

theorem width_pos (t : IntType) : 8 ≤ t.width := by cases t <;> decide

theorem lastBits_pos (t : IntType) : 0 < t.lastBits := by cases t <;> decide

theorem width_eq (t : IntType) : t.width = 7 * (groups t.width - 1) + t.lastBits := by
  cases t <;> decide

end IntType

theorem groups_le (w : ℕ) : 7 * groups w < w + 7 := by
  unfold groups
  omega

theorem le_groups (w : ℕ) : w ≤ 7 * groups w := by
  unfold groups
  omega

/-! ### The masks -/

theorem and_continuation_iff (b : Byte) : b &&& 0x80#8 ≠ 0 ↔ Continues b := by
  revert b
  decide

theorem and_sign_iff (b : Byte) : b &&& 0x40#8 ≠ 0 ↔ 64 ≤ group b := by
  revert b
  decide

theorem toNat_and_group (b : Byte) : (b &&& 0x7F#8).toNat = group b := by
  rw [BitVec.toNat_and]
  exact Nat.and_two_pow_sub_one_eq_mod b.toNat 7

theorem not_continues_and (b : Byte) : ¬Continues (b &&& 0x7F#8) := by
  revert b
  decide

theorem continues_or (b : Byte) : Continues (b ||| 0x80#8) := by
  revert b
  decide

theorem group_and (b : Byte) : group (b &&& 0x7F#8) = group b := by
  revert b
  decide

theorem group_or (b : Byte) : group (b ||| 0x80#8) = group b := by
  revert b
  decide

/-! ### Decoding -/

/-- Seven bits put below a number, shifted into place. -/
theorem or_group_or_shift {w : ℕ} (b : Byte) (u shift : ℕ) :
    (b &&& 0x7F#8).setWidth w <<< shift ||| BitVec.ofNat w u <<< (shift + 7) =
      BitVec.ofNat w (group b + 128 * u) <<< shift := by
  have hgroup : (b &&& 0x7F#8).setWidth w = BitVec.ofNat w (group b) := by
    rw [← toNat_and_group, BitVec.ofNat_toNat]
  -- the group has seven bits, so below the others nothing is carried
  have hsum : group b + 128 * u = group b ||| 128 * u := by
    rw [Nat.add_comm, Nat.or_comm]
    exact Nat.two_pow_add_eq_or_of_lt (i := 7) (group_lt b) u
  have hshift : BitVec.ofNat w (128 * u) <<< shift = BitVec.ofNat w u <<< (shift + 7) := by
    apply BitVec.eq_of_toNat_eq
    simp only [BitVec.toNat_shiftLeft, BitVec.toNat_ofNat, Nat.shiftLeft_eq, Nat.mod_mul_mod]
    rw [pow_add, Nat.mul_comm 128 u, Nat.mul_assoc, Nat.mul_comm 128]
    rfl
  rw [hsum, BitVec.ofNat_or, BitVec.shiftLeft_or_distrib, hgroup, hshift]

/-- One round of the loop of `Decode`. -/
theorem decodeLoop_succ {w : ℕ} {byte : Byte} (h : Continues byte) (rounds : ℕ)
    (result : BitVec w) {shift : ℕ} (hs : shift < w) :
    decodeLoop w (rounds + 1) result shift byte = (Stream.readByte >>= fun byte =>
      decodeLoop w rounds (result ||| (byte &&& 0x7F#8).setWidth w <<< shift) (shift + 7)
        byte) := by
  rw [decodeLoop, if_pos ⟨hs, (and_continuation_iff byte).mpr h⟩]

/-- A byte that does not continue ends the loop. -/
theorem decodeLoop_last {w : ℕ} {byte : Byte} (h : ¬Continues byte) (rounds : ℕ)
    (result : BitVec w) (shift : ℕ) :
    decodeLoop w rounds result shift byte = pure (result, shift, byte) := by
  cases rounds with
  | zero => rfl
  | succ rounds =>
    rw [decodeLoop, if_neg fun hc => h ((and_continuation_iff byte).mp hc.2)]

/-- **The loop on a group sequence** adds its digits to the result, from the current shift on. -/
theorem consumes_decodeLoop {w : ℕ} {s : List Byte} (hs : Groups s) :
    ∀ (rounds : ℕ) (result : BitVec w) (shift : ℕ) {byte : Byte}, s.length ≤ rounds →
      Continues byte → shift + 7 * s.length < w + 7 →
      ∃ b ∈ s.getLast?, ¬Continues b ∧ Consumes (decodeLoop w rounds result shift byte) s
        (result ||| BitVec.ofNat w (unsignedValue s) <<< shift, shift + 7 * s.length, b) := by
  induction hs with
  | @last b hb =>
    intro rounds result shift byte hlen hbyte hshift
    obtain ⟨rounds, rfl⟩ : ∃ k, rounds = k + 1 := ⟨rounds - 1, by simp at hlen; omega⟩
    refine ⟨b, rfl, hb, ?_⟩
    -- the last group: its byte is what the sign is taken from
    have hround := or_group_or_shift (w := w) b 0 shift
    rw [show BitVec.ofNat w 0 = 0#w from rfl, BitVec.zero_shiftLeft, BitVec.or_zero] at hround
    rw [decodeLoop_succ hbyte rounds result (by simp at hshift; omega), unsignedValue,
      unsignedValue, ← hround]
    refine (consumes_readByte _ b).bind_nil ?_
    rw [decodeLoop_last hb]
    exact .pure _
  | @more b bs hb hbs ih =>
    intro rounds result shift byte hlen hbyte hshift
    rw [List.length_cons] at hlen hshift
    obtain ⟨rounds, rfl⟩ : ∃ k, rounds = k + 1 := ⟨rounds - 1, by omega⟩
    have hpos := hbs.length_pos
    -- one round, and the rest from a shift that is seven bits larger
    obtain ⟨l, hl, hlast, hcons⟩ := ih rounds
      (result ||| (b &&& 0x7F#8).setWidth w <<< shift) (shift + 7) (by omega) hb (by omega)
    refine ⟨l, ?_, hlast, ?_⟩
    · obtain ⟨c, cs, rfl⟩ := List.exists_cons_of_ne_nil hbs.ne_nil
      rwa [List.getLast?_cons_cons]
    · rw [decodeLoop_succ hbyte rounds result (by omega), unsignedValue, ← or_group_or_shift,
        ← BitVec.or_assoc, List.length_cons,
        show shift + 7 * (bs.length + 1) = shift + 7 + 7 * bs.length by omega]
      exact (consumes_readByte _ b).bind (v := bs) hcons

/-- The loop on continuing bytes reads as many as it makes rounds. -/
theorem consumes_decodeLoop_continues {w : ℕ} : ∀ {s : List Byte}, (∀ b ∈ s, Continues b) →
    ∀ (result : BitVec w) (shift : ℕ) {byte : Byte}, Continues byte →
      shift + 7 * s.length < w + 7 → ∃ result' shift' byte', Continues byte' ∧
        Consumes (decodeLoop w s.length result shift byte) s (result', shift', byte') := by
  intro s
  induction s with
  | nil => exact fun _ result shift byte hbyte _ => ⟨result, shift, byte, hbyte, .pure _⟩
  | cons b bs ih =>
    intro hs result shift byte hbyte hshift
    obtain ⟨hb, hbs⟩ := List.forall_mem_cons.mp hs
    rw [List.length_cons] at hshift
    -- a byte with a following one keeps the loop going
    obtain ⟨result', shift', byte', hbyte', hcons⟩ := ih hbs
      (result ||| (b &&& 0x7F#8).setWidth w <<< shift) (shift + 7) hb (by omega)
    refine ⟨result', shift', byte', hbyte', ?_⟩
    rw [List.length_cons, decodeLoop_succ hbyte bs.length result (by omega)]
    exact (consumes_readByte _ b).bind (v := bs) hcons

/-- The loop on too few continuing bytes reaches the end of the stream. -/
theorem decodeLoop_eof {w : ℕ} : ∀ {s : List Byte}, (∀ b ∈ s, Continues b) →
    ∀ {rounds : ℕ} (result : BitVec w) {shift : ℕ} {byte : Byte}, s.length < rounds →
      Continues byte → shift + 7 * rounds < w + 7 → ∀ n,
        decodeLoop w rounds result shift byte ⟨s, n⟩ = .error .endOfStream := by
  intro s
  induction s with
  | nil =>
    intro _ rounds result shift byte hlen hbyte hshift n
    obtain ⟨rounds, rfl⟩ : ∃ k, rounds = k + 1 := ⟨rounds - 1, by simp at hlen; omega⟩
    -- there is a round left, but no byte for it
    rw [decodeLoop_succ hbyte rounds result (by omega)]
    rfl
  | cons b bs ih =>
    intro hs rounds result shift byte hlen hbyte hshift n
    obtain ⟨hb, hbs⟩ := List.forall_mem_cons.mp hs
    rw [List.length_cons] at hlen
    obtain ⟨rounds, rfl⟩ : ∃ k, rounds = k + 1 := ⟨rounds - 1, by omega⟩
    rw [decodeLoop_succ hbyte rounds result (by omega)]
    exact ih hbs _ (by omega) hb (by omega) (n + 1)

/-- The sign extension at the end of `Decode`: it subtracts the weight of the next group. -/
theorem or_allOnes_shift {w k u : ℕ} (hu : u < 2 ^ k) :
    BitVec.ofNat w u ||| BitVec.allOnes w <<< k = BitVec.ofInt w ((u : ℤ) - 2 ^ k) := by
  -- `u` has no bit where the ones are, so that `|||` is `+`
  have hdisjoint : BitVec.ofNat w u &&& BitVec.allOnes w <<< k = 0#w := by
    ext i hi
    rw [BitVec.getElem_and, BitVec.getElem_shiftLeft, ← BitVec.getLsbD_eq_getElem,
      BitVec.getLsbD_ofNat]
    by_cases h : i < k
    · simp [h]
    · have hu' : u < 2 ^ i := lt_of_lt_of_le hu (Nat.pow_le_pow_right (by norm_num) (by omega))
      simp [Nat.testBit_lt_two_pow hu']
  -- and the ones, from bit `k` on, are `-2 ^ k`
  have hones : BitVec.allOnes w <<< k = -BitVec.ofNat w (2 ^ k) := by
    have hpow : BitVec.twoPow w k = BitVec.ofNat w (2 ^ k) := by
      apply BitVec.eq_of_toNat_eq
      rw [BitVec.toNat_twoPow, BitVec.toNat_ofNat]
    rw [BitVec.shiftLeft_eq_mul_twoPow, ← BitVec.neg_one_eq_allOnes, BitVec.neg_mul, BitVec.one_mul,
      hpow]
  calc BitVec.ofNat w u ||| BitVec.allOnes w <<< k
      = BitVec.ofNat w u + -BitVec.ofNat w (2 ^ k) := by
        rw [← BitVec.add_eq_or_of_and_eq_zero _ _ hdisjoint, hones]
    _ = BitVec.ofInt w u + BitVec.ofInt w (-((2 ^ k : ℕ) : ℤ)) := by
        rw [BitVec.ofInt_neg, BitVec.ofInt_natCast, BitVec.ofInt_natCast]
    _ = BitVec.ofInt w ((u : ℤ) - 2 ^ k) := by
        rw [← BitVec.ofInt_add, ← sub_eq_add_neg]
        push_cast
        rfl

/-- **Decoding a group sequence** of at most `groups w` bytes gives its value modulo `2 ^ w`. -/
theorem consumes_decode {w : ℕ} (isSigned : Bool) {s : List Byte} (hs : Groups s)
    (hlen : s.length ≤ groups w) :
    Consumes (decode w isSigned) s (BitVec.ofInt w (groupsValue isSigned s)) := by
  have hw := groups_le w
  obtain ⟨b, hb, hlast, hcons⟩ := consumes_decodeLoop hs _ 0#w 0 hlen
    (show Continues 0x80#8 by decide) (by omega)
  rw [BitVec.zero_or, BitVec.shiftLeft_zero, Nat.zero_add] at hcons
  refine hcons.bind_nil ?_
  -- the last byte does not continue, so there is no overflow
  simp only [if_neg fun h => hlast ((and_continuation_iff b).mp h)]
  have hnegative : Negative s ↔ 64 ≤ group b := by
    unfold Negative
    rw [Option.mem_def.mp hb]
    simp
  by_cases hsign : isSigned = true ∧ Negative s
  · have hu := unsignedValue_lt s
    have hvalue : BitVec.ofInt w (groupsValue isSigned s) =
        BitVec.ofNat w (unsignedValue s) ||| BitVec.allOnes w <<< (7 * s.length) := by
      rw [or_allOnes_shift hu, groupsValue, if_pos hsign, pow_mul]
      norm_num
    rw [hvalue]
    by_cases hshift : 7 * s.length < w
    · rw [if_pos ⟨hsign.1, hshift, (and_sign_iff b).mpr (hnegative.mp hsign.2)⟩]
      exact .pure _
    · -- all bits of the type are already there
      rw [if_neg fun h => hshift h.2.1, BitVec.shiftLeft_eq_zero (Nat.le_of_not_lt hshift),
        BitVec.or_zero]
      exact .pure _
  · have hvalue : groupsValue isSigned s = unsignedValue s := if_neg hsign
    rw [hvalue, BitVec.ofInt_natCast,
      if_neg fun h => hsign ⟨h.1, hnegative.mpr ((and_sign_iff b).mp h.2.2)⟩]
    exact .pure _

/-- Too many continuing bytes overflow. -/
theorem decode_of_continues {w : ℕ} (isSigned : Bool) {s : List Byte}
    (hs : ∀ b ∈ s, Continues b) (hlen : s.length = groups w) (rest : List Byte) (n : ℕ) :
    decode w isSigned ⟨s ++ rest, n⟩ = .error .decode := by
  have hw := groups_le w
  obtain ⟨result, shift, byte, hbyte, hcons⟩ := consumes_decodeLoop_continues hs 0#w 0
    (show Continues 0x80#8 by decide) (by omega)
  rw [hlen] at hcons
  unfold decode
  rw [bind_of_ok (hcons rest n)]
  simp only [if_pos ((and_continuation_iff byte).mpr hbyte)]
  rfl

/-- Too few continuing bytes reach the end of the stream. -/
theorem decode_of_eof {w : ℕ} (isSigned : Bool) {s : List Byte} (hs : ∀ b ∈ s, Continues b)
    (hlen : s.length < groups w) (n : ℕ) :
    decode w isSigned ⟨s, n⟩ = .error .endOfStream := by
  have hw := groups_le w
  exact bind_of_error (decodeLoop_eof hs 0#w hlen (by decide) (by omega) n) _

/-- **What a decoder accepted** is a group sequence that is short enough, and its value. -/
theorem decode_eq_ok {w : ℕ} {isSigned : Bool} {c c' : Cursor} {v : BitVec w}
    (h : decode w isSigned c = .ok (v, c')) :
    ∃ s, c.rest = s ++ c'.rest ∧ c'.consumed = c.consumed + s.length ∧ Groups s ∧
      s.length ≤ groups w ∧ v = BitVec.ofInt w (groupsValue isSigned s) := by
  obtain ⟨bytes, n⟩ := c
  rcases groups_trichotomy (groups w) bytes with
    ⟨s, rest, rfl, hs, hlen⟩ | ⟨s, rest, rfl, hs, hlen⟩ | ⟨hs, hlen⟩
  · -- a sequence that ends in time is the only one that is accepted
    rw [consumes_decode isSigned hs hlen rest n] at h
    obtain ⟨rfl, rfl⟩ := Prod.mk.inj (Except.ok.inj h)
    exact ⟨s, rfl, rfl, hs, hlen, rfl⟩
  · rw [decode_of_continues isSigned hs hlen rest n] at h
    cases h
  · rw [decode_of_eof isSigned hs hlen n] at h
    cases h

/-- A decoder that is cut off inside its group sequence reaches the end of the stream. -/
theorem steady_decode (w : ℕ) (isSigned : Bool) : Steady .endOfStream (decode w isSigned) where
  isLocal := local_decode w isSigned
  stops {c v c'} h {pre suf} hrest hlt n := by
    obtain ⟨s, hs, -, hgroups, hlen, -⟩ := decode_eq_ok h
    have hsplit : s ++ c'.rest = pre ++ suf := hs.symm.trans hrest
    have hlength := congrArg List.length hsplit
    rw [List.length_append, List.length_append] at hlength
    have hpre : pre <+: s :=
      List.prefix_of_prefix_length_le ⟨suf, rfl⟩ ⟨c'.rest, hsplit⟩ (by omega)
    -- what is left of the sequence are bytes that all continue
    obtain ⟨init, b, rfl, hinit, -⟩ := hgroups.exists_last
    rw [List.length_append, List.length_singleton] at hlen hlength
    have hpre' : pre <+: init :=
      List.prefix_of_prefix_length_le hpre ⟨[b], rfl⟩ (by omega)
    exact decode_of_eof isSigned (fun x hx => hinit x (hpre'.subset hx)) (by omega) n

theorem steady_decodeU32 : Steady .endOfStream decodeU32 :=
  (steady_decode 32 false).bind fun _ => .pure _

/-! ### Encoding -/

theorem continues_or_continuation (b : Byte) : Continues (b &&& 0x7F#8 ||| 0x80#8) :=
  continues_or _

theorem group_or_continuation (b : Byte) : group (b &&& 0x7F#8 ||| 0x80#8) = group b := by
  rw [group_or, group_and]

/-- The low group of a number. -/
theorem group_setWidth {w : ℕ} (v : BitVec w) : group (v.setWidth 8) = v.toNat % 128 := by
  unfold group
  rw [BitVec.toNat_setWidth]
  omega

theorem toNat_ushiftRight_seven {w : ℕ} (v : BitVec w) : (v >>> 7).toNat = v.toNat / 128 := by
  rw [BitVec.toNat_ushiftRight, Nat.shiftRight_eq_div_pow]

theorem toInt_sshiftRight_seven {w : ℕ} (v : BitVec w) :
    (v.sshiftRight 7).toInt = v.toInt / 128 := by
  rw [BitVec.toInt_sshiftRight, Int.shiftRight_eq_div_pow]
  rfl

theorem toInt_emod {w : ℕ} (hw : 7 ≤ w) (v : BitVec w) : v.toInt % 128 = v.toNat % 128 := by
  have hdvd : (128 : ℤ) ∣ (2 ^ w : ℕ) := by
    push_cast
    exact pow_dvd_pow (2 : ℤ) hw
  rw [BitVec.toInt_eq_toNat_bmod, Int.bmod_eq_emod]
  split
  · rw [Int.sub_emod, Int.emod_emod_of_dvd _ hdvd, Int.emod_eq_zero_of_dvd hdvd]
    omega
  · rw [Int.natCast_zero, sub_zero]
    exact Int.emod_emod_of_dvd _ hdvd

/-- **The loop of the unsigned `Encode`** writes the shortest sequence, in as many rounds as the
number has groups. -/
theorem isEncoding_encodeUnsignedLoop {w : ℕ} : ∀ {rounds : ℕ} (v : BitVec w), 0 < rounds →
    FitsBits false (7 * rounds) v.toNat →
    IsEncoding false (encodeUnsignedLoop rounds v) v.toNat ∧
      (encodeUnsignedLoop rounds v).length ≤ rounds := by
  intro rounds
  induction rounds with
  | zero => exact fun v h _ => absurd h (lt_irrefl 0)
  | succ rounds ih =>
    intro v _ hv
    have hshift := toNat_ushiftRight_seven v
    have hgroup : group (v.setWidth 8 &&& 0x7F#8) = v.toNat % 128 := by
      rw [group_and, group_setWidth]
    rw [encodeUnsignedLoop]
    by_cases hz : v >>> 7 = 0
    · -- the last group
      have hsmall : v.toNat / 128 = 0 := by
        rw [← hshift, hz]
        rfl
      have hvalue : groupsValue false [v.setWidth 8 &&& 0x7F#8] = v.toNat := by
        rw [groupsValue_singleton, hgroup]
        simp
        omega
      have hlast := IsEncoding.last false (not_continues_and (v.setWidth 8))
      rw [hvalue] at hlast
      simp only [hz, ne_eq, not_true_eq_false, if_false]
      exact ⟨hlast, Nat.succ_le_succ (Nat.zero_le rounds)⟩
    · -- a group with more to come
      have hlarge : v.toNat / 128 ≠ 0 := by
        rw [← hshift]
        exact fun h => hz (BitVec.eq_of_toNat_eq h)
      have hsplit : (v.toNat : ℤ) =
          (group (v.setWidth 8 &&& 0x7F#8 ||| 0x80#8) : ℤ) + (128 : ℤ) * ((v >>> 7).toNat : ℤ) := by
        rw [group_or_continuation, group_setWidth, hshift]
        omega
      have hgroup' := group_lt (v.setWidth 8 &&& 0x7F#8 ||| 0x80#8)
      have hlong : ¬FitsBits false 7 v.toNat := by
        rintro ⟨-, hlt⟩
        omega
      have hrounds : 0 < rounds := by
        rcases Nat.eq_zero_or_pos rounds with rfl | h
        · exact absurd hv hlong
        · exact h
      rw [hsplit, Nat.mul_add, Nat.mul_one,
        fitsBits_cons false (by omega) (by omega) (by omega)] at hv
      obtain ⟨henc, hlen⟩ := ih (v >>> 7) hrounds hv
      rw [hsplit] at hlong
      simp only [hz, ne_eq, not_false_eq_true, if_true]
      rw [hsplit]
      exact ⟨henc.more (continues_or_continuation _) hlong, Nat.succ_le_succ hlen⟩

/-- The test that ends the loop of the signed `Encode`: one group is enough. -/
theorem signed_done_iff {w : ℕ} (hw : 8 ≤ w) (v : BitVec w) :
    ((v.sshiftRight 7 = 0 ∧ v.setWidth 8 &&& 0x7F#8 &&& 0x40#8 = 0) ∨
      (v.sshiftRight 7 = BitVec.allOnes w ∧ v.setWidth 8 &&& 0x7F#8 &&& 0x40#8 ≠ 0)) ↔
    FitsBits true 7 v.toInt := by
  have hmod := toInt_emod (Nat.le_of_lt hw) v
  -- the shifted value is zero, or minus one
  have hzero : v.sshiftRight 7 = 0 ↔ v.toInt / 128 = 0 := by
    rw [← toInt_sshiftRight_seven, ← BitVec.toInt_inj]
    simp
  have hones : v.sshiftRight 7 = BitVec.allOnes w ↔ v.toInt / 128 = -1 := by
    rw [← toInt_sshiftRight_seven, ← BitVec.toInt_inj, BitVec.toInt_allOnes, if_pos (by omega)]
  -- the sign bit of the group is set if the low seven bits are 64 or more
  have hsign : v.setWidth 8 &&& 0x7F#8 &&& 0x40#8 ≠ 0 ↔ 64 ≤ v.toInt % 128 := by
    rw [and_sign_iff, group_and, group_setWidth, hmod]
    omega
  rw [hzero, hones, hsign, ← not_ne_iff (a := v.setWidth 8 &&& 0x7F#8 &&& 0x40#8), hsign]
  show _ ↔ -(2 : ℤ) ^ 6 ≤ v.toInt ∧ v.toInt < (2 : ℤ) ^ 6
  omega

/-- **The loop of the signed `Encode`**, likewise. -/
theorem isEncoding_encodeSignedLoop {w : ℕ} (hw : 8 ≤ w) : ∀ {rounds : ℕ} (v : BitVec w),
    0 < rounds → FitsBits true (7 * rounds) v.toInt →
    IsEncoding true (encodeSignedLoop rounds v) v.toInt ∧
      (encodeSignedLoop rounds v).length ≤ rounds := by
  intro rounds
  induction rounds with
  | zero => exact fun v h _ => absurd h (lt_irrefl 0)
  | succ rounds ih =>
    intro v _ hv
    have hshift := toInt_sshiftRight_seven v
    have hmod := toInt_emod (Nat.le_of_lt hw) v
    have hdone := signed_done_iff hw v
    rw [encodeSignedLoop]
    by_cases hfits : FitsBits true 7 v.toInt
    · -- the last group, whose sign bit is that of the number
      rw [if_pos (hdone.mpr hfits)]
      have hvalue : groupsValue true [v.setWidth 8 &&& 0x7F#8] = v.toInt := by
        have hbounds : -(2 : ℤ) ^ 6 ≤ v.toInt ∧ v.toInt < (2 : ℤ) ^ 6 := hfits
        rw [groupsValue_singleton, group_and, group_setWidth]
        simp only [true_and]
        split <;> omega
      have hlast := IsEncoding.last true (not_continues_and (v.setWidth 8))
      rw [hvalue] at hlast
      exact ⟨hlast, Nat.succ_le_succ (Nat.zero_le rounds)⟩
    · -- a group with more to come
      rw [if_neg fun h => hfits (hdone.mp h)]
      have hsplit : v.toInt =
          group (v.setWidth 8 &&& 0x7F#8 ||| 0x80#8) + 128 * (v.sshiftRight 7).toInt := by
        rw [group_or_continuation, group_setWidth, hshift]
        omega
      have hgroup := group_lt (v.setWidth 8 &&& 0x7F#8 ||| 0x80#8)
      have hrounds : 0 < rounds := by
        rcases Nat.eq_zero_or_pos rounds with rfl | h
        · exact absurd hv hfits
        · exact h
      rw [hsplit, Nat.mul_add, Nat.mul_one,
        fitsBits_cons true (by omega) (by omega) (by omega)] at hv
      obtain ⟨henc, hlen⟩ := ih (v.sshiftRight 7) hrounds hv
      rw [hsplit] at hfits ⊢
      exact ⟨henc.more (continues_or_continuation _) hfits, Nat.succ_le_succ hlen⟩

namespace IntType

/-- Every value of the type fits in its groups. -/
theorem fitsBits_toInt (t : IntType) (v : BitVec t.width) :
    FitsBits t.isSigned t.width (t.toInt v) := by
  unfold toInt
  cases h : t.isSigned with
  | true =>
    rw [if_pos rfl]
    exact ⟨BitVec.le_toInt v, BitVec.toInt_lt⟩
  | false =>
    rw [if_neg (by simp)]
    exact ⟨Int.natCast_nonneg _, by exact_mod_cast v.isLt⟩

/-- The values of the type are determined by their numbers. -/
theorem ofInt_toInt (t : IntType) (v : BitVec t.width) :
    BitVec.ofInt t.width (t.toInt v) = v := by
  unfold toInt
  split
  · exact BitVec.ofInt_toInt
  · rw [BitVec.ofInt_natCast, BitVec.ofNat_toNat, BitVec.setWidth_eq]

/-- An integer of the type's width is the number of a value. -/
theorem toInt_ofInt (t : IntType) {v : ℤ} (h : FitsBits t.isSigned t.width v) :
    t.toInt (BitVec.ofInt t.width v) = v := by
  have hw := t.width_pos
  unfold toInt
  cases hs : t.isSigned with
  | true =>
    rw [hs] at h
    obtain ⟨h1, h2⟩ := h
    -- in range, the value is neither wrapped nor changed in sign
    rw [if_pos rfl]
    exact BitVec.toInt_ofInt_eq_self (by omega) h1 h2
  | false =>
    rw [hs] at h
    obtain ⟨h1, h2⟩ := h
    rw [if_neg (by simp), BitVec.toNat_ofInt, Int.emod_eq_of_lt h1 (by exact_mod_cast h2),
      Int.toNat_of_nonneg h1]

/-- **`Encode` writes the shortest sequence** for the value, of at most `groups` bytes. -/
theorem isEncoding_encode (t : IntType) (v : BitVec t.width) :
    IsEncoding t.isSigned (encode t.isSigned v) (t.toInt v) ∧
      (encode t.isSigned v).length ≤ groups t.width := by
  have hw := t.width_pos
  have hgroups : 0 < groups t.width := by
    unfold groups
    omega
  -- a value of the type fits the groups that the type has
  have hfits := (t.fitsBits_toInt v).mono (le_groups t.width)
  unfold toInt at hfits ⊢
  unfold encode
  cases hs : t.isSigned with
  | true =>
    simp only [hs, if_true] at hfits ⊢
    exact isEncoding_encodeSignedLoop hw v hgroups hfits
  | false =>
    simp only [hs, Bool.false_eq_true, if_false] at hfits ⊢
    exact isEncoding_encodeUnsignedLoop v hgroups hfits

end IntType

/-! ### Decoding what was encoded -/

/-- **Round trip and shortness.** In front of any bytes `Decode` reads exactly what `Encode v` wrote
and returns `v`. No byte string that decodes to `v` is shorter, and below the full length none of
the same length is different. -/
theorem roundTrip_shortest (t : IntType) (v : BitVec t.width) :
    Consumes (decode t.width t.isSigned) (encode t.isSigned v) v ∧
      ∀ bytes n c', decode t.width t.isSigned ⟨bytes, n⟩ = .ok (v, c') →
        (encode t.isSigned v).length ≤ bytes.length ∧
          (bytes.length = (encode t.isSigned v).length → bytes.length < groups t.width →
            bytes = encode t.isSigned v) := by
  obtain ⟨henc, hlen⟩ := t.isEncoding_encode v
  constructor
  · have hcons := consumes_decode t.isSigned henc.groups hlen
    rwa [henc.value, t.ofInt_toInt] at hcons
  · intro bytes n c' h
    obtain ⟨s, hrest, -, hs, hslen, hv⟩ := decode_eq_ok h
    obtain rfl : bytes = s ++ c'.rest := hrest
    -- a sequence below the full length stands for its value exactly
    have hexact : s.length < groups t.width → groupsValue t.isSigned s = t.toInt v := by
      intro hlt
      have hw := groups_le t.width
      rw [hv, t.toInt_ofInt ((hs.fitsBits _).mono (by omega))]
    rw [List.length_append]
    constructor
    · by_cases hlt : s.length < groups t.width
      · have hle := (henc.unique hs (hexact hlt)).1
        omega
      · omega
    · intro heq hlt
      have hle := henc.unique hs (hexact (by omega))
      have hnil : c'.rest = [] := List.eq_nil_of_length_eq_zero (by omega)
      rw [hnil, List.append_nil]
      exact hle.2 (by omega)

/-- `Decode<uint32_t>` after `Encode<uint32_t>`, on numbers. -/
theorem consumes_decodeU32 {n : ℕ} (hn : n < 2 ^ 32) :
    Consumes decodeU32 (encodeU32 n) n := by
  have hround := (roundTrip_shortest .uint32 (BitVec.ofNat 32 n)).1
  refine Consumes.bind_nil (p := decode 32 false) hround ?_
  rw [BitVec.toNat_ofNat, Nat.mod_eq_of_lt hn]
  exact .pure n

/-! ### Any encoding of the binary format -/

/-- A number of `w` bits as the binary format allows it to be written: not necessarily in the fewest
bytes. -/
structure EncodedInt (isSigned : Bool) (w : ℕ) where
  bytes : List Byte
  isGroups : Groups bytes
  length_le : bytes.length ≤ groups w
  fits : FitsBits isSigned w (groupsValue isSigned bytes)

namespace EncodedInt

theorem consumes_decode {isSigned : Bool} (x : EncodedInt isSigned 32) :
    Consumes (decode 32 false) x.bytes (BitVec.ofInt 32 (unsignedValue x.bytes)) := by
  have h := Leb128.consumes_decode false x.isGroups x.length_le
  rwa [groupsValue_false] at h

theorem consumes_decodeU32 (x : EncodedInt false 32) :
    Consumes decodeU32 x.bytes (unsignedValue x.bytes) := by
  have hlt : unsignedValue x.bytes < 2 ^ 32 := by
    have hfits := x.fits.2
    rw [groupsValue_false] at hfits
    exact_mod_cast hfits
  refine x.consumes_decode.bind_nil ?_
  have hvalue : (BitVec.ofInt 32 (unsignedValue x.bytes)).toNat = unsignedValue x.bytes := by
    rw [BitVec.ofInt_natCast, BitVec.toNat_ofNat, Nat.mod_eq_of_lt hlt]
  rw [hvalue]
  exact .pure _

end EncodedInt

/-! ### A signed encoding, read as unsigned -/

/-- The unsigned decoder takes the same bytes. -/
theorem consumes_decode_of_signed (v : BitVec 32) :
    Consumes (decode 32 false) (encode true v)
      (BitVec.ofInt 32 (unsignedValue (encode true v))) := by
  obtain ⟨henc, hlen⟩ := IntType.isEncoding_encode .int32 v
  have hcons := consumes_decode false henc.groups hlen
  rwa [groupsValue_false] at hcons

/-- The sign extension does not matter if the number is not negative, or if all 32 bits were
written. -/
theorem ofInt_unsignedValue_iff (v : BitVec 32) :
    BitVec.ofInt 32 (unsignedValue (encode true v)) = v ↔ 0 ≤ v.toInt ∨ v.toInt < -2 ^ 27 := by
  have hboth : IsEncoding true (encode true v) v.toInt ∧ (encode true v).length ≤ 5 :=
    IntType.isEncoding_encode .int32 v
  obtain ⟨henc, hlen⟩ := hboth
  have hpos := henc.groups.length_pos
  -- the encoding has all five groups exactly if the value needs more than 28 bits
  have hfull : 4 < (encode true v).length ↔ ¬FitsBits true 28 v.toInt :=
    henc.lt_length_iff (by decide)
  have hbounds : -2 ^ 31 ≤ v.toInt ∧ v.toInt < 2 ^ 31 := ⟨BitVec.le_toInt v, BitVec.toInt_lt⟩
  have hsame (z : ℤ) : BitVec.ofInt 32 z = v ↔ z % 2 ^ 32 = v.toInt % 2 ^ 32 := by
    rw [← BitVec.toInt_inj, BitVec.toInt_ofInt]
    simp only [Int.bmod]
    omega
  rw [hsame, unsignedValue_eq, henc.value]
  by_cases hneg : v.toInt < 0
  · rw [if_pos hneg]
    have hfits : FitsBits true 28 v.toInt ↔ -2 ^ 27 ≤ v.toInt ∧ v.toInt < 2 ^ 27 := Iff.rfl
    rw [hfits] at hfull
    generalize (encode true v).length = l at hlen hpos hfull ⊢
    -- a negative value is off by a power of two that depends on the length
    have hcases : l = 1 ∨ l = 2 ∨ l = 3 ∨ l = 4 ∨ l = 5 := by omega
    rcases hcases with rfl | rfl | rfl | rfl | rfl <;> omega
  · rw [if_neg hneg, add_zero]
    exact iff_of_true rfl (.inl (Int.not_lt.mp hneg))

/-! ### Which numbers a decoder accepts -/

/-- The decoder accepts this stream if and only if it begins with a group sequence that is short
enough and stands for a number of the type, and then returns that number; a sequence for any other
number is rejected. -/
structure DecodesExactly (t : IntType) (bytes : List Byte) : Prop where
  accepts : ∀ v c' n, decode t.width t.isSigned ⟨bytes, n⟩ = .ok (v, c') ↔
    ∃ s rest, bytes = s ++ rest ∧ Groups s ∧ s.length ≤ groups t.width ∧
      FitsBits t.isSigned t.width (groupsValue t.isSigned s) ∧
      t.toInt v = groupsValue t.isSigned s ∧ c' = ⟨rest, n + s.length⟩
  rejects : ∀ s rest n, bytes = s ++ rest → Groups s →
    ¬FitsBits t.isSigned t.width (groupsValue t.isSigned s) →
      decode t.width t.isSigned ⟨bytes, n⟩ = .error .decode

/-- The bits of a last group that the type has no room for are zero, or copies of the sign bit. -/
def IntType.UnusedBitsAgree (t : IntType) (b : Byte) : Prop :=
  ∀ i < 7, t.lastBits ≤ i → b.getLsbD i = (t.isSigned && b.getLsbD (t.lastBits - 1))

instance (t : IntType) (b : Byte) : Decidable (t.UnusedBitsAgree b) := by
  unfold IntType.UnusedBitsAgree
  infer_instance

/-- Unused bits that agree bound the last group. -/
theorem IntType.unusedBitsAgree_iff_group (t : IntType) (b : Byte) :
    t.UnusedBitsAgree b ↔ if t.isSigned then
        group b < 2 ^ (t.lastBits - 1) ∨ 128 - 2 ^ (t.lastBits - 1) ≤ group b
      else group b < 2 ^ t.lastBits := by
  revert b
  cases t <;> decide +kernel

theorem IntType.unusedBitsAgree_iff (t : IntType) (b : Byte) :
    t.UnusedBitsAgree b ↔ FitsBits t.isSigned t.lastBits (groupsValue t.isSigned [b]) := by
  have hb := group_lt b
  rw [t.unusedBitsAgree_iff_group, groupsValue_singleton]
  cases t with
  | int32 | int64 =>
    -- signed: the upper half stands for the negative numbers
    show group b < _ ∨ _ ≤ group b ↔ -(2 : ℤ) ^ _ ≤ ite _ _ _ ∧ ite _ _ _ < (2 : ℤ) ^ _
    simp only [IntType.isSigned, IntType.lastBits, IntType.width, groups, true_and]
    split <;> omega
  | uint32 | uint64 =>
    show group b < _ ↔ 0 ≤ ite _ _ _ ∧ ite _ _ _ < (2 : ℤ) ^ _
    simp only [IntType.isSigned, IntType.lastBits, IntType.width, groups, Bool.false_eq_true,
      false_and, if_false]
    omega

/-- A sequence fits in the type unless it has the full length and unused bits that disagree. -/
theorem IntType.fitsBits_iff (t : IntType) {init : List Byte} {b : Byte} (hb : ¬Continues b)
    (hinit : ∀ x ∈ init, Continues x) (hlen : (init ++ [b]).length ≤ groups t.width) :
    FitsBits t.isSigned t.width (groupsValue t.isSigned (init ++ [b])) ↔
      (init.length + 1 = groups t.width → t.UnusedBitsAgree b) := by
  rw [List.length_append, List.length_singleton] at hlen
  by_cases hfull : init.length + 1 = groups t.width
  · -- all groups are there, and the last one has the bits that are left
    have hwidth : t.width = 7 * init.length + t.lastBits := by
      rw [t.width_eq, ← hfull, Nat.add_sub_cancel]
    have hlast := fitsBits_append_last t.isSigned init b t.lastBits_pos
    rw [← hwidth, ← t.unusedBitsAgree_iff b] at hlast
    exact hlast.trans ⟨fun h _ => h, fun h => h hfull⟩
  · -- with fewer groups there are fewer bits than the type has
    have hw := groups_le t.width
    refine iff_of_true (((Groups.of_last hinit hb).fitsBits _).mono ?_) fun h => absurd h hfull
    rw [List.length_append, List.length_singleton]
    omega

/-- **When a decoder accepts exactly the numbers of its type**: unless the stream begins with a
sequence of the full length whose last group has unused bits that disagree. -/
theorem decode_exact_iff (t : IntType) (bytes : List Byte) :
    DecodesExactly t bytes ↔ ∀ init b rest, bytes = init ++ b :: rest →
      (∀ x ∈ init, Continues x) → ¬Continues b → init.length + 1 = groups t.width →
      t.UnusedBitsAgree b := by
  constructor
  · rintro hexact init b rest rfl hinit hb hfull
    by_contra hunused
    have hs := Groups.of_last hinit hb
    have hlen : (init ++ [b]).length ≤ groups t.width := by
      rw [List.length_append, List.length_singleton, hfull]
    have hfits := mt (t.fitsBits_iff hb hinit hlen).mp fun h => hunused (h hfull)
    -- the decoder accepts the sequence all the same
    have haccepted := consumes_decode t.isSigned hs hlen rest 0
    have hbytes : init ++ b :: rest = init ++ [b] ++ rest := by simp
    rw [← hbytes, hexact.rejects _ rest 0 hbytes hs hfits] at haccepted
    cases haccepted
  · intro hunused
    have hfits : ∀ s rest, bytes = s ++ rest → Groups s → s.length ≤ groups t.width →
        FitsBits t.isSigned t.width (groupsValue t.isSigned s) := by
      intro s rest hbytes hs hlen
      obtain ⟨init, b, rfl, hinit, hb⟩ := hs.exists_last
      exact (t.fitsBits_iff hb hinit hlen).mpr
        (hunused init b rest (by simp [hbytes]) hinit hb)
    constructor
    · intro v c' n
      constructor
      · intro h
        obtain ⟨s, hrest, hn, hs, hlen, rfl⟩ := decode_eq_ok h
        obtain ⟨rest, n'⟩ := c'
        have hfit := hfits s rest hrest hs hlen
        exact ⟨s, rest, hrest, hs, hlen, hfit, t.toInt_ofInt hfit, congrArg _ hn⟩
      · rintro ⟨s, rest, rfl, hs, hlen, -, hv, rfl⟩
        rw [consumes_decode t.isSigned hs hlen rest n, ← hv, t.ofInt_toInt]
    · rintro s rest n rfl hs hnot
      -- a sequence that does not fit is too long
      have hlong : groups t.width < s.length := by
        by_contra hle
        exact hnot (hfits s rest rfl hs (Nat.le_of_not_lt hle))
      obtain ⟨init, b, rfl, hinit, -⟩ := hs.exists_last
      rw [List.length_append, List.length_singleton] at hlong
      have hsplit : init ++ [b] ++ rest =
          init.take (groups t.width) ++ (init.drop (groups t.width) ++ ([b] ++ rest)) := by
        rw [← List.append_assoc, List.take_append_drop, List.append_assoc]
      rw [hsplit]
      refine decode_of_continues t.isSigned (fun x hx => hinit x (List.mem_of_mem_take hx)) ?_ _ n
      rw [List.length_take]
      omega

/-- Five bytes for `2 ^ 35 - 1`, which `Decode<uint32_t>` takes for `2 ^ 32 - 1`. -/
theorem decode_accepts_too_large :
    ¬DecodesExactly .uint32 [0xFF#8, 0xFF#8, 0xFF#8, 0xFF#8, 0x7F#8] := by
  intro h
  have hgroups : Groups [0xFF#8, 0xFF#8, 0xFF#8, 0xFF#8, 0x7F#8] :=
    .more (by decide) (.more (by decide) (.more (by decide) (.more (by decide)
      (.last (by decide)))))
  have hrejected := h.rejects _ [] 0 rfl hgroups (by decide)
  have haccepted : decode 32 false ⟨[0xFF#8, 0xFF#8, 0xFF#8, 0xFF#8, 0x7F#8], 0⟩ =
      .ok (BitVec.allOnes 32, ⟨[], 5⟩) := by rfl
  cases haccepted.symm.trans hrejected

end Wasmcc.Leb128
