import Wasmcc.Runtime.GuardPages

/-!
# The first stack pointer on x64

`InitializeVMThreadStackState` of `thread_x64.cc` lets a thread start at the top of its stack: below
128 bytes for the red zone it stores a return address that nothing returns to. Neither it nor
`VMThread::Create` checks that the stack has room for that.

`initialStack_iff` says when the first stack pointer is as the ABI wants it, and within the stack.
-/

open Basis

namespace Wasmcc

namespace X64

/-- What pointers of a new thread point to, apart from its stack. -/
inductive Target where
  | wasmccWrapMain
  | vmThreadStart
  | thread
deriving DecidableEq, Repr

/-- The part of a `ThreadStack` that is initialized, and the word that is stored. -/
structure InitialState where
  stored : BitVec 64 × BitVec 64
  rip : Target
  rsp : BitVec 64
  r12 : Target
  r13 : Target
deriving DecidableEq, Repr

def kRedZoneSize : BitVec 64 := 128#64

def kDummyReturnAddress : BitVec 64 := 0xdeaddeaddeaddead#64

def initializeVMThreadStackState (stackBase stackSize : BitVec 64) : InitialState :=
  let stackSize := stackSize - kRedZoneSize
  let stackHighPtr := stackBase + stackSize - 8#64
  { stored := (stackHighPtr, kDummyReturnAddress)
    rip := .wasmccWrapMain
    rsp := stackHighPtr
    r12 := .vmThreadStart
    r13 := .thread }

end X64

namespace VMThread

/-- The state that the first `Resume` switches to. -/
def Stack.initialState (t : Stack) : X64.InitialState :=
  X64.initializeVMThreadStackState t.stackMemory t.stackSize

/-- What the first stack pointer is meant to be. -/
structure InitialStack (t : Stack) : Prop where
  /-- The red zone is no larger than the stack. -/
  redZoneSize_le : X64.kRedZoneSize.toNat ≤ t.stackSize.toNat
  /-- The pointer below which the return address is stored leaves room for it. -/
  eight_le : 8 ≤ (t.stackMemory + (t.stackSize - X64.kRedZoneSize)).toNat
  bottom_le : t.stackBottom.toNat ≤ t.initialState.stored.1.toNat
  le_top : t.initialState.stored.1.toNat + 8 ≤ t.stackTop.toNat
  rsp : t.initialState.rsp = t.initialState.stored.1
  aligned : t.initialState.rsp.toNat % 16 = 8
  redZone : t.initialState.rsp.toNat + 8 + 128 = t.stackTop.toNat

/-- The stack has to be large enough, not to wrap, and to end at an aligned address. -/
theorem initialStack_iff_top (t : Stack) : InitialStack t ↔ 136 ≤ t.stackSize.toNat ∧
    t.stackMemory.toNat + t.stackSize.toNat < 2 ^ 64 ∧
    16 ∣ t.stackMemory.toNat + t.stackSize.toNat := by
  obtain ⟨base, deleter, size⟩ := t
  have hbase := base.isLt
  have hsize := size.isLt
  -- the pointers as numbers, with the wrap-around of each operation
  have hrsp : (base + (size - 128#64) - 8#64).toNat =
      (2 ^ 64 - 8 + (base.toNat + (2 ^ 64 - 128 + size.toNat) % 2 ^ 64) % 2 ^ 64) % 2 ^ 64 := by
    rw [BitVec.toNat_sub, BitVec.toNat_add, BitVec.toNat_sub]
    rfl
  have hhigh : (base + (size - 128#64)).toNat =
      (base.toNat + (2 ^ 64 - 128 + size.toNat) % 2 ^ 64) % 2 ^ 64 := by
    rw [BitVec.toNat_add, BitVec.toNat_sub]
    rfl
  have htop : (base + size).toNat = (base.toNat + size.toNat) % 2 ^ 64 := BitVec.toNat_add base size
  constructor
  -- what each condition says of the bottom and the size of the block
  · rintro ⟨hred, height, hbottom, htople, -, haligned, hzone⟩
    change 128 ≤ size.toNat at hred
    change 8 ≤ (base + (size - 128#64)).toNat at height
    change base.toNat ≤ (base + (size - 128#64) - 8#64).toNat at hbottom
    change (base + (size - 128#64) - 8#64).toNat + 8 ≤ (base + size).toNat at htople
    change (base + (size - 128#64) - 8#64).toNat % 16 = 8 at haligned
    rw [hrsp] at hbottom htople haligned
    rw [hhigh] at height
    rw [htop] at htople
    dsimp only
    omega
  · rintro ⟨hsize', hroom, haligned⟩
    dsimp only at hsize' hroom haligned
    -- and back: with no wrap-around each is an inequality
    refine ⟨?_, ?_, ?_, ?_, rfl, ?_, ?_⟩
    · show 128 ≤ size.toNat
      omega
    · show 8 ≤ (base + (size - 128#64)).toNat
      omega
    · show base.toNat ≤ (base + (size - 128#64) - 8#64).toNat
      omega
    · show (base + (size - 128#64) - 8#64).toNat + 8 ≤ (base + size).toNat
      omega
    · show (base + (size - 128#64) - 8#64).toNat % 16 = 8
      omega
    · show (base + (size - 128#64) - 8#64).toNat + 8 + 128 = (base + size).toNat
      omega

/-! ### The size of the stack -/

variable {k : ℕ} {config : VMThreadConfiguration} {block : BitVec 64} {m m' : AddressSpace}
  {t : Stack}

/-- The rounding, also where the sum wraps. -/
theorem alignUp_toNat_mod {v : BitVec 64} (hk : k < 64) :
    (alignUp v (BitVec.ofNat 64 (2 ^ k))).toNat =
      (v.toNat + (2 ^ k - 1)) % 2 ^ 64 / 2 ^ k * 2 ^ k := by
  have hpow : 2 ^ k < 2 ^ 64 := Nat.pow_lt_pow_right (by decide) hk
  rw [alignUp, alignDown_toNat, ofNat_two_pow, ← add_assoc, add_sub_cancel_right, BitVec.toNat_add,
    BitVec.toNat_ofNat, Nat.mod_eq_of_lt (show 2 ^ k - 1 < 2 ^ 64 by omega)]

/-- Without guard pages the stack is the block. -/
theorem initialStack_unguarded (hguard : config.enableGuardPages = false)
    (hblock : Allocated k (alignment k config) (fullStackSize k config) block m) :
    InitialStack ⟨block, .free, alignedStackSize k config⟩ ↔
      config.Fits k ∧ 128 < config.stackSize.toNat := by
  have hnot : ¬config.enableGuardPages = true := Bool.eq_false_iff.mp hguard
  have hs := config.stackSize.isLt
  -- the size is rounded up to a multiple of 16, and may wrap
  have hsize : (alignedStackSize k config).toNat =
      (config.stackSize.toNat + 15) % 2 ^ 64 / 16 * 16 := by
    rw [alignedStackSize, alignment, if_neg hnot]
    exact alignUp_toNat_mod (k := 4) (by decide)
  have haligned : 16 ∣ block.toNat := by
    have h := hblock.aligned
    rwa [alignment, if_neg hnot] at h
  have hroom := hblock.room
  rw [fullStackSize, if_neg hnot, hsize] at hroom
  rw [initialStack_iff_top, VMThreadConfiguration.Fits, if_neg hnot]
  dsimp only
  rw [hsize]
  omega

/-- If `MemoryProtect` returns, it has found the page mapped. -/
theorem mapped_of_memoryProtect {addr : BitVec 64} {page : ℕ} (hk : k < 64)
    (haddr : addr.toNat = page * 2 ^ k) (h : memoryProtect k addr (pageSize k) m = .ok m') :
    m page ≠ none := by
  rw [memoryProtect, mprotect_page hk haddr] at h
  cases hprotect : m.protect .read page 1 with
  | none =>
    rw [hprotect] at h
    cases h
  | some m₁ => exact (AddressSpace.protect_one_eq_some hprotect).1

theorem alignedStackSize_toNat_mod (hguard : config.enableGuardPages = true) (hk : k < 64) :
    (alignedStackSize k config).toNat =
      (config.stackSize.toNat + (2 ^ k - 1)) % 2 ^ 64 / 2 ^ k * 2 ^ k := by
  rw [alignedStackSize, alignment, if_pos hguard]
  exact alignUp_toNat_mod hk

theorem two_pow_split (hk : k < 64) : 2 ^ 64 = 2 ^ (64 - k) * 2 ^ k := by
  rw [← pow_add, Nat.sub_add_cancel (Nat.le_of_lt hk)]

/-- The first page of the address space is not mapped and the last one is not either, so a block
whose first page can be protected begins with neither. -/
theorem Allocated.exists_first (hguard : config.enableGuardPages = true) (hk : k < 64)
    (hblock : Allocated k (alignment k config) (fullStackSize k config) block m)
    (hnull : m 0 = none) (hlast : m (2 ^ (64 - k) - 1) = none)
    (hprotect : memoryProtect k (block + pageSize k - pageSize k) (pageSize k) m = .ok m') :
    ∃ first, block.toNat = first * 2 ^ k ∧ 0 < first ∧ first + 1 < 2 ^ (64 - k) := by
  obtain ⟨first, hfirst⟩ : 2 ^ k ∣ block.toNat := by
    have h := hblock.aligned
    rwa [alignment, if_pos hguard, pageSize_toNat hk] at h
  rw [Nat.mul_comm] at hfirst
  -- its first page was protected, so it is neither the first nor the last page of memory
  have hmapped : m first ≠ none := by
    refine mapped_of_memoryProtect hk ?_ hprotect
    rw [add_sub_cancel_right, hfirst]
  have hlt : first < 2 ^ (64 - k) := by
    have h := block.isLt
    rw [hfirst, two_pow_split hk] at h
    exact Nat.lt_of_mul_lt_mul_right h
  refine ⟨first, hfirst, Nat.pos_of_ne_zero fun h => hmapped (h ▸ hnull), ?_⟩
  refine lt_of_le_of_ne hlt fun h => hmapped ?_
  rw [← h, Nat.add_sub_cancel] at hlast
  exact hlast

/-- If there is room for a stack above some page and its guard, no size wraps. -/
theorem fits_of_room (hguard : config.enableGuardPages = true) (hk : k < 64) {first : ℕ}
    (hfirst : 0 < first) (hpos : 0 < (alignedStackSize k config).toNat)
    (hroom : (first + 1) * 2 ^ k + (alignedStackSize k config).toNat < 2 ^ 64) :
    config.Fits k ∧ 0 < config.stackSize.toNat := by
  have hsize := alignedStackSize_toNat_mod hguard hk
  have hs := config.stackSize.isLt
  have hone : 0 < 2 ^ k := Nat.two_pow_pos k
  have hwrap : config.stackSize.toNat + (2 ^ k - 1) < 2 ^ 64 := by
    have hpow : 2 ^ k < 2 ^ 64 := Nat.pow_lt_pow_right (by decide) hk
    by_contra hge
    -- a sum that wraps is below the size of a page
    have hmod : (config.stackSize.toNat + (2 ^ k - 1)) % 2 ^ 64 < 2 ^ k := by
      rw [Nat.mod_eq_sub_mod (by omega), Nat.mod_eq_of_lt (by omega)]
      omega
    rw [hsize, Nat.div_eq_of_lt hmod, Nat.zero_mul] at hpos
    exact Nat.lt_irrefl 0 hpos
  rw [Nat.mod_eq_of_lt hwrap] at hsize
  have hsome : 0 < config.stackSize.toNat := by
    by_contra hzero
    -- nothing rounds up to nothing
    rw [hsize, Nat.eq_zero_of_not_pos hzero, Nat.zero_add, Nat.div_eq_of_lt (by omega),
      Nat.zero_mul] at hpos
    exact Nat.lt_irrefl 0 hpos
  refine ⟨?_, hsome⟩
  rw [hsize, two_pow_split hk, ← Nat.add_mul] at hroom
  have hcount := Nat.lt_of_mul_lt_mul_right hroom
  have hle := Nat.lt_div_mul_add hone (a := config.stackSize.toNat + (2 ^ k - 1))
  generalize (config.stackSize.toNat + (2 ^ k - 1)) / 2 ^ k = count at hcount hle
  rw [VMThreadConfiguration.Fits, if_pos hguard]
  -- there is a page before the block, and there are the guard pages
  calc config.stackSize.toNat + 3 * 2 ^ k
    _ ≤ (count + 3) * 2 ^ k := by
      rw [Nat.add_mul]
      omega
    _ ≤ 2 ^ (64 - k) * 2 ^ k := Nat.mul_le_mul_right _ (by omega)
    _ = 2 ^ 64 := (two_pow_split hk).symm

/-- The other way round: what does not wrap has room in its block, and is a page at least. -/
theorem room_of_fits (hguard : config.enableGuardPages = true)
    (hblock : Allocated k (alignment k config) (fullStackSize k config) block m)
    (hfits : config.Fits k) (hsome : 0 < config.stackSize.toNat) :
    2 ^ k ≤ (alignedStackSize k config).toNat ∧
      (block + pageSize k).toNat + (alignedStackSize k config).toNat < 2 ^ 64 := by
  obtain ⟨first, count, hpages⟩ := hblock.exists_pages hguard hfits
  have hle := Nat.lt_div_mul_add (Nat.two_pow_pos k) (a := config.stackSize.toNat + (2 ^ k - 1))
  rw [← alignedStackSize_eq hguard hfits, hpages.stack] at hle
  -- a stack that is not empty has a page
  have hcount : 0 < count := by
    refine Nat.pos_of_ne_zero fun h => ?_
    rw [h, Nat.zero_mul] at hle
    omega
  rw [hpages.stackBottom, hpages.stack, ← Nat.add_mul]
  constructor
  · exact Nat.le_mul_of_pos_left _ hcount
  · exact lt_of_le_of_lt (Nat.mul_le_mul_right _ (by omega)) hpages.room

/-- With guard pages the stack is the block without its first page and its last one. -/
theorem initialStack_guarded (hguard : config.enableGuardPages = true) (hk : 12 ≤ k) (hk' : k < 64)
    (hblock : Allocated k (alignment k config) (fullStackSize k config) block m)
    (hnull : m 0 = none) (hlast : m (2 ^ (64 - k) - 1) = none)
    (hcreate : create k config block m = .ok (t, m')) :
    InitialStack t ↔ config.Fits k ∧ 0 < config.stackSize.toNat := by
  obtain ⟨m₁, hprotect, hcreate⟩ := bind_eq_ok.mp ((create_guarded hguard).symm.trans hcreate)
  obtain ⟨m₂, -, hcreate⟩ := bind_eq_ok.mp hcreate
  obtain ⟨rfl, rfl⟩ := Prod.mk.inj (Except.ok.inj hcreate)
  obtain ⟨first, hfirst, hpos, hlt⟩ := hblock.exists_first hguard hk' hnull hlast hprotect
  have hbottom : (block + pageSize k).toNat = (first + 1) * 2 ^ k := by
    refine add_toNat_page hfirst (by rw [pageSize_toNat hk', Nat.one_mul]) ?_
    rw [two_pow_split hk']
    exact Nat.mul_lt_mul_of_pos_right hlt (Nat.two_pow_pos k)
  -- pages are aligned as the ABI needs it, and larger than what is stored
  have haligned : 16 ∣ (block + pageSize k).toNat + (alignedStackSize k config).toNat := by
    have hdvd : 16 ∣ 2 ^ k := pow_dvd_pow 2 (show 4 ≤ k by omega)
    rw [hbottom, alignedStackSize_toNat_mod hguard hk']
    exact Nat.dvd_add (Dvd.dvd.mul_left hdvd _) (Dvd.dvd.mul_left hdvd _)
  have hpage : 2 ^ 12 ≤ 2 ^ k := Nat.pow_le_pow_right (by decide) hk
  rw [initialStack_iff_top, and_iff_left haligned]
  dsimp only
  constructor
  · rintro ⟨hlarge, hend⟩
    rw [hbottom] at hend
    exact fits_of_room hguard hk' hpos (by omega) hend
  · rintro ⟨hfits, hsome⟩
    obtain ⟨hlarge, hend⟩ := room_of_fits hguard hblock hfits hsome
    exact ⟨by omega, hend⟩

/-- **When the first stack pointer is right.** With guard pages: if the stack has any size, and the
sizes do not wrap; without: if it is larger than the red zone, and the same. -/
theorem initialStack_iff (hk : 12 ≤ k) (hk' : k < 64)
    (hblock : Allocated k (alignment k config) (fullStackSize k config) block m)
    (hnull : m 0 = none) (hlast : m (2 ^ (64 - k) - 1) = none)
    (hcreate : create k config block m = .ok (t, m')) :
    InitialStack t ↔ config.Fits k ∧
      (if config.enableGuardPages then 0 else 128) < config.stackSize.toNat := by
  by_cases hguard : config.enableGuardPages = true
  · rw [if_pos hguard]
    exact initialStack_guarded hguard hk hk' hblock hnull hlast hcreate
  · rw [create, if_neg hguard] at hcreate
    obtain ⟨rfl, rfl⟩ := Prod.mk.inj (Except.ok.inj hcreate)
    rw [if_neg hguard]
    exact initialStack_unguarded (Bool.eq_false_iff.mpr hguard) hblock

theorem initialStack_default : ∃ t m', create 12 {} 0x10000#64 heap = .ok (t, m') ∧
    (InitialStack t ↔ VMThreadConfiguration.Fits 12 {} ∧
      (if ({} : VMThreadConfiguration).enableGuardPages then 0 else 128) <
        ({} : VMThreadConfiguration).stackSize.toNat) := by
  have hcreate := pages_heap.create rfl
  exact ⟨_, _, hcreate, initialStack_iff (by decide) (by decide) allocated_heap rfl
    (if_neg (by decide)) hcreate⟩

/-- 64 bytes without guards: the return address is stored below the block. -/
theorem small_stack_underrun : ∃ t, create 12 ⟨64#64, false⟩ 0x10000#64 heap = .ok (t, heap) ∧
    ¬InitialStack t := by
  refine ⟨⟨0x10000#64, .free, 64#64⟩, rfl, fun h => ?_⟩
  have hsize := h.redZoneSize_le
  exact absurd hsize (by decide)

end VMThread

end Wasmcc
