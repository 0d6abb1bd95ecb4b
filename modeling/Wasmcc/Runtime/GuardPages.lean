import Wasmcc.Base.Stream
import Wasmcc.Basis.Pages

/-!
# The stack of a thread, and its guard pages

`VMThread::Create` allocates the stack of a thread. With guard pages it asks for two pages more,
makes the first and the last one read-only, and leaves the thread the memory between them; the
deleter of that memory gets the pages back into their old state before it frees the block.

A `VMThread.Stack` is what a thread keeps of it. While the thread lives the pages next to its stack
are read-only and no others (`create_guarded`). The deleter counts the offset of the second guard
page from the wrong pointer, and leaves it as it is (`delete_guarded`).

All sizes and addresses are of 64 bits. Pages have `2 ^ k` bytes.
-/

open Basis

namespace Wasmcc

/-- `mprotect`: `none` if the address is not that of a page, or if a page is not mapped. -/
def mprotect (k : ℕ) (addr size : BitVec 64) (prot : Access) (m : AddressSpace) :
    Option AddressSpace :=
  if addr.toNat % 2 ^ k ≠ 0 then none
  else m.protect prot (addr.toNat / 2 ^ k) ((size.toNat + (2 ^ k - 1)) / 2 ^ k)

structure VMThreadConfiguration where
  /-- The size of the native runtime stack. `kDefaultStackSize` is 64kb. -/
  stackSize : BitVec 64 := 65536#64
  enableGuardPages : Bool := true
deriving DecidableEq, Repr

namespace VMThread

def kStackAlignment : BitVec 64 := 16#64

inductive StackError where
  /-- unable to protect stack guard page -/
  | protect
  /-- An `Assert`: unable to unprotect stack guard page. -/
  | unprotect
deriving DecidableEq, Repr

def memoryProtect (k : ℕ) (addr size : BitVec 64) (m : AddressSpace) :
    Except StackError AddressSpace :=
  match mprotect k addr size .read m with
  | some m => .ok m
  | none => .error .protect

def memoryUnprotect (k : ℕ) (addr size : BitVec 64) (m : AddressSpace) :
    Except StackError AddressSpace :=
  match mprotect k addr size .readWrite m with
  | some m => .ok m
  | none => .error .unprotect

/-- What the deleter of a stack's memory has captured. -/
inductive Deleter where
  /-- `std::free` -/
  | free
  | guarded (alignedStackSize pageSize : BitVec 64)
deriving DecidableEq, Repr

/-- The members of a `VMThread` that have to do with its stack. -/
structure Stack where
  stackMemory : BitVec 64
  deleter : Deleter
  stackSize : BitVec 64
deriving DecidableEq, Repr

/-- The result of `getpagesize()`. -/
def pageSize (k : ℕ) : BitVec 64 := BitVec.ofNat 64 (2 ^ k)

/-- What the size of the stack is rounded up to, and `std::aligned_alloc` asked for. -/
def alignment (k : ℕ) (config : VMThreadConfiguration) : BitVec 64 :=
  if config.enableGuardPages then pageSize k else kStackAlignment

def alignedStackSize (k : ℕ) (config : VMThreadConfiguration) : BitVec 64 :=
  alignUp config.stackSize (alignment k config)

/-- The bytes that `std::aligned_alloc` is asked for. -/
def fullStackSize (k : ℕ) (config : VMThreadConfiguration) : BitVec 64 :=
  if config.enableGuardPages then alignedStackSize k config + pageSize k * 2
  else alignedStackSize k config

/-- `VMThread::Create`. `block` is what `std::aligned_alloc` returns. -/
def create (k : ℕ) (config : VMThreadConfiguration) (block : BitVec 64) (m : AddressSpace) :
    Except StackError (Stack × AddressSpace) :=
  let stackSize := alignedStackSize k config
  if config.enableGuardPages then do
    let stackMemory := block + pageSize k
    let m ← memoryProtect k (stackMemory - pageSize k) (pageSize k) m
    let m ← memoryProtect k (stackMemory + stackSize) (pageSize k) m
    return ({ stackMemory, deleter := .guarded stackSize (pageSize k), stackSize }, m)
  else
    return ({ stackMemory := block, deleter := .free, stackSize }, m)

namespace Stack

def stackBottom (t : Stack) : BitVec 64 := t.stackMemory

def stackTop (t : Stack) : BitVec 64 := t.stackMemory + t.stackSize

/-- The deleter, up to the call of `std::free`. -/
def delete (k : ℕ) (t : Stack) (m : AddressSpace) : Except StackError AddressSpace :=
  let p := t.stackMemory
  match t.deleter with
  | .free => return m
  | .guarded alignedStackSize pageSize => do
    let m ← memoryUnprotect k (p - pageSize) pageSize m
    memoryUnprotect k (p + alignedStackSize - pageSize) pageSize m

end Stack

end VMThread

/-- No computation of a size wraps: neither the rounding, nor the sum with the guard pages. -/
def VMThreadConfiguration.Fits (k : ℕ) (config : VMThreadConfiguration) : Prop :=
  if config.enableGuardPages then config.stackSize.toNat + 3 * 2 ^ k ≤ 2 ^ 64
  else config.stackSize.toNat + 15 < 2 ^ 64

instance (k : ℕ) (config : VMThreadConfiguration) : Decidable (config.Fits k) := by
  unfold VMThreadConfiguration.Fits
  infer_instance

namespace VMThread

/-- What `std::aligned_alloc` promises of its block: it is aligned as requested, one past its end is
an address, and its pages can be read and written. -/
structure Allocated (k : ℕ) (alignment size block : BitVec 64) (m : AddressSpace) : Prop where
  aligned : alignment.toNat ∣ block.toNat
  room : block.toNat + size.toNat < 2 ^ 64
  writable : ∀ page, block.toNat ≤ page * 2 ^ k →
    (page + 1) * 2 ^ k ≤ block.toNat + size.toNat → m page = some .readWrite

/-- What guard pages are meant to be: from before `Create` (`m₀`), through the life of the thread
(`m₁`), to the call of `std::free` (`m₂`). -/
structure GuardsUndone (k : ℕ) (config : VMThreadConfiguration) (block : BitVec 64) (t : Stack)
    (m₀ m₁ m₂ : AddressSpace) : Prop where
  /-- The read-only pages are the one below the stack and the one above it. -/
  live : AddressSpace.turned .readWrite .read m₀ m₁ =
    {t.stackBottom.toNat / 2 ^ k - 1, t.stackTop.toNat / 2 ^ k}
  /-- What the deleter makes writable is what `Create` made read-only. -/
  same : AddressSpace.turned .read .readWrite m₁ m₂ = AddressSpace.turned .readWrite .read m₀ m₁
  /-- The block is freed as it was allocated. -/
  freed : ∀ page, block.toNat ≤ page * 2 ^ k →
    (page + 1) * 2 ^ k ≤ block.toNat + (fullStackSize k config).toNat → m₂ page = some .readWrite

/-! ### Sizes and addresses -/

variable {k : ℕ} {config : VMThreadConfiguration} {block addr : BitVec 64} {m m' : AddressSpace}

theorem pageSize_toNat (hk : k < 64) : (pageSize k).toNat = 2 ^ k := by
  rw [pageSize, BitVec.toNat_ofNat, Nat.mod_eq_of_lt (Nat.pow_lt_pow_right (by decide) hk)]

theorem lt_of_fits (hguard : config.enableGuardPages = true) (h : config.Fits k) : k < 64 := by
  rw [VMThreadConfiguration.Fits, if_pos hguard] at h
  by_contra hk
  have hpow : 2 ^ 64 ≤ 2 ^ k := Nat.pow_le_pow_right (by decide) (Nat.le_of_not_lt hk)
  omega

/-- The stack has a whole number of pages. -/
theorem alignedStackSize_eq (hguard : config.enableGuardPages = true) (h : config.Fits k) :
    (alignedStackSize k config).toNat = (config.stackSize.toNat + (2 ^ k - 1)) / 2 ^ k * 2 ^ k := by
  rw [VMThreadConfiguration.Fits, if_pos hguard] at h
  have hpos : 0 < 2 ^ k := Nat.two_pow_pos k
  rw [alignedStackSize, alignment, if_pos hguard]
  exact alignUp_toNat config.stackSize (by omega)

/-- What `Create` does if there are guard pages. -/
theorem create_guarded (hguard : config.enableGuardPages = true) : create k config block m =
    memoryProtect k (block + pageSize k - pageSize k) (pageSize k) m >>= fun m' =>
      memoryProtect k (block + pageSize k + alignedStackSize k config) (pageSize k) m' >>=
        fun m'' =>
        .ok (⟨block + pageSize k, .guarded (alignedStackSize k config) (pageSize k),
          alignedStackSize k config⟩, m'') := by
  rw [create, if_pos hguard]
  rfl

/-- One page. -/
theorem mprotect_page (hk : k < 64) {page : ℕ} (haddr : addr.toNat = page * 2 ^ k) (prot : Access)
    (m : AddressSpace) : mprotect k addr (pageSize k) prot m = m.protect prot page 1 := by
  have hpos : 0 < 2 ^ k := Nat.two_pow_pos k
  have hcount : (2 ^ k + (2 ^ k - 1)) / 2 ^ k = 1 := by
    rw [Nat.add_div_left _ hpos, Nat.div_eq_of_lt (by omega)]
  rw [mprotect, haddr, Nat.mul_mod_left, if_neg (not_not_intro rfl), pageSize_toNat hk, hcount,
    Nat.mul_div_cancel _ hpos]

theorem memoryProtect_page (hk : k < 64) {page : ℕ} (haddr : addr.toNat = page * 2 ^ k)
    (h : m page ≠ none) :
    memoryProtect k addr (pageSize k) m = .ok (Function.update m page (some .read)) := by
  rw [memoryProtect, mprotect_page hk haddr, AddressSpace.protect_one h]

theorem memoryUnprotect_page (hk : k < 64) {page : ℕ} (haddr : addr.toNat = page * 2 ^ k)
    (h : m page ≠ none) :
    memoryUnprotect k addr (pageSize k) m = .ok (Function.update m page (some .readWrite)) := by
  rw [memoryUnprotect, mprotect_page hk haddr, AddressSpace.protect_one h]

theorem add_toNat_page {a b : BitVec 64} {p q : ℕ} (ha : a.toNat = p * 2 ^ k)
    (hb : b.toNat = q * 2 ^ k) (h : (p + q) * 2 ^ k < 2 ^ 64) :
    (a + b).toNat = (p + q) * 2 ^ k := by
  rw [BitVec.toNat_add, ha, hb, ← Nat.add_mul, Nat.mod_eq_of_lt h]

/-- The pages of a block: a guard, those of the stack, and a guard. -/
structure Pages (k : ℕ) (config : VMThreadConfiguration) (block : BitVec 64) (m : AddressSpace)
    (first count : ℕ) : Prop where
  lt : k < 64
  block : block.toNat = first * 2 ^ k
  stack : (alignedStackSize k config).toNat = count * 2 ^ k
  full : (fullStackSize k config).toNat = (count + 2) * 2 ^ k
  room : (first + (count + 2)) * 2 ^ k < 2 ^ 64
  writable : ∀ page, first ≤ page → page < first + (count + 2) → m page = some .readWrite

theorem Allocated.exists_pages (hguard : config.enableGuardPages = true) (hfits : config.Fits k)
    (hblock : Allocated k (alignment k config) (fullStackSize k config) block m) :
    ∃ first count, Pages k config block m first count := by
  have hk : k < 64 := lt_of_fits hguard hfits
  have hpage : (pageSize k).toNat = 2 ^ k := pageSize_toNat hk
  have hpos : 0 < 2 ^ k := Nat.two_pow_pos k
  have hstack := alignedStackSize_eq hguard hfits
  rw [VMThreadConfiguration.Fits, if_pos hguard] at hfits
  obtain ⟨first, hfirst⟩ : 2 ^ k ∣ block.toNat := by
    have haligned := hblock.aligned
    rwa [alignment, if_pos hguard, hpage] at haligned
  generalize hcount : (config.stackSize.toNat + (2 ^ k - 1)) / 2 ^ k = count at hstack
  -- the sum with the guard pages does not wrap
  have hle : count * 2 ^ k ≤ config.stackSize.toNat + (2 ^ k - 1) := by
    rw [← hcount]
    exact Nat.div_mul_le_self _ _
  have hfull : (fullStackSize k config).toNat = (count + 2) * 2 ^ k := by
    have htwo : (pageSize k * 2).toNat = 2 * 2 ^ k := by
      rw [BitVec.toNat_mul, hpage, Nat.mul_comm, show (2 : BitVec 64).toNat = 2 from rfl,
        Nat.mod_eq_of_lt (by omega)]
    rw [fullStackSize, if_pos hguard]
    refine add_toNat_page hstack htwo ?_
    rw [Nat.add_mul]
    omega
  have hroom := hblock.room
  rw [hfirst, hfull, Nat.mul_comm, ← Nat.add_mul] at hroom
  refine ⟨first, count, hk, by rw [hfirst, Nat.mul_comm], hstack, hfull, hroom, ?_⟩
  intro page hge hlt
  apply hblock.writable page
  · rw [hfirst, Nat.mul_comm]
    exact Nat.mul_le_mul_right _ hge
  · rw [hfirst, hfull, Nat.mul_comm (2 ^ k), ← Nat.add_mul]
    exact Nat.mul_le_mul_right _ hlt

namespace Pages

variable {first count : ℕ}

theorem stackBottom (h : Pages k config block m first count) :
    (block + pageSize k).toNat = (first + 1) * 2 ^ k := by
  refine add_toNat_page h.block (by rw [pageSize_toNat h.lt, Nat.one_mul]) ?_
  exact lt_of_le_of_lt (Nat.mul_le_mul_right _ (by omega)) h.room

theorem stackTop (h : Pages k config block m first count) :
    (block + pageSize k + alignedStackSize k config).toNat = (first + 1 + count) * 2 ^ k := by
  refine add_toNat_page h.stackBottom h.stack ?_
  exact lt_of_le_of_lt (Nat.mul_le_mul_right _ (by omega)) h.room

/-- **`Create` with guard pages** makes the first page of the block read-only, and the last one. -/
theorem create (h : Pages k config block m first count) (hguard : config.enableGuardPages = true) :
    VMThread.create k config block m = .ok
      (⟨block + pageSize k, .guarded (alignedStackSize k config) (pageSize k),
        alignedStackSize k config⟩,
      Function.update (Function.update m first (some .read)) (first + 1 + count) (some .read)) := by
  have hfirst : m first ≠ none := by
    rw [h.writable first le_rfl (by omega)]
    exact Option.some_ne_none _
  have hlast : Function.update m first (some Access.read) (first + 1 + count) ≠ none := by
    rw [Function.update_of_ne (by omega), h.writable _ (by omega) (by omega)]
    exact Option.some_ne_none _
  -- the first guard page is the first page of the block
  have hbelow : (block + pageSize k - pageSize k).toNat = first * 2 ^ k := by
    rw [add_sub_cancel_right, h.block]
  rw [create_guarded hguard, memoryProtect_page h.lt hbelow hfirst]
  dsimp only [bind, Except.bind]
  rw [memoryProtect_page h.lt h.stackTop hlast]

/-- **The deleter** makes the first page of the block writable, and the last page of the stack,
which has been so all the time. -/
theorem delete (h : Pages k config block m first count) (hfirst : m' first ≠ none)
    (hlast : m' (first + count) ≠ none) :
    Stack.delete k ⟨block + pageSize k, .guarded (alignedStackSize k config) (pageSize k),
      alignedStackSize k config⟩ m' = .ok
      (Function.update (Function.update m' first (some .readWrite)) (first + count)
        (some .readWrite)) := by
  have hbelow : (block + pageSize k - pageSize k).toNat = first * 2 ^ k := by
    rw [add_sub_cancel_right, h.block]
  -- the offset is counted from the stack, not from the block
  have hlastPage : (block + pageSize k + alignedStackSize k config - pageSize k).toNat =
      (first + count) * 2 ^ k := by
    rw [add_right_comm, add_sub_cancel_right]
    refine add_toNat_page h.block h.stack ?_
    exact lt_of_le_of_lt (Nat.mul_le_mul_right _ (by omega)) h.room
  have hlast' : Function.update m' first (some Access.readWrite) (first + count) ≠ none := by
    by_cases heq : first + count = first
    · rw [heq, Function.update_self]
      exact Option.some_ne_none _
    · rwa [Function.update_of_ne heq]
  rw [Stack.delete]
  dsimp only
  rw [memoryUnprotect_page h.lt hbelow hfirst]
  dsimp only [bind, Except.bind]
  rw [memoryUnprotect_page h.lt hlastPage hlast']

/-- **While the thread lives**, the pages next to its stack are read-only, and no others. -/
theorem live (h : Pages k config block m first count) :
    AddressSpace.turned .readWrite .read m
      (Function.update (Function.update m first (some .read)) (first + 1 + count) (some .read)) =
    {first, first + 1 + count} := by
  have hfirst : m first = some .readWrite := h.writable first le_rfl (by omega)
  have hlast : m (first + 1 + count) = some .readWrite := h.writable _ (by omega) (by omega)
  ext page
  rw [AddressSpace.mem_turned_iff, Set.mem_insert_iff, Set.mem_singleton_iff]
  constructor
  · rintro ⟨hbefore, hafter⟩
    -- any other page was not touched, so it is writable still
    by_contra hne
    obtain ⟨hne₁, hne₂⟩ := not_or.mp hne
    rw [Function.update_of_ne hne₂, Function.update_of_ne hne₁, hbefore] at hafter
    cases hafter
  · rintro (rfl | rfl)
    · rw [Function.update_of_ne (by omega), Function.update_self]
      exact ⟨hfirst, rfl⟩
    · rw [Function.update_self]
      exact ⟨hlast, rfl⟩

/-- **Creation and destruction**: the guard above the stack is read-only when the block is freed. -/
theorem not_undone (h : Pages k config block m first count)
    (hguard : config.enableGuardPages = true) :
    ∃ t m₁ m₂, VMThread.create k config block m = .ok (t, m₁) ∧ t.delete k m₁ = .ok m₂ ∧
      AddressSpace.turned .readWrite .read m m₁ =
        {t.stackBottom.toNat / 2 ^ k - 1, t.stackTop.toNat / 2 ^ k} ∧
      m₂ (t.stackTop.toNat / 2 ^ k) = some .read ∧ ¬GuardsUndone k config block t m m₁ m₂ := by
  have hpos : 0 < 2 ^ k := Nat.two_pow_pos k
  have hbottom : (block + pageSize k).toNat / 2 ^ k = first + 1 := by
    rw [h.stackBottom, Nat.mul_div_cancel _ hpos]
  have htop : (block + pageSize k + alignedStackSize k config).toNat / 2 ^ k =
      first + 1 + count := by
    rw [h.stackTop, Nat.mul_div_cancel _ hpos]
  -- both pages that the deleter comes to are mapped
  have hmapped (page : ℕ) (hge : first ≤ page) (hle : page ≤ first + count) :
      Function.update (Function.update m first (some Access.read)) (first + 1 + count)
        (some .read) page ≠ none := by
    rw [Function.update_of_ne (by omega)]
    by_cases heq : page = first
    · rw [heq, Function.update_self]
      exact Option.some_ne_none _
    · rw [Function.update_of_ne heq, h.writable page hge (by omega)]
      exact Option.some_ne_none _
  have hread : Function.update (Function.update (Function.update (Function.update m first
      (some Access.read)) (first + 1 + count) (some .read)) first (some .readWrite))
      (first + count) (some .readWrite) (first + 1 + count) = some .read := by
    rw [Function.update_of_ne (by omega), Function.update_of_ne (by omega), Function.update_self]
  refine ⟨_, _, _, h.create hguard, h.delete (hmapped _ le_rfl (by omega))
    (hmapped _ (by omega) le_rfl), ?_, ?_, fun hundone => ?_⟩
  · rw [Stack.stackBottom, Stack.stackTop, hbottom, htop, h.live, Nat.add_sub_cancel]
  · rw [Stack.stackTop, htop]
    exact hread
  · -- the guard above the stack is a page of the block
    have hfreed := hundone.freed (first + 1 + count)
      (by rw [h.block]; exact Nat.mul_le_mul_right _ (by omega))
      (by rw [h.block, h.full, ← Nat.add_mul]; exact Nat.mul_le_mul_right _ (by omega))
    rw [hread] at hfreed
    cases hfreed

end Pages

/-- **Guard pages are never undone**, whatever the size of the stack and of a page. -/
theorem guards_not_undone (hguard : config.enableGuardPages = true) (hfits : config.Fits k)
    (hblock : Allocated k (alignment k config) (fullStackSize k config) block m) :
    ∃ t m₁ m₂, create k config block m = .ok (t, m₁) ∧ t.delete k m₁ = .ok m₂ ∧
      AddressSpace.turned .readWrite .read m m₁ =
        {t.stackBottom.toNat / 2 ^ k - 1, t.stackTop.toNat / 2 ^ k} ∧
      m₂ (t.stackTop.toNat / 2 ^ k) = some .read ∧ ¬GuardsUndone k config block t m m₁ m₂ := by
  obtain ⟨first, count, hpages⟩ := hblock.exists_pages hguard hfits
  exact hpages.not_undone hguard

/-- The heap with one block: for a stack of 64kb and its guard pages. -/
def heap : AddressSpace := fun page => if 16 ≤ page ∧ page < 34 then some .readWrite else none

theorem allocated_heap :
    Allocated 12 (alignment 12 {}) (fullStackSize 12 {}) 0x10000#64 heap := by
  refine ⟨by decide, by decide, fun page hge hle => if_pos ?_⟩
  have hblock : (0x10000#64 : BitVec 64).toNat = 65536 := rfl
  have hfull : (fullStackSize 12 {}).toNat = 73728 := rfl
  rw [hblock] at hge hle
  rw [hfull] at hle
  omega

theorem pages_heap : Pages 12 {} 0x10000#64 heap 16 16 where
  lt := by decide
  block := rfl
  stack := rfl
  full := rfl
  room := by decide
  writable _ hge hlt := if_pos ⟨hge, hlt⟩

theorem guards_not_undone_default : ∃ t m₁ m₂, create 12 {} 0x10000#64 heap = .ok (t, m₁) ∧
    t.delete 12 m₁ = .ok m₂ ∧ AddressSpace.turned .readWrite .read heap m₁ =
      {t.stackBottom.toNat / 2 ^ 12 - 1, t.stackTop.toNat / 2 ^ 12} ∧
    m₂ (t.stackTop.toNat / 2 ^ 12) = some .read ∧
    ¬GuardsUndone 12 {} 0x10000#64 t heap m₁ m₂ :=
  guards_not_undone rfl (by decide) allocated_heap

/-- The default configuration: page 33 stays read-only. -/
theorem top_guard_left : ∃ t m₁ m₂, create 12 {} 0x10000#64 heap = .ok (t, m₁) ∧
    t.delete 12 m₁ = .ok m₂ ∧ ¬GuardsUndone 12 {} 0x10000#64 t heap m₁ m₂ := by
  obtain ⟨t, m₁, m₂, hcreate, hdelete, -, -, hnot⟩ := pages_heap.not_undone rfl
  exact ⟨t, m₁, m₂, hcreate, hdelete, hnot⟩

end VMThread

end Wasmcc
