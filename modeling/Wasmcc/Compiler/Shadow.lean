import Wasmcc.Compiler.Compiled
import Wasmcc.Compiler.Machine
import Wasmcc.Core.StackMachine

/-!
# Runs that stay clear of the compilers' defects

Compiled code computes what the body means only as long as it stays clear of what the compilers get
wrong. A `Shadow` follows an execution of a body by the stack machine and remembers, next to the
operands and the locals, what the code has put into the memory slot of each local and what the
carry flag is. `ClearFrom` is then a condition on a body and its arguments:

* a push finds a register, so that nothing spills: the spill loop shifts the values that it spills
  from one register to the next;
* an addition on x86-64 finds the carry flag clear: `adc` adds it;
* `GetLocalI32` finds the value of the local in its slot: declared locals are not zeroed, a
  `SetLocalI32` on x86-64 stores eight bytes and clears the slot after its own, and on AArch64 it
  stores nothing;
* the code after the first `Return` leaves the result where it is (`DeadClear`): it goes on from the
  stack of the `Return`.

`Compiler/Correct.lean` proves that clear runs are compiled correctly.
-/

namespace Wasmcc

/-- What a `Shadow` has to know of an architecture. -/
structure Arch where
  /-- How many registers are allocated. -/
  registers : ℕ
  addsCarry : Bool
  storesLocals : Bool

def Target.arch {ι : Type} (t : Target ι) : Arch :=
  ⟨t.callerSaved.toList.length, t.addsCarry, t.storesLocals⟩

structure Shadow where
  /-- The operands, the top first. -/
  stack : List (BitVec 32)
  locals : List (BitVec 32)
  /-- What is known to be in the slot of each local. -/
  slots : List (Option (BitVec 32))
  carry : Bool

namespace Shadow

/-- The state of the stack machine that is followed. -/
def machine (sh : Shadow) : StackMachine := ⟨sh.stack.map .i32, sh.locals.map .i32⟩

/-- After the prologue the slots of the parameters are filled, and nothing is known of the
others. -/
def start (args : List (BitVec 32)) (locals : ℕ) : Shadow where
  stack := []
  locals := args ++ List.replicate locals 0
  slots := args.map some ++ List.replicate locals none
  carry := false

def after (arch : Arch) (sh : Shadow) : Instruction → Shadow
  | .constI32 value => { sh with stack := value.asI32 :: sh.stack }
  | .addI32 =>
    match sh.stack with
    | y :: x :: rest => { sh with
        stack := (x + y) :: rest
        carry := if arch.addsCarry then decide (2 ^ 32 ≤ x.toNat + y.toNat) else sh.carry }
    | _ => sh
  | .getLocalI32 idx => { sh with stack := sh.locals.getD idx 0 :: sh.stack }
  | .setLocalI32 idx =>
    match sh.stack with
    | v :: rest => { sh with
        stack := rest
        locals := sh.locals.set idx v
        slots := if arch.storesLocals then (sh.slots.set idx (some v)).set (idx + 1) (some 0)
          else sh.slots }
    | [] => sh
  | .return_ | .label _ | .br _ | .brIf _ _ => sh

def Clear (arch : Arch) (capacity : ℕ) (sh : Shadow) : Instruction → Prop
  | .constI32 _ => sh.stack.length < min arch.registers capacity
  | .addI32 => arch.addsCarry = true → sh.carry = false
  | .getLocalI32 idx => sh.stack.length < min arch.registers capacity ∧
      sh.slots[idx]? = some (some (sh.locals.getD idx 0))
  | .setLocalI32 _ | .return_ | .label _ | .br _ | .brIf _ _ => True

instance (arch : Arch) (capacity : ℕ) (sh : Shadow) :
    (i : Instruction) → Decidable (sh.Clear arch capacity i)
  | .constI32 _ => inferInstanceAs (Decidable (_ < _))
  | .addI32 => inferInstanceAs (Decidable (_ → _))
  | .getLocalI32 _ => inferInstanceAs (Decidable (_ ∧ _))
  | .setLocalI32 _ | .return_ | .label _ | .br _ | .brIf _ _ => inferInstanceAs (Decidable True)

end Shadow

/-! ### Dead code -/

namespace Instruction

/-- An instruction that leaves the lowest element of the stack alone, with room for `room`
elements. -/
def FitsAbove (room depth : ℕ) : Instruction → Prop
  | .constI32 _ | .getLocalI32 _ => depth < room
  | .addI32 | .setLocalI32 _ => 2 ≤ depth
  | .return_ | .label _ | .br _ | .brIf _ _ => True

instance (room depth : ℕ) : (i : Instruction) → Decidable (i.FitsAbove room depth)
  | .constI32 _ | .getLocalI32 _ => inferInstanceAs (Decidable (_ < _))
  | .addI32 | .setLocalI32 _ => inferInstanceAs (Decidable (_ ≤ _))
  | .return_ | .label _ | .br _ | .brIf _ _ => inferInstanceAs (Decidable True)

/-- Code that leaves the lowest element alone, and leaves nothing on top of it. -/
def KeepsResult (room : ℕ) : ℕ → List Instruction → Prop
  | depth, [] => depth = 1
  | depth, i :: is => i.FitsAbove room depth ∧ KeepsResult room (i.depthAfter depth) is

instance instDecidableKeepsResult (room : ℕ) :
    (depth : ℕ) → (body : List Instruction) → Decidable (KeepsResult room depth body)
  | depth, [] => inferInstanceAs (Decidable (depth = 1))
  | depth, i :: is =>
    have := instDecidableKeepsResult room (i.depthAfter depth) is
    inferInstanceAs (Decidable (_ ∧ _))

end Instruction

/-- What may follow the first `Return`, on a stack of `depth` elements: without a result anything
that fits, and with one what keeps it. -/
def DeadClear (arch : Arch) (capacity results depth : ℕ) (dead : List Instruction) : Prop :=
  if results = 0 then Instruction.FitsAll capacity 0 depth dead
  else Instruction.KeepsResult (min arch.registers capacity) depth dead

instance (arch : Arch) (capacity results depth : ℕ) (dead : List Instruction) :
    Decidable (DeadClear arch capacity results depth dead) :=
  inferInstanceAs (Decidable (if results = 0 then Instruction.FitsAll capacity 0 depth dead
    else Instruction.KeepsResult (min arch.registers capacity) depth dead))

/-- **A clear run** of a body from a shadow, with a compile-time stack of `capacity` elements. -/
def ClearFrom (arch : Arch) (capacity results : ℕ) : Shadow → List Instruction → Prop
  | _, [] => True
  | sh, .return_ :: dead => DeadClear arch capacity results sh.stack.length dead
  | sh, i :: is => sh.Clear arch capacity i ∧
      ClearFrom arch capacity results (sh.after arch i) is

theorem clearFrom_cons {arch : Arch} {capacity results : ℕ} {sh : Shadow} {i : Instruction}
    (hi : i ≠ .return_) (is : List Instruction) :
    ClearFrom arch capacity results sh (i :: is) ↔ sh.Clear arch capacity i ∧
      ClearFrom arch capacity results (sh.after arch i) is := by
  rw [ClearFrom]
  exact hi

instance instDecidableClearFrom (arch : Arch) (capacity results : ℕ) :
    (sh : Shadow) → (body : List Instruction) →
      Decidable (ClearFrom arch capacity results sh body)
  | _, [] => inferInstanceAs (Decidable True)
  | sh, i :: is =>
    have := instDecidableClearFrom arch capacity results (sh.after arch i) is
    if hi : i = .return_ then
      decidable_of_iff (DeadClear arch capacity results sh.stack.length is) (by rw [hi, ClearFrom])
    else decidable_of_iff _ (clearFrom_cons hi is).symm

/-- Code that keeps the result fits. -/
theorem Instruction.KeepsResult.fitsAll {room capacity : ℕ} (hroom : room ≤ capacity)
    {body : List Instruction} : ∀ {depth : ℕ}, KeepsResult room depth body →
      FitsAll capacity 1 depth body := by
  induction body with
  | nil => exact fun h => (show _ = 1 from h).ge
  | cons i is ih =>
    intro depth h
    refine ⟨?_, ih h.2⟩
    have hi := h.1
    -- the room is within the capacity, and what is kept is more than what is popped
    cases i with
    | constI32 value => exact lt_of_lt_of_le hi hroom
    | getLocalI32 idx => exact lt_of_lt_of_le hi hroom
    | addI32 => exact hi
    | setLocalI32 idx => exact le_trans (by norm_num) (show 2 ≤ depth from hi)
    | return_ => trivial
    | label id => trivial
    | br id => trivial
    | brIf c e => trivial

/-! ### A shadow follows the stack machine -/

namespace Shadow

variable {sh : Shadow} {arch : Arch}

theorem machine_stack_cons {x : BitVec 32} {rest : List WasmValue}
    (h : sh.machine.stack = .i32 x :: rest) :
    ∃ xs, sh.stack = x :: xs ∧ rest = xs.map .i32 := by
  change sh.stack.map WasmValue.i32 = _ at h
  cases hs : sh.stack with
  | nil => rw [hs] at h; cases h
  | cons y ys =>
    rw [hs, List.map_cons] at h
    obtain ⟨h1, h2⟩ := List.cons.inj h
    exact ⟨ys, by rw [WasmValue.i32.inj h1], h2.symm⟩

/-- **One step of the stack machine** is one step of its shadow. -/
theorem machine_after (arch : Arch) {i : Instruction} (hcore : i.isCore = true) {m : StackMachine}
    (h : sh.machine.step i = .ok m) : m = (sh.after arch i).machine := by
  cases i with
  | constI32 value => exact (Except.ok.inj h).symm
  | addI32 =>
    obtain ⟨⟨y, m₁⟩, h1, h2⟩ := bind_eq_ok.mp h
    obtain ⟨⟨x, m₂⟩, h3, h4⟩ := bind_eq_ok.mp h2
    obtain ⟨hy, hl1⟩ := StackMachine.popI32_eq_ok h1
    obtain ⟨hx, hl2⟩ := StackMachine.popI32_eq_ok h3
    -- the operands of the machine are the values of the shadow stack
    obtain ⟨xs, hs, hxs⟩ := machine_stack_cons hy
    rw [hx] at hxs
    cases xs with
    | nil => cases hxs
    | cons x' rest =>
      obtain ⟨hxx, hrest⟩ := List.cons.inj hxs
      obtain rfl := WasmValue.i32.inj hxx
      obtain rfl := Except.ok.inj h4
      rw [after, hs, machine, StackMachine.push, List.map_cons, ← hrest, hl2, hl1]
      rfl
  | getLocalI32 idx =>
    obtain ⟨v, h1, h2⟩ := bind_eq_ok.mp h
    obtain rfl := Except.ok.inj h2
    have hv := StackMachine.localI32_eq_ok h1
    change (sh.locals.map WasmValue.i32)[idx]? = _ at hv
    rw [List.getElem?_map, Option.map_eq_some_iff] at hv
    obtain ⟨w, hw, hwv⟩ := hv
    obtain rfl := WasmValue.i32.inj hwv
    rw [after, List.getD_eq_getElem?_getD, hw]
    rfl
  | setLocalI32 idx =>
    obtain ⟨⟨v, m₁⟩, h1, h2⟩ := bind_eq_ok.mp h
    obtain ⟨w, h3, h4⟩ := bind_eq_ok.mp h2
    obtain ⟨hv, hl⟩ := StackMachine.popI32_eq_ok h1
    obtain ⟨xs, hs, hxs⟩ := machine_stack_cons hv
    obtain rfl := Except.ok.inj h4
    rw [after, hs, machine, List.map_set, ← hxs, hl]
    rfl
  | return_ => exact (Except.ok.inj h).symm
  | label id => cases hcore
  | br id => cases hcore
  | brIf c e => cases hcore

theorem length_stack_after (arch : Arch) {capacity : ℕ} {i : Instruction}
    (h : i.Fits capacity sh.stack.length) :
    (sh.after arch i).stack.length = i.depthAfter sh.stack.length := by
  cases i with
  | constI32 value => rfl
  | addI32 =>
    -- an instruction that fits finds its operands
    have hd : 2 ≤ sh.stack.length := h
    obtain ⟨y, ys, hs⟩ := List.exists_cons_of_length_pos (show 0 < sh.stack.length by omega)
    rw [hs, List.length_cons] at hd
    obtain ⟨x, rest, rfl⟩ := List.exists_cons_of_length_pos (show 0 < ys.length by omega)
    rw [after, hs]
    rfl
  | getLocalI32 idx => rfl
  | setLocalI32 idx =>
    obtain ⟨v, rest, hs⟩ := List.exists_cons_of_length_pos (show 0 < sh.stack.length from h)
    rw [after, hs]
    rfl
  | return_ => rfl
  | label id => rfl
  | br id => rfl
  | brIf c e => rfl

/-- A clear push has room in the compile-time stack. -/
theorem Clear.fits {capacity capacity' : ℕ} {i : Instruction} (h : sh.Clear arch capacity i)
    (hfit : i.Fits capacity' sh.stack.length) : i.Fits capacity sh.stack.length := by
  cases i with
  | constI32 value => exact lt_of_lt_of_le h (min_le_right _ _)
  | getLocalI32 idx => exact lt_of_lt_of_le h.1 (min_le_right _ _)
  | addI32 => exact hfit
  | setLocalI32 idx => exact hfit
  | return_ => trivial
  | label id => trivial
  | br id => trivial
  | brIf c e => trivial

end Shadow

end Wasmcc
