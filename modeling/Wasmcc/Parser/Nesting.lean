import Mathlib.Logic.Relation
import Wasmcc.Parser.Reading

/-!
# Nested blocks and a flat loop

`Instrs` are the instruction sequences of the binary format that `ParseExpression` has cases for: a
block type follows the opcode of an `if`, and an `end` closes it. The loop of `ParseExpression`
reads opcodes one after the other, up to the first `0x0B`.

It reads a plain instruction with its immediate (`parseNextOp_op`), so without an `if` it ends at
the right `0x0B`. After the opcode of an `if` it is at the block type and reads the next opcode
there (`parseNextOp_if`). `endsAtItsEnd_iff` says which expressions are read as they were written:
those without an `if`, and those that are refused before they come to one.
-/

open Basis

namespace Wasmcc

open Reader
open Leb128 (EncodedInt)

/-! ### The format -/

/-- A type index is written as a signed number of 33 bits, which is not negative. -/
inductive EncodedBlockType where
  | empty
  | val (vt : ValType)
  | index (x : EncodedInt true 33) (h : 0 ≤ groupsValue true x.bytes)

def EncodedBlockType.encode : EncodedBlockType → List Byte
  | empty => [0x40#8]
  | val vt => [vt.byte]
  | index x _ => x.bytes

/-- The instructions that are no blocks. -/
inductive PlainInstr where
  | i32Const (n : EncodedInt true 32)
  | i32Add
  | localGet (x : EncodedInt false 32)
  | localSet (x : EncodedInt false 32)
  | return_

def PlainInstr.encode : PlainInstr → List Byte
  | i32Const n => 0x41#8 :: n.bytes
  | i32Add => [0x6A#8]
  | localGet x => 0x20#8 :: x.bytes
  | localSet x => 0x21#8 :: x.bytes
  | return_ => [0x0F#8]

/-- A sequence of instructions. Those of a block stand before those that follow it. -/
inductive Instrs where
  | nil
  | plain (i : PlainInstr) (rest : Instrs)
  | if_ (type : EncodedBlockType) (then_ rest : Instrs)
  | ifElse (type : EncodedBlockType) (then_ else_ rest : Instrs)

namespace Instrs

def encode : Instrs → List Byte
  | nil => []
  | plain i rest => i.encode ++ rest.encode
  | if_ type then_ rest => 0x04#8 :: (type.encode ++ (then_.encode ++ 0x0B#8 :: rest.encode))
  | ifElse type then_ else_ rest =>
    0x04#8 :: (type.encode ++ (then_.encode ++ 0x05#8 :: (else_.encode ++ 0x0B#8 :: rest.encode)))

/-- Where the block types are, if the sequence is at a position. -/
def blockTypes : ℕ → Instrs → List ℕ
  | _, nil => []
  | n, plain i rest => blockTypes (n + i.encode.length) rest
  | n, if_ type then_ rest =>
    let body := n + 1 + type.encode.length
    (n + 1) :: (blockTypes body then_ ++ blockTypes (body + then_.encode.length + 1) rest)
  | n, ifElse type then_ else_ rest =>
    let body := n + 1 + type.encode.length
    let other := body + then_.encode.length + 1
    (n + 1) :: (blockTypes body then_ ++
      (blockTypes other else_ ++ blockTypes (other + else_.encode.length + 1) rest))

def hasIf : Instrs → Bool
  | nil => false
  | plain _ rest => rest.hasIf
  | if_ _ _ _ | ifElse _ _ _ _ => true

end Instrs

/-- What is emitted for a plain instruction. Constants are read as unsigned. -/
def PlainInstr.emitted : PlainInstr → Instruction
  | i32Const n => .constI32 (.ofU32 (BitVec.ofInt 32 (unsignedValue n.bytes)))
  | i32Add => .addI32
  | localGet x => .getLocalI32 (unsignedValue x.bytes)
  | localSet x => .setLocalI32 (unsignedValue x.bytes)
  | return_ => .return_

/-- What is emitted before the first `if`. -/
def Instrs.opening : Instrs → List Instruction
  | nil => []
  | plain i rest => i.emitted :: rest.opening
  | if_ _ _ _ | ifElse _ _ _ _ => []

/-! ### What validation throws -/

/-- A computation throws nothing but `ex`. -/
def OnlyThrows {α : Type} (ex : Exception) (x : Except Exception α) : Prop :=
  ∀ ex', x = .error ex' → ex' = ex

namespace OnlyThrows

variable {α β : Type} {ex : Exception}

theorem ok (a : α) : OnlyThrows ex (.ok a) := by
  intro ex' h
  cases h

theorem error : OnlyThrows ex (.error ex : Except Exception α) := by
  intro ex' h
  exact (Except.error.inj h).symm

theorem ite {p : Prop} [Decidable p] {x y : Except Exception α} (hx : OnlyThrows ex x)
    (hy : OnlyThrows ex y) : OnlyThrows ex (if p then x else y) := by
  split
  · exact hx
  · exact hy

theorem bind {x : Except Exception α} {f : α → Except Exception β} (hx : OnlyThrows ex x)
    (hf : ∀ a, OnlyThrows ex (f a)) : OnlyThrows ex (x >>= f) := by
  intro ex' h
  cases x with
  | error ex₁ =>
    obtain rfl := Except.error.inj h
    exact hx _ rfl
  | ok a => exact hf a ex' h

end OnlyThrows

namespace FunctionValidator

variable (v : FunctionValidator)

theorem pop_throws (expected : ValidationType) : OnlyThrows .validation (v.pop expected) := by
  unfold pop
  split
  · exact .ite (.ok _) .error
  · exact .ite (.ok _) .error

theorem popAll_throws (vts : List ValType) : OnlyThrows .validation (v.popAll vts) := by
  induction vts generalizing v with
  | nil => exact .ok v
  | cons vt vts ih => exact (v.pop_throws _).bind fun v' => ih v'

theorem assertLocal_throws (idx : ℕ) (vt : ValType) :
    OnlyThrows .validation (v.assertLocal idx vt) := .ite (.ok ()) .error

theorem assertEmpty_throws : OnlyThrows .validation v.assertEmpty := .ite (.ok ()) .error

theorem visit_throws (i : Instruction) : OnlyThrows .validation (v.visit i) := by
  cases i with
  | addI32 => exact (v.pop_throws _).bind fun v' => (v'.pop_throws _).bind fun _ => .ok _
  | getLocalI32 idx => exact (v.assertLocal_throws _ _).bind fun _ => .ok _
  | setLocalI32 idx =>
    exact (v.pop_throws _).bind fun v' => (v'.assertLocal_throws _ _).bind fun _ => .ok _
  | return_ => exact (v.popAll_throws _).bind fun v' => v'.assertEmpty_throws.bind fun _ => .ok _
  | constI32 | label | br | brIf => exact .ok _

theorem finalize_throws : OnlyThrows .validation v.finalize :=
  (v.popAll_throws _).bind fun v' => v'.assertEmpty_throws.bind fun _ => .ok _

end FunctionValidator

namespace ModuleBuilder

/-! ### The loop -/

/-- A round of the loop of `ParseExpression`, from one opcode to the next. -/
def Round (s s' : OpEmitter × Cursor) : Prop := parseNextOp s.1 s.2 = .ok (.inl s'.1, s'.2)

/-- The loop comes to a position and reads an opcode there. -/
def ReadsOpcodeAt (s : OpEmitter × Cursor) (position : ℕ) : Prop :=
  ∃ s', Relation.ReflTransGen Round s s' ∧ s'.2.consumed = position

/-- `ParseExpression` reads an expression as it was written: no block type is read as an opcode, and
it ends right after the `0x0B` of the expression itself, unless the body is not valid. -/
structure EndsAtItsEnd (v : FunctionValidator) (e : Instrs) : Prop where
  immediates : ∀ rest n, ∀ position ∈ e.blockTypes n,
    ¬ReadsOpcodeAt ({ validator := v }, ⟨e.encode ++ 0x0B#8 :: rest, n⟩) position
  consumes : ∀ rest n,
    match parseExpression v ⟨e.encode ++ 0x0B#8 :: rest, n⟩ with
    | .ok (_, c) => c = ⟨rest, n + (e.encode.length + 1)⟩
    | .error ex => ex = .validation

section Rounds

variable {e : OpEmitter} {rest : List Byte} {n : ℕ}

/-- After the immediate the instruction is emitted, if it is valid. -/
theorem emit_inl (e : OpEmitter) (i : Instruction) (c : Cursor) :
    (do
      let e ← e.emit i
      pure (.inl e) : Reader Exception (OpEmitter ⊕ OpEmitter)) c =
      match e.validator.visit i with
      | .ok v => .ok (.inl ⟨v, e.instructions ++ [i]⟩, c)
      | .error ex => .error ex := by
  rw [Reader.bind_apply, OpEmitter.emit]
  cases e.validator.visit i <;> rfl

/-- **A plain instruction** is read with its immediate, and then visited. -/
theorem parseNextOp_plain (i : PlainInstr) :
    parseNextOp e ⟨i.encode ++ rest, n⟩ =
      match e.validator.visit i.emitted with
      | .ok v => .ok (.inl ⟨v, e.instructions ++ [i.emitted]⟩, ⟨rest, n + i.encode.length⟩)
      | .error ex => .error ex := by
  have hlength (s : List Byte) : n + 1 + s.length = n + (s.length + 1) := by omega
  -- the opcode, and after it the immediate, if there is one
  cases i with
  | i32Const k =>
    refine (Reader.bind_of_ok (k.consumes_decode rest (n + 1)) _).trans ?_
    rw [emit_inl, hlength]
    rfl
  | localGet x =>
    refine (Reader.bind_of_ok (x.consumes_decodeU32 rest (n + 1)) _).trans ?_
    rw [emit_inl, hlength]
    rfl
  | localSet x =>
    refine (Reader.bind_of_ok (x.consumes_decodeU32 rest (n + 1)) _).trans ?_
    rw [emit_inl, hlength]
    rfl
  | i32Add => exact emit_inl e .addI32 ⟨rest, n + 1⟩
  | return_ => exact emit_inl e .return_ ⟨rest, n + 1⟩

/-- **An `if`** is its opcode alone, and the next opcode is read at the block type. -/
theorem parseNextOp_if : parseNextOp e ⟨0x04#8 :: rest, n⟩ = .ok (.inl ⟨e.validator,
    e.instructions ++ [.brIf (makeLabelId "then" 0) (makeLabelId "else" 0)] ++
      [.label (makeLabelId "then" 0)]⟩, ⟨rest, n + 1⟩) := rfl

end Rounds

/-- The rest of `ParseExpression`, from any round on. -/
def parseRest (e : OpEmitter) : Reader Exception (List Instruction × FunctionValidator) := do
  let e ← Reader.loop .endOfStream parseNextOp e
  e.finalize

theorem parseRest_eq (e : OpEmitter) (c : Cursor) : parseRest e c =
    match parseNextOp e c with
    | .ok (.inl e', c') => parseRest e' c'
    | .ok (.inr e', c') => e'.finalize c'
    | .error ex => .error ex := by
  rw [parseRest, Reader.bind_apply, loop_unroll progress_parseNextOp, Reader.bind_apply]
  cases parseNextOp e c with
  | error ex => rfl
  | ok r =>
    obtain ⟨x, c'⟩ := r
    cases x <;> rfl

theorem readsOpcodeAt_iff {s : OpEmitter × Cursor} {position : ℕ} : ReadsOpcodeAt s position ↔
    s.2.consumed = position ∨ ∃ s', Round s s' ∧ ReadsOpcodeAt s' position := by
  constructor
  · rintro ⟨t, hreach, hposition⟩
    obtain rfl | ⟨s', hround, hrest⟩ := hreach.cases_head
    · exact .inl hposition
    · exact .inr ⟨s', hround, t, hrest, hposition⟩
  · rintro (hposition | ⟨s', hround, t, hreach, hposition⟩)
    · exact ⟨s, .refl, hposition⟩
    · exact ⟨t, hreach.head hround, hposition⟩

/-- Every block type comes after the opcode of its `if`. -/
theorem lt_of_mem_blockTypes {is : Instrs} : ∀ {n position : ℕ}, position ∈ is.blockTypes n →
    n < position := by
  induction is with
  | nil => exact fun h => absurd h List.not_mem_nil
  | plain i rest ih =>
    intro n position h
    exact Nat.lt_of_le_of_lt (Nat.le_add_right _ _) (ih h)
  | if_ type then_ rest iht ihr =>
    intro n position h
    -- the type is the byte after the opcode, and those inside come later
    obtain rfl | h := List.mem_cons.mp h
    · exact Nat.lt_succ_self n
    · obtain h | h := List.mem_append.mp h
      · have := iht h
        omega
      · have := ihr h
        omega
  | ifElse type then_ else_ rest iht ihe ihr =>
    intro n position h
    obtain rfl | h := List.mem_cons.mp h
    · exact Nat.lt_succ_self n
    · obtain h | h := List.mem_append.mp h
      · have := iht h
        omega
      · obtain h | h := List.mem_append.mp h
        · have := ihe h
          omega
        · have := ihr h
          omega

/-- `EndsAtItsEnd`, from any round on. -/
def RestEnds (e : OpEmitter) (is : Instrs) (rest : List Byte) (n : ℕ) : Prop :=
  (∀ position ∈ is.blockTypes n, ¬ReadsOpcodeAt (e, ⟨is.encode ++ 0x0B#8 :: rest, n⟩) position) ∧
    match parseRest e ⟨is.encode ++ 0x0B#8 :: rest, n⟩ with
    | .ok (_, c) => c = ⟨rest, n + (is.encode.length + 1)⟩
    | .error ex => ex = .validation

section RestEnds

variable {e : OpEmitter} {rest : List Byte} {n : ℕ}

theorem restEnds_nil : RestEnds e .nil rest n := by
  refine ⟨fun position h => absurd h List.not_mem_nil, ?_⟩
  have hrest : parseRest e ⟨Instrs.nil.encode ++ 0x0B#8 :: rest, n⟩ = e.finalize ⟨rest, n + 1⟩ :=
    parseRest_eq _ _
  rw [hrest, OpEmitter.finalize]
  cases hfin : e.validator.finalize with
  | ok v => rfl
  | error ex => exact e.validator.finalize_throws _ hfin

/-- A plain instruction that is refused ends the loop where it stands. -/
theorem restEnds_plain_error {i : PlainInstr} {is : Instrs} {ex : Exception}
    (h : e.validator.visit i.emitted = .error ex) : RestEnds e (.plain i is) rest n := by
  have hstep : parseNextOp e ⟨(Instrs.plain i is).encode ++ 0x0B#8 :: rest, n⟩ = .error ex := by
    rw [Instrs.encode, List.append_assoc, parseNextOp_plain, h]
  refine ⟨fun position hmem hreads => ?_, ?_⟩
  · obtain hposition | ⟨s', hround, -⟩ := readsOpcodeAt_iff.mp hreads
    · exact (lt_of_mem_blockTypes hmem).ne hposition
    · rw [Round, hstep] at hround
      cases hround
  · rw [parseRest_eq, hstep]
    exact e.validator.visit_throws _ _ h

/-- A plain instruction that is accepted hands over to the rest. -/
theorem restEnds_plain_ok {i : PlainInstr} {is : Instrs} {v : FunctionValidator}
    (h : e.validator.visit i.emitted = .ok v) : RestEnds e (.plain i is) rest n ↔
      RestEnds ⟨v, e.instructions ++ [i.emitted]⟩ is rest (n + i.encode.length) := by
  have hstep : parseNextOp e ⟨(Instrs.plain i is).encode ++ 0x0B#8 :: rest, n⟩ = .ok
      (.inl ⟨v, e.instructions ++ [i.emitted]⟩,
        ⟨is.encode ++ 0x0B#8 :: rest, n + i.encode.length⟩) := by
    rw [Instrs.encode, List.append_assoc, parseNextOp_plain, h]
  refine and_congr (forall₂_congr fun position hmem => not_congr ?_) ?_
  · rw [readsOpcodeAt_iff]
    constructor
    · rintro (hposition | ⟨s', hround, hreads⟩)
      · exact absurd hposition (lt_of_mem_blockTypes hmem).ne
      · rw [Round, hstep] at hround
        -- the round of this instruction is at its opcode, so the position is in a later one
        obtain ⟨he, hc⟩ := Prod.mk.inj (Except.ok.inj hround)
        rwa [Sum.inl.inj he, hc]
    · intro hreads
      exact .inr ⟨(⟨v, e.instructions ++ [i.emitted]⟩,
        ⟨is.encode ++ 0x0B#8 :: rest, n + i.encode.length⟩), hstep, hreads⟩
  -- what is left to read is shorter by the instruction
  · rw [parseRest_eq, hstep, Instrs.encode, List.length_append]
    have hlength : n + (i.encode.length + is.encode.length + 1) =
        n + i.encode.length + (is.encode.length + 1) := by omega
    rw [hlength]

/-- **The block type of an `if` is read as an opcode.** -/
theorem not_restEnds_if {is : Instrs} {bytes : List Byte} (hencode : is.encode = 0x04#8 :: bytes)
    (hmem : n + 1 ∈ is.blockTypes n) : ¬RestEnds e is rest n := by
  intro h
  obtain ⟨e', hstep⟩ : ∃ e', parseNextOp e ⟨is.encode ++ 0x0B#8 :: rest, n⟩ =
      .ok (.inl e', ⟨bytes ++ 0x0B#8 :: rest, n + 1⟩) := by
    rw [hencode]
    exact ⟨_, parseNextOp_if⟩
  apply h.1 _ hmem
  rw [readsOpcodeAt_iff]
  exact .inr ⟨(e', ⟨bytes ++ 0x0B#8 :: rest, n + 1⟩), hstep, readsOpcodeAt_iff.mpr (.inl rfl)⟩

/-- **When the rest of an expression is read as it was written.** -/
theorem restEnds_iff {is : Instrs} : ∀ {e : OpEmitter} {n : ℕ}, RestEnds e is rest n ↔
    is.hasIf = false ∨ ∃ ex, e.validator.visitAll is.opening = .error ex := by
  induction is with
  | nil => exact iff_of_true restEnds_nil (.inl rfl)
  | plain i is ih =>
    intro e n
    rw [Instrs.opening, FunctionValidator.visitAll]
    cases hvisit : e.validator.visit i.emitted with
    | error ex => exact iff_of_true (restEnds_plain_error hvisit) (.inr ⟨ex, rfl⟩)
    | ok v => exact (restEnds_plain_ok hvisit).trans ih
  | if_ type then_ is =>
    intro e n
    -- the first `if` is reached, and its type is read as an opcode
    refine iff_of_false (not_restEnds_if rfl List.mem_cons_self) ?_
    rintro (hif | ⟨ex, hopening⟩)
    · cases hif
    · cases hopening
  | ifElse type then_ else_ is =>
    intro e n
    refine iff_of_false (not_restEnds_if rfl List.mem_cons_self) ?_
    rintro (hif | ⟨ex, hopening⟩)
    · cases hif
    · cases hopening

end RestEnds

/-- **Which expressions are read as they were written**: those without an `if`, and those with an
instruction before the first `if` that is not valid. -/
theorem endsAtItsEnd_iff (v : FunctionValidator) (is : Instrs) : EndsAtItsEnd v is ↔
    is.hasIf = false ∨ ∃ ex, v.visitAll is.opening = .error ex := by
  have hstart : RestEnds { validator := v } is [] 0 ↔
      is.hasIf = false ∨ ∃ ex, v.visitAll is.opening = .error ex := restEnds_iff
  rw [← hstart]
  constructor
  · exact fun h => ⟨h.immediates [] 0, h.consumes [] 0⟩
  · intro h
    have hall (rest : List Byte) (n : ℕ) : RestEnds { validator := v } is rest n :=
      restEnds_iff.mpr (restEnds_iff.mp h)
    exact ⟨fun rest n => (hall rest n).1, fun rest n => (hall rest n).2⟩

/-- The byte of a block type without an index is no opcode that the loop knows. -/
theorem parseRest_if (e : OpEmitter) (type : EncodedBlockType) {byte : Byte}
    (htype : type.encode = [byte]) (hbyte : byte = 0x40#8 ∨ ∃ vt : ValType, byte = vt.byte)
    (rest : List Byte) (n : ℕ) : parseRest e ⟨0x04#8 :: (type.encode ++ rest), n⟩ =
      .error (.parse ("unsupported opcode: " ++ toString byte.toNat)) := by
  have hstep (e' : OpEmitter) : parseNextOp e' ⟨byte :: rest, n + 1⟩ =
      .error (.parse ("unsupported opcode: " ++ toString byte.toNat)) := by
    obtain rfl | ⟨vt, rfl⟩ := hbyte
    · rfl
    · cases vt <;> rfl
  rw [parseRest_eq, parseNextOp_if, htype]
  dsimp only
  rw [List.singleton_append, parseRest_eq, hstep]

/-- The empty `if`: its block type is refused as an opcode. -/
theorem if_misread : ¬EndsAtItsEnd (.new {} []) (.if_ .empty .nil .nil) := by
  intro h
  have hconsumes := h.consumes [] 0
  have hparse : parseExpression (.new {} [])
      ⟨(Instrs.if_ .empty .nil .nil).encode ++ [0x0B#8], 0⟩ =
      .error (.parse ("unsupported opcode: " ++ toString (0x40#8 : Byte).toNat)) :=
    parseRest_if { validator := .new {} [] } .empty rfl (.inl rfl) [0x0B#8, 0x0B#8] 0
  rw [hparse] at hconsumes
  cases hconsumes

end ModuleBuilder

end Wasmcc
