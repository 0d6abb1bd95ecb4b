import Wasmcc.Parser.Reading

/-!
# Branches and labels

`ParseExpression` makes up the labels of a conditional as it goes: an `if` branches to `then_0` or
`else_0` and defines `then_0`, an `else` branches to `end_0` and defines `else_0`. The definition of
`end_0` stands in a `case` that its own loop condition excludes, and all conditionals share the
number 0.

So of a body only its opcodes matter (`parseExpression_branches`), and its branches resolve exactly
if it has neither an `if` nor an `else` (`branchesResolve_iff`).
-/

open Basis

namespace Wasmcc

open Reader

/-! ### Resolution -/

/-- The labels that an instruction names. -/
def Instruction.targets : Instruction → List String
  | .br labelId => [labelId]
  | .brIf thenLabelId elseLabelId => [thenLabelId, elseLabelId]
  | _ => []

/-- The label that it defines. -/
def Instruction.defines : Instruction → List String
  | .label id => [id]
  | _ => []

/-- The labels that a body defines, as often as it does. -/
def definedLabels (body : List Instruction) : List String := body.flatMap Instruction.defines

/-- Every label that a branch names is defined once, and no label is defined twice. -/
def BranchesResolve (body : List Instruction) : Prop :=
  (∀ i ∈ body, ∀ id ∈ i.targets, (definedLabels body).count id = 1) ∧ (definedLabels body).Nodup

instance (body : List Instruction) : Decidable (BranchesResolve body) :=
  inferInstanceAs (Decidable (_ ∧ _))

/-! ### The opcodes of a body -/

/-- The opcodes up to the end of the body, from the middle of an immediate or not. -/
def opcodes : Bool → List Byte → List Byte
  | _, [] => []
  | true, b :: bs => opcodes (Continues b) bs
  | false, b :: bs =>
    if b = 0x0B#8 then []
    else b :: opcodes (b = 0x20#8 ∨ b = 0x21#8 ∨ b = 0x41#8) bs

theorem opcodes_immediate {s : List Byte} (hs : Groups s) (rest : List Byte) :
    opcodes true (s ++ rest) = opcodes false rest := by
  induction hs with
  | last hb =>
    show opcodes (decide (Continues _)) rest = _
    rw [decide_eq_false hb]
  | more hb _ ih =>
    show opcodes (decide (Continues _)) _ = _
    rw [decide_eq_true hb]
    exact ih

/-- The instructions of an opcode that branch or define labels. -/
def branchesOf (opcode : Byte) : List Instruction :=
  if opcode = 0x04#8 then
    [.brIf (makeLabelId "then" 0) (makeLabelId "else" 0), .label (makeLabelId "then" 0)]
  else if opcode = 0x05#8 then
    [.br (makeLabelId "end" 0), .label (makeLabelId "else" 0)]
  else []

/-- The instructions of a body that branch or define labels. -/
def branches (body : List Instruction) : List Instruction := body.filter fun i => !i.isCore

namespace ModuleBuilder

/-- One round of `ParseExpression` is one opcode. -/
theorem OpRead.opcodes {used : List Byte} {is : List Instruction} (h : OpRead used is)
    (rest : List Byte) : ∃ opcode, opcodes false (used ++ rest) = opcode :: opcodes false rest ∧
      branches is = branchesOf opcode := by
  cases h with
  | getLocalI32 hs idx => exact ⟨0x20#8, congrArg _ (opcodes_immediate hs rest), rfl⟩
  | setLocalI32 hs idx => exact ⟨0x21#8, congrArg _ (opcodes_immediate hs rest), rfl⟩
  | constI32 hs value => exact ⟨0x41#8, congrArg _ (opcodes_immediate hs rest), rfl⟩
  | _ => exact ⟨_, rfl, rfl⟩

/-- **What the branches of a body are**: those of its opcodes, one after the other. -/
theorem parseExpression_branches {v v' : FunctionValidator} {body : List Instruction}
    {c c' : Cursor} (h : parseExpression v c = .ok ((body, v'), c')) :
    branches body = (opcodes false c.rest).flatMap branchesOf := by
  obtain ⟨e, c₁, hloop, hfin⟩ := Reader.bind_eq_ok.mp h
  have hbranches : branches e.instructions = (opcodes false c.rest).flatMap branchesOf := by
    refine loop_induction
      (P := fun e d => ∃ done, opcodes false c.rest = done ++ opcodes false d.rest ∧
        branches e.instructions = done.flatMap branchesOf)
      (Q := fun e _ => branches e.instructions = (opcodes false c.rest).flatMap branchesOf)
      (fun e d e' d' hP hs => ?_) (fun e d e' d' hP hs => ?_) ⟨[], rfl, rfl⟩ hloop
    · obtain ⟨done, hdone, hinstrs⟩ := hP
      obtain ⟨used, is, hop, hrest, his, -⟩ := parseNextOp_eq_inl hs
      obtain ⟨opcode, hopcode, hof⟩ := hop.opcodes d'.rest
      refine ⟨done ++ [opcode], ?_, ?_⟩
      · rw [hdone, hrest, hopcode, List.append_assoc]
        rfl
      · rw [his, List.flatMap_append, ← hinstrs]
        show (e.instructions ++ is).filter _ = _
        rw [List.filter_append, List.flatMap_cons, List.flatMap_nil, List.append_nil, ← hof]
        rfl
    · -- the byte that ends the loop is no opcode
      obtain ⟨done, hdone, hinstrs⟩ := hP
      obtain ⟨rfl, hrest⟩ := parseNextOp_inr hs
      have hend : opcodes false d.rest = [] := by
        rw [hrest]
        rfl
      rw [hdone, hend, List.append_nil]
      exact hinstrs
  unfold OpEmitter.finalize at hfin
  cases hv : e.validator.finalize with
  | error ex =>
    simp only [hv] at hfin
    exact absurd hfin fail_ne_ok
  | ok v₁ =>
    simp only [hv] at hfin
    obtain ⟨hr, -⟩ := pure_eq_ok.mp hfin
    obtain ⟨rfl, -⟩ := Prod.mk.inj hr
    exact hbranches

end ModuleBuilder

/-! ### When branches resolve -/

theorem definedLabels_branches (body : List Instruction) :
    definedLabels (branches body) = definedLabels body := by
  induction body with
  | nil => rfl
  | cons i body ih =>
    show definedLabels ((i :: body).filter _) = _
    have hbody : definedLabels (i :: body) = i.defines ++ definedLabels body := List.flatMap_cons
    rw [hbody, ← ih]
    cases i <;> rfl

/-- Only the branches and labels of a body decide. -/
theorem branchesResolve_branches (body : List Instruction) :
    BranchesResolve (branches body) ↔ BranchesResolve body := by
  unfold BranchesResolve
  rw [definedLabels_branches]
  refine and_congr_left fun _ => ⟨fun h i hi id hid => ?_, fun h i hi => ?_⟩
  · refine h i (List.mem_filter.mpr ⟨hi, ?_⟩) id hid
    cases i <;> first | rfl | cases hid
  · exact h i (List.mem_of_mem_filter hi)

/-- The labels that the opcodes of a body define. -/
theorem mem_definedLabels_iff (ops : List Byte) (id : String) :
    id ∈ definedLabels (ops.flatMap branchesOf) ↔
      id = "then_0" ∧ 0x04#8 ∈ ops ∨ id = "else_0" ∧ 0x05#8 ∈ ops := by
  induction ops with
  | nil => simp [definedLabels]
  | cons op ops ih =>
    -- the labels of the first opcode, and those of the others
    have hcons : definedLabels ((op :: ops).flatMap branchesOf) =
        definedLabels (branchesOf op) ++ definedLabels (ops.flatMap branchesOf) := by
      unfold definedLabels
      rw [List.flatMap_cons, List.flatMap_append]
    have hop : id ∈ definedLabels (branchesOf op) ↔
        id = "then_0" ∧ 0x04#8 = op ∨ id = "else_0" ∧ 0x05#8 = op := by
      -- only the bytes of `if` and `else` make labels
      by_cases hif : 0x04#8 = op
      · subst hif
        have hlabels : definedLabels (branchesOf 0x04#8) = ["then_0"] := by decide
        rw [hlabels, List.mem_singleton]
        simp
      · by_cases helse : 0x05#8 = op
        · subst helse
          have hlabels : definedLabels (branchesOf 0x05#8) = ["else_0"] := by decide
          rw [hlabels, List.mem_singleton]
          simp
        · rw [branchesOf, if_neg (Ne.symm hif), if_neg (Ne.symm helse)]
          simp [definedLabels, hif, helse]
    rw [hcons, List.mem_append, ih, hop, or_or_or_comm, List.mem_cons, List.mem_cons, and_or_left,
      and_or_left]

theorem branchesResolve_opcodes_iff (ops : List Byte) :
    BranchesResolve (ops.flatMap branchesOf) ↔ 0x04#8 ∉ ops ∧ 0x05#8 ∉ ops := by
  constructor
  · intro h
    -- a label that is named is defined somewhere
    have hdefined {op : Byte} (hop : op ∈ ops) (i : Instruction) (hi : i ∈ branchesOf op)
        (id : String) (hid : id ∈ i.targets) :
        id = "then_0" ∧ 0x04#8 ∈ ops ∨ id = "else_0" ∧ 0x05#8 ∈ ops := by
      have hcount := h.1 i (List.mem_flatMap.mpr ⟨op, hop, hi⟩) id hid
      rw [← mem_definedLabels_iff]
      exact List.count_pos_iff.mp (by omega)
    have helse : 0x05#8 ∉ ops := by
      intro hop
      have hend := hdefined hop (.br (makeLabelId "end" 0)) List.mem_cons_self "end_0"
        List.mem_cons_self
      obtain ⟨hid, -⟩ | ⟨hid, -⟩ := hend
      · exact absurd hid (by decide)
      · exact absurd hid (by decide)
    refine ⟨fun hop => ?_, helse⟩
    have htarget := hdefined hop (.brIf (makeLabelId "then" 0) (makeLabelId "else" 0))
      List.mem_cons_self "else_0" (List.mem_cons_of_mem _ List.mem_cons_self)
    obtain ⟨hid, -⟩ | ⟨-, hop'⟩ := htarget
    · exact absurd hid (by decide)
    · exact helse hop'
  · rintro ⟨hif, helse⟩
    have hnone : ops.flatMap branchesOf = [] := by
      rw [List.flatMap_eq_nil_iff]
      intro op hop
      have hop4 : op ≠ 0x04#8 := fun heq => hif (heq ▸ hop)
      have hop5 : op ≠ 0x05#8 := fun heq => helse (heq ▸ hop)
      rw [branchesOf, if_neg hop4, if_neg hop5]
    rw [hnone]
    exact ⟨fun i hi => absurd hi List.not_mem_nil, List.nodup_nil⟩

/-- **When the branches of a body resolve**: if it has no `if` and no `else`. -/
theorem branchesResolve_iff {v v' : FunctionValidator} {body : List Instruction} {c c' : Cursor}
    (h : ModuleBuilder.parseExpression v c = .ok ((body, v'), c')) :
    BranchesResolve body ↔ 0x04#8 ∉ opcodes false c.rest ∧ 0x05#8 ∉ opcodes false c.rest := by
  rw [← branchesResolve_branches, ModuleBuilder.parseExpression_branches h]
  exact branchesResolve_opcodes_iff _

/-- A constant that is stored: the byte 0x04 of its immediate is no opcode. -/
theorem branchesResolve_immediates :
    BranchesResolve [.constI32 (.ofU32 4), .setLocalI32 0] := by
  have hparse : ModuleBuilder.parseExpression (.new {} [.i32])
      ⟨[0x41#8, 0x04#8, 0x21#8, 0x00#8, 0x0B#8], 0⟩ = .ok (([.constI32 (.ofU32 4), .setLocalI32 0],
        ⟨[.i32], [], false, [], 0, 1, 4⟩), ⟨[], 5⟩) := rfl
  exact (branchesResolve_iff hparse).mpr (by decide)

/-- An `if` alone: `else_0` is defined nowhere. -/
theorem if_unresolved : ∃ body v', ModuleBuilder.parseExpression (.new {} [])
    ⟨[0x04#8, 0x0B#8], 0⟩ = .ok ((body, v'), ⟨[], 2⟩) ∧ ¬BranchesResolve body :=
  ⟨_, _, rfl, by decide⟩

end Wasmcc
