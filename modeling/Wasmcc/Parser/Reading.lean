import Wasmcc.Leb128.Groups
import Wasmcc.Parser.ModuleBuilder

/-!
# What the parser's readers read

Every reader of the parser but the loop over the sections is `Steady`: it accepts by reading some
bytes that determine what it returns, and when the stream ends among them it throws
`EndOfStreamException`. The loops over opcodes and over sections make progress, so
their fuel is never seen.
-/

open Basis

namespace Wasmcc

open Reader

theorem steady_readByte' : Steady .endOfStream Stream.readByte := steady_readByte _

theorem steady_parseValType : Steady .endOfStream parseValType := by
  refine steady_readByte'.bind fun b => ?_
  split
  · exact .pure _
  · exact .fail _

theorem steady_validateInRange (msg : String) (idx size : ℕ) :
    Steady .endOfStream (validateInRange msg idx size) := .ite (.fail _) (.pure _)

theorem steady_parseVectorSize (limit : ℕ) (msg : ℕ → String) :
    Steady .endOfStream (parseVectorSize limit msg) :=
  Leb128.steady_decodeU32.bind fun _ => .ite (.fail _) (.pure _)

theorem steady_parseName : Steady .endOfStream parseName :=
  Leb128.steady_decodeU32.bind fun _ => .ite (.fail _) (steady_readBytes _ _)

theorem steady_parseSignatureTypes (kMax : ℕ) : Steady .endOfStream (parseSignatureTypes kMax) :=
  (steady_parseVectorSize _ _).bind fun _ =>
    .iterate (fun _ => steady_parseValType.bind fun _ => .pure _) _ _

theorem steady_parseSignature : Steady .endOfStream parseSignature :=
  steady_readByte'.bind fun _ => .ite (.fail _)
    ((steady_parseSignatureTypes _).bind fun _ =>
      (steady_parseSignatureTypes _).bind fun _ => .pure _)

theorem steady_parseLimits : Steady .endOfStream parseLimits :=
  steady_readByte'.bind fun _ => .ite
    (Leb128.steady_decodeU32.bind fun _ => Leb128.steady_decodeU32.bind fun _ => .pure _)
    (Leb128.steady_decodeU32.bind fun _ => .pure _)

theorem steady_parseTableType : Steady .endOfStream parseTableType :=
  steady_parseValType.bind fun _ => .ite (.fail _) (steady_parseLimits.bind fun _ => .pure _)

theorem steady_parseMemType : Steady .endOfStream parseMemType :=
  steady_parseLimits.bind fun _ => .pure _

theorem steady_parseGlobalType : Steady .endOfStream parseGlobalType :=
  steady_parseValType.bind fun _ => steady_readByte'.bind fun _ => .pure _

theorem steady_parseConstExpr : Steady .endOfStream parseConstExpr :=
  steady_readByte'.bind fun _ => .ite ((Leb128.steady_decode _ _).bind fun _ => .pure _)
    (.ite ((Leb128.steady_decode _ _).bind fun _ => .pure _)
      (.ite ((steady_readBytes _ _).bind fun _ => .pure _)
        (.ite ((steady_readBytes _ _).bind fun _ => .pure _) (.fail _))))

/-- The bytes that an instruction takes at least. The `Label` after a `BrIf` or `Br` comes from the
same opcode. -/
def Instruction.minBytes : Instruction → ℕ
  | .constI32 _ | .getLocalI32 _ | .setLocalI32 _ => 2
  | .addI32 | .return_ | .br _ | .brIf _ _ => 1
  | .label _ => 0

namespace ModuleBuilder

variable (b : ModuleBuilder)

/-! ### The sections -/

theorem steady_parseSignatureSection : Steady .endOfStream b.parseSignatureSection :=
  (steady_parseVectorSize _ _).bind fun _ =>
    .iterate (fun _ => steady_parseSignature.bind fun _ => .pure _) _ _

theorem steady_parseOneFunctionDeclaration : Steady .endOfStream b.parseOneFunctionDeclaration :=
  Leb128.steady_decodeU32.bind fun _ => (steady_validateInRange _ _ _).bind fun _ => .pure _

theorem steady_parseFunctionDeclarationSection :
    Steady .endOfStream b.parseFunctionDeclarationSection :=
  (steady_parseVectorSize _ _).bind fun _ => .iterate steady_parseOneFunctionDeclaration _ _

theorem steady_parseOneImport : Steady .endOfStream b.parseOneImport :=
  steady_parseName.bind fun _ => steady_parseName.bind fun _ => steady_readByte'.bind fun _ =>
    .ite (Leb128.steady_decodeU32.bind fun _ =>
        (steady_validateInRange _ _ _).bind fun _ => .pure _)
      (.ite (steady_parseTableType.bind fun _ => .pure _)
        (.ite (steady_parseMemType.bind fun _ => .pure _)
          (.ite (steady_parseGlobalType.bind fun _ => .pure _) (.fail _))))

theorem steady_parseImportSection : Steady .endOfStream b.parseImportSection :=
  (steady_parseVectorSize _ _).bind fun _ =>
    .iterate (fun b => (steady_parseOneImport b).bind fun _ => .pure _) _ _

theorem steady_parseTableSection : Steady .endOfStream b.parseTableSection :=
  (steady_parseVectorSize _ _).bind fun _ =>
    .iterate (fun _ => (steady_parseTableType.bind fun _ => .pure _).bind fun _ => .pure _) _ _

theorem steady_parseMemoriesSection : Steady .endOfStream b.parseMemoriesSection :=
  (steady_parseVectorSize _ _).bind fun _ =>
    .iterate (fun _ => (steady_parseMemType.bind fun _ => .pure _).bind fun _ => .pure _) _ _

theorem steady_parseGlobalsSection : Steady .endOfStream b.parseGlobalsSection :=
  (steady_parseVectorSize _ _).bind fun _ =>
    .iterate (fun _ => (steady_parseGlobalType.bind fun _ => steady_parseConstExpr.bind fun _ =>
      .pure _).bind fun _ => .pure _) _ _

theorem steady_parseOneExport : Steady .endOfStream b.parseOneExport := by
  refine steady_parseName.bind fun name => steady_readByte'.bind fun type => ?_
  refine .ite ?_ (.ite ?_ (.ite ?_ (.ite ?_ (.fail _)))) <;>
    exact Leb128.steady_decodeU32.bind fun _ => (steady_validateInRange _ _ _).bind fun _ => .pure _

theorem steady_parseNextExport (dangling : List Name → Name → Bool)
    (s : ModuleBuilder × List Name) : Steady .endOfStream (parseNextExport dangling s) := by
  refine (steady_parseOneExport s.1).bind fun e => ?_
  split
  · exact .fail _
  · exact .pure _

theorem steady_parseExportsSection (dangling : List Name → Name → Bool) :
    Steady .endOfStream (b.parseExportsSection dangling) :=
  (steady_parseVectorSize _ _).bind fun _ =>
    (Steady.iterate (steady_parseNextExport dangling) _ _).bind fun _ => .pure _

/-! ### Function bodies -/

theorem OpEmitter.steady_emit (e : OpEmitter) (i : Instruction) :
    Steady .endOfStream (e.emit i) := by
  unfold OpEmitter.emit
  split
  · exact .pure _
  · exact .fail _

theorem OpEmitter.steady_finalize (e : OpEmitter) : Steady .endOfStream e.finalize := by
  unfold OpEmitter.finalize
  split
  · exact .pure _
  · exact .fail _

theorem steady_parseNextOp (e : OpEmitter) : Steady .endOfStream (parseNextOp e) := by
  have hone (i : Instruction) : Steady .endOfStream (do
      let e ← e.emit i
      pure (.inl e) : Reader Exception (OpEmitter ⊕ OpEmitter)) :=
    (e.steady_emit i).bind fun _ => .pure _
  have htwo (i j : Instruction) : Steady .endOfStream (do
      let e ← e.emit i
      let e ← e.emit j
      pure (.inl e) : Reader Exception (OpEmitter ⊕ OpEmitter)) :=
    (e.steady_emit i).bind fun e => (e.steady_emit j).bind fun _ => .pure _
  -- the branches in the order of the source
  exact steady_readByte'.bind fun _ => .ite (.pure _) (.ite (htwo _ _) (.ite (htwo _ _)
    (.ite (hone _) (.ite (Leb128.steady_decodeU32.bind fun _ => hone _)
      (.ite (Leb128.steady_decodeU32.bind fun _ => hone _)
        (.ite ((Leb128.steady_decode _ _).bind fun _ => hone _) (.ite (hone _) (.fail _))))))))

theorem OpEmitter.emit_eq_ok {e e' : OpEmitter} {i : Instruction} {c c' : Cursor} :
    e.emit i c = .ok (e', c') ↔
      ∃ v, e.validator.visit i = .ok v ∧ e' = ⟨v, e.instructions ++ [i]⟩ ∧ c' = c := by
  unfold OpEmitter.emit
  cases e.validator.visit i with
  | error ex => simp
  | ok v => simp [eq_comm]

/-- What a round of `ParseExpression` reads, and what it emits for it. -/
inductive OpRead : List Byte → List Instruction → Prop
  | if_ : OpRead [0x04#8]
      [.brIf (makeLabelId "then" 0) (makeLabelId "else" 0), .label (makeLabelId "then" 0)]
  | else_ : OpRead [0x05#8] [.br (makeLabelId "end" 0), .label (makeLabelId "else" 0)]
  | return_ : OpRead [0x0F#8] [.return_]
  | getLocalI32 {s : List Byte} (hs : Groups s) (idx : ℕ) : OpRead (0x20#8 :: s) [.getLocalI32 idx]
  | setLocalI32 {s : List Byte} (hs : Groups s) (idx : ℕ) : OpRead (0x21#8 :: s) [.setLocalI32 idx]
  | constI32 {s : List Byte} (hs : Groups s) (value : Value) :
      OpRead (0x41#8 :: s) [.constI32 value]
  | addI32 : OpRead [0x6A#8] [.addI32]

theorem OpRead.minBytes_le {used : List Byte} {is : List Instruction} (h : OpRead used is) :
    (is.map Instruction.minBytes).sum ≤ used.length := by
  cases h with
  | getLocalI32 hs | setLocalI32 hs | constI32 hs =>
    have hpos := hs.length_pos
    simp only [List.map_cons, List.map_nil, List.sum_cons, List.sum_nil, List.length_cons,
      Instruction.minBytes]
    omega
  | _ => simp [Instruction.minBytes]

theorem OpRead.length_pos {used : List Byte} {is : List Instruction} (h : OpRead used is) :
    0 < used.length := by
  cases h <;> exact Nat.succ_pos _

/-- **A round that goes on** has read an opcode with its immediate, and emitted what it stands
for. -/
theorem parseNextOp_eq_inl {e e' : OpEmitter} {c c' : Cursor}
    (h : parseNextOp e c = .ok (.inl e', c')) : ∃ used is, OpRead used is ∧
      c.rest = used ++ c'.rest ∧ e'.instructions = e.instructions ++ is ∧
      e.validator.visitAll is = .ok e'.validator := by
  obtain ⟨opcode, c₁, h1, h2⟩ := Reader.bind_eq_ok.mp h
  obtain ⟨hrest, -⟩ := readByte_eq_ok.mp h1
  -- opcodes with one instruction, after their immediate if they have one
  have hone {i : Instruction} {d : Cursor} {s : List Byte} (hop : OpRead (opcode :: s) [i])
      (hd : c₁.rest = s ++ d.rest) (h : (do
        let e ← e.emit i
        pure (.inl e) : Reader Exception (OpEmitter ⊕ OpEmitter)) d = .ok (.inl e', c')) :
      ∃ used is, OpRead used is ∧ c.rest = used ++ c'.rest ∧
        e'.instructions = e.instructions ++ is ∧ e.validator.visitAll is = .ok e'.validator := by
    obtain ⟨e₁, d₁, he, hp⟩ := Reader.bind_eq_ok.mp h
    obtain ⟨v, hv, rfl, rfl⟩ := OpEmitter.emit_eq_ok.mp he
    obtain ⟨hinl, rfl⟩ := pure_eq_ok.mp hp
    obtain rfl := Sum.inl.inj hinl
    refine ⟨opcode :: s, [i], hop, by rw [hrest, hd]; rfl, rfl, ?_⟩
    rw [FunctionValidator.visitAll, hv]
    rfl
  -- `if` and `else` emit two
  have htwo {i j : Instruction} (hop : OpRead [opcode] [i, j]) (h : (do
        let e ← e.emit i
        let e ← e.emit j
        pure (.inl e) : Reader Exception (OpEmitter ⊕ OpEmitter)) c₁ = .ok (.inl e', c')) :
      ∃ used is, OpRead used is ∧ c.rest = used ++ c'.rest ∧
        e'.instructions = e.instructions ++ is ∧ e.validator.visitAll is = .ok e'.validator := by
    obtain ⟨e₁, d₁, he, h3⟩ := Reader.bind_eq_ok.mp h
    obtain ⟨v, hv, rfl, rfl⟩ := OpEmitter.emit_eq_ok.mp he
    obtain ⟨e₂, d₂, he2, hp⟩ := Reader.bind_eq_ok.mp h3
    obtain ⟨v₂, hv2, rfl, rfl⟩ := OpEmitter.emit_eq_ok.mp he2
    obtain ⟨hinl, rfl⟩ := pure_eq_ok.mp hp
    obtain rfl := Sum.inl.inj hinl
    refine ⟨[opcode], [i, j], hop, hrest, by simp, ?_⟩
    rw [FunctionValidator.visitAll, hv]
    change v.visitAll [j] = _
    rw [FunctionValidator.visitAll, hv2]
    rfl
  have hindex {idx : ℕ} {d : Cursor} (hd : Leb128.decodeU32 c₁ = .ok (idx, d)) :
      ∃ s, Groups s ∧ c₁.rest = s ++ d.rest := by
    obtain ⟨v, d', hv, hp⟩ := Reader.bind_eq_ok.mp hd
    obtain ⟨-, rfl⟩ := pure_eq_ok.mp hp
    obtain ⟨s, hs, -, hgroups, -⟩ := Leb128.decode_eq_ok hv
    exact ⟨s, hgroups, hs⟩
  -- the opcodes in the order of the `switch`
  split_ifs at h2 with _ hif helse hreturn hget hset hconst hadd
  · cases h2
  · exact htwo (hif ▸ .if_) h2
  · exact htwo (helse ▸ .else_) h2
  · exact hone (s := []) (hreturn ▸ .return_) rfl h2
  · obtain ⟨idx, d, hd, h3⟩ := Reader.bind_eq_ok.mp h2
    obtain ⟨s, hgroups, hs⟩ := hindex hd
    exact hone (hget ▸ .getLocalI32 hgroups idx) hs h3
  · obtain ⟨idx, d, hd, h3⟩ := Reader.bind_eq_ok.mp h2
    obtain ⟨s, hgroups, hs⟩ := hindex hd
    exact hone (hset ▸ .setLocalI32 hgroups idx) hs h3
  · obtain ⟨v, d, hd, h3⟩ := Reader.bind_eq_ok.mp h2
    obtain ⟨s, hs, -, hgroups, -⟩ := Leb128.decode_eq_ok hd
    exact hone (hconst ▸ .constI32 hgroups _) hs h3
  · exact hone (s := []) (hadd ▸ .addI32) rfl h2
  · cases h2

/-- What a round of `ParseExpression` emits. -/
structure Emitted (e e' : OpEmitter) (c c' : Cursor) (is : List Instruction) : Prop where
  instructions : e'.instructions = e.instructions ++ is
  validator : e.validator.visitAll is = .ok e'.validator
  bytes : c'.rest.length + (is.map Instruction.minBytes).sum ≤ c.rest.length
  progress : c'.rest.length < c.rest.length

theorem parseNextOp_inl {e e' : OpEmitter} {c c' : Cursor}
    (h : parseNextOp e c = .ok (.inl e', c')) : ∃ is, Emitted e e' c c' is := by
  obtain ⟨used, is, hop, hrest, hinstrs, hvalid⟩ := parseNextOp_eq_inl h
  have hbytes := hop.minBytes_le
  have hpos := hop.length_pos
  have hlen := congrArg List.length hrest
  rw [List.length_append] at hlen
  exact ⟨is, hinstrs, hvalid, by omega, by omega⟩

theorem parseNextOp_inr {e e' : OpEmitter} {c c' : Cursor}
    (h : parseNextOp e c = .ok (.inr e', c')) : e' = e ∧ c.rest = 0x0B#8 :: c'.rest := by
  obtain ⟨opcode, c₁, h1, h2⟩ := Reader.bind_eq_ok.mp h
  obtain ⟨hrest, -⟩ := readByte_eq_ok.mp h1
  -- every other opcode asks for another round
  have hone {i : Instruction} {d : Cursor} (h : (do
        let e ← e.emit i
        pure (.inl e) : Reader Exception (OpEmitter ⊕ OpEmitter)) d = .ok (.inr e', c')) :
      False := by
    obtain ⟨e₁, d₁, -, hp⟩ := Reader.bind_eq_ok.mp h
    cases (pure_eq_ok.mp hp).1
  have htwo {i j : Instruction} (h : (do
        let e ← e.emit i
        let e ← e.emit j
        pure (.inl e) : Reader Exception (OpEmitter ⊕ OpEmitter)) c₁ = .ok (.inr e', c')) :
      False := by
    obtain ⟨e₁, d₁, -, h3⟩ := Reader.bind_eq_ok.mp h
    obtain ⟨e₂, d₂, -, hp⟩ := Reader.bind_eq_ok.mp h3
    cases (pure_eq_ok.mp hp).1
  split_ifs at h2 with hend
  · obtain ⟨he, rfl⟩ := pure_eq_ok.mp h2
    exact ⟨(Sum.inr.inj he).symm, hend ▸ hrest⟩
  · exact absurd h2 htwo
  · exact absurd h2 htwo
  · exact absurd h2 hone
  · obtain ⟨idx, d, -, h3⟩ := Reader.bind_eq_ok.mp h2
    exact absurd h3 hone
  · obtain ⟨idx, d, -, h3⟩ := Reader.bind_eq_ok.mp h2
    exact absurd h3 hone
  · obtain ⟨v, d, -, h3⟩ := Reader.bind_eq_ok.mp h2
    exact absurd h3 hone
  · exact absurd h2 hone
  · cases h2

theorem progress_parseNextOp : Progress parseNextOp := by
  intro e c e' c' h
  obtain ⟨is, he⟩ := parseNextOp_inl h
  exact he.progress

end ModuleBuilder

end Wasmcc
