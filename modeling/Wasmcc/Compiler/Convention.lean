import Wasmcc.Compiler.Labels
import Wasmcc.Compiler.Emitted

/-!
# Generated code and the calling convention

Which registers an instruction writes can be read off it (`X64.Instr.writes`, `Arm64.Instr.writes`);
`Target.WriteSets` says what these sets are for each place of the generated code, and that nothing
else changes. All that is emitted between the `enter` and the `leave` of a function writes allocated
registers only, and neither halts nor touches the stack pointer (`Target.Straight`).

Without dead code a function is executed from its first instruction to its last, each of them once:
a jump to the exit label is a jump to the next instruction. So the stack pointer is moved down once,
moved back by the same amount, and then the function returns (`respectsConvention_of_compiled`).

The parser also accepts functions that are declared and never defined. For such a function with a
result there is no code at all, since the epilogue pops an empty stack
(`compilers_respect_convention_iff`). Offsets and immediates of AArch64 instructions are taken as
encodable.
-/

open Basis

namespace Wasmcc

open StackMachine

/-- A register that an instruction writes. -/
inductive Destination where
  | sp
  | gp (r : Reg)
deriving DecidableEq, Repr

/-- The registers that an x86-64 instruction writes. -/
def X64.Instr.writes : X64.Instr → List Destination
  | .subRsp _ | .addRsp _ | .ret => [.sp]
  | .movFromMem dst _ | .mov dst _ => [.gp dst.id]
  | .movImm dst _ | .adc dst _ => [.gp dst]
  | .movToMem _ _ | .jmp _ | .bind _ => []

/-- The registers that an AArch64 instruction writes. -/
def Arm64.Instr.writes : Arm64.Instr → List Destination
  | .subSp _ | .addSp _ => [.sp]
  | .ldr dst _ | .mov dst _ => [.gp dst.id]
  | .movImm dst _ | .add dst _ => [.gp dst]
  | .str _ _ | .b _ | .bind _ | .ret => []

/-- `rbx`, `rbp` and `r12` to `r15`. -/
def X64.kGpCalleeSavedRegisters : RegisterMask := .ofList [3, 5, 12, 13, 14, 15]

/-- `x19` to `x29`. -/
def Arm64.kGpCalleeSavedRegisters : RegisterMask :=
  .ofList [19, 20, 21, 22, 23, 24, 25, 26, 27, 28, 29]

namespace Target

variable {ι : Type}

/-- `writes` is right about the instructions of the target: nothing else is changed, and this is
what it says of each of them. -/
structure WriteSets (t : Target ι) (writes : ι → List Destination) : Prop where
  gp (i : ι) (m : Machine) (r : Reg) : .gp r ∉ writes i → (t.isa.exec i m).state.reg r = m.reg r
  sp (i : ι) (m : Machine) : .sp ∉ writes i → (t.isa.exec i m).state.sp = m.sp
  enter (size : BitVec 32) : writes (t.enter size) = [.sp]
  leave (size : BitVec 32) : writes (t.leave size) = [.sp]
  store (offset : BitVec 32) (src : Gp) : writes (t.store offset src) = []
  load (dst : Gp) (offset : BitVec 32) : writes (t.load dst offset) = [.gp dst.id]
  const (dst : Reg) (v : BitVec 32) : writes (t.const dst v) = [.gp dst]
  add (dst src : Reg) : writes (t.add dst src) = [.gp dst]
  setLocal (offset : BitVec 32) (src : Reg) : writes (t.setLocal offset src) ⊆ [.gp src]
  move (dst src : Gp) : writes (t.move dst src) = [.gp dst.id]
  jump (l : Label) : writes (t.jump l) = []
  bind (l : Label) : writes (t.bind l) = []
  ret : writes t.ret ⊆ [.sp]

/-- The code keeps to the calling convention. -/
structure RespectsConvention (t : Target ι) (writes : ι → List Destination) (code : List ι) :
    Prop where
  /-- Only the stack pointer and caller-saved registers are written. -/
  callerSaved : ∀ i ∈ code, ∀ d ∈ writes i,
    d = .sp ∨ ∃ r, d = .gp r ∧ t.callerSaved.test r = true
  /-- The code runs to its end from every state. -/
  returns : ∀ s, ∃ executed e, t.isa.Executes code 0 s executed e
  /-- On every such run the subtraction and the addition cancel, and `ret` is executed once, at the
  end. -/
  balanced : ∀ s executed e, t.isa.Executes code 0 s executed e →
    (∃ size between, executed = t.enter size :: between ++ [t.leave size, t.ret] ∧
      ∀ i ∈ between, i ≠ t.ret ∧ .sp ∉ writes i) ∧
    e.sp = s.sp + t.retPops
  /-- The registers that are not caller-saved have their values again. -/
  preserves : ∀ s executed e, t.isa.Executes code 0 s executed e →
    ∀ r, t.callerSaved.test r = false → e.reg r = s.reg r

/-! ### Between `enter` and `leave` -/

variable {t : Target ι} {writes : ι → List Destination}

/-- The instruction falls through, and writes allocated registers only. -/
structure Straight (t : Target ι) (writes : ι → List Destination) (i : ι) : Prop where
  next : ∀ m, ∃ m', t.isa.exec i m = .next m'
  writes : ∀ d ∈ writes i, ∃ r, d = .gp r ∧ t.callerSaved.test r = true

/-- The stack pointer is `sp`, and the registers that are not allocated are those of `s`. -/
structure Kept (t : Target ι) (s : Machine) (sp : BitVec 64) (m : Machine) : Prop where
  sp : m.sp = sp
  regs : ∀ r, t.callerSaved.test r = false → m.reg r = s.reg r

namespace Straight

variable {i : ι}

theorem sp_notMem (h : Straight t writes i) : .sp ∉ writes i := by
  intro hsp
  obtain ⟨r, hr, -⟩ := h.writes _ hsp
  cases hr

theorem ne_ret (h : Straight t writes i) : i ≠ t.ret := by
  rintro rfl
  obtain ⟨m', hm'⟩ := h.next ⟨fun _ => 0, 0, false, fun _ => 0, 0⟩
  rw [t.exec_ret] at hm'
  cases hm'

theorem of_gp {r : Reg} (hnext : ∀ m, ∃ m', t.isa.exec i m = .next m')
    (hwrites : writes i = [.gp r]) (hr : t.callerSaved.test r = true) : Straight t writes i :=
  ⟨hnext, fun _ hd => ⟨r, List.mem_singleton.mp (hwrites ▸ hd), hr⟩⟩

theorem of_nil (hnext : ∀ m, ∃ m', t.isa.exec i m = .next m') (hwrites : writes i = []) :
    Straight t writes i :=
  ⟨hnext, fun _ hd => absurd (hwrites ▸ hd) List.not_mem_nil⟩

/-- A straight instruction leaves the stack pointer and the other registers alone. -/
theorem triple (hw : WriteSets t writes) (h : Straight t writes i) (s : Machine) (sp : BitVec 64) :
    t.isa.Triple (Kept t s sp) [i] (Kept t s sp) := by
  apply Isa.Triple.single
  intro m hm
  obtain ⟨m', hm'⟩ := h.next m
  have hstate : (t.isa.exec i m).state = m' := by rw [hm']; rfl
  refine ⟨m', hm', ?_, fun r hr => ?_⟩
  · rw [← hstate, hw.sp i m h.sp_notMem, hm.sp]
  · -- it writes caller-saved registers only
    have hgp : .gp r ∉ writes i := by
      intro hmem
      obtain ⟨q, hq, hcaller⟩ := h.writes _ hmem
      rw [Destination.gp.inj hq, hcaller] at hr
      cases hr
    rw [← hstate, hw.gp i m r hgp, hm.regs r hr]

end Straight

variable {frame : FunctionFrame} {exitLabel : Label}

/-- What a body emits is straight, but for the jumps of its `Return`s. -/
theorem straight_of_emitted (hw : WriteSets t writes) {depth : ℕ} {body : List Instruction} {i : ι}
    (h : t.Emitted frame exitLabel depth body i) :
    Straight t writes i ∨ i = t.jump exitLabel ∧ .return_ ∈ body := by
  cases h with
  | spill hk => exact Or.inl (.of_nil (fun m => ⟨_, t.exec_store _ _ m⟩) (hw.store _ _))
  | reload hk hr => exact Or.inl (.of_gp (fun m => ⟨_, t.exec_load _ _ m⟩) (hw.load _ _) hr)
  | const value hr => exact Or.inl (.of_gp (fun m => ⟨_, t.exec_const _ _ m⟩) (hw.const _ _) hr)
  | add hr => exact Or.inl (.of_gp (fun m => ⟨_, t.exec_add _ _ m⟩) (hw.add _ _) hr)
  | get hidx ho hr => exact Or.inl (.of_gp (fun m => ⟨_, t.exec_load _ _ m⟩) (hw.load _ _) hr)
  | @set idx offset r hidx ho hr =>
    -- a store on x64, a load on arm64
    refine Or.inl ⟨fun m => ⟨_, t.exec_setLocal _ _ m⟩, fun d hd => ⟨r, ?_, hr⟩⟩
    exact List.mem_singleton.mp (hw.setLocal offset r hd)
  | jump hret => exact Or.inr ⟨rfl, hret⟩

theorem straight_of_saves (hw : WriteSets t writes) {n : ℕ} {vts : List ValType} {code : List ι}
    (h : t.Saves frame n vts code) : ∀ i ∈ code, Straight t writes i := by
  induction h with
  | nil => exact fun i hi => absurd hi List.not_mem_nil
  | cons hr ho hs ih =>
    intro i hi
    rcases List.mem_cons.mp hi with rfl | hi
    · exact .of_nil (fun m => ⟨_, t.exec_store _ _ m⟩) (hw.store _ _)
    · exact ih i hi

theorem straight_of_movesResult (frame : FunctionFrame) (hw : WriteSets t writes) {w : Window}
    (hvalid : w.Valid t.callerSaved) {results : List ValType} {code : List ι}
    (h : t.MovesResult w results code) : ∀ i ∈ code, Straight t writes i := by
  cases h with
  | nil => exact fun i hi => absurd hi List.not_mem_nil
  | @cons vt vts r w' code hr =>
    intro i hi
    rcases List.mem_append.mp hi with hi | hi
    · -- the result may have to be loaded first
      have hcode : ∀ i ∈ code, t.Emitted frame 0 w.depth [] i := (hr.emitted hvalid le_rfl).2
      rcases straight_of_emitted hw (hcode i hi) with h | ⟨-, hret⟩
      · exact h
      · cases hret
    · split at hi
      · cases hi
      · -- and moved to the result register
        obtain rfl := List.mem_singleton.mp hi
        refine .of_gp (fun m => ⟨_, t.exec_move _ _ m⟩) ?_ t.gpRet_pool
        rw [hw.move, Reg.cast_id]

end Target

/-! ### The body -/

/-- A body without dead code has a `Return` at its end, if it has one. -/
theorem deadCode_eq_nil {body : List Instruction} (h : deadCode body = []) :
    .return_ ∉ body ∨ ∃ live, body = live ++ [.return_] ∧ .return_ ∉ live := by
  induction body with
  | nil => exact Or.inl List.not_mem_nil
  | cons i is ih =>
    by_cases hi : i = .return_
    · subst hi
      -- a `Return` is the last instruction
      obtain rfl : is = [] := h
      exact Or.inr ⟨[], rfl, List.not_mem_nil⟩
    · rw [deadCode_cons hi] at h
      rcases ih h with hno | ⟨live, rfl, hno⟩
      · exact Or.inl fun hmem => hno ((List.mem_cons.mp hmem).resolve_left (Ne.symm hi))
      · exact Or.inr ⟨i :: live, rfl,
          fun hmem => hno ((List.mem_cons.mp hmem).resolve_left (Ne.symm hi))⟩

namespace Target

variable {ι : Type} {t : Target ι} {writes : ι → List Destination} {frame : FunctionFrame}
  {exitLabel : Label}

/-- **The code of a body without dead code**: straight instructions, and perhaps a jump after
them. -/
theorem straight_of_visits (hw : WriteSets t writes) {body : List Instruction} {w : Window}
    {code : List ι} (hdead : deadCode body = [])
    (h : t.Visits frame exitLabel ⟨[], 0⟩ body w code) :
    w.Valid t.callerSaved ∧ ∃ live rest, code = live ++ rest ∧
      (rest = [] ∨ rest = [t.jump exitLabel]) ∧ ∀ i ∈ live, Straight t writes i := by
  have hempty : Window.Valid t.callerSaved ⟨[], 0⟩ :=
    ⟨List.nodup_nil, fun r hr => absurd hr List.not_mem_nil⟩
  have hlive {sub : List Instruction} {w' : Window} {live : List ι} (hno : .return_ ∉ sub)
      (hsub : t.Visits frame exitLabel ⟨[], 0⟩ sub w' live) : ∀ i ∈ live, Straight t writes i :=
    fun i hi => (straight_of_emitted hw ((hsub.emitted hempty le_rfl
      (List.Subset.refl _)).2 i hi)).resolve_right fun hjump => hno hjump.2
  refine ⟨(h.emitted hempty le_rfl (List.Subset.refl _)).1, ?_⟩
  -- a body without dead code returns at its end, if it does
  rcases deadCode_eq_nil hdead with hno | ⟨sub, rfl, hno⟩
  · exact ⟨code, [], (List.append_nil code).symm, Or.inl rfl, hlive hno h⟩
  · obtain ⟨w₁, live, rest, rfl, hsub, hreturn⟩ := h.of_append
    refine ⟨live, rest, rfl, Or.inr ?_, hlive hno hsub⟩
    cases hreturn with
    | cons hi his =>
      cases hi
      cases his
      rfl

/-- **Executing a function**: every instruction once, in order. A jump in front of the exit goes to
the exit. -/
theorem executes_of_blocks {f : Function} {out first rest last : List ι} {l : Label}
    {s m m' e : Machine} (hcompile : t.compile l f = .ok out)
    (hout : out = first ++ rest ++ (t.bind l :: last ++ [t.ret]))
    (hrest : rest = [] ∨ rest = [t.jump l]) (hfirst : t.isa.execBlock first s = some m)
    (hlast : t.isa.execBlock (t.bind l :: last) m = some m')
    (hret : t.isa.exec t.ret m' = .halt e) : t.isa.Executes out 0 s out e := by
  have hsplit : out = (first ++ rest) ++ (t.bind l :: last) ++ [t.ret] := by
    rw [hout]
    simp
  -- the epilogue, wherever it is entered from
  have hend : t.isa.Executes out (first ++ rest).length m (t.bind l :: last ++ [t.ret]) e := by
    refine Isa.Executes.block hsplit hlast (.halt ?_ hret)
    rw [hsplit, ← List.length_append]
    exact Isa.getElem?_append_cons _ [] _
  have hstart : out = [] ++ first ++ (rest ++ (t.bind l :: last ++ [t.ret])) := by
    rw [hout, List.nil_append, List.append_assoc]
  have hgo : t.isa.Executes out (([] : List ι).length + first.length) m
      (rest ++ (t.bind l :: last ++ [t.ret])) e := by
    rw [List.length_nil, Nat.zero_add]
    rcases hrest with rfl | rfl
    · rwa [List.append_nil] at hend
    · obtain ⟨pre, post, hbinds, hpre, hpost⟩ := compile_binds hcompile
      obtain rfl : pre = first ++ [t.jump l] :=
        hpre.split_eq hpost ((hbinds.symm.trans hout).trans rfl)
      have htarget := target_bind hpre l post
      rw [← hbinds] at htarget
      refine .jump ?_ (t.exec_jump l m) htarget hend
      rw [hstart, List.nil_append]
      exact Isa.getElem?_append_cons _ _ _
  have hall := Isa.Executes.block hstart hfirst hgo
  rwa [← List.append_assoc, ← hout] at hall

section Parts

variable {f : Function} {saves code last out : List ι} {w : Window} {size : BitVec 32}

/-- All that is emitted between `enter` and `leave` is straight, but for a jump to the exit. -/
theorem straight_between (hw : WriteSets t writes) (hdead : deadCode f.body = [])
    (hs : t.Saves frame 0 f.meta_.signature.parameterTypes saves)
    (hv : t.Visits frame exitLabel ⟨[], 0⟩ f.body w code)
    (hm : t.MovesResult w f.meta_.signature.resultTypes last) :
    ∀ i ∈ saves ++ (code ++ t.bind exitLabel :: last),
      Straight t writes i ∨ i = t.jump exitLabel := by
  obtain ⟨hvalid, live, rest, rfl, hrest, hlive⟩ := straight_of_visits hw hdead hv
  simp only [List.mem_append, List.mem_cons]
  rintro i (hi | (hi | hi) | rfl | hi)
  · exact Or.inl (straight_of_saves hw hs i hi)
  · exact Or.inl (hlive i hi)
  · -- the only jump is the one to the epilogue, at the end
    rcases hrest with rfl | rfl
    · cases hi
    · exact Or.inr (List.mem_singleton.mp hi)
  · exact Or.inl (.of_nil (fun m => ⟨m, t.exec_bind _ m⟩) (hw.bind _))
  · exact Or.inl (straight_of_movesResult frame hw hvalid hm i hi)

/-- **A function without dead code runs through**, and moves the stack pointer back. -/
theorem executes_of_parts (hw : WriteSets t writes) (hdead : deadCode f.body = [])
    (hcompile : t.compile exitLabel f = .ok out)
    (hs : t.Saves frame 0 f.meta_.signature.parameterTypes saves)
    (hv : t.Visits frame exitLabel ⟨[], 0⟩ f.body w code)
    (hm : t.MovesResult w f.meta_.signature.resultTypes last)
    (hout : out = t.enter size :: saves ++
      (code ++ (t.bind exitLabel :: last ++ [t.leave size, t.ret]))) (s : Machine) :
    ∃ e, t.isa.Executes out 0 s out e ∧ e.sp = s.sp + t.retPops ∧
      ∀ r, t.callerSaved.test r = false → e.reg r = s.reg r := by
  obtain ⟨hvalid, live, rest, rfl, hrest, hlive⟩ := straight_of_visits hw hdead hv
  have hbind : Straight t writes (t.bind exitLabel) :=
    .of_nil (fun m => ⟨m, t.exec_bind _ m⟩) (hw.bind _)
  -- what happens to the stack pointer and to the registers that are not allocated
  have hentered : Kept t s (s.sp - size.signExtend 64) (s.enter t.addsCarry size) :=
    ⟨rfl, fun r _ => rfl⟩
  have hbody : t.isa.Triple (Kept t s (s.sp - size.signExtend 64)) (saves ++ live)
      (Kept t s (s.sp - size.signExtend 64)) := by
    apply Isa.Triple.each
    intro i hi
    rcases List.mem_append.mp hi with hi | hi
    · exact (straight_of_saves hw hs i hi).triple hw s _
    · exact (hlive i hi).triple hw s _
  have hexit : t.isa.Triple (Kept t s (s.sp - size.signExtend 64)) (t.bind exitLabel :: last)
      (Kept t s (s.sp - size.signExtend 64)) := by
    apply Isa.Triple.each
    intro i hi
    rcases List.mem_cons.mp hi with rfl | hi
    · exact hbind.triple hw s _
    · exact (straight_of_movesResult frame hw hvalid hm i hi).triple hw s _
  obtain ⟨m, hm1, hkept⟩ := hbody _ hentered
  obtain ⟨m', hm2, hkept'⟩ := hexit m hkept
  have hfirst : t.isa.execBlock (t.enter size :: saves ++ live) s = some m := by
    rw [List.cons_append, Isa.execBlock_cons (t.exec_enter _ _)]
    exact hm1
  have hepilogue : t.isa.execBlock (t.bind exitLabel :: (last ++ [t.leave size])) m =
      some (m'.leave t.addsCarry size) := by
    rw [← List.cons_append, Isa.execBlock_append hm2, Isa.execBlock_cons (t.exec_leave _ _)]
    rfl
  have hsplit : out = t.enter size :: saves ++ live ++ rest ++
      (t.bind exitLabel :: (last ++ [t.leave size]) ++ [t.ret]) := by
    rw [hout]
    simp
  refine ⟨_, executes_of_blocks hcompile hsplit hrest hfirst hepilogue (t.exec_ret _), ?_, ?_⟩
  · show m'.sp + size.signExtend 64 + t.retPops = s.sp + t.retPops
    rw [hkept'.sp, sub_add_cancel]
  · exact fun r hr => hkept'.regs r hr

end Parts

theorem jump_ne_ret (t : Target ι) (l : Label) : t.jump l ≠ t.ret := by
  intro he
  have hx := t.exec_jump l ⟨fun _ => 0, 0, false, fun _ => 0, 0⟩
  rw [he, t.exec_ret] at hx
  cases hx

/-- **The code of a function without dead code keeps to the convention.** -/
theorem respectsConvention_of_compiled (hw : WriteSets t writes) {f : Function} {out : List ι}
    (hdead : deadCode f.body = []) (hcompile : t.compile exitLabel f = .ok out)
    (hcompiled : t.Compiled exitLabel f out) : RespectsConvention t writes out := by
  cases hcompiled with
  | @mk saves code last w hs hv hm =>
  set size := (FunctionFrame.new f.meta_).stackSizeBytes
  have hbetween := straight_between hw hdead hs hv hm
  have hruns := executes_of_parts hw hdead hcompile hs hv hm rfl
  set out := t.enter size :: saves ++ (code ++ (t.bind exitLabel :: last ++
    [t.leave size, t.ret]))
  have hshape : out = t.enter size :: (saves ++ (code ++ t.bind exitLabel :: last)) ++
      [t.leave size, t.ret] := by
    simp [out]
  constructor
  -- what is written
  · intro i hi d hd
    rw [hshape, List.mem_append, List.mem_cons, List.mem_cons, List.mem_singleton] at hi
    rcases hi with (rfl | hi) | rfl | rfl
    · exact Or.inl (List.mem_singleton.mp (hw.enter size ▸ hd))
    · rcases hbetween i hi with hstraight | rfl
      · exact Or.inr (hstraight.writes d hd)
      · exact absurd (hw.jump _ ▸ hd) List.not_mem_nil
    · exact Or.inl (List.mem_singleton.mp (hw.leave size ▸ hd))
    · exact Or.inl (List.mem_singleton.mp (hw.ret hd))
  · intro s
    obtain ⟨e, he, -⟩ := hruns s
    exact ⟨out, e, he⟩
  -- the stack pointer
  · intro s executed e' h'
    obtain ⟨e, he, hsp, -⟩ := hruns s
    obtain ⟨rfl, rfl⟩ := he.det h'
    refine ⟨⟨size, _, hshape, fun i hi => ?_⟩, hsp⟩
    rcases hbetween i hi with hstraight | rfl
    · exact ⟨hstraight.ne_ret, hstraight.sp_notMem⟩
    · exact ⟨t.jump_ne_ret _, fun hmem => absurd (hw.jump _ ▸ hmem) List.not_mem_nil⟩
  -- the registers of the caller
  · intro s executed e' h' r hr
    obtain ⟨e, he, -, hregs⟩ := hruns s
    obtain ⟨rfl, rfl⟩ := he.det h'
    exact hregs r hr

/-- The compiler emits code for the function that keeps to the convention and writes no register of
`saved`. -/
def CompilesByConvention (t : Target ι) (writes : ι → List Destination) (saved : Reg → Prop)
    (exitLabel : Label) (f : Function) : Prop :=
  ∃ code, t.compile exitLabel f = .ok code ∧ RespectsConvention t writes code ∧
    ∀ i ∈ code, ∀ r, saved r → .gp r ∉ writes i

/-- Either compiler, with a set of registers of which it allocates none. -/
theorem WriteSets.compilesByConvention (hw : WriteSets t writes) (hargs : 6 ≤ t.gpArgs.length)
    {f : Function} (haccepted : f.Accepted) (hcore : CoreBody f.body)
    (hdead : deadCode f.body = []) (exitLabel : Label) {saved : Reg → Prop}
    (hsaved : ∀ r, saved r → t.callerSaved.test r = false) :
    t.CompilesByConvention writes saved exitLabel f := by
  obtain ⟨code, hcode, hcompiled⟩ :=
    haccepted.compiled t.toAssembler exitLabel hcore hdead hargs
  have hrespects := respectsConvention_of_compiled hw hdead hcode hcompiled
  refine ⟨code, hcode, hrespects, fun i hi r hr hmem => ?_⟩
  -- what is written is allocated
  rcases hrespects.callerSaved i hi _ hmem with h | ⟨q, hq, hcaller⟩
  · cases h
  · obtain rfl := Destination.gp.inj hq
    rw [hsaved r hr] at hcaller
    cases hcaller

/-- **Without a body** there is code only if there is no result. -/
theorem compile_ne_ok_of_result {f : Function} (hbody : f.body = [])
    (hresult : f.meta_.signature.resultTypes ≠ []) (exitLabel : Label) (code : List ι) :
    t.compile exitLabel f ≠ .ok code := by
  intro hcode
  obtain ⟨prologue, -, hrest⟩ := bind_eq_ok.mp hcode
  obtain ⟨body, hok, -⟩ := bind_eq_ok.mp hrest
  -- the result would be popped from the empty stack
  have hfails : t.compileBody (.new f.meta_) exitLabel f.meta_.maxStackElements.toNat f.body =
      .error .stackIndex := by
    rw [hbody]
    refine Assembler.compileBody_of_not_fits t.toAssembler _ exitLabel
      ⟨fun i hi => absurd hi List.not_mem_nil, fun i hi => absurd hi List.not_mem_nil⟩
      fun hfit => ?_
    obtain ⟨vt, vts, hresults⟩ := List.exists_cons_of_ne_nil hresult
    have hone : poppedResults (FunctionFrame.new f.meta_).meta_.signature.resultTypes = 1 := by
      show poppedResults f.meta_.signature.resultTypes = 1
      rw [hresults]
      rfl
    rw [hone] at hfit
    exact absurd hfit (Nat.not_succ_le_zero 0)
  rw [hfails] at hok
  cases hok

/-- A function that was only declared is compiled by the convention if it has no result. -/
theorem WriteSets.compilesByConvention_declared_iff (hw : WriteSets t writes)
    (hargs : 6 ≤ t.gpArgs.length) {sig : BlockType} (hlimited : sig.Limited) (exitLabel : Label)
    {saved : Reg → Prop} (hsaved : ∀ r, saved r → t.callerSaved.test r = false) :
    t.CompilesByConvention writes saved exitLabel { meta_ := { signature := sig } } ↔
      sig.resultTypes = [] := by
  constructor
  · rintro ⟨code, hcode, -⟩
    by_contra hresult
    exact compile_ne_ok_of_result rfl hresult exitLabel code hcode
  · intro hresult
    exact hw.compilesByConvention hargs (accepted_of_no_result hlimited hresult)
      (fun i hi => absurd hi List.not_mem_nil) rfl exitLabel hsaved

end Target

/-! ### The two compilers -/

theorem ne_of_gp_notMem {r q : Reg} (h : Destination.gp r ∉ [Destination.gp q]) : r ≠ q :=
  fun he => h (he ▸ List.mem_cons_self)

theorem X64.writeSets : X64.target.WriteSets X64.Instr.writes where
  gp i m r h := by
    -- no instruction changes a register that its set leaves out
    cases i with
    | subRsp imm => rfl
    | addRsp imm => rfl
    | movToMem disp src => rfl
    | movFromMem dst disp => exact m.load_reg_of_ne _ _ (ne_of_gp_notMem h)
    | movImm dst imm => exact m.set_reg_of_ne (Reg.r32 dst) _ (ne_of_gp_notMem h)
    | mov dst src => exact m.set_reg_of_ne dst _ (ne_of_gp_notMem h)
    | adc dst src => exact m.add_reg_of_ne _ _ _ (ne_of_gp_notMem h)
    | jmp label => rfl
    | bind label => rfl
    | ret => rfl
  sp i m h := by
    -- the stack pointer is moved by the frame instructions and by `ret`
    cases i with
    | subRsp imm => exact absurd List.mem_cons_self h
    | addRsp imm => exact absurd List.mem_cons_self h
    | movToMem disp src => rfl
    | movFromMem dst disp => exact m.load_sp _ _
    | movImm dst imm => exact m.set_sp (Reg.r32 dst) _
    | mov dst src => exact m.set_sp _ _
    | adc dst src => exact m.add_sp _ _ _
    | jmp label => rfl
    | bind label => rfl
    | ret => exact absurd List.mem_cons_self h
  enter _ := rfl
  leave _ := rfl
  store _ _ := rfl
  load _ _ := rfl
  const _ _ := rfl
  add _ _ := rfl
  setLocal _ _ := List.nil_subset _
  move _ _ := rfl
  jump _ := rfl
  bind _ := rfl
  ret := List.Subset.refl _

theorem Arm64.writeSets : Arm64.target.WriteSets Arm64.Instr.writes where
  gp i m r h := by
    -- no instruction changes a register that its set leaves out
    cases i with
    | subSp imm => rfl
    | addSp imm => rfl
    | str src offset => rfl
    | ldr dst offset => exact m.load_reg_of_ne _ _ (ne_of_gp_notMem h)
    | movImm dst imm => exact m.set_reg_of_ne (Reg.r32 dst) _ (ne_of_gp_notMem h)
    | mov dst src => exact m.set_reg_of_ne dst _ (ne_of_gp_notMem h)
    | add dst rhs => exact m.add_reg_of_ne _ _ _ (ne_of_gp_notMem h)
    | b label => rfl
    | bind label => rfl
    | ret => rfl
  sp i m h := by
    -- `ret` leaves the stack pointer alone here
    cases i with
    | subSp imm => exact absurd List.mem_cons_self h
    | addSp imm => exact absurd List.mem_cons_self h
    | str src offset => rfl
    | ldr dst offset => exact m.load_sp _ _
    | movImm dst imm => exact m.set_sp (Reg.r32 dst) _
    | mov dst src => exact m.set_sp _ _
    | add dst rhs => exact m.add_sp _ _ _
    | b label => rfl
    | bind label => rfl
    | ret => exact add_zero _
  enter _ := rfl
  leave _ := rfl
  store _ _ := rfl
  load _ _ := rfl
  const _ _ := rfl
  add _ _ := rfl
  setLocal _ _ := List.Subset.refl _
  move _ _ := rfl
  jump _ := rfl
  bind _ := rfl
  ret := List.nil_subset _

/-- The callee-saved registers are not among those that are allocated, and neither is the link
register of AArch64. -/
theorem calleeSaved_not_callerSaved :
    (∀ r, X64.kGpCalleeSavedRegisters.test r = true → X64.kGpCallerSavedRegisters.test r = false) ∧
    ∀ r, Arm64.kGpCalleeSavedRegisters.test r = true ∨ r = Arm64.x30 →
      Arm64.kGpCallerSavedRegisters.test r = false := by
  decide

/-- `rbx`, `rbp`, `r12` to `r15`. -/
def X64.Saved (r : Reg) : Prop := X64.kGpCalleeSavedRegisters.test r = true

/-- `x19` to `x30`. -/
def Arm64.Saved (r : Reg) : Prop := Arm64.kGpCalleeSavedRegisters.test r = true ∨ r = Arm64.x30

/-- **When generated code respects the calling convention.** For a function of an accepted module,
over the core instructions and without dead code, each compiler emits code that writes the stack
pointer and caller-saved registers only, and no callee-saved register, that always runs to its
`ret`, once, with the stack pointer back where it was, if and only if the module has a code section
or the function has no result. -/
theorem compilers_respect_convention_iff (dangling : List Name → Name → Bool) (bytes : List Byte)
    (parsed : ParsedModule) (c' : Cursor)
    (haccepted : parseModule dangling ⟨bytes, 0⟩ = .ok (parsed, c')) :
    ∃ secs b, CutsInto dangling bytes secs b ∧ parsed = b.build ∧
      ∀ f ∈ parsed.functions, CoreBody f.body → deadCode f.body = [] → ∀ exitLabel,
        (X64.target.CompilesByConvention X64.Instr.writes X64.Saved exitLabel f ↔
          (∃ s ∈ secs, s.id = 0x0A#8) ∨ f.meta_.signature.resultTypes = []) ∧
        (Arm64.target.CompilesByConvention Arm64.Instr.writes Arm64.Saved exitLabel f ↔
          (∃ s ∈ secs, s.id = 0x0A#8) ∨ f.meta_.signature.resultTypes = []) := by
  obtain ⟨-, secs, b, hcut, rfl⟩ := parseModule_eq_ok_iff.mp haccepted
  obtain ⟨rest, -, hsecs⟩ := id hcut
  have hb := hsecs.guaranteed guaranteed_empty
  refine ⟨secs, b, hcut, rfl, fun f hf hcore hdead exitLabel => ?_⟩
  by_cases hcode : ∃ s ∈ secs, s.id = 0x0A#8
  · have hf' := hsecs.accepted guaranteed_empty hcode f hf
    exact ⟨iff_of_true (X64.writeSets.compilesByConvention (by decide) hf' hcore hdead exitLabel
        calleeSaved_not_callerSaved.1) (Or.inl hcode),
      iff_of_true (Arm64.writeSets.compilesByConvention (by decide) hf' hcore hdead exitLabel
        calleeSaved_not_callerSaved.2) (Or.inl hcode)⟩
  · -- no code section, so the function was only declared
    have hnone : ∀ s ∈ secs, s.id ≠ 0x0A#8 := fun s hs he => hcode ⟨s, hs, he⟩
    obtain ⟨sig, rfl⟩ :=
      hsecs.only_declared hnone (fun g hg => absurd hg List.not_mem_nil) f hf
    have hlimited : sig.Limited := (hb.functions _ hf).signature
    rw [or_iff_right hcode]
    exact ⟨X64.writeSets.compilesByConvention_declared_iff (by decide) hlimited exitLabel
        calleeSaved_not_callerSaved.1,
      Arm64.writeSets.compilesByConvention_declared_iff (by decide) hlimited exitLabel
        calleeSaved_not_callerSaved.2⟩

theorem compilers_respect_convention_iff_oneFunction : ∃ secs b,
    CutsInto (fun _ _ => false) oneFunctionBytes secs b ∧ ⟨[oneFunction], ∅⟩ = b.build ∧
      (X64.target.CompilesByConvention X64.Instr.writes X64.Saved 0 oneFunction ↔
        (∃ s ∈ secs, s.id = 0x0A#8) ∨ oneFunction.meta_.signature.resultTypes = []) ∧
      (Arm64.target.CompilesByConvention Arm64.Instr.writes Arm64.Saved 0 oneFunction ↔
        (∃ s ∈ secs, s.id = 0x0A#8) ∨ oneFunction.meta_.signature.resultTypes = []) := by
  obtain ⟨secs, b, hcut, hbuild, h⟩ :=
    compilers_respect_convention_iff _ oneFunctionBytes _ _ parseModule_oneFunction
  exact ⟨secs, b, hcut, hbuild, h oneFunction (List.mem_singleton_self _) (by decide) rfl 0⟩

/-- The function that was declared as `() -> i32` and never defined: the module is accepted, and
neither compiler emits anything for it. -/
theorem declared_function_not_compiled : ∃ parsed c',
    parseModule (fun _ _ => false) ⟨declaredOnlyBytes, 0⟩ = .ok (parsed, c') ∧
    ∃ f ∈ parsed.functions, CoreBody f.body ∧ deadCode f.body = [] ∧
      X64.compile 0 f = .error .stackIndex ∧ Arm64.compile 0 f = .error .stackIndex :=
  ⟨_, _, rfl, _, List.mem_cons_self, fun _ hi => absurd hi List.not_mem_nil, rfl, rfl, rfl⟩

end Wasmcc
