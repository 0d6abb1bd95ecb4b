import Wasmcc.Compiler.Machine

/-!
# Labels in generated code

The only label that the code of a function binds is its exit label, and the code binds it once
(`compile_binds`). This holds for every function that is compiled, whatever its body is.
-/

open Basis

namespace Wasmcc

namespace Target

variable {ι : Type} (t : Target ι)

/-! ### What each instruction binds -/

section Binds

variable (size offset v : BitVec 32) (g g' : Gp) (r r' : Reg) (l : Label)

private theorem binds_of_mem {i : ι} (h : i ∈ [t.enter size, t.leave size, t.store offset g,
    t.load g offset, t.const r v, t.add r r', t.setLocal offset r, t.move g g', t.jump l, t.ret]) :
    t.isa.binds i = none := t.binds_other size offset v g g' r r' l i h

@[simp] theorem binds_enter : t.isa.binds (t.enter size) = none :=
  t.binds_of_mem size 0 0 ⟨.w32, 0⟩ ⟨.w32, 0⟩ 0 0 0 (by simp)

@[simp] theorem binds_leave : t.isa.binds (t.leave size) = none :=
  t.binds_of_mem size 0 0 ⟨.w32, 0⟩ ⟨.w32, 0⟩ 0 0 0 (by simp)

@[simp] theorem binds_store : t.isa.binds (t.store offset g) = none :=
  t.binds_of_mem 0 offset 0 g g 0 0 0 (by simp)

@[simp] theorem binds_load : t.isa.binds (t.load g offset) = none :=
  t.binds_of_mem 0 offset 0 g g 0 0 0 (by simp)

@[simp] theorem binds_const : t.isa.binds (t.const r v) = none :=
  t.binds_of_mem 0 0 v ⟨.w32, 0⟩ ⟨.w32, 0⟩ r 0 0 (by simp)

@[simp] theorem binds_add : t.isa.binds (t.add r r') = none :=
  t.binds_of_mem 0 0 0 ⟨.w32, 0⟩ ⟨.w32, 0⟩ r r' 0 (by simp)

@[simp] theorem binds_setLocal : t.isa.binds (t.setLocal offset r) = none :=
  t.binds_of_mem 0 offset 0 ⟨.w32, 0⟩ ⟨.w32, 0⟩ r 0 0 (by simp)

@[simp] theorem binds_move : t.isa.binds (t.move g g') = none :=
  t.binds_of_mem 0 0 0 g g' 0 0 0 (by simp)

@[simp] theorem binds_jump : t.isa.binds (t.jump l) = none :=
  t.binds_of_mem 0 0 0 ⟨.w32, 0⟩ ⟨.w32, 0⟩ 0 0 l (by simp)

@[simp] theorem binds_ret : t.isa.binds t.ret = none :=
  t.binds_of_mem 0 0 0 ⟨.w32, 0⟩ ⟨.w32, 0⟩ 0 0 0 (by simp)

end Binds

/-! ### Code that binds no label -/

/-- No instruction of the code binds a label. -/
def Plain (code : List ι) : Prop := ∀ i ∈ code, t.isa.binds i = none

variable {t}

theorem Plain.nil : t.Plain [] := fun _ hi => absurd hi List.not_mem_nil

theorem Plain.append {code rest : List ι} (h : t.Plain code) (h' : t.Plain rest) :
    t.Plain (code ++ rest) := fun i hi => (List.mem_append.mp hi).elim (h i) (h' i)

theorem Plain.single {i : ι} (h : t.isa.binds i = none) : t.Plain [i] := by
  intro j hj
  obtain rfl := List.mem_singleton.mp hj
  exact h

theorem spill_plain (vs : List RuntimeValue) : t.Plain (t.spill vs).2.2 := by
  intro i hi
  obtain ⟨offset, g, rfl⟩ := t.mem_spill hi
  exact t.binds_store offset g

theorem allocateRegister_plain {s s' : CompilerState} {r : Reg} {code : List ι}
    (h : t.allocateRegister s = .ok (r, s', code)) : t.Plain code := by
  rw [Assembler.allocateRegister] at h
  split at h
  · simp only [Except.ok.injEq, Prod.mk.injEq] at h
    rw [← h.2.2]
    exact .nil
  -- all that it emits are the stores of the spill loop
  · have hp := t.spill_plain s.stack.stack
    split at h
    next reg stack code' hs =>
      simp only [Except.ok.injEq, Prod.mk.injEq] at h
      rw [hs, h.2.2] at hp
      exact hp
    · cases h

theorem ensureInRegister_plain {s s' : CompilerState} {v : RuntimeValue} {r : Reg} {code : List ι}
    (h : t.ensureInRegister s v = .ok (r, s', code)) : t.Plain code := by
  rw [Assembler.ensureInRegister] at h
  split at h
  · simp only [Except.ok.injEq, Prod.mk.injEq] at h
    rw [← h.2.2]
    exact .nil
  · obtain ⟨⟨reg, s₁, code'⟩, ha, hr⟩ := bind_eq_ok.mp h
    simp only [pure, Except.pure, Except.ok.injEq, Prod.mk.injEq] at hr
    rw [← hr.2.2]
    exact (allocateRegister_plain ha).append (.single (t.binds_load _ _))

theorem ensureTopInRegister_plain {s s' : CompilerState} {r : Reg} {code : List ι}
    (h : t.ensureTopInRegister s = .ok (r, s', code)) : t.Plain code := by
  obtain ⟨top, -, h1⟩ := bind_eq_ok.mp h
  obtain ⟨⟨reg, s₁, code'⟩, he, hr⟩ := bind_eq_ok.mp h1
  simp only [pure, Except.pure, Except.ok.injEq, Prod.mk.injEq] at hr
  rw [← hr.2.2]
  exact ensureInRegister_plain he

theorem visit_plain {frame : FunctionFrame} {exitLabel : Label} {s s' : CompilerState}
    {i : Instruction} {code : List ι} (h : t.visit frame exitLabel s i = .ok (s', code)) :
    t.Plain code := by
  cases i with
  | constI32 value =>
    obtain ⟨stack, -, h1⟩ := bind_eq_ok.mp h
    obtain ⟨⟨reg, s₁, code'⟩, he, hr⟩ := bind_eq_ok.mp h1
    obtain rfl := (Prod.mk.inj (Except.ok.inj hr)).2
    exact (ensureTopInRegister_plain he).append (.single (t.binds_const _ _))
  | addI32 =>
    -- the code of one operand after that of the other
    obtain ⟨⟨x2, stack⟩, -, h1⟩ := bind_eq_ok.mp h
    obtain ⟨⟨r2, s₁, code2⟩, he, h2⟩ := bind_eq_ok.mp h1
    obtain ⟨⟨r1, s₂, code1⟩, ht, hr⟩ := bind_eq_ok.mp h2
    obtain rfl := (Prod.mk.inj (Except.ok.inj hr)).2
    exact ((ensureInRegister_plain he).append (ensureTopInRegister_plain ht)).append
      (.single (t.binds_add _ _))
  | getLocalI32 idx =>
    obtain ⟨stack, -, h1⟩ := bind_eq_ok.mp h
    obtain ⟨⟨reg, s₁, code'⟩, ha, h2⟩ := bind_eq_ok.mp h1
    obtain ⟨offset, -, hr⟩ := bind_eq_ok.mp h2
    obtain rfl := (Prod.mk.inj (Except.ok.inj hr)).2
    exact (allocateRegister_plain ha).append (.single (t.binds_load _ _))
  | setLocalI32 idx =>
    obtain ⟨⟨v, stack⟩, -, h1⟩ := bind_eq_ok.mp h
    obtain ⟨⟨reg, s₁, code'⟩, he, h2⟩ := bind_eq_ok.mp h1
    obtain ⟨offset, -, hr⟩ := bind_eq_ok.mp h2
    obtain rfl := (Prod.mk.inj (Except.ok.inj hr)).2
    exact (ensureInRegister_plain he).append (.single (t.binds_setLocal _ _))
  | return_ =>
    obtain rfl := (Prod.mk.inj (Except.ok.inj h)).2
    exact .single (t.binds_jump _)
  | label id => obtain rfl := (Prod.mk.inj (Except.ok.inj h)).2; exact .nil
  | br id => obtain rfl := (Prod.mk.inj (Except.ok.inj h)).2; exact .nil
  | brIf c e => obtain rfl := (Prod.mk.inj (Except.ok.inj h)).2; exact .nil

theorem visitAll_plain {frame : FunctionFrame} {exitLabel : Label} {body : List Instruction} :
    ∀ {s s' : CompilerState} {code : List ι},
      t.visitAll frame exitLabel s body = .ok (s', code) → t.Plain code := by
  induction body with
  | nil =>
    intro s s' code h
    obtain rfl := (Prod.mk.inj (Except.ok.inj h)).2
    exact .nil
  | cons i is ih =>
    intro s s' code h
    obtain ⟨⟨s₁, code₁⟩, h1, h2⟩ := bind_eq_ok.mp h
    obtain ⟨⟨s₂, code₂⟩, h3, hr⟩ := bind_eq_ok.mp h2
    obtain rfl := (Prod.mk.inj (Except.ok.inj hr)).2
    -- the code of one instruction, then that of the others
    exact (visit_plain h1).append (ih h3)

theorem saveParameters_plain {frame : FunctionFrame} (vts : List ValType) :
    ∀ {i : ℕ} {code : List ι}, t.saveParameters frame i vts = .ok code → t.Plain code := by
  induction vts with
  | nil =>
    intro i code h
    obtain rfl := Except.ok.inj h
    exact .nil
  | cons vt vts ih =>
    intro i code h
    rw [Assembler.saveParameters] at h
    split at h
    · obtain ⟨offset, -, h2⟩ := bind_eq_ok.mp h
      obtain ⟨rest, h3, hr⟩ := bind_eq_ok.mp h2
      obtain rfl := Except.ok.inj hr
      -- a store for this parameter, in front of the stores of the others
      exact (Plain.single (t.binds_store _ _)).append (ih h3)
    · cases h

theorem moveResult_plain {s : CompilerState} {results : List ValType} {code : List ι}
    (h : t.moveResult s results = .ok code) : t.Plain code := by
  cases results with
  | nil =>
    obtain rfl := Except.ok.inj h
    exact .nil
  | cons vt vts =>
    obtain ⟨⟨v, stack⟩, -, h1⟩ := bind_eq_ok.mp h
    obtain ⟨⟨reg, s₁, code'⟩, he, hr⟩ := bind_eq_ok.mp h1
    have hp := ensureInRegister_plain he
    obtain rfl := Except.ok.inj hr
    split
    · exact hp.append (.single (t.binds_move _ _))
    · exact hp

/-! ### The exit label -/

/-- **The code of a function binds its exit label**, at one place, and nothing else. -/
theorem compile_binds {exitLabel : Label} {f : Function} {code : List ι}
    (h : t.compile exitLabel f = .ok code) :
    ∃ pre post, code = pre ++ t.bind exitLabel :: post ∧ t.Plain pre ∧ t.Plain post := by
  obtain ⟨prologue, h1, h2⟩ := bind_eq_ok.mp h
  obtain ⟨body, h3, hr⟩ := bind_eq_ok.mp h2
  obtain rfl := Except.ok.inj hr
  obtain ⟨saves, hs, hp⟩ := bind_eq_ok.mp h1
  obtain rfl := Except.ok.inj hp
  obtain ⟨⟨s, visits⟩, hv, h4⟩ := bind_eq_ok.mp h3
  obtain ⟨epilogue, he, hb⟩ := bind_eq_ok.mp h4
  obtain rfl := Except.ok.inj hb
  obtain ⟨last, hm, hl⟩ := bind_eq_ok.mp he
  obtain rfl := Except.ok.inj hl
  -- the label stands between the body and the epilogue
  refine ⟨t.enter (FunctionFrame.new f.meta_).stackSizeBytes :: saves ++ visits, last ++
    [t.leave (FunctionFrame.new f.meta_).stackSizeBytes, t.ret], by simp, ?_, ?_⟩
  · exact ((Plain.single (t.binds_enter _)).append (saveParameters_plain _ hs)).append
      (visitAll_plain hv)
  · exact (moveResult_plain hm).append
      ((Plain.single (t.binds_leave _)).append (.single t.binds_ret))

/-- Code that binds a label once is split at that place in one way only. -/
theorem Plain.split_eq {pre post pre' post' : List ι} {l : Label} (hpre : t.Plain pre)
    (hpost : t.Plain post) (h : pre ++ t.bind l :: post = pre' ++ t.bind l :: post') :
    pre = pre' := by
  have hbind : t.isa.binds (t.bind l) ≠ none := by simp [t.binds_bind]
  rcases List.append_eq_append_iff.mp h with ⟨mid, h1, h2⟩ | ⟨mid, h1, h2⟩
  · cases mid with
    | nil => simpa using h1.symm
    | cons i is =>
      -- otherwise the bind would be an instruction of `post`
      obtain ⟨rfl, h3⟩ := List.cons.inj h2
      exact absurd (hpost (t.bind l) (by rw [h3]; simp)) hbind
  · cases mid with
    | nil => simpa using h1
    | cons i is =>
      -- or of `pre`
      obtain ⟨rfl, -⟩ := List.cons.inj h2
      exact absurd (hpre (t.bind l) (by rw [h1]; simp)) hbind

/-- Where a jump to the exit label goes. -/
theorem target_bind {pre : List ι} (hpre : t.Plain pre) (l : Label) (post : List ι) :
    t.isa.target (pre ++ t.bind l :: post) l = some pre.length := by
  refine Isa.target_append (t.binds_bind l) fun j hj => ?_
  rw [hpre j hj]
  exact Option.some_ne_none l |>.symm

/-- **Running the code of a function**: the code up to the exit, then nothing or a jump over dead
code, then the epilogue. -/
theorem call_of_blocks {f : Function} {out first rest last : List ι} {l : Label}
    {s m m' s' : Machine} (hcompile : t.compile l f = .ok out)
    (hout : out = first ++ rest ++ (t.bind l :: last ++ [t.ret]))
    (hrest : rest = [] ∨ ∃ dead, rest = t.jump l :: dead)
    (hfirst : t.isa.execBlock first s = some m) (hlast : t.isa.execBlock last m = some m')
    (hret : t.isa.exec t.ret m' = .halt s') : t.isa.call out s = some s' := by
  have hend : t.isa.execBlock (t.bind l :: last) m = some m' := by
    rw [Isa.execBlock_cons (t.exec_bind _ _), hlast]
  rcases hrest with rfl | ⟨dead, rfl⟩
  · have hblock : t.isa.execBlock (first ++ (t.bind l :: last)) s = some m' := by
      rw [Isa.execBlock_append hfirst, hend]
    rw [hout, List.append_nil, ← List.append_assoc]
    exact Isa.call_block hblock hret
  -- the label is bound once, so the jump leads to the epilogue
  · obtain ⟨pre, post, hsplit, hpre, hpost⟩ := compile_binds hcompile
    obtain rfl : pre = first ++ t.jump l :: dead :=
      hpre.split_eq hpost ((hsplit.symm.trans hout).trans rfl)
    have htarget := target_bind hpre l post
    rw [← hsplit, hout, ← List.append_assoc, List.length_append, List.length_cons] at htarget
    rw [hout, ← List.append_assoc]
    refine Isa.call_jump hfirst (t.exec_jump l m) ?_ hend hret
    rw [htarget]
    congr 1
    omega

end Target

end Wasmcc
