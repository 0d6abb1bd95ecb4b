import Wasmcc.Compiler.Window

/-!
# The code of a whole function

`Compiled exitLabel f code` says what `compile` emits for a function: the prologue, which reserves
the frame and saves the parameters (`Saves`), the code of the body (`Visits`), and the epilogue,
which binds the exit label, moves the result (`MovesResult`), releases the frame and returns.

`compile_of_fits` finds this shape for every function whose body fits its stack.
`compileBody_of_fits` says the same of the body and the epilogue alone, and
`compileBody_of_not_fits` that they leave the array of the stack when the body does not fit.
-/

namespace Wasmcc

/-- How many values the epilogue pops. -/
def poppedResults (results : List ValType) : ℕ := min 1 results.length

namespace Assembler

variable {ι : Type} (a : Assembler ι)

/-- The stores of the parameters of types `vts`, the first of them being number `i`. -/
inductive Saves (frame : FunctionFrame) : ℕ → List ValType → List ι → Prop
  | nil {i : ℕ} : Saves frame i [] []
  | cons {i : ℕ} {vt : ValType} {vts : List ValType} {reg : Reg} {offset : BitVec 32}
      {code : List ι} (hr : a.gpArgs[i]? = some reg) (ho : frame.localStackOffset i = .ok offset)
      (hs : Saves frame (i + 1) vts code) :
      Saves frame i (vt :: vts) (a.store offset (reg.cast vt) :: code)

/-- The result, if there is one, is popped and moved unless it is where it is returned already. -/
inductive MovesResult (w : Window) : List ValType → List ι → Prop
  | nil : MovesResult w [] []
  | cons {vt : ValType} {vts : List ValType} {r : Reg} {w' : Window} {code : List ι}
      (hr : a.Release [] w r w' code) :
      MovesResult w (vt :: vts) (code ++
        if Reg.r32 r = a.gpRet.cast vt then [] else [a.move (a.gpRet.cast vt) (Reg.r32 r)])

/-- The code of a function, ending with the stack in window `w`. -/
inductive Compiled (exitLabel : Label) (f : Function) : List ι → Prop
  | mk {saves code last : List ι} {w : Window}
      (hs : a.Saves (.new f.meta_) 0 f.meta_.signature.parameterTypes saves)
      (hv : a.Visits (.new f.meta_) exitLabel ⟨[], 0⟩ f.body w code)
      (hm : a.MovesResult w f.meta_.signature.resultTypes last) :
      Compiled exitLabel f (a.enter (FunctionFrame.new f.meta_).stackSizeBytes :: saves ++
        (code ++ (a.bind exitLabel :: last ++
          [a.leave (FunctionFrame.new f.meta_).stackSizeBytes, a.ret])))

variable {a} {frame : FunctionFrame} {exitLabel : Label} {capacity : ℕ} {s : CompilerState}
  {w : Window}

/-! ### The prologue -/

theorem saveParameters_eq (a : Assembler ι) (frame : FunctionFrame) (vts : List ValType) :
    ∀ i : ℕ, i + vts.length ≤ a.gpArgs.length → i + vts.length ≤ frame.localsStackOffset.length →
    ∃ code, a.saveParameters frame i vts = .ok code ∧ a.Saves frame i vts code := by
  induction vts with
  | nil => exact fun i _ _ => ⟨[], rfl, .nil⟩
  | cons vt vts ih =>
    intro i hargs hlocals
    rw [List.length_cons] at hargs hlocals
    -- there are a register and a place for this one
    have hr := List.getElem?_eq_getElem (show i < a.gpArgs.length by omega)
    obtain ⟨offset, ho⟩ := FunctionFrame.localStackOffset_of_lt
      (show i < frame.localsStackOffset.length by omega)
    obtain ⟨code, hc, hs⟩ := ih (i + 1) (by omega) (by omega)
    refine ⟨_, ?_, .cons hr ho hs⟩
    rw [saveParameters, hr, ho, hc]
    rfl

/-! ### The epilogue -/

theorem moveResult_of_depth (h : Holds a.callerSaved s capacity [] w) {results : List ValType}
    (hd : poppedResults results ≤ w.depth) :
    ∃ code, a.moveResult s results = .ok code ∧ a.MovesResult w results code := by
  cases results with
  | nil => exact ⟨[], rfl, .nil⟩
  | cons vt vts =>
    obtain ⟨v, stack, r, w', code, s', hpop, hv, he, hrel, h'⟩ :=
      pop_ensureInRegister h (by simp [poppedResults] at hd; omega)
    refine ⟨_, ?_, .cons hrel⟩
    rw [moveResult, hpop, ok_bind]
    dsimp only
    rw [he, hv]
    -- the last move is there only if the result is in another register
    change Except.ok (if Reg.r32 r ≠ a.gpRet.cast vt then
      code ++ [a.move (a.gpRet.cast vt) (Reg.r32 r)] else code) = _
    split <;> simp_all

theorem moveResult_of_empty (h : Holds a.callerSaved s capacity [] w) {results : List ValType}
    (hd : w.depth < poppedResults results) : a.moveResult s results = .error .stackIndex := by
  cases results with
  | nil => simp [poppedResults] at hd
  | cons vt vts =>
    rw [moveResult, pop_empty h (by simp [poppedResults] at hd; omega)]
    rfl

/-! ### Bodies and functions -/

theorem compileBody_def (a : Assembler ι) (frame : FunctionFrame) (exitLabel : Label) (capacity : ℕ)
    (body : List Instruction) : a.compileBody frame exitLabel capacity body = (do
      let (s, code) ← a.visitAll frame exitLabel { stack := { capacity } } body
      let epilogue ← a.epilogue frame exitLabel s
      return code ++ epilogue) := rfl

/-- **A body and its epilogue**, when every instruction fits. -/
theorem compileBody_of_fits (a : Assembler ι) (frame : FunctionFrame) (exitLabel : Label)
    {body : List Instruction} (hb : WellNamed frame body)
    (hfit : Instruction.FitsAll capacity (poppedResults frame.meta_.signature.resultTypes) 0
      body) :
    ∃ w code last, a.compileBody frame exitLabel capacity body = .ok (code ++
        (a.bind exitLabel :: last ++ [a.leave frame.stackSizeBytes, a.ret])) ∧
      a.Visits frame exitLabel ⟨[], 0⟩ body w code ∧
      a.MovesResult w frame.meta_.signature.resultTypes last := by
  obtain ⟨s, w, code, hv, hvisits, h, hres⟩ :=
    visitAll_of_fits exitLabel hb (Holds.new a.callerSaved capacity) hfit
  obtain ⟨last, hm, hmoves⟩ := moveResult_of_depth h hres
  refine ⟨w, code, last, ?_, hvisits, hmoves⟩
  -- the body, then the epilogue
  rw [compileBody_def, hv, ok_bind]
  dsimp only
  rw [epilogue, hm]
  rfl

/-- **A body and its epilogue**, when one of them does not fit. -/
theorem compileBody_of_not_fits (a : Assembler ι) (frame : FunctionFrame) (exitLabel : Label)
    {body : List Instruction} (hb : WellNamed frame body)
    (hfit : ¬Instruction.FitsAll capacity (poppedResults frame.meta_.signature.resultTypes) 0
      body) :
    a.compileBody frame exitLabel capacity body = .error .stackIndex := by
  rw [compileBody_def]
  -- either a visit fails, or the epilogue finds the stack empty
  rcases visitAll_of_not_fits exitLabel hb (Holds.new a.callerSaved capacity)
    hfit with he | ⟨s, w, code, hv, h, hd⟩
  · rw [he]
    rfl
  · rw [hv, ok_bind]
    dsimp only
    rw [epilogue, moveResult_of_empty h hd]
    rfl

/-- **A function whose body fits** is compiled, if there are registers for its parameters. -/
theorem compile_of_fits {f : Function} (exitLabel : Label)
    (hb : WellNamed (.new f.meta_) f.body)
    (hargs : f.meta_.signature.parameterTypes.length ≤ a.gpArgs.length)
    (hfit : Instruction.FitsAll f.meta_.maxStackElements.toNat
      (poppedResults f.meta_.signature.resultTypes) 0 f.body) :
    ∃ code, a.compile exitLabel f = .ok code ∧ a.Compiled exitLabel f code := by
  obtain ⟨saves, hs, hsaves⟩ := saveParameters_eq a (.new f.meta_)
    f.meta_.signature.parameterTypes 0 (by omega) (by
      rw [FunctionFrame.new_localsStackOffset_length, Function.Metadata.localTypes,
        List.length_append]
      omega)
  obtain ⟨w, code, last, hc, hvisits, hmoves⟩ :=
    compileBody_of_fits a (.new f.meta_) exitLabel hb hfit
  refine ⟨_, ?_, .mk hsaves hvisits hmoves⟩
  -- enter the frame and save the parameters
  have hp : a.prologue (.new f.meta_) =
      .ok (a.enter (FunctionFrame.new f.meta_).stackSizeBytes :: saves) := by
    rw [prologue]
    change (do
      let code ← a.saveParameters (.new f.meta_) 0 f.meta_.signature.parameterTypes
      return a.enter (FunctionFrame.new f.meta_).stackSizeBytes :: code) = _
    rw [hs]
    rfl
  rw [compile]
  change (do
    let prologue ← a.prologue (.new f.meta_)
    let code ← a.compileBody (.new f.meta_) exitLabel f.meta_.maxStackElements.toNat f.body
    return prologue ++ code) = _
  rw [hp, hc]
  rfl

end Assembler

end Wasmcc
