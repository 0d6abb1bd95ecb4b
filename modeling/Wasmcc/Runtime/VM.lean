import Wasmcc.Runtime.Thread

/-!
# Virtual machines and their computations

`VMImpl` of `runtime/vm.cc` and `DynamicComputation`: `InvokeDynamic` hands a function to the thread
of the VM, which takes it and yields at once; `Execute` goes on with the thread, `Cancel` stops it.

`World.step` answers the calls that the host and the functions on the threads make, in any order.
The thread that is running makes the next call; when there is none, the host does.
-/

open Basis

namespace Wasmcc

open Effect

variable {φ : Type}

namespace VMImpl

def setCurrentFn (v : ℕ) (fn : Option φ) : Effect RuntimeError (World φ) Unit :=
  modify fun w => { w with vm := Function.update w.vm v { w.vm v with currentFn := fn } }

/-- `RunInternal` up to its `Yield`, on the thread of the VM. -/
def runInternal (v : ℕ) : Effect RuntimeError (World φ) Unit := do
  let w ← get
  let fn := (w.vm v).currentFn
  setCurrentFn v none
  if fn.isNone then fail .assertionFailed
  else do
    modify fun w => { w with vm := Function.update w.vm v { w.vm v with fn } }
    VMThread.yield

/-- `InvokeDynamic`. The computation it returns is the last one of the world. -/
def invokeDynamic (v : ℕ) (fn : φ) : Effect RuntimeError (World φ) Unit := do
  let w ← get
  if (w.vm v).currentFn.isSome ∨ (w.thread (.vm v)).state ≠ .stopped then fail .alreadyExecuting
  else do
    setCurrentFn v (some fn)
    let comp : DynamicComputation := ⟨.vm v⟩
    VMThread.resume (.vm v)
    runInternal v
    modify fun w => { w with computations := w.computations ++ [comp] }

end VMImpl

namespace DynamicComputation

def execute (c : DynamicComputation) : Effect RuntimeError (World φ) Unit := do
  let w ← get
  if (w.thread c.thread).state = .suspended then VMThread.resume c.thread else pure ()

def cancel (c : DynamicComputation) : Effect RuntimeError (World φ) Unit := do
  let w ← get
  if (w.thread c.thread).state = .suspended then VMThread.stop c.thread else pure ()

def isDone (c : DynamicComputation) : Effect RuntimeError (World φ) Bool := do
  let w ← get
  pure ((w.thread c.thread).state = .stopped)

end DynamicComputation

/-! ### Runs -/

/-- A call that the host or a running function makes. Computations are numbered in the order of
their invocations, and threads made by `VMThread::Create` have numbers of their own. -/
inductive Call (φ : Type) where
  | invoke (v : ℕ) (fn : φ)
  | execute (i : ℕ)
  | cancel (i : ℕ)
  | isDone (i : ℕ)
  | resume (n : ℕ)
  | stop (n : ℕ)
  | yield
  /-- The function of the running thread returns. -/
  | finish

/-- What a call answers, if it does not throw. -/
inductive Answer where
  | unit
  | bool (b : Bool)
deriving DecidableEq, Repr

/-- A call on computation number `i`, if there is one. -/
def onComputation (i : ℕ) (f : DynamicComputation → Effect RuntimeError (World φ) Answer) :
    Effect RuntimeError (World φ) Answer := do
  let w ← get
  match w.computations[i]? with
  | none => pure .unit
  | some c => f c

def Call.perform : Call φ → Effect RuntimeError (World φ) Answer
  | .invoke v fn => do VMImpl.invokeDynamic v fn; pure .unit
  | .execute i => onComputation i fun c => do c.execute; pure .unit
  | .cancel i => onComputation i fun c => do c.cancel; pure .unit
  | .isDone i => onComputation i fun c => do let b ← c.isDone; pure (.bool b)
  | .resume n => do VMThread.resume (.standalone n); pure .unit
  | .stop n => do VMThread.stop (.standalone n); pure .unit
  | .yield => do VMThread.yield; pure .unit
  | .finish => do VMThread.finish; pure .unit

namespace World

/-- The world after a call, whether it threw or not. -/
def step (w : World φ) (c : Call φ) : World φ := (c.perform w).2

/-- The VM has no function and its thread is stopped. -/
def Idle (w : World φ) (v : ℕ) : Prop :=
  (w.vm v).currentFn = none ∧ (w.thread (.vm v)).state = .stopped

end World

/-! ### What `InvokeDynamic` does -/

namespace VMImpl

variable {w : World φ} {v : ℕ}

/-- The world when `InvokeDynamic` has written the function and not resumed the thread yet. -/
def pending (w : World φ) (v : ℕ) (fn : φ) : World φ :=
  { w with vm := Function.update w.vm v { w.vm v with currentFn := some fn } }

/-- The world after an invocation: the thread of the VM has taken the function and has yielded. -/
def invoked (w : World φ) (v : ℕ) (fn : φ) : World φ where
  currentVmThread := none
  thread := Function.update w.thread (.vm v) ⟨.suspended, 1⟩
  vm := Function.update w.vm v ⟨none, some fn⟩
  computations := w.computations ++ [⟨.vm v⟩]

/-- On its thread, `RunInternal` takes the function and yields. -/
theorem runInternal_of_some {fn : φ} (hfn : (w.vm v).currentFn = some fn)
    (hcurrent : w.currentVmThread = some (.vm v)) :
    runInternal v w = (.ok (), { w.left (.vm v) .suspended with
      vm := Function.update w.vm v ⟨none, some fn⟩ }) := by
  unfold runInternal setCurrentFn
  rw [get_bind, modify_bind, hfn, if_neg (by simp)]
  rw [modify_bind]
  refine (VMThread.yield_of_some (t := .vm v) ?_).trans ?_
  · exact hcurrent
  · simp [World.left]

theorem invokeDynamic_of_busy (h : ¬w.Idle v) (fn : φ) :
    invokeDynamic v fn w = (.error .alreadyExecuting, w) := by
  have hguard : (w.vm v).currentFn.isSome ∨ (w.thread (.vm v)).state ≠ .stopped := by
    by_contra hno
    push Not at hno
    exact h ⟨Option.not_isSome_iff_eq_none.mp hno.1, hno.2⟩
  unfold invokeDynamic
  rw [get_bind, if_pos hguard]
  rfl

/-- An idle VM passes the first check, and its thread is resumed. -/
theorem invokeDynamic_of_idle (h : w.Idle v) (fn : φ) :
    invokeDynamic v fn w = (do
      VMThread.resume (.vm v)
      runInternal v
      modify fun w => { w with computations := w.computations ++ [⟨.vm v⟩] } :
        Effect RuntimeError (World φ) Unit) (pending w v fn) := by
  -- neither reason to throw is there
  have hguard : ¬((w.vm v).currentFn.isSome ∨ (w.thread (.vm v)).state ≠ .stopped) := by
    rintro (hsome | hstate)
    · rw [h.1] at hsome
      cases hsome
    · exact hstate h.2
  unfold invokeDynamic
  rw [get_bind, if_neg hguard]
  rfl

/-- **The refusal of `Resume`**: the function stays behind in `_current_fn`. -/
theorem invokeDynamic_of_nested (h : w.Idle v) (hcurrent : w.currentVmThread ≠ none) (fn : φ) :
    invokeDynamic v fn w = (.error .callIntoAnother, pending w v fn) := by
  rw [invokeDynamic_of_idle h]
  exact bind_of_error (VMThread.resume_of_some (w := pending w v fn) hcurrent (.vm v)) _

/-- **An invocation that succeeds.** -/
theorem invokeDynamic_of_host (h : w.Idle v) (hcurrent : w.currentVmThread = none) (fn : φ) :
    invokeDynamic v fn w = (.ok (), invoked w v fn) := by
  rw [invokeDynamic_of_idle h]
  rw [bind_of_ok (VMThread.resume_of_none (w := pending w v fn) hcurrent (.vm v))]
  have hfn : (((pending w v fn).resumed (.vm v)).vm v).currentFn = some fn := by
    simp [pending, World.resumed]
  refine (bind_of_ok (runInternal_of_some hfn rfl) _).trans ?_
  have hstopped : (w.thread (.vm v)).state = .stopped := h.2
  simp [invoked, pending, World.resumed, World.left, hstopped]

end VMImpl

/-! ### What each call does -/

section OnComputation

variable {w : World φ} {i : ℕ} {f : DynamicComputation → Effect RuntimeError (World φ) Answer}

theorem onComputation_of_none (h : w.computations[i]? = none) :
    onComputation i f w = (.ok .unit, w) := by
  unfold onComputation
  rw [get_bind, h]
  rfl

theorem onComputation_of_some {c : DynamicComputation} (h : w.computations[i]? = some c) :
    onComputation i f w = f c w := by
  unfold onComputation
  rw [get_bind, h]

end OnComputation

namespace World

variable {w : World φ} {i : ℕ} {c : DynamicComputation}

instance (w : World φ) (v : ℕ) : Decidable (w.Idle v) := inferInstanceAs (Decidable (_ ∧ _))

theorem step_invoke (w : World φ) (v : ℕ) (fn : φ) : w.step (.invoke v fn) =
    if w.Idle v then if w.currentVmThread = none then VMImpl.invoked w v fn
      else VMImpl.pending w v fn else w := by
  refine (snd_bind_pure (VMImpl.invokeDynamic v fn) (fun _ => Answer.unit) w).trans ?_
  by_cases h : w.Idle v
  · by_cases hcurrent : w.currentVmThread = none
    · rw [if_pos h, if_pos hcurrent, VMImpl.invokeDynamic_of_host h hcurrent fn]
    · rw [if_pos h, if_neg hcurrent, VMImpl.invokeDynamic_of_nested h hcurrent fn]
  · rw [if_neg h, VMImpl.invokeDynamic_of_busy h fn]

theorem step_resume (w : World φ) (n : ℕ) : w.step (.resume n) =
    if w.currentVmThread = none then w.resumed (.standalone n) else w := by
  refine (snd_bind_pure (VMThread.resume (.standalone n)) (fun _ => Answer.unit) w).trans ?_
  by_cases h : w.currentVmThread = none
  · rw [if_pos h, VMThread.resume_of_none h]
  · rw [if_neg h, VMThread.resume_of_some h]

theorem step_stop (w : World φ) (n : ℕ) : w.step (.stop n) =
    if (w.thread (.standalone n)).state = .running then w else w.stopped (.standalone n) := by
  refine (snd_bind_pure (VMThread.stop (.standalone n)) (fun _ => Answer.unit) w).trans ?_
  by_cases h : (w.thread (.standalone n)).state = .running
  · rw [if_pos h, VMThread.stop_of_running h]
  · rw [if_neg h, VMThread.stop_of_not_running h]

theorem step_yield (w : World φ) : w.step .yield =
    match w.currentVmThread with
    | none => w
    | some t => w.left t .suspended := by
  refine (snd_bind_pure VMThread.yield (fun _ => Answer.unit) w).trans ?_
  cases h : w.currentVmThread with
  | none => rw [VMThread.yield_of_none h]
  | some t => rw [VMThread.yield_of_some h]

theorem step_finish (w : World φ) : w.step .finish =
    match w.currentVmThread with
    | none => w
    | some t => w.left t .stopped := by
  refine (snd_bind_pure VMThread.finish (fun _ => Answer.unit) w).trans ?_
  cases h : w.currentVmThread with
  | none => rw [VMThread.finish_of_none h]
  | some t => rw [VMThread.finish_of_some h]

theorem step_execute (h : w.computations[i]? = some c) : w.step (.execute i) =
    if (w.thread c.thread).state = .suspended ∧ w.currentVmThread = none then w.resumed c.thread
      else w := by
  refine (congrArg Prod.snd (onComputation_of_some h)).trans ?_
  refine (snd_bind_pure c.execute (fun _ => Answer.unit) w).trans ?_
  unfold DynamicComputation.execute
  rw [get_bind]
  by_cases hstate : (w.thread c.thread).state = .suspended
  · rw [if_pos hstate]
    by_cases hcurrent : w.currentVmThread = none
    · rw [if_pos ⟨hstate, hcurrent⟩, VMThread.resume_of_none hcurrent]
    · rw [if_neg fun hboth => hcurrent hboth.2, VMThread.resume_of_some hcurrent]
  · -- `Execute` returns without calling the thread
    rw [if_neg hstate, if_neg fun hboth => hstate hboth.1]
    rfl

theorem step_cancel (h : w.computations[i]? = some c) : w.step (.cancel i) =
    if (w.thread c.thread).state = .suspended then w.stopped c.thread else w := by
  refine (congrArg Prod.snd (onComputation_of_some h)).trans ?_
  refine (snd_bind_pure c.cancel (fun _ => Answer.unit) w).trans ?_
  unfold DynamicComputation.cancel
  rw [get_bind]
  by_cases hstate : (w.thread c.thread).state = .suspended
  · rw [if_pos hstate, if_pos hstate, VMThread.stop_of_not_running (by rw [hstate]; decide)]
  · rw [if_neg hstate, if_neg hstate]
    rfl

theorem perform_isDone (h : w.computations[i]? = some c) : (Call.isDone i).perform w =
    (.ok (.bool ((w.thread c.thread).state = .stopped)), w) :=
  onComputation_of_some h

theorem step_isDone (w : World φ) (i : ℕ) : w.step (.isDone i) = w := by
  cases h : w.computations[i]? with
  | none => exact congrArg Prod.snd (onComputation_of_none h)
  | some c => exact congrArg Prod.snd (perform_isDone h)

theorem step_execute_of_none (h : w.computations[i]? = none) : w.step (.execute i) = w :=
  congrArg Prod.snd (onComputation_of_none h)

theorem step_cancel_of_none (h : w.computations[i]? = none) : w.step (.cancel i) = w :=
  congrArg Prod.snd (onComputation_of_none h)

/-- What a call may do to the world: nothing, or one of the five updates, each under its guard. -/
inductive Transition (w : World φ) : Call φ → World φ → Prop
  | unchanged {call : Call φ} : Transition w call w
  | pending {v : ℕ} {fn : φ} (hidle : w.Idle v) (hcurrent : w.currentVmThread ≠ none) :
      Transition w (.invoke v fn) (VMImpl.pending w v fn)
  | invoked {v : ℕ} {fn : φ} (hidle : w.Idle v) (hcurrent : w.currentVmThread = none) :
      Transition w (.invoke v fn) (VMImpl.invoked w v fn)
  | resumed {call : Call φ} {t : ThreadId} (hcurrent : w.currentVmThread = none)
      (hvm : ∀ v, t = .vm v → (w.thread t).state = .suspended) : Transition w call (w.resumed t)
  | stopped {call : Call φ} {t : ThreadId} (hstate : (w.thread t).state ≠ .running) :
      Transition w call (w.stopped t)
  | left {call : Call φ} {t : ThreadId} {state : VMThread.State}
      (hcurrent : w.currentVmThread = some t) (hstate : state ≠ .running) :
      Transition w call (w.left t state)

/-- **What a call does.** -/
theorem transition (w : World φ) (call : Call φ) : w.Transition call (w.step call) := by
  cases call with
  | invoke v fn =>
    rw [step_invoke]
    -- the invocation succeeds, is refused by `Resume`, or is refused before
    split_ifs with hidle hcurrent
    · exact .invoked hidle hcurrent
    · exact .pending hidle hcurrent
    · exact .unchanged
  | execute i =>
    cases hi : w.computations[i]? with
    | none =>
      rw [step_execute_of_none hi]
      exact .unchanged
    | some c =>
      rw [step_execute hi]
      -- only a suspended thread is resumed or stopped by its computation
      split_ifs with hready
      · exact .resumed hready.2 fun _ _ => hready.1
      · exact .unchanged
  | cancel i =>
    cases hi : w.computations[i]? with
    | none =>
      rw [step_cancel_of_none hi]
      exact .unchanged
    | some c =>
      rw [step_cancel hi]
      split_ifs with hstate
      · exact .stopped (by rw [hstate]; decide)
      · exact .unchanged
  | isDone i =>
    rw [step_isDone]
    exact .unchanged
  | resume n =>
    rw [step_resume]
    -- a standalone thread may start over, so its state does not matter
    split_ifs with hcurrent
    · exact .resumed hcurrent fun _ hvm => nomatch hvm
    · exact .unchanged
  | stop n =>
    rw [step_stop]
    split_ifs with hstate
    · exact .unchanged
    · exact .stopped hstate
  | yield =>
    rw [step_yield]
    cases hcurrent : w.currentVmThread with
    | none => exact .unchanged
    -- the running thread is left, suspended by `Yield` and stopped by its return
    | some t => exact .left hcurrent (by decide)
  | finish =>
    rw [step_finish]
    cases hcurrent : w.currentVmThread with
    | none => exact .unchanged
    | some t => exact .left hcurrent (by decide)

variable {call : Call φ} {w' : World φ}

/-- No call makes `current_vm_thread` and the states of the threads disagree. -/
theorem Transition.coherent (ht : w.Transition call w') (h : w.Coherent) : w'.Coherent := by
  cases ht with
  | unchanged => exact h
  | pending => exact h
  | @invoked v fn hidle hcurrent =>
    -- the thread of the VM was resumed and has yielded
    have hboth := (h.resumed hcurrent (.vm v)).left rfl (show .suspended ≠ _ by decide)
    intro u
    by_cases hu : u = .vm v
    · subst hu
      simp [VMImpl.invoked]
    · simpa [World.left, World.resumed, VMImpl.invoked, hu] using hboth u
  | resumed hcurrent _ => exact h.resumed hcurrent _
  | stopped hstate => exact h.stopped hstate
  | left hcurrent hstate => exact h.left hcurrent hstate

theorem Coherent.step (h : w.Coherent) (call : Call φ) : (w.step call).Coherent :=
  (w.transition call).coherent h

/-- Only an invocation that is accepted makes a computation. -/
theorem computations_step (w : World φ) (call : Call φ) :
    (w.step call).computations = w.computations ∨ ∃ v fn, w.step call = VMImpl.invoked w v fn := by
  have ht := w.transition call
  generalize w.step call = w' at ht ⊢
  cases ht with
  | @invoked v fn => exact .inr ⟨v, fn, rfl⟩
  | _ => exact .inl rfl

/-- A stopped thread of a VM stays so until the VM is invoked. -/
theorem stopped_step {v : ℕ} (hw : w.Coherent) (hv : (w.thread (.vm v)).state = .stopped)
    (call : Call φ) : ((w.step call).thread (.vm v)).state = .stopped ∨
      ∃ fn, w.step call = VMImpl.invoked w v fn := by
  have hother {t : ThreadId} {m : VMThread} (ht : .vm v ≠ t) :
      (Function.update w.thread t m (.vm v)).state = .stopped := by
    rw [Function.update_of_ne ht, hv]
  have ht := w.transition call
  generalize w.step call = w' at ht ⊢
  cases ht with
  | unchanged => exact .inl hv
  | pending => exact .inl hv
  | @invoked u fn =>
    by_cases huv : v = u
    · subst huv
      exact .inr ⟨fn, rfl⟩
    · exact .inl (hother (by simpa using huv))
  | resumed _ hvm =>
    refine .inl (hother fun heq => ?_)
    have hsuspended := hvm v heq.symm
    rw [← heq, hv] at hsuspended
    cases hsuspended
  | @stopped _ t =>
    left
    by_cases heq : .vm v = t
    · subst heq
      simp [World.stopped]
    · exact hother heq
  | @left _ t _ hcurrent =>
    -- the thread that is left was running
    refine .inl (hother fun heq => ?_)
    have hrunning := (hw t).mpr hcurrent
    rw [← heq, hv] at hrunning
    cases hrunning

end World

end Wasmcc
