import Wasmcc.Basis.Runs
import Mathlib.Logic.Function.Basic

/-!
# Threads on other stacks

`VMThread` of `runtime/thread`: a function that runs on a stack of its own and can be left and
entered again. All of this happens on one OS thread, so a `World` is what that thread can see: which
`VMThread` is running, the state of each of them, and the VMs and computations of
`Runtime/VM.lean`, whose threads they are.

`WasmccSwitch` saves the execution context that is left and restores the one that is entered. Of a
context only the place in the function is modelled, as the number of times that the function has
been left since its start.
-/

open Basis

namespace Wasmcc

open Effect

/-- What the runtime throws. -/
inductive RuntimeError where
  | alreadyExecuting
  | callIntoAnother
  | stopRunning
  | yieldOutside
  /-- An `Assert`, which ends the process. -/
  | assertionFailed
deriving DecidableEq, Repr

def RuntimeError.what : RuntimeError → String
  | alreadyExecuting => "cannot run a function when one is already executing."
  | callIntoAnother => "VMThread does not support calling into another VMThread"
  | stopRunning => "attempting to stop a running VMThread"
  | yieldOutside => "attempting to yield when there is no VMThread"
  | assertionFailed => "run_internal called without anything to run"

/-- A thread, by the pointer to it: the thread of a VM, or one from `VMThread::Create`. -/
inductive ThreadId where
  | vm (v : ℕ)
  | standalone (n : ℕ)
deriving DecidableEq, Repr

inductive VMThread.State where
  | stopped
  | suspended
  | running
deriving DecidableEq, Repr

structure VMThread where
  state : VMThread.State := .stopped
  /-- The saved context: how often the function has been left since its start. -/
  myThreadState : ℕ := 0
deriving DecidableEq, Repr

/-- The members of a `VMImpl` that change. `φ` are the functions it is given to run. -/
structure VMImpl (φ : Type) where
  currentFn : Option φ := none
  /-- The local `fn` of `RunInternal`, on the stack of the thread. -/
  fn : Option φ := none

structure DynamicComputation where
  thread : ThreadId
deriving DecidableEq, Repr

/-- What lives on one OS thread. -/
structure World (φ : Type) where
  currentVmThread : Option ThreadId := none
  thread : ThreadId → VMThread := fun _ => {}
  vm : ℕ → VMImpl φ := fun _ => {}
  /-- The computations that `InvokeDynamic` returned, the oldest first. -/
  computations : List DynamicComputation := []

namespace VMThread

variable {φ : Type}

def setState (t : ThreadId) (state : State) : Effect RuntimeError (World φ) Unit :=
  modify fun w => { w with thread := Function.update w.thread t { w.thread t with state } }

/-- The function of the thread is to run from its start. -/
def initializeVMThreadStackState (t : ThreadId) : Effect RuntimeError (World φ) Unit :=
  modify fun w =>
    { w with thread := Function.update w.thread t { w.thread t with myThreadState := 0 } }

def trampolineInToVM (t : ThreadId) : Effect RuntimeError (World φ) Unit :=
  modify fun w => { w with currentVmThread := some t }

def trampolineOutOfVM (t : ThreadId) : Effect RuntimeError (World φ) Unit :=
  modify fun w =>
    { w with
      currentVmThread := none
      thread := Function.update w.thread t
        { w.thread t with myThreadState := (w.thread t).myThreadState + 1 } }

/-- `Resume`. When it returns here, the function of the thread is running. -/
def resume (t : ThreadId) : Effect RuntimeError (World φ) Unit := do
  let w ← get
  if w.currentVmThread ≠ none then fail .callIntoAnother
  else do
    if (w.thread t).state = .stopped then initializeVMThreadStackState t else pure ()
    setState t .running
    trampolineInToVM t

def stop (t : ThreadId) : Effect RuntimeError (World φ) Unit := do
  let w ← get
  if (w.thread t).state = .running then fail .stopRunning
  else setState t .stopped

def yield : Effect RuntimeError (World φ) Unit := do
  let w ← get
  match w.currentVmThread with
  | none => fail .yieldOutside
  | some t => do
    setState t .suspended
    trampolineOutOfVM t

/-- The rest of `VMThreadStart`, when the function of the running thread returns. -/
def finish : Effect RuntimeError (World φ) Unit := do
  let w ← get
  match w.currentVmThread with
  | none => pure ()
  | some t => do
    setState t .stopped
    trampolineOutOfVM t

end VMThread

/-! ### What each operation does -/

namespace World

variable {φ : Type} (w : World φ) (t : ThreadId)

/-- The thread runs, from its start if it was stopped. -/
def resumed : World φ where
  currentVmThread := some t
  thread := Function.update w.thread t ⟨.running, if (w.thread t).state = .stopped then 0 else
    (w.thread t).myThreadState⟩
  vm := w.vm
  computations := w.computations

/-- The function of the thread was left, and the thread is in this state. -/
def left (state : VMThread.State) : World φ where
  currentVmThread := none
  thread := Function.update w.thread t ⟨state, (w.thread t).myThreadState + 1⟩
  vm := w.vm
  computations := w.computations

/-- The thread was stopped. -/
def stopped : World φ where
  currentVmThread := w.currentVmThread
  thread := Function.update w.thread t { w.thread t with state := .stopped }
  vm := w.vm
  computations := w.computations

end World

namespace VMThread

variable {φ : Type} {w : World φ} {t : ThreadId}

theorem resume_of_some (h : w.currentVmThread ≠ none) (t : ThreadId) :
    resume t w = (.error .callIntoAnother, w) := by
  unfold resume
  rw [get_bind, if_pos h]
  rfl

theorem resume_of_none (h : w.currentVmThread = none) (t : ThreadId) :
    resume t w = (.ok (), w.resumed t) := by
  unfold resume World.resumed
  rw [get_bind, if_neg (not_not.mpr h)]
  by_cases hs : (w.thread t).state = .stopped
  · rw [if_pos hs, if_pos hs]
    simp [initializeVMThreadStackState, setState, trampolineInToVM]
  · rw [if_neg hs, if_neg hs]
    simp [setState, trampolineInToVM]

theorem stop_of_running (h : (w.thread t).state = .running) :
    stop t w = (.error .stopRunning, w) := by
  unfold stop
  rw [get_bind, if_pos h]
  rfl

theorem stop_of_not_running (h : (w.thread t).state ≠ .running) :
    stop t w = (.ok (), w.stopped t) := by
  unfold stop
  rw [get_bind, if_neg h]
  rfl

theorem yield_of_none (h : w.currentVmThread = none) :
    yield w = (.error .yieldOutside, w) := by
  unfold yield
  rw [get_bind, h]
  rfl

theorem yield_of_some (h : w.currentVmThread = some t) :
    yield w = (.ok (), w.left t .suspended) := by
  unfold yield
  rw [get_bind, h]
  simp [setState, trampolineOutOfVM, World.left]

theorem finish_of_none (h : w.currentVmThread = none) : finish w = (.ok (), w) := by
  unfold finish
  rw [get_bind, h]
  rfl

theorem finish_of_some (h : w.currentVmThread = some t) :
    finish w = (.ok (), w.left t .stopped) := by
  unfold finish
  rw [get_bind, h]
  simp [setState, trampolineOutOfVM, World.left]

end VMThread

/-! ### Which thread is running -/

namespace World

variable {φ : Type} {w : World φ} {t : ThreadId}

/-- The running thread is the one that `current_vm_thread` points to. -/
def Coherent (w : World φ) : Prop :=
  ∀ t, (w.thread t).state = .running ↔ w.currentVmThread = some t

theorem Coherent.resumed (h : w.Coherent) (hcurrent : w.currentVmThread = none) (t : ThreadId) :
    (w.resumed t).Coherent := by
  intro u
  by_cases hut : u = t
  · subst hut
    simp [World.resumed]
  · have hu := h u
    rw [hcurrent] at hu
    simpa [World.resumed, hut, Ne.symm hut] using hu

theorem Coherent.left (h : w.Coherent) (hcurrent : w.currentVmThread = some t)
    {state : VMThread.State} (hstate : state ≠ .running) : (w.left t state).Coherent := by
  intro u
  by_cases hut : u = t
  · subst hut
    simpa [World.left] using hstate
  · have hu := h u
    rw [hcurrent, Option.some.injEq, iff_false_right (Ne.symm hut)] at hu
    simpa [World.left, hut] using hu

theorem Coherent.stopped (h : w.Coherent) (ht : (w.thread t).state ≠ .running) :
    (w.stopped t).Coherent := by
  intro u
  by_cases hut : u = t
  · subst hut
    have hno : w.currentVmThread ≠ some u := fun hcurrent => ht ((h u).mpr hcurrent)
    simpa [World.stopped] using hno
  · simpa [World.stopped, hut] using h u

end World

end Wasmcc
