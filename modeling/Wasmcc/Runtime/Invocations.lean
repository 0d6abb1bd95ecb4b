import Wasmcc.Runtime.VM

/-!
# Refused invocations

`InvokeDynamic` throws when a function is executing already, and it throws when `VMThread::Resume`
does not run inside another `VMThread`. The first refusal comes before anything is written. The
second comes after `_current_fn` is: the function stays there, `RunInternal` never takes it, and
every later invocation finds the VM executing.

`invoke_harmless_iff` says when a refused call leaves the VM as it was, and
`refused_invocations_harmless_iff` says it of whole runs: the VMs stay usable exactly in the runs
where no idle VM is invoked from inside a `VMThread`. What carries the run is that between two calls
no VM keeps a function in `_current_fn` (`World.Taken`).
-/

open Basis

namespace Wasmcc

open Effect

variable {φ : Type}

namespace World

/-- If this invocation is refused, the VM is as before. -/
def RefusalHarmless (w : World φ) (v : ℕ) (fn : φ) : Prop :=
  (Call.invoke v fn).perform.Throws w →
    ((w.step (.invoke v fn)).vm v).currentFn = (w.vm v).currentFn ∧
      (w.step (.invoke v fn)).thread (.vm v) = w.thread (.vm v)

def HarmlessCall (w : World φ) : Call φ → Prop
  | .invoke v fn => w.RefusalHarmless v fn
  | _ => True

/-- Outside any `VMThread`, every VM with a stopped thread takes an invocation. -/
def Usable (w : World φ) : Prop :=
  w.currentVmThread = none → ∀ v, (w.thread (.vm v)).state = .stopped →
    ∀ fn, ¬(Call.invoke v fn).perform.Throws w

/-- An idle VM is invoked from outside any `VMThread`. -/
def InvokedOutside (w : World φ) : Call φ → Prop
  | .invoke v _ => w.Idle v → w.currentVmThread = none
  | _ => True

/-- Every function that was handed to a VM has been taken by its thread. -/
def Taken (w : World φ) : Prop := ∀ v, (w.vm v).currentFn = none

end World

/-- In this run no refused invocation changes a VM, and the VMs are usable in all its states. -/
def RefusalsHarmless (calls : List (Call φ)) : Prop :=
  EachStep World.step World.HarmlessCall {} calls ∧
    ∀ done rest, calls = done ++ rest → (runCalls World.step {} done).Usable

/-! ### One call -/

namespace World

variable {w : World φ} {v : ℕ}

/-- What the call throws is what `InvokeDynamic` throws. -/
theorem throws_invoke {fn : φ} :
    (Call.invoke v fn).perform.Throws w ↔ ¬(w.Idle v ∧ w.currentVmThread = none) := by
  have hperform : (Call.invoke v fn).perform =
      (do VMImpl.invokeDynamic v fn; pure Answer.unit) := rfl
  by_cases hidle : w.Idle v
  · by_cases hcurrent : w.currentVmThread = none
    · refine iff_of_false ?_ (not_not.mpr ⟨hidle, hcurrent⟩)
      rw [hperform]
      exact not_throws_of_ok (bind_of_ok (VMImpl.invokeDynamic_of_host hidle hcurrent fn) _)
    · -- an idle VM inside of another thread: `Resume` throws
      refine iff_of_true ?_ fun hboth => hcurrent hboth.2
      rw [hperform]
      exact throws_of_error (bind_of_error (VMImpl.invokeDynamic_of_nested hidle hcurrent fn) _)
  · -- a VM that is busy: `InvokeDynamic` itself throws
    refine iff_of_true ?_ fun hboth => hidle hboth.1
    rw [hperform]
    exact throws_of_error (bind_of_error (VMImpl.invokeDynamic_of_busy hidle fn) _)

/-- **A refused call is harmless** unless it comes from inside a `VMThread` to an idle VM. -/
theorem invoke_harmless_iff {fn : φ} :
    w.RefusalHarmless v fn ↔ (w.Idle v → w.currentVmThread = none) := by
  unfold RefusalHarmless
  rw [throws_invoke, step_invoke]
  by_cases hidle : w.Idle v
  · by_cases hcurrent : w.currentVmThread = none
    · exact iff_of_true (fun hno => absurd ⟨hidle, hcurrent⟩ hno) fun _ => hcurrent
    · refine iff_of_false (fun h => ?_) fun h => hcurrent (h hidle)
      -- the function that was refused is still there, and the VM had none
      have hsame := (h fun hboth => hcurrent hboth.2).1
      rw [if_pos hidle, if_neg hcurrent, hidle.1] at hsame
      simp [VMImpl.pending] at hsame
  · refine iff_of_true (fun _ => ?_) fun h => absurd h hidle
    rw [if_neg hidle]
    exact ⟨rfl, rfl⟩

theorem harmlessCall_iff (c : Call φ) : w.HarmlessCall c ↔ w.InvokedOutside c := by
  cases c with
  | invoke v fn => exact invoke_harmless_iff
  | _ => exact Iff.rfl

/-- No call leaves a function behind, unless it invokes an idle VM from inside a `VMThread`. -/
theorem Taken.step (h : w.Taken) {c : Call φ} (hc : w.InvokedOutside c) : (w.step c).Taken := by
  have ht := w.transition c
  generalize w.step c = w' at ht ⊢
  cases ht with
  | pending hidle hcurrent => exact absurd (hc hidle) hcurrent
  | @invoked v fn =>
    intro u
    by_cases huv : u = v
    · subst huv
      simp [VMImpl.invoked]
    · simpa [VMImpl.invoked, huv] using h u
  | _ => exact h

theorem Taken.usable (h : w.Taken) : w.Usable := by
  intro hcurrent v hstate fn hthrows
  exact throws_invoke.mp hthrows ⟨⟨h v, hstate⟩, hcurrent⟩

end World

/-! ### Runs -/

/-- **Refused invocations.** They leave the VMs of a run usable exactly if no idle VM is invoked
from inside a `VMThread`. -/
theorem refused_invocations_harmless_iff (calls : List (Call φ)) :
    RefusalsHarmless calls ↔ EachStep World.step World.InvokedOutside {} calls := by
  have hcalls : EachStep World.step World.HarmlessCall ({} : World φ) calls ↔
      EachStep World.step World.InvokedOutside {} calls :=
    EachStep.congr (fun _ _ (_ : True) _ => trivial) (fun _ c _ => World.harmlessCall_iff c) trivial
  refine ⟨fun h => hcalls.mp h.1, fun h => ⟨hcalls.mpr h, ?_⟩⟩
  rintro done rest rfl
  have hdone := (EachStep.append.mp h).1
  have hstep : ∀ (w : World φ) c, w.Taken → w.InvokedOutside c → (w.step c).Taken :=
    fun _ _ hw hc => hw.step hc
  have htaken : (runCalls World.step ({} : World φ) done).Taken :=
    (EachStep.keeps hstep (fun _ => rfl) hdone).1
  exact htaken.usable

/-- A `VMThread` invokes an idle VM. When that thread has finished and nothing runs anywhere, the VM
still refuses. -/
theorem nested_invocation_jams : ¬RefusalsHarmless [Call.resume 0, .invoke 0 ()] ∧
    ((Call.invoke 0 ()).perform (runCalls World.step {} [.resume 0])).1 =
      .error .callIntoAnother ∧
    ((Call.invoke 0 ()).perform (runCalls World.step {} [.resume 0, .invoke 0 (), .finish])).1 =
      .error .alreadyExecuting := by
  refine ⟨fun h => ?_, rfl, rfl⟩
  have hkept := h.1.2.1 ⟨_, rfl⟩
  exact absurd hkept.1 (by decide)

end Wasmcc
