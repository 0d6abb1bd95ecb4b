import Wasmcc.Runtime.VM

/-!
# Old computations

All the computations of a VM hold the pointer to its one thread, and nothing else. What an old one
answers and does is about the thread, hence about the computation that was invoked last.

A `History` is a world with what its users know of it: which threads have a function that was
started and has neither returned nor been stopped, and of which computations `IsDone` has returned
true. `finished_computations_final_iff` says which runs keep finished computations final and leave
the later ones alone: those that leave a finished computation alone while a later one is live, up to
the calls in which its thread refuses.
-/

open Basis

namespace Wasmcc

open Effect

variable {φ : Type}

structure History (φ : Type) where
  world : World φ := {}
  /-- The function of the thread was started, and has neither returned nor been stopped. -/
  live : ThreadId → Bool := fun _ => false
  /-- `IsDone` of the computation has returned true. -/
  reported : ℕ → Prop := fun _ => False

namespace History

/-- What a call starts and ends. A thread that runs is not stopped by others. -/
def liveAfter (h : History φ) : Call φ → ThreadId → Bool
  | .invoke v _ =>
    if h.world.Idle v ∧ h.world.currentVmThread = none then Function.update h.live (.vm v) true
      else h.live
  | .resume n =>
    if h.world.currentVmThread = none then Function.update h.live (.standalone n) true else h.live
  | .cancel i =>
    match h.world.computations[i]? with
    | none => h.live
    | some c =>
      if h.world.currentVmThread = some c.thread then h.live
        else Function.update h.live c.thread false
  | .stop n =>
    if h.world.currentVmThread = some (.standalone n) then h.live
      else Function.update h.live (.standalone n) false
  | .finish =>
    match h.world.currentVmThread with
    | none => h.live
    | some t => Function.update h.live t false
  | _ => h.live

def step (h : History φ) (call : Call φ) : History φ where
  world := h.world.step call
  live := h.liveAfter call
  reported i := h.reported i ∨ call = .isDone i ∧ (call.perform h.world).1 = .ok (.bool true)

/-! ### Finality -/

/-- The call neither advances nor stops a computation later than this one. -/
def SparesLater (h : History φ) (i : ℕ) (call : Call φ) : Prop :=
  ∀ j c, i < j → h.world.computations[j]? = some c →
    (h.world.step call).thread c.thread = h.world.thread c.thread

/-- What the call does if it is made on a finished computation. -/
def FinalCall (h : History φ) : Call φ → Prop
  | .isDone i => h.reported i → ((Call.isDone i).perform h.world).1 = .ok (.bool true)
  | .execute i => h.reported i → h.SparesLater i (.execute i)
  | .cancel i => h.reported i → h.SparesLater i (.cancel i)
  | _ => True

/-- No call on a finished computation while another one is live on its thread, but for an `Execute`
from inside a `VMThread` and a `Cancel` by the live one itself. -/
def NotStale (h : History φ) : Call φ → Prop
  | .isDone i => h.reported i → ∀ c, h.world.computations[i]? = some c → h.live c.thread = false
  | .execute i => h.reported i → ∀ c, h.world.computations[i]? = some c →
      h.live c.thread = true → h.world.currentVmThread ≠ none
  | .cancel i => h.reported i → ∀ c, h.world.computations[i]? = some c →
      h.live c.thread = true → h.world.currentVmThread = some c.thread
  | _ => True

/-! ### Events and states -/

/-- The threads that are live by the events are those that are not stopped. -/
def Agree (live : ThreadId → Bool) (thread : ThreadId → VMThread) : Prop :=
  ∀ t, live t = true ↔ (thread t).state ≠ .stopped

section Agree

variable {live : ThreadId → Bool} {thread : ThreadId → VMThread} {t : ThreadId}

theorem Agree.update (h : Agree live thread) {b : Bool} {m : VMThread}
    (hb : b = true ↔ m.state ≠ .stopped) :
    Agree (Function.update live t b) (Function.update thread t m) := by
  intro u
  by_cases hut : u = t
  · subst hut
    simpa using hb
  · simpa [hut] using h u

theorem Agree.update_live (h : Agree live thread) {b : Bool}
    (hb : b = true ↔ (thread t).state ≠ .stopped) : Agree (Function.update live t b) thread := by
  have hboth := h.update (t := t) hb
  rwa [Function.update_eq_self] at hboth

theorem Agree.update_thread (h : Agree live thread) {m : VMThread}
    (hm : (thread t).state ≠ .stopped ↔ m.state ≠ .stopped) :
    Agree live (Function.update thread t m) := by
  have hboth := h.update (t := t) ((h t).trans hm)
  rwa [Function.update_eq_self] at hboth

end Agree

/-! ### The invariant -/

/-- What holds in every history. -/
structure Inv (h : History φ) : Prop where
  coherent : h.world.Coherent
  agree : Agree h.live h.world.thread
  /-- Computations run on the threads of VMs. -/
  ofVM : ∀ (i : ℕ) c, h.world.computations[i]? = some c → ∃ v, c.thread = .vm v
  /-- The thread of a finished computation is stopped until it is the thread of another one. -/
  finished : ∀ i, h.reported i → ∃ c, h.world.computations[i]? = some c ∧
    ((h.world.thread c.thread).state = .stopped ∨
      ∃ j c', i < j ∧ h.world.computations[j]? = some c' ∧ c'.thread = c.thread)

variable {h : History φ}

theorem Inv.init : ({} : History φ).Inv where
  coherent := fun _ => iff_of_false (fun hrun => by cases hrun) (fun hrun => by cases hrun)
  agree := fun _ => iff_of_false (fun hno => by cases hno) (fun hno => hno rfl)
  ofVM := by simp
  finished := fun _ hno => hno.elim

theorem Inv.suspended_of_live (hinv : h.Inv) {t : ThreadId} (hlive : h.live t = true)
    (ht : h.world.currentVmThread ≠ some t) : (h.world.thread t).state = .suspended := by
  have hstopped := (hinv.agree t).mp hlive
  have hrunning := mt (hinv.coherent t).mp ht
  cases hstate : (h.world.thread t).state with
  | stopped => exact absurd hstate hstopped
  | suspended => rfl
  | running => exact absurd hstate hrunning

/-- The events follow the states through every call. -/
theorem Inv.agree_step (hinv : h.Inv) (call : Call φ) :
    Agree (h.liveAfter call) (h.world.step call).thread := by
  have hagree := hinv.agree
  cases call with
  | invoke v fn =>
    rw [World.step_invoke]
    simp only [liveAfter]
    -- only an invocation that succeeds makes the computation live
    by_cases hidle : h.world.Idle v
    · by_cases hcurrent : h.world.currentVmThread = none
      · rw [if_pos ⟨hidle, hcurrent⟩, if_pos hidle, if_pos hcurrent]
        exact hagree.update (by simp)
      · rw [if_neg fun hboth => hcurrent hboth.2, if_pos hidle, if_neg hcurrent]
        exact hagree
    · rw [if_neg fun hboth => hidle hboth.1, if_neg hidle]
      exact hagree
  | execute i =>
    cases hi : h.world.computations[i]? with
    | none =>
      rw [World.step_execute_of_none hi]
      exact hagree
    | some c =>
      rw [World.step_execute hi]
      -- who is resumed was suspended, and is live as before
      split_ifs with hready
      · exact hagree.update_thread (by simp [hready.1])
      · exact hagree
  | cancel i =>
    simp only [liveAfter]
    cases hi : h.world.computations[i]? with
    | none =>
      rw [World.step_cancel_of_none hi]
      exact hagree
    | some c =>
      rw [World.step_cancel hi]
      -- a thread that runs cannot be stopped, so its computation stays live
      by_cases hcurrent : h.world.currentVmThread = some c.thread
      · have hrunning := (hinv.coherent c.thread).mpr hcurrent
        rw [if_neg (by rw [hrunning]; decide)]
        simpa only [hcurrent, if_true] using hagree
      · simp only [hcurrent, if_false]
        split_ifs with hstate
        · exact hagree.update (by simp)
        · -- the thread was stopped already
          refine hagree.update_live (iff_of_false (by simp) ?_)
          exact fun hon => hstate (hinv.suspended_of_live ((hagree _).mpr hon) hcurrent)
  | isDone i =>
    rw [World.step_isDone]
    exact hagree
  | resume n =>
    rw [World.step_resume]
    simp only [liveAfter]
    split_ifs with hcurrent
    · exact hagree.update (by simp)
    · exact hagree
  | stop n =>
    rw [World.step_stop]
    simp only [liveAfter]
    -- the same guard, for a thread that belongs to no VM
    by_cases hcurrent : h.world.currentVmThread = some (.standalone n)
    · rw [if_pos hcurrent, if_pos ((hinv.coherent _).mpr hcurrent)]
      exact hagree
    · rw [if_neg hcurrent, if_neg (mt (hinv.coherent _).mp hcurrent)]
      exact hagree.update (by simp)
  | yield =>
    rw [World.step_yield]
    cases hcurrent : h.world.currentVmThread with
    | none => exact hagree
    -- a function that yields is suspended, and live
    | some t => exact hagree.update_thread (by simp [(hinv.coherent t).mpr hcurrent])
  | finish =>
    rw [World.step_finish]
    simp only [liveAfter]
    cases hcurrent : h.world.currentVmThread with
    | none => exact hagree
    -- one that returns is not
    | some t => exact hagree.update (by simp)

/-- The computations of a world keep their numbers. -/
theorem getElem?_step {w : World φ} {i : ℕ} {c : DynamicComputation}
    (hi : w.computations[i]? = some c) (call : Call φ) :
    (w.step call).computations[i]? = some c := by
  obtain hsame | ⟨v, fn, hinvoked⟩ := w.computations_step call
  · rw [hsame, hi]
  · rw [hinvoked]
    exact List.getElem?_append_left (List.getElem?_eq_some_iff.mp hi).1 ▸ hi

theorem Inv.ofVM_step (hinv : h.Inv) (call : Call φ) (i : ℕ) (c : DynamicComputation)
    (hi : (h.world.step call).computations[i]? = some c) : ∃ v, c.thread = .vm v := by
  obtain hsame | ⟨v, fn, hinvoked⟩ := h.world.computations_step call
  · rw [hsame] at hi
    exact hinv.ofVM i c hi
  · rw [hinvoked] at hi
    obtain hold | hnew := List.mem_append.mp (List.mem_of_getElem? hi)
    · obtain ⟨k, hk⟩ := List.mem_iff_getElem?.mp hold
      exact hinv.ofVM k c hk
    · rw [List.mem_singleton] at hnew
      exact ⟨v, by rw [hnew]⟩

theorem Inv.finished_step (hinv : h.Inv) (call : Call φ) (i : ℕ) (hi : (h.step call).reported i) :
    ∃ c, (h.world.step call).computations[i]? = some c ∧
      (((h.world.step call).thread c.thread).state = .stopped ∨
        ∃ j c', i < j ∧ (h.world.step call).computations[j]? = some c' ∧
          c'.thread = c.thread) := by
  obtain hbefore | ⟨rfl, hanswer⟩ := hi
  · obtain ⟨c, hc, hstopped | ⟨j, c', hij, hj, hthread⟩⟩ := hinv.finished i hbefore
    · obtain ⟨v, hv⟩ := hinv.ofVM i c hc
      rw [hv] at hstopped
      refine ⟨c, getElem?_step hc call, ?_⟩
      rw [hv]
      -- it was reported before: its thread stays stopped, or is invoked again
      obtain hstill | ⟨fn, hinvoked⟩ := World.stopped_step hinv.coherent hstopped call
      · exact .inl hstill
      · -- the new computation has the thread now
        refine .inr ⟨h.world.computations.length, ⟨.vm v⟩, ?_, ?_, rfl⟩
        · exact (List.getElem?_eq_some_iff.mp hc).1
        · rw [hinvoked]
          simp [VMImpl.invoked]
    · exact ⟨c, getElem?_step hc call, .inr ⟨j, c', hij, getElem?_step hj call, hthread⟩⟩
  -- it is reported now
  · rw [World.step_isDone]
    cases hc : h.world.computations[i]? with
    | none =>
      rw [show (Call.isDone i).perform h.world = _ from onComputation_of_none hc] at hanswer
      cases hanswer
    | some c =>
      rw [World.perform_isDone hc] at hanswer
      have hstate : (h.world.thread c.thread).state = .stopped := by simpa using hanswer
      exact ⟨c, rfl, .inl hstate⟩

theorem Inv.step (hinv : h.Inv) (call : Call φ) : (h.step call).Inv where
  coherent := hinv.coherent.step call
  agree := hinv.agree_step call
  ofVM := hinv.ofVM_step call
  finished := hinv.finished_step call

/-! ### One call -/

theorem Inv.isDone_final_iff (hinv : h.Inv) (i : ℕ) :
    h.FinalCall (.isDone i) ↔ h.NotStale (.isDone i) := by
  refine forall_congr' fun hreported => ?_
  obtain ⟨c, hc, -⟩ := hinv.finished i hreported
  rw [World.perform_isDone hc, hc]
  have hlive := hinv.agree c.thread
  constructor
  · rintro hanswer _ ⟨⟩
    have hstate : (h.world.thread c.thread).state = .stopped := by simpa using hanswer
    simpa [hstate] using hlive
  · intro hdead
    rw [hdead c rfl] at hlive
    simpa using hlive

/-- The thread of a finished computation that is live belongs to a later one. -/
theorem Inv.exists_later (hinv : h.Inv) {i : ℕ} {c : DynamicComputation}
    (hreported : h.reported i) (hc : h.world.computations[i]? = some c)
    (hlive : h.live c.thread = true) :
    ∃ j c', i < j ∧ h.world.computations[j]? = some c' ∧ c'.thread = c.thread := by
  obtain ⟨d, hd, hstopped | hlater⟩ := hinv.finished i hreported
  · rw [hc] at hd
    cases hd
    exact absurd hstopped ((hinv.agree _).mp hlive)
  · rw [hc] at hd
    cases hd
    exact hlater

theorem Inv.execute_final_iff (hinv : h.Inv) (i : ℕ) :
    h.FinalCall (.execute i) ↔ h.NotStale (.execute i) := by
  refine forall_congr' fun hreported => ?_
  unfold SparesLater
  constructor
  · -- outside any thread, the live computation would have been resumed
    intro hspares c hc hlive hcurrent
    obtain ⟨j, c', hij, hj, hthread⟩ := hinv.exists_later hreported hc hlive
    have hstate := hinv.suspended_of_live hlive (by rw [hcurrent]; exact nofun)
    have hsame := hspares j c' hij hj
    rw [World.step_execute hc, if_pos ⟨hstate, hcurrent⟩, hthread] at hsame
    have hrunning : (h.world.thread c.thread).state = .running := by
      rw [← hsame]
      simp [World.resumed]
    rw [hstate] at hrunning
    cases hrunning
  · intro hrefused j c' hij hj
    obtain ⟨c, hc, -⟩ := hinv.finished i hreported
    -- the thread is not resumed, since it would be live
    rw [World.step_execute hc, if_neg]
    rintro ⟨hstate, hcurrent⟩
    exact hrefused c hc ((hinv.agree _).mpr (by rw [hstate]; decide)) hcurrent

theorem Inv.cancel_final_iff (hinv : h.Inv) (i : ℕ) :
    h.FinalCall (.cancel i) ↔ h.NotStale (.cancel i) := by
  refine forall_congr' fun hreported => ?_
  unfold SparesLater
  constructor
  · intro hspares c hc hlive
    -- the live computation would have been stopped, unless it runs
    by_contra hcurrent
    obtain ⟨j, c', hij, hj, hthread⟩ := hinv.exists_later hreported hc hlive
    have hstate := hinv.suspended_of_live hlive hcurrent
    have hsame := hspares j c' hij hj
    rw [World.step_cancel hc, if_pos hstate, hthread] at hsame
    have hstopped : (h.world.thread c.thread).state = .stopped := by
      rw [← hsame]
      simp [World.stopped]
    rw [hstate] at hstopped
    cases hstopped
  · intro hrefused j c' hij hj
    obtain ⟨c, hc, -⟩ := hinv.finished i hreported
    rw [World.step_cancel hc, if_neg]
    intro hstate
    have hcurrent := hrefused c hc ((hinv.agree _).mpr (by rw [hstate]; decide))
    rw [(hinv.coherent _).mpr hcurrent] at hstate
    cases hstate

theorem Inv.finalCall_iff (hinv : h.Inv) (call : Call φ) :
    h.FinalCall call ↔ h.NotStale call := by
  cases call with
  | isDone i => exact hinv.isDone_final_iff i
  | execute i => exact hinv.execute_final_iff i
  | cancel i => exact hinv.cancel_final_iff i
  | _ => exact Iff.rfl

end History

/-! ### Runs -/

/-- **Finished computations.** In a run they stay finished and leave the later ones alone exactly if
they are left alone themselves while a later one is live. -/
theorem finished_computations_final_iff (calls : List (Call φ)) :
    EachStep History.step History.FinalCall {} calls ↔
      EachStep History.step History.NotStale {} calls :=
  EachStep.congr (fun _ call (hinv : History.Inv _) _ => hinv.step call)
    (fun _ call hinv => hinv.finalCall_iff call) History.Inv.init

/-- One computation is executed until it is done, and a second one is invoked. The first one is not
done any more; to execute it advances the second one, and to cancel it stops the second one. -/
theorem finished_computation_revives :
    let first := [Call.invoke 0 (), .execute 0, .finish, .isDone 0, .invoke 0 ()]
    let w := runCalls World.step ({} : World Unit) first
    ¬EachStep History.step History.FinalCall {} (first ++ [.isDone 0]) ∧
      ((Call.isDone 0).perform (runCalls World.step {} (first.take 3))).1 = .ok (.bool true) ∧
      ((Call.isDone 0).perform w).1 = .ok (.bool false) ∧
      w.computations = [⟨.vm 0⟩, ⟨.vm 0⟩] ∧
      (w.thread (.vm 0)).state = .suspended ∧
      ((w.step (.execute 0)).thread (.vm 0)).state = .running ∧
      ((w.step (.cancel 0)).thread (.vm 0)).state = .stopped := by
  refine ⟨fun hfinal => ?_, rfl, rfl, rfl, rfl, rfl, rfl⟩
  obtain ⟨-, -, -, -, -, hlast, -⟩ := hfinal
  cases hlast (.inl (.inr ⟨rfl, rfl⟩))

end Wasmcc
