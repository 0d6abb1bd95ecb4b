import Wasmcc.Runtime.VM

/-!
# Stack switches

`Runtime/Thread.lean` keeps of a saved context only how often its function was left. Here are the
contexts themselves: every `VMThread` has a `ThreadStack` for its own place and one for the place
of whoever resumed it, and `WasmccSwitch` saves what is executing into one and goes on with the
other. Which code executes is a component of the state, `current_vm_thread` is another one, and each
function updates what the source has it update, in that order.

A `LifeCycle` is what threads are for: one of them may run a segment of its function, others wait to
go on with a later one. It has no contexts, no `_state` and no second place that says who is
running. `Represents.perform` says that the code answers like it, call by call, and
`vmThread_life_cycle` what follows for every run. A `World` is a life cycle too, so that it agrees
with the contexts in every run (`worlds_are_stacks`).
-/

open Basis

namespace Wasmcc

open Effect

/-! ### Contexts -/

/-- Where execution goes on: in the host, or in the function of a thread, by how often it was left
before. The part of a function between two places where it is left is one of its segments. -/
inductive Context where
  | uninitialized
  | host (n : ℕ)
  | guest (t : ThreadId) (segment : ℕ)
deriving DecidableEq, Repr

/-- What is saved when the context is left. -/
def Context.next : Context → Context
  | uninitialized => uninitialized
  | host n => host (n + 1)
  | guest t segment => guest t (segment + 1)

/-- The pointers to `ThreadStack`s, two for each `VMThread`. -/
inductive ThreadStack where
  | myThreadState (t : ThreadId)
  | mainThreadState (t : ThreadId)
deriving DecidableEq, Repr

structure Stacks where
  currentVmThread : Option ThreadId := none
  state : ThreadId → VMThread.State := fun _ => .stopped
  saved : ThreadStack → Context := fun _ => .uninitialized
  /-- The code that executes now, and makes the next call. -/
  running : Context := .host 0

namespace Stacks

/-- `WasmccSwitch` saves the context it is called in, and restores the other one. -/
def wasmccSwitch (source target : ThreadStack) : Effect RuntimeError Stacks Unit :=
  modify fun s =>
    let saved := Function.update s.saved source s.running.next
    { s with saved, running := saved target }

def initializeVMThreadStackState (t : ThreadId) : Effect RuntimeError Stacks Unit :=
  modify fun s => { s with saved := Function.update s.saved (.myThreadState t) (.guest t 0) }

def setState (t : ThreadId) (state : VMThread.State) : Effect RuntimeError Stacks Unit :=
  modify fun s => { s with state := Function.update s.state t state }

def trampolineInToVM (t : ThreadId) : Effect RuntimeError Stacks Unit := do
  modify fun s => { s with currentVmThread := some t }
  wasmccSwitch (.mainThreadState t) (.myThreadState t)

def trampolineOutOfVM (t : ThreadId) : Effect RuntimeError Stacks Unit := do
  modify fun s => { s with currentVmThread := none }
  wasmccSwitch (.myThreadState t) (.mainThreadState t)

def resume (t : ThreadId) : Effect RuntimeError Stacks Unit := do
  let s ← get
  if s.currentVmThread ≠ none then fail .callIntoAnother
  else do
    if s.state t = .stopped then initializeVMThreadStackState t else pure ()
    setState t .running
    trampolineInToVM t

def stop (t : ThreadId) : Effect RuntimeError Stacks Unit := do
  let s ← get
  if s.state t = .running then fail .stopRunning else setState t .stopped

def yield : Effect RuntimeError Stacks Unit := do
  let s ← get
  match s.currentVmThread with
  | none => fail .yieldOutside
  | some t => do
    setState t .suspended
    trampolineOutOfVM t

/-- The rest of `VMThreadStart(thread)`, after `thread->_func()`. -/
def finish (t : ThreadId) : Effect RuntimeError Stacks Unit := do
  setState t .stopped
  trampolineOutOfVM t

end Stacks

/-- What the code that is executing can do. -/
inductive ThreadCall where
  | resume (t : ThreadId)
  | stop (t : ThreadId)
  | yield
  /-- The function of a thread returns to `VMThreadStart`. The host does not. -/
  | return_
deriving DecidableEq, Repr

def ThreadCall.perform : ThreadCall → Effect RuntimeError Stacks Unit
  | .resume t => Stacks.resume t
  | .stop t => Stacks.stop t
  | .yield => Stacks.yield
  | .return_ => do
    let s ← get
    match s.running with
    | .guest t _ => Stacks.finish t
    | _ => pure ()

def Stacks.step (s : Stacks) (call : ThreadCall) : Stacks := (call.perform s).2

/-! ### The life cycle -/

/-- At most one thread runs, and it runs a segment of its function. Others are suspended in front of
a segment, and the rest are stopped. -/
@[ext]
structure LifeCycle where
  runner : Option (ThreadId × ℕ) := none
  suspended : ThreadId → Option ℕ := fun _ => none

namespace LifeCycle

/-- A stopped thread starts over, a suspended one goes on. -/
def resume (t : ThreadId) (l : LifeCycle) : Except RuntimeError Unit × LifeCycle :=
  match l.runner with
  | some _ => (.error .callIntoAnother, l)
  | none => (.ok (),
    { runner := some (t, (l.suspended t).getD 0)
      suspended := Function.update l.suspended t none })

def stop (t : ThreadId) (l : LifeCycle) : Except RuntimeError Unit × LifeCycle :=
  if l.runner.map Prod.fst = some t then (.error .stopRunning, l)
  else (.ok (), { l with suspended := Function.update l.suspended t none })

def yield (l : LifeCycle) : Except RuntimeError Unit × LifeCycle :=
  match l.runner with
  | none => (.error .yieldOutside, l)
  | some (t, k) => (.ok (),
    { runner := none, suspended := Function.update l.suspended t (some (k + 1)) })

def return_ (l : LifeCycle) : Except RuntimeError Unit × LifeCycle :=
  (.ok (), { l with runner := none })

def perform : ThreadCall → Effect RuntimeError LifeCycle Unit
  | .resume t => resume t
  | .stop t => stop t
  | .yield => yield
  | .return_ => return_

def step (l : LifeCycle) (call : ThreadCall) : LifeCycle := (perform call l).2

def state (l : LifeCycle) (t : ThreadId) : VMThread.State :=
  if l.runner.map Prod.fst = some t then .running
  else if (l.suspended t).isSome then .suspended else .stopped

end LifeCycle

/-! ### What each operation does -/

namespace Stacks

variable {s : Stacks} {t : ThreadId}

/-- The context that `Resume` enters. -/
def place (s : Stacks) (t : ThreadId) : Context :=
  if s.state t = .stopped then .guest t 0 else s.saved (.myThreadState t)

/-- The thread was entered, from its start if it was stopped. -/
def entered (s : Stacks) (t : ThreadId) : Stacks where
  currentVmThread := some t
  state := Function.update s.state t .running
  saved := Function.update (Function.update s.saved (.myThreadState t) (s.place t))
    (.mainThreadState t) s.running.next
  running := s.place t

/-- The thread was left in this state, for the code that had resumed it. -/
def left (s : Stacks) (t : ThreadId) (state : VMThread.State) : Stacks where
  currentVmThread := none
  state := Function.update s.state t state
  saved := Function.update s.saved (.myThreadState t) s.running.next
  running := s.saved (.mainThreadState t)

theorem resume_of_some (h : s.currentVmThread ≠ none) (t : ThreadId) :
    resume t s = (.error .callIntoAnother, s) := by
  unfold resume
  rw [get_bind, if_pos h]
  rfl

theorem resume_of_none (h : s.currentVmThread = none) (t : ThreadId) :
    resume t s = (.ok (), s.entered t) := by
  unfold resume entered place
  rw [get_bind, if_neg (not_not.mpr h)]
  by_cases hs : s.state t = .stopped
  · rw [if_pos hs, if_pos hs]
    simp [initializeVMThreadStackState, setState, trampolineInToVM, wasmccSwitch]
  · rw [if_neg hs, if_neg hs]
    simp [setState, trampolineInToVM, wasmccSwitch]

theorem stop_of_running (h : s.state t = .running) : stop t s = (.error .stopRunning, s) := by
  unfold stop
  rw [get_bind, if_pos h]
  rfl

theorem stop_of_not_running (h : s.state t ≠ .running) :
    stop t s = (.ok (), { s with state := Function.update s.state t .stopped }) := by
  unfold stop
  rw [get_bind, if_neg h]
  rfl

theorem yield_of_none (h : s.currentVmThread = none) : yield s = (.error .yieldOutside, s) := by
  unfold yield
  rw [get_bind, h]
  rfl

theorem yield_of_some (h : s.currentVmThread = some t) :
    yield s = (.ok (), s.left t .suspended) := by
  unfold yield
  rw [get_bind, h]
  simp [setState, trampolineOutOfVM, wasmccSwitch, left]

theorem finish_eq (s : Stacks) (t : ThreadId) : finish t s = (.ok (), s.left t .stopped) := by
  unfold finish
  simp [setState, trampolineOutOfVM, wasmccSwitch, left]

theorem return_of_host {n : ℕ} (h : s.running = .host n) :
    ThreadCall.return_.perform s = (.ok (), s) := by
  show (match s.running with
    | .guest t _ => finish t
    | _ => pure ()) s = _
  rw [h]
  rfl

theorem return_of_guest {k : ℕ} (h : s.running = .guest t k) :
    ThreadCall.return_.perform s = (.ok (), s.left t .stopped) := by
  show (match s.running with
    | .guest t _ => finish t
    | _ => pure ()) s = _
  rw [h]
  exact finish_eq s t

end Stacks

/-! ### The code is a life cycle -/

/-- What the code's state says of the threads, and where their contexts are. -/
structure Represents (s : Stacks) (l : LifeCycle) : Prop where
  state : ∀ t, s.state t = l.state t
  current : s.currentVmThread = l.runner.map Prod.fst
  /-- A suspended thread will go on with its next segment. -/
  saved : ∀ t k, l.suspended t = some k → s.saved (.myThreadState t) = .guest t k
  /-- The code that executes is the host, or the runner; the host is then where it can return to. -/
  running : match l.runner with
    | none => ∃ n, s.running = .host n
    | some (t, k) => s.running = .guest t k ∧ l.suspended t = none ∧
      ∃ n, s.saved (.mainThreadState t) = .host n

namespace Represents

variable {s : Stacks} {l : LifeCycle}

theorem init : Represents {} {} where
  state _ := rfl
  current := rfl
  saved _ _ h := nomatch h
  running := ⟨0, rfl⟩

section Runner

variable {t : ThreadId} {k : ℕ}

theorem host (h : Represents s l) (hrunner : l.runner = none) : ∃ n, s.running = .host n := by
  have hrun := h.running
  rwa [hrunner] at hrun

theorem guest (h : Represents s l) (hrunner : l.runner = some (t, k)) :
    s.running = .guest t k ∧ l.suspended t = none ∧
      ∃ n, s.saved (.mainThreadState t) = .host n := by
  have hrun := h.running
  rwa [hrunner] at hrun

theorem current_of_host (h : Represents s l) (hrunner : l.runner = none) :
    s.currentVmThread = none := by
  rw [h.current, hrunner]
  rfl

theorem current_of_guest (h : Represents s l) (hrunner : l.runner = some (t, k)) :
    s.currentVmThread = some t := by
  rw [h.current, hrunner]
  rfl

end Runner

theorem place (h : Represents s l) (hrunner : l.runner = none) (t : ThreadId) :
    s.place t = .guest t ((l.suspended t).getD 0) := by
  have hstate := h.state t
  unfold Stacks.place
  cases hk : l.suspended t with
  | none =>
    -- a stopped thread starts from its first segment
    have hstopped : s.state t = .stopped := by simpa [LifeCycle.state, hrunner, hk] using hstate
    rw [if_pos hstopped]
    rfl
  | some k =>
    -- a suspended one goes on where its context was saved
    have hsuspended : s.state t = .suspended := by
      simpa [LifeCycle.state, hrunner, hk] using hstate
    rw [if_neg (by rw [hsuspended]; decide)]
    exact h.saved t k hk

theorem resume (h : Represents s l) (hrunner : l.runner = none) (t : ThreadId) :
    Represents (s.entered t)
      { runner := some (t, (l.suspended t).getD 0)
        suspended := Function.update l.suspended t none } where
  state u := by
    by_cases hut : u = t
    · subst hut
      simp [Stacks.entered, LifeCycle.state]
    · have hu := h.state u
      rw [LifeCycle.state, hrunner] at hu
      simpa [Stacks.entered, LifeCycle.state, hut, Ne.symm hut] using hu
  current := rfl
  saved u k hk := by
    by_cases hut : u = t
    · subst hut
      simp at hk
    · have hu := h.saved u k (by simpa [hut] using hk)
      simpa [Stacks.entered, hut] using hu
  running := by
    -- the host is left in front of its next segment
    obtain ⟨n, hn⟩ := h.host hrunner
    refine ⟨h.place hrunner t, by simp, n + 1, ?_⟩
    simp [Stacks.entered, hn, Context.next]

theorem stop (h : Represents s l) {t : ThreadId} (ht : l.runner.map Prod.fst ≠ some t) :
    Represents { s with state := Function.update s.state t .stopped }
      { l with suspended := Function.update l.suspended t none } where
  state u := by
    by_cases hut : u = t
    · subst hut
      simp [LifeCycle.state, ht]
    · simpa [LifeCycle.state, hut] using h.state u
  current := h.current
  saved u k hk := by
    by_cases hut : u = t
    · subst hut
      simp at hk
    · exact h.saved u k (by simpa [hut] using hk)
  running := by
    cases hrunner : l.runner with
    | none => exact h.host hrunner
    | some p =>
      obtain ⟨u, k⟩ := p
      obtain ⟨hguest, hnone, hmain⟩ := h.guest hrunner
      rw [hrunner] at ht
      -- the thread that runs is not the one that is stopped
      have hut : u ≠ t := fun heq => ht (congrArg some heq)
      exact ⟨hguest, by simpa [hut] using hnone, hmain⟩

/-- The runner is left, in front of its next segment or for good. -/
theorem leave (h : Represents s l) {t : ThreadId} {k : ℕ} (hrunner : l.runner = some (t, k))
    {state : VMThread.State} {next : Option ℕ} (hnext : next = none ∨ next = some (k + 1))
    (hstate : state = if next.isSome then .suspended else .stopped) :
    Represents (s.left t state)
      { runner := none, suspended := Function.update l.suspended t next } := by
  obtain ⟨hguest, -, hmain⟩ := h.guest hrunner
  refine ⟨fun u => ?_, rfl, fun u j hj => ?_, hmain⟩
  · by_cases hut : u = t
    · subst hut
      simp [Stacks.left, LifeCycle.state, hstate]
    · have hu := h.state u
      simpa [Stacks.left, LifeCycle.state, hrunner, hut, Ne.symm hut] using hu
  · by_cases hut : u = t
    · subst hut
      obtain rfl : next = some j := by simpa using hj
      -- only a thread that yields has a context saved for it
      obtain hno | hj := hnext
      · cases hno
      · obtain rfl := Option.some.inj hj
        simp [Stacks.left, hguest, Context.next]
    · have hu := h.saved u j (by simpa [hut] using hj)
      simpa [Stacks.left, hut] using hu

/-- **The code answers like the life cycle**, and goes on representing it. -/
theorem perform (h : Represents s l) (call : ThreadCall) :
    (call.perform s).1 = (LifeCycle.perform call l).1 ∧
      Represents (s.step call) (l.step call) := by
  cases call with
  | resume t =>
    show (Stacks.resume t s).1 = (l.resume t).1 ∧ Represents (Stacks.resume t s).2 (l.resume t).2
    unfold LifeCycle.resume
    cases hrunner : l.runner with
    | none =>
      rw [Stacks.resume_of_none (h.current_of_host hrunner)]
      exact ⟨rfl, h.resume hrunner t⟩
    | some p =>
      have hcurrent : s.currentVmThread ≠ none := by rw [h.current_of_guest hrunner]; exact nofun
      rw [Stacks.resume_of_some hcurrent]
      exact ⟨rfl, h⟩
  | stop t =>
    show (Stacks.stop t s).1 = (l.stop t).1 ∧ Represents (Stacks.stop t s).2 (l.stop t).2
    have hstate := h.state t
    unfold LifeCycle.stop
    by_cases ht : l.runner.map Prod.fst = some t
    · rw [LifeCycle.state, if_pos ht] at hstate
      rw [Stacks.stop_of_running hstate, if_pos ht]
      exact ⟨rfl, h⟩
    · have hnot : s.state t ≠ .running := by
        rw [hstate, LifeCycle.state, if_neg ht]
        split <;> decide
      rw [Stacks.stop_of_not_running hnot, if_neg ht]
      exact ⟨rfl, h.stop ht⟩
  | yield =>
    show (Stacks.yield s).1 = l.yield.1 ∧ Represents (Stacks.yield s).2 l.yield.2
    unfold LifeCycle.yield
    cases hrunner : l.runner with
    | none =>
      rw [Stacks.yield_of_none (h.current_of_host hrunner)]
      exact ⟨rfl, h⟩
    | some p =>
      obtain ⟨t, k⟩ := p
      rw [Stacks.yield_of_some (h.current_of_guest hrunner)]
      exact ⟨rfl, h.leave hrunner (.inr rfl) rfl⟩
  | return_ =>
    cases hrunner : l.runner with
    | none =>
      obtain ⟨n, hn⟩ := h.host hrunner
      have hsame : l.step .return_ = l := by
        show { l with runner := none } = l
        rw [← hrunner]
      rw [Stacks.step, Stacks.return_of_host hn, hsame]
      exact ⟨rfl, h⟩
    | some p =>
      obtain ⟨t, k⟩ := p
      obtain ⟨hguest, hnone, -⟩ := h.guest hrunner
      have hleft := h.leave hrunner (.inl rfl) rfl
      -- the runner is not among the suspended threads
      rw [← hnone, Function.update_eq_self, hnone] at hleft
      rw [Stacks.step, Stacks.return_of_guest hguest]
      exact ⟨rfl, hleft⟩

/-- The code that executes is a function exactly if the life cycle has a runner, and it is at the
same place. -/
theorem running_iff (h : Represents s l) {t : ThreadId} {k : ℕ} :
    s.running = .guest t k ↔ l.runner = some (t, k) := by
  cases hrunner : l.runner with
  | none =>
    obtain ⟨n, hn⟩ := h.host hrunner
    rw [hn]
    exact ⟨nofun, nofun⟩
  | some p =>
    rw [(h.guest hrunner).1, Context.guest.injEq, Option.some.injEq, Prod.ext_iff]

theorem state_iff_current (h : Represents s l) (t : ThreadId) :
    s.state t = .running ↔ s.currentVmThread = some t := by
  rw [h.state, h.current, LifeCycle.state]
  by_cases ht : l.runner.map Prod.fst = some t
  · rw [if_pos ht, ht]
    exact ⟨fun _ => rfl, fun _ => rfl⟩
  · rw [if_neg ht]
    refine ⟨fun hstate => ?_, fun hcurrent => absurd hcurrent ht⟩
    split at hstate <;> cases hstate

end Represents

/-! ### What is refused -/

/-- The calls that throw: entering a thread from inside one, stopping the one that runs, leaving one
from outside. -/
def Stacks.Refuses (s : Stacks) : ThreadCall → Prop
  | .resume _ => ∃ t k, s.running = .guest t k
  | .stop t => s.state t = .running
  | .yield => ∀ t k, s.running ≠ .guest t k
  | .return_ => False

section Refuses

variable {s : Stacks} {call : ThreadCall}

theorem Stacks.refuses_of_error {e : RuntimeError} (he : call.perform s = (.error e, s))
    (h : s.Refuses call) :
    ((call.perform s).1 ≠ .ok () ↔ s.Refuses call) ∧ (s.Refuses call → s.step call = s) :=
  ⟨iff_of_true (by rw [he]; exact nofun) h, fun _ => congrArg Prod.snd he⟩

theorem Stacks.refuses_of_ok (hok : (call.perform s).1 = .ok ()) (h : ¬s.Refuses call) :
    ((call.perform s).1 ≠ .ok () ↔ s.Refuses call) ∧ (s.Refuses call → s.step call = s) :=
  ⟨iff_of_false (fun hne => hne hok) h, fun hrefuses => absurd hrefuses h⟩

end Refuses

namespace Represents

variable {s : Stacks} {l : LifeCycle}

theorem current_eq_none_iff (h : Represents s l) :
    s.currentVmThread = none ↔ ∀ t k, s.running ≠ .guest t k := by
  rw [h.current, Option.map_eq_none_iff]
  constructor
  · intro hnone t k hguest
    rw [h.running_iff, hnone] at hguest
    cases hguest
  · intro hhost
    cases hrunner : l.runner with
    | none => rfl
    | some p => exact absurd (h.running_iff.mpr hrunner) (hhost p.1 p.2)

/-- A call throws exactly if it is one of those, and then nothing has changed. -/
theorem refuses (h : Represents s l) (call : ThreadCall) :
    ((call.perform s).1 ≠ .ok () ↔ s.Refuses call) ∧ (s.Refuses call → s.step call = s) := by
  cases call with
  | resume t =>
    by_cases hcurrent : s.currentVmThread = none
    · have hhost := h.current_eq_none_iff.mp hcurrent
      refine Stacks.refuses_of_ok ?_ fun ⟨t, k, hguest⟩ => hhost t k hguest
      exact congrArg Prod.fst (Stacks.resume_of_none hcurrent t)
    · refine Stacks.refuses_of_error (Stacks.resume_of_some hcurrent t) ?_
      show ∃ t k, s.running = .guest t k
      by_contra hno
      push Not at hno
      exact hcurrent (h.current_eq_none_iff.mpr hno)
  | stop t =>
    by_cases hstate : s.state t = .running
    · exact Stacks.refuses_of_error (Stacks.stop_of_running hstate) hstate
    · exact Stacks.refuses_of_ok (congrArg Prod.fst (Stacks.stop_of_not_running hstate)) hstate
  | yield =>
    cases hcurrent : s.currentVmThread with
    | none =>
      exact Stacks.refuses_of_error (Stacks.yield_of_none hcurrent)
        (h.current_eq_none_iff.mp hcurrent)
    | some t =>
      refine Stacks.refuses_of_ok (congrArg Prod.fst (Stacks.yield_of_some hcurrent))
        fun hhost => ?_
      rw [h.current_eq_none_iff.mpr hhost] at hcurrent
      cases hcurrent
  | return_ =>
    -- the life cycle never refuses a return, and the code answers the same
    exact Stacks.refuses_of_ok (h.perform .return_).1 id

end Represents

/-! ### Every run -/

/-- No thread waits in front of its first segment. -/
def LifeCycle.Begun (l : LifeCycle) : Prop := ∀ t, l.suspended t ≠ some 0

theorem LifeCycle.Begun.step {l : LifeCycle} (h : l.Begun) (call : ThreadCall) :
    (l.step call).Begun := by
  -- every call changes one entry at most
  have hupdate : ∀ (t : ThreadId) (next : Option ℕ), next ≠ some 0 →
      ∀ u, Function.update l.suspended t next u ≠ some 0 := by
    intro t next hnext u
    by_cases hut : u = t
    · subst hut
      simpa using hnext
    · simpa [hut] using h u
  cases call with
  | resume t =>
    show ((l.resume t).2).Begun
    unfold LifeCycle.resume
    cases l.runner with
    | none => exact hupdate t none nofun
    | some p => exact h
  | stop t =>
    show ((l.stop t).2).Begun
    unfold LifeCycle.stop
    split
    · exact h
    · exact hupdate t none nofun
  | yield =>
    show (l.yield.2).Begun
    unfold LifeCycle.yield
    cases l.runner with
    | none => exact h
    | some p => exact hupdate p.1 (some (p.2 + 1)) (by simp)
  | return_ => exact h

/-- What is the same after any calls in the code and in the life cycle. -/
theorem represents_runCalls (calls : List ThreadCall) :
    Represents (runCalls Stacks.step {} calls) (runCalls LifeCycle.step {} calls) ∧
      (runCalls LifeCycle.step {} calls).Begun := by
  refine runCalls_simulates (R := fun s l => Represents s l ∧ l.Begun) ?_
    ⟨.init, fun _ => nofun⟩ calls
  rintro s l call ⟨hrep, hbegun⟩
  exact ⟨(hrep.perform call).2, hbegun.step call⟩

/-- A suspended thread waits in front of the same segment until it is resumed or stopped. -/
theorem Represents.waits {s : Stacks} {l : LifeCycle} (h : Represents s l) {t : ThreadId} {k : ℕ}
    (hk : l.suspended t = some k) {call : ThreadCall} (hresume : call ≠ .resume t)
    (hstop : call ≠ .stop t) : (l.step call).suspended t = some k := by
  cases call with
  | resume u =>
    have hut : t ≠ u := fun heq => hresume (congrArg _ heq.symm)
    show ((l.resume u).2).suspended t = some k
    unfold LifeCycle.resume
    cases l.runner with
    | none => simpa [hut] using hk
    | some p => exact hk
  | stop u =>
    have hut : t ≠ u := fun heq => hstop (congrArg _ heq.symm)
    show ((l.stop u).2).suspended t = some k
    unfold LifeCycle.stop
    split
    · exact hk
    · simpa [hut] using hk
  | yield =>
    show (l.yield.2).suspended t = some k
    unfold LifeCycle.yield
    cases hrunner : l.runner with
    | none => exact hk
    | some p =>
      -- the runner is not suspended, so it is another thread
      have htp : t ≠ p.1 := by
        rintro rfl
        rw [(h.guest hrunner).2.1] at hk
        cases hk
      simpa [htp] using hk
  | return_ => exact hk

theorem Represents.waits_runCalls {s : Stacks} {l : LifeCycle} (h : Represents s l) {t : ThreadId}
    {k : ℕ} (hk : l.suspended t = some k) {calls : List ThreadCall} (hresume : .resume t ∉ calls)
    (hstop : .stop t ∉ calls) :
    Represents (runCalls Stacks.step s calls) (runCalls LifeCycle.step l calls) ∧
      (runCalls LifeCycle.step l calls).suspended t = some k := by
  induction calls generalizing s l with
  | nil => exact ⟨h, hk⟩
  | cons call calls ih =>
    rw [List.mem_cons, not_or] at hresume hstop
    exact ih (h.perform call).2 (h.waits hk (Ne.symm hresume.1) (Ne.symm hstop.1)) hresume.2 hstop.2

/-- A resume that succeeds finds nobody running. -/
theorem Represents.runner_of_resume {s : Stacks} {l : LifeCycle} (h : Represents s l)
    {t : ThreadId} (hok : (Stacks.resume t s).1 = .ok ()) :
    s.currentVmThread = none ∧ l.runner = none := by
  have hcurrent : s.currentVmThread = none := by
    by_contra hne
    rw [Stacks.resume_of_some hne] at hok
    cases hok
  have hrunner := h.current
  rw [hcurrent, eq_comm, Option.map_eq_none_iff] at hrunner
  exact ⟨hcurrent, hrunner⟩

/-- It runs the segment that the thread waits in front of. -/
theorem Represents.enters {s : Stacks} {l : LifeCycle} (h : Represents s l) {t : ThreadId}
    (hok : (Stacks.resume t s).1 = .ok ()) :
    (s.step (.resume t)).running = .guest t ((l.suspended t).getD 0) := by
  obtain ⟨hcurrent, hrunner⟩ := h.runner_of_resume hok
  show (Stacks.resume t s).2.running = _
  rw [Stacks.resume_of_none hcurrent]
  exact h.place hrunner t

/-- That is the first segment exactly if the thread is stopped. -/
theorem Represents.starts_over_iff {s : Stacks} {l : LifeCycle} (h : Represents s l)
    (hbegun : l.Begun) {t : ThreadId} (hok : (Stacks.resume t s).1 = .ok ()) :
    (l.suspended t).getD 0 = 0 ↔ s.state t = .stopped := by
  rw [h.state, LifeCycle.state, (h.runner_of_resume hok).2]
  cases hk : l.suspended t with
  | none => simp
  | some k =>
    have hpos : k ≠ 0 := fun hzero => hbegun t (by rw [hk, hzero])
    simp [hpos]

/-- The segment of a thread is over: the host goes on, and the thread is left in this state. -/
def Stacks.Over (s : Stacks) (t : ThreadId) (state : VMThread.State) : Prop :=
  (∃ n, s.running = .host n) ∧ s.state t = state

theorem Represents.over {s : Stacks} {l : LifeCycle} (h : Represents s l) {t : ThreadId} {k : ℕ}
    (hguest : s.running = .guest t k) :
    (s.step .yield).Over t .suspended ∧ (s.step .return_).Over t .stopped := by
  have hrunner := h.running_iff.mp hguest
  obtain ⟨-, -, hhost⟩ := h.guest hrunner
  constructor
  · show (Stacks.yield s).2.Over t .suspended
    rw [Stacks.yield_of_some (h.current_of_guest hrunner)]
    exact ⟨hhost, Function.update_self ..⟩
  · rw [Stacks.step, Stacks.return_of_guest hguest]
    exact ⟨hhost, Function.update_self ..⟩

/-- Only yielding and returning end it. -/
theorem Represents.continues {s : Stacks} {l : LifeCycle} (h : Represents s l) {t : ThreadId}
    {k : ℕ} (hguest : s.running = .guest t k) {call : ThreadCall} (hyield : call ≠ .yield)
    (hreturn : call ≠ .return_) : (s.step call).running = .guest t k := by
  cases call with
  | yield => exact absurd rfl hyield
  | return_ => exact absurd rfl hreturn
  | resume u =>
    -- a resume is refused while a thread runs
    have hcurrent : s.currentVmThread ≠ none := by
      rw [h.current_of_guest (h.running_iff.mp hguest)]
      exact nofun
    show (Stacks.resume u s).2.running = .guest t k
    rw [Stacks.resume_of_some hcurrent]
    exact hguest
  | stop u =>
    show (Stacks.stop u s).2.running = .guest t k
    by_cases hstate : s.state u = .running
    · rw [Stacks.stop_of_running hstate]
      exact hguest
    · rw [Stacks.stop_of_not_running hstate]
      exact hguest

/-! ### Worlds are life cycles too -/

namespace World

variable {φ : Type} {w : World φ}

/-- The life cycle that a `World` describes, where a context is only a number. -/
def lifeCycle (w : World φ) : LifeCycle where
  runner := w.currentVmThread.map fun t => (t, (w.thread t).myThreadState)
  suspended t := if (w.thread t).state = .suspended then some (w.thread t).myThreadState else none

theorem lifeCycle_resumed (hw : w.Coherent) (hcurrent : w.currentVmThread = none) (t : ThreadId) :
    (w.resumed t).lifeCycle = ⟨some (t, (w.lifeCycle.suspended t).getD 0),
      Function.update w.lifeCycle.suspended t none⟩ := by
  refine LifeCycle.ext ?_ (funext fun u => ?_)
  · -- a stopped thread starts anew, in both
    have hstart : (if (w.thread t).state = .stopped then 0 else (w.thread t).myThreadState) =
        (w.lifeCycle.suspended t).getD 0 := by
      show _ = (if (w.thread t).state = .suspended then _ else _ : Option ℕ).getD 0
      cases hstate : (w.thread t).state with
      | stopped => rfl
      | suspended => rfl
      | running =>
        have hrun := (hw t).mp hstate
        rw [hcurrent] at hrun
        cases hrun
    simp [lifeCycle, World.resumed, hstart]
  · by_cases hut : u = t
    · subst hut
      simp [lifeCycle, World.resumed]
    · simp [lifeCycle, World.resumed, hut]

theorem lifeCycle_stopped (w : World φ) (t : ThreadId) :
    (w.stopped t).lifeCycle =
      { w.lifeCycle with suspended := Function.update w.lifeCycle.suspended t none } := by
  refine LifeCycle.ext ?_ (funext fun u => ?_)
  · refine congrFun (congrArg Option.map (funext fun u => ?_)) _
    by_cases hut : u = t
    · subst hut
      simp [World.stopped]
    · simp [World.stopped, hut]
  · by_cases hut : u = t
    · subst hut
      simp [lifeCycle, World.stopped]
    · simp [lifeCycle, World.stopped, hut]

theorem lifeCycle_left (w : World φ) (t : ThreadId) (state : VMThread.State) :
    (w.left t state).lifeCycle = ⟨none, Function.update w.lifeCycle.suspended t
      (if state = .suspended then some ((w.thread t).myThreadState + 1) else none)⟩ := by
  refine LifeCycle.ext rfl (funext fun u => ?_)
  by_cases hut : u = t
  · subst hut
    simp [lifeCycle, World.left]
  · simp [lifeCycle, World.left, hut]

/-- The functions of `VMThread` on a `World` do what they do on a life cycle. -/
theorem lifeCycle_resume (hw : w.Coherent) (t : ThreadId) :
    (VMThread.resume t w).1 = (w.lifeCycle.resume t).1 ∧
      (VMThread.resume t w).2.lifeCycle = (w.lifeCycle.resume t).2 := by
  cases hcurrent : w.currentVmThread with
  | none =>
    have hrunner : w.lifeCycle.runner = none := by simp [lifeCycle, hcurrent]
    rw [VMThread.resume_of_none hcurrent, LifeCycle.resume, hrunner]
    exact ⟨rfl, lifeCycle_resumed hw hcurrent t⟩
  | some u =>
    have hrunner : w.lifeCycle.runner = some (u, (w.thread u).myThreadState) := by
      simp [lifeCycle, hcurrent]
    rw [VMThread.resume_of_some (by rw [hcurrent]; exact nofun), LifeCycle.resume, hrunner]
    exact ⟨rfl, rfl⟩

theorem lifeCycle_stop (hw : w.Coherent) (t : ThreadId) :
    (VMThread.stop t w).1 = (w.lifeCycle.stop t).1 ∧
      (VMThread.stop t w).2.lifeCycle = (w.lifeCycle.stop t).2 := by
  -- both ask whether it is the thread that runs
  have hiff : w.lifeCycle.runner.map Prod.fst = some t ↔ (w.thread t).state = .running := by
    rw [hw t]
    show (w.currentVmThread.map _).map _ = _ ↔ _
    rw [Option.map_map]
    exact ⟨fun h => by simpa [Function.comp_def] using h, fun h => by simp [h]⟩
  unfold LifeCycle.stop
  by_cases hstate : (w.thread t).state = .running
  · rw [VMThread.stop_of_running hstate, if_pos (hiff.mpr hstate)]
    exact ⟨rfl, rfl⟩
  · rw [VMThread.stop_of_not_running hstate, if_neg (mt hiff.mp hstate)]
    exact ⟨rfl, lifeCycle_stopped w t⟩

theorem lifeCycle_yield (w : World φ) :
    (VMThread.yield w).1 = w.lifeCycle.yield.1 ∧
      (VMThread.yield w).2.lifeCycle = w.lifeCycle.yield.2 := by
  unfold LifeCycle.yield
  cases hcurrent : w.currentVmThread with
  | none =>
    have hrunner : w.lifeCycle.runner = none := by simp [lifeCycle, hcurrent]
    rw [VMThread.yield_of_none hcurrent, hrunner]
    exact ⟨rfl, rfl⟩
  | some t =>
    have hrunner : w.lifeCycle.runner = some (t, (w.thread t).myThreadState) := by
      simp [lifeCycle, hcurrent]
    rw [VMThread.yield_of_some hcurrent, hrunner]
    exact ⟨rfl, lifeCycle_left w t .suspended⟩

theorem lifeCycle_finish (hw : w.Coherent) :
    (VMThread.finish w).1 = w.lifeCycle.return_.1 ∧
      (VMThread.finish w).2.lifeCycle = w.lifeCycle.return_.2 := by
  unfold LifeCycle.return_
  cases hcurrent : w.currentVmThread with
  | none =>
    rw [VMThread.finish_of_none hcurrent]
    exact ⟨rfl, LifeCycle.ext (by simp [lifeCycle, hcurrent]) rfl⟩
  | some t =>
    -- the thread that returns was running, so it was not suspended
    have hnone : w.lifeCycle.suspended t = none := by
      simp [lifeCycle, (hw t).mpr hcurrent]
    rw [VMThread.finish_of_some hcurrent]
    refine ⟨rfl, (lifeCycle_left w t .stopped).trans (LifeCycle.ext rfl ?_)⟩
    rw [if_neg (by decide), ← hnone]
    exact Function.update_eq_self ..

/-- A life cycle is in what is known of the threads, and in nothing else of a world. -/
theorem lifeCycle_congr {w' : World φ} (hcurrent : w'.currentVmThread = w.currentVmThread)
    (hthread : w'.thread = w.thread) : w'.lifeCycle = w.lifeCycle := by
  rw [lifeCycle, lifeCycle, hcurrent, hthread]

theorem runner_lifeCycle (w : World φ) : w.lifeCycle.runner.map Prod.fst = w.currentVmThread := by
  cases hcurrent : w.currentVmThread with
  | none => simp [lifeCycle, hcurrent]
  | some t => simp [lifeCycle, hcurrent]

theorem state_lifeCycle (hw : w.Coherent) (t : ThreadId) :
    w.lifeCycle.state t = (w.thread t).state := by
  have hrun : w.lifeCycle.runner.map Prod.fst = some t ↔ (w.thread t).state = .running := by
    rw [runner_lifeCycle, hw t]
  rw [LifeCycle.state]
  cases hstate : (w.thread t).state with
  | running => rw [if_pos (hrun.mpr hstate)]
  | stopped | suspended =>
    rw [if_neg (fun h => by simp [hrun.mp h] at hstate)]
    simp [lifeCycle, hstate]

/-- What a call of the host or of a function asks of the threads. When `Resume` throws inside of
`InvokeDynamic`, there is no `RunInternal` that would yield. -/
def threadCalls (w : World φ) : Call φ → List ThreadCall
  | .invoke v _ =>
    if w.Idle v then
      if w.currentVmThread = none then [.resume (.vm v), .yield] else [.resume (.vm v)]
    else []
  | .execute i =>
    match w.computations[i]? with
    | none => []
    | some c => if (w.thread c.thread).state = .suspended then [.resume c.thread] else []
  | .cancel i =>
    match w.computations[i]? with
    | none => []
    | some c => if (w.thread c.thread).state = .suspended then [.stop c.thread] else []
  | .isDone _ => []
  | .resume n => [.resume (.standalone n)]
  | .stop n => [.stop (.standalone n)]
  | .yield => [.yield]
  | .finish => [.return_]

/-- The same for the calls of a run. -/
def threadCallsOf (w : World φ) : List (Call φ) → List ThreadCall
  | [] => []
  | call :: calls => w.threadCalls call ++ (w.step call).threadCallsOf calls

/-- `InvokeDynamic` on an idle VM resumes its thread, and the function yields before its code. -/
theorem lifeCycle_invoke (hw : w.Coherent) (v : ℕ) (fn : φ) :
    (w.step (.invoke v fn)).lifeCycle =
      runCalls LifeCycle.step w.lifeCycle (w.threadCalls (.invoke v fn)) := by
  rw [step_invoke, threadCalls]
  have hresume := (lifeCycle_resume hw (.vm v)).2
  split_ifs with hidle hcurrent
  · -- the thread runs up to the `Yield` of `RunInternal`
    rw [VMThread.resume_of_none hcurrent] at hresume
    have hyield := (lifeCycle_yield (w.resumed (.vm v))).2
    rw [VMThread.yield_of_some (t := .vm v) rfl, hresume] at hyield
    have hthread : (VMImpl.invoked w v fn).thread =
        ((w.resumed (.vm v)).left (.vm v) .suspended).thread := by
      simp [VMImpl.invoked, World.resumed, World.left, hidle.2]
    have hworld : (VMImpl.invoked w v fn).lifeCycle =
        ((w.resumed (.vm v)).left (.vm v) .suspended).lifeCycle := lifeCycle_congr rfl hthread
    rw [hworld]
    exact hyield
  · -- `Resume` throws: only `_current_fn` has been written
    rw [VMThread.resume_of_some hcurrent] at hresume
    exact (lifeCycle_congr rfl rfl).trans hresume
  · rfl

theorem lifeCycle_execute (hw : w.Coherent) (i : ℕ) :
    (w.step (.execute i)).lifeCycle =
      runCalls LifeCycle.step w.lifeCycle (w.threadCalls (.execute i)) := by
  rw [threadCalls]
  cases hi : w.computations[i]? with
  | none =>
    rw [step_execute_of_none hi]
    rfl
  | some c =>
    rw [step_execute hi]
    dsimp only
    -- a suspended thread is resumed, and `Resume` may throw
    have hresume := (lifeCycle_resume hw c.thread).2
    by_cases hstate : (w.thread c.thread).state = .suspended
    · rw [if_pos hstate]
      by_cases hcurrent : w.currentVmThread = none
      · rw [VMThread.resume_of_none hcurrent] at hresume
        rw [if_pos ⟨hstate, hcurrent⟩]
        exact hresume
      · rw [VMThread.resume_of_some hcurrent] at hresume
        rw [if_neg fun hboth => hcurrent hboth.2]
        exact hresume
    · rw [if_neg hstate, if_neg fun hboth => hstate hboth.1]
      rfl

theorem lifeCycle_cancel (hw : w.Coherent) (i : ℕ) :
    (w.step (.cancel i)).lifeCycle =
      runCalls LifeCycle.step w.lifeCycle (w.threadCalls (.cancel i)) := by
  rw [threadCalls]
  cases hi : w.computations[i]? with
  | none =>
    rw [step_cancel_of_none hi]
    rfl
  | some c =>
    rw [step_cancel hi]
    dsimp only
    by_cases hstate : (w.thread c.thread).state = .suspended
    · -- a suspended thread can be stopped
      have hstop := (lifeCycle_stop hw c.thread).2
      rw [VMThread.stop_of_not_running (by rw [hstate]; decide)] at hstop
      rw [if_pos hstate, if_pos hstate]
      exact hstop
    · rw [if_neg hstate, if_neg hstate]
      rfl

/-- **A call does to the life cycle what it asks of the threads.** -/
theorem lifeCycle_step (hw : w.Coherent) (call : Call φ) :
    (w.step call).lifeCycle = runCalls LifeCycle.step w.lifeCycle (w.threadCalls call) := by
  cases call with
  | invoke v fn => exact lifeCycle_invoke hw v fn
  | execute i => exact lifeCycle_execute hw i
  | cancel i => exact lifeCycle_cancel hw i
  | isDone i =>
    rw [step_isDone]
    rfl
  -- the last four only pass the answer of the thread on
  | resume n =>
    have hstep : w.step (.resume n) = (VMThread.resume (.standalone n) w).2 :=
      snd_bind_pure (VMThread.resume (.standalone n)) (fun _ => Answer.unit) w
    rw [hstep, (lifeCycle_resume hw (.standalone n)).2]
    rfl
  | stop n =>
    have hstep : w.step (.stop n) = (VMThread.stop (.standalone n) w).2 :=
      snd_bind_pure (VMThread.stop (.standalone n)) (fun _ => Answer.unit) w
    rw [hstep, (lifeCycle_stop hw (.standalone n)).2]
    rfl
  | yield =>
    have hstep : w.step .yield = (VMThread.yield w).2 :=
      snd_bind_pure VMThread.yield (fun _ => Answer.unit) w
    rw [hstep, (lifeCycle_yield w).2]
    rfl
  | finish =>
    have hstep : w.step .finish = (VMThread.finish w).2 :=
      snd_bind_pure VMThread.finish (fun _ => Answer.unit) w
    rw [hstep, (lifeCycle_finish hw).2]
    rfl

/-- The same for a run. -/
theorem lifeCycle_runCalls (hw : w.Coherent) (calls : List (Call φ)) :
    (runCalls World.step w calls).Coherent ∧ (runCalls World.step w calls).lifeCycle =
      runCalls LifeCycle.step w.lifeCycle (w.threadCallsOf calls) := by
  induction calls generalizing w with
  | nil => exact ⟨hw, rfl⟩
  | cons call calls ih =>
    obtain ⟨hcoherent, hlife⟩ := ih (hw.step call)
    refine ⟨hcoherent, hlife.trans ?_⟩
    rw [lifeCycle_step hw, threadCallsOf, runCalls, runCalls, runCalls, List.foldl_append]

end World

/-- **Numbers for contexts are enough.** After any calls, a world has the threads in the states that
they have when their contexts are saved and restored, and the function that runs is at the same
segment. -/
theorem worlds_are_stacks {φ : Type} (calls : List (Call φ)) :
    let w := runCalls World.step ({} : World φ) calls
    let s := runCalls Stacks.step {} (World.threadCallsOf {} calls)
    w.currentVmThread = s.currentVmThread ∧ (∀ t, (w.thread t).state = s.state t) ∧
      ∀ t, w.currentVmThread = some t → s.running = .guest t (w.thread t).myThreadState := by
  intro w s
  have hinit : ({} : World φ).lifeCycle = {} := rfl
  have hcoherent : ({} : World φ).Coherent := fun _ => ⟨nofun, nofun⟩
  obtain ⟨hcoherent, hlife⟩ := World.lifeCycle_runCalls hcoherent calls
  obtain ⟨h, -⟩ := represents_runCalls (World.threadCallsOf ({} : World φ) calls)
  -- the life cycle in the middle is the same from both sides
  rw [← hinit, ← hlife] at h
  refine ⟨?_, fun t => ?_, fun t ht => ?_⟩
  · rw [h.current, World.runner_lifeCycle]
  · rw [h.state, World.state_lifeCycle hcoherent]
  · refine h.running_iff.mpr ?_
    rw [World.lifeCycle, ht]
    rfl

/-- **The life cycle of VM threads.** After any calls by whatever was running: at most one thread is
running, and it is the one that `current_vm_thread` points to. Exactly the calls out of place throw,
and they change nothing. A resume that succeeds enters the thread's function, from its start exactly
if the thread was stopped, and otherwise where it yielded last. That segment runs until the function
yields or returns, which is when the host goes on. -/
theorem vmThread_life_cycle (calls : List ThreadCall) :
    let s := runCalls Stacks.step {} calls
    (∀ t u, s.state t = .running → s.state u = .running → t = u) ∧
    (∀ t, s.state t = .running ↔ s.currentVmThread = some t) ∧
    (∀ call : ThreadCall, ((call.perform s).1 ≠ .ok () ↔ s.Refuses call) ∧
      (s.Refuses call → s.step call = s)) ∧
    (∀ t, (Stacks.resume t s).1 = .ok () →
      ∃ k, (s.step (.resume t)).running = .guest t k ∧ (k = 0 ↔ s.state t = .stopped)) ∧
    (∀ t k, s.running = .guest t k →
      (∀ call, call ≠ .yield → call ≠ .return_ → (s.step call).running = .guest t k) ∧
      (s.step .yield).Over t .suspended ∧ (s.step .return_).Over t .stopped ∧
      ∀ outside, .resume t ∉ outside → .stop t ∉ outside →
        let s' := runCalls Stacks.step (s.step .yield) outside
        (Stacks.resume t s').1 = .ok () → (s'.step (.resume t)).running = .guest t (k + 1)) ∧
    ∀ t, s.state t = (runCalls LifeCycle.step {} calls).state t := by
  intro s
  obtain ⟨h, hbegun⟩ := represents_runCalls calls
  refine ⟨fun t u ht hu => ?_, h.state_iff_current, h.refuses, fun t hok => ?_,
    fun t k hguest => ?_, h.state⟩
  · rw [h.state_iff_current] at ht hu
    exact Option.some.inj (ht.symm.trans hu)
  · exact ⟨_, h.enters hok, h.starts_over_iff hbegun hok⟩
  · refine ⟨fun call => h.continues hguest, (h.over hguest).1, (h.over hguest).2,
      fun outside hresume hstop => ?_⟩
    intro s' hok
    have hk : ((runCalls LifeCycle.step {} calls).step .yield).suspended t = some (k + 1) := by
      show (LifeCycle.yield _).2.suspended t = _
      rw [LifeCycle.yield, h.running_iff.mp hguest]
      exact Function.update_self ..
    -- nothing that happens outside moves the thread on
    obtain ⟨hrep, hk'⟩ := (h.perform .yield).2.waits_runCalls hk hresume hstop
    rw [hrep.enters hok, hk']
    rfl

end Wasmcc
