import Wasmcc.Runtime.VM

/-!
# Invoking a function

`FunctionHandle::Invoke` and the `Computation` that it returns, used from outside any `VMThread` by
a host that invokes a VM only when the last computation is done or cancelled. The function yields a
number of times and returns.

A `Session` is the world with what the guest does in it: the segments of functions that ran, and
the results that they wrote. `Session.At` says where the last computation is, `Session.At.step` how
a call moves it on, and `invoke_runs_once` what follows for whole sequences of calls: the function
runs one segment per `Execute`, from its start, until it has returned or is cancelled.
-/

open Basis

namespace Wasmcc

open Effect

variable {ρ : Type}

/-- A compiled function with its arguments: how often it yields, and what it returns. -/
structure Body (ρ : Type) where
  yields : ℕ
  result : ρ
deriving DecidableEq, Repr

/-- The lambda that `LookupFunctionHandle` passes to `InvokeDynamic`, with the computation that it
writes to. -/
structure Invocation (ρ : Type) extends Body ρ where
  comp : ℕ
deriving DecidableEq, Repr

structure Session (ρ : Type) where
  world : World (Invocation ρ) := {}
  /-- The number of the computation that was invoked last. -/
  handle : Option ℕ := none
  /-- `_result` of each computation, once it has been assigned to. -/
  result : ℕ → Option ρ := fun _ => none
  /-- The segments of functions that ran, each with the computation that it ran for. -/
  ran : List (ℕ × ℕ) := []

/-- What a host calls, with the last computation as the object. -/
inductive HostCall (ρ : Type) where
  | invoke (body : Body ρ)
  | execute
  | cancel
  | isDone
deriving DecidableEq, Repr

namespace Session

/-- The segments of a computation's function that ran, in order. -/
def segments (s : Session ρ) (i : ℕ) : List ℕ := (s.ran.filter fun p => p.1 = i).map Prod.snd

def onWorld {α : Type} (p : Effect RuntimeError (World (Invocation ρ)) α) :
    Effect RuntimeError (Session ρ) α :=
  fun s => ((p s.world).1, { s with world := (p s.world).2 })

/-- The code on the thread of the VM, from `(*fn)()` or a `Yield` of the function up to where the
thread is left. The first segment of the thread is the one of `RunInternal`. -/
def runGuest (v : ℕ) : Effect RuntimeError (Session ρ) Unit := do
  let s ← get
  match (s.world.vm v).fn with
  | none => pure ()
  | some fn =>
    let segment := (s.world.thread (.vm v)).myThreadState - 1
    modify fun s => { s with ran := s.ran ++ [(fn.comp, segment)] }
    if segment < fn.yields then onWorld VMThread.yield
    else do
      modify fun s => { s with result := Function.update s.result fn.comp (some fn.result) }
      onWorld VMThread.finish

/-- `FunctionHandle::Invoke`. -/
def invoke (v : ℕ) (body : Body ρ) : Effect RuntimeError (Session ρ) Unit := do
  let s ← get
  let comp := s.world.computations.length
  modify fun s => { s with result := Function.update s.result comp none }
  onWorld (VMImpl.invokeDynamic v ⟨body, comp⟩)
  modify fun s => { s with handle := some comp }

/-- `Execute`. If it resumes the thread, the guest runs. -/
def execute (v i : ℕ) : Effect RuntimeError (Session ρ) Unit := do
  let _ ← onWorld (Call.perform (.execute i))
  let s ← get
  if s.world.currentVmThread = some (.vm v) then runGuest v else pure ()

end Session

def HostCall.perform (v : ℕ) : HostCall ρ → Effect RuntimeError (Session ρ) Answer
  | .invoke body => do Session.invoke v body; pure .unit
  | .execute => do
    let s ← get
    match s.handle with
    | none => pure .unit
    | some i => do Session.execute v i; pure .unit
  | .cancel => do
    let s ← get
    match s.handle with
    | none => pure .unit
    | some i => Session.onWorld (Call.perform (.cancel i))
  | .isDone => do
    let s ← get
    match s.handle with
    | none => pure .unit
    | some i => Session.onWorld (Call.perform (.isDone i))

def Session.step (v : ℕ) (s : Session ρ) (call : HostCall ρ) : Session ρ := (call.perform v s).2

/-! ### What the host may call -/

namespace HostCall

/-- How many more times the last computation is to be executed, after this call: a function that
yields `n` times needs `n + 1`, a cancelled one no more. -/
def remaining (r : ℕ) : HostCall ρ → ℕ
  | .invoke body => body.yields + 1
  | .execute => r - 1
  | .cancel => 0
  | .isDone => r

/-- A function is invoked only when no computation is live. -/
def Allowed (r : ℕ) : HostCall ρ → Prop
  | .invoke _ => r = 0
  | _ => True

/-- How often a computation is executed before it is cancelled or another one is invoked. -/
def executes : List (HostCall ρ) → ℕ
  | [] => 0
  | .execute :: calls => executes calls + 1
  | .isDone :: calls => executes calls
  | .cancel :: _ => 0
  | .invoke _ :: _ => 0

end HostCall

/-! ### Where a computation is -/

namespace Session

variable {s : Session ρ} {v i k r : ℕ} {body : Body ρ}

/-- Nothing has run for computations that are not made yet. -/
def Fresh (s : Session ρ) : Prop :=
  ∀ j, s.world.computations.length ≤ j → s.segments j = []

/-- Computation `i` is the last one of the VM. Of its function `k` segments ran, and `r` more are to
run. -/
structure At (s : Session ρ) (v i : ℕ) (body : Body ρ) (k r : ℕ) : Prop where
  outside : s.world.currentVmThread = none
  vm : s.world.vm v = ⟨none, some ⟨body, i⟩⟩
  computation : s.world.computations[i]? = some ⟨.vm v⟩
  handle : s.handle = some i
  stopped : r = 0 → (s.world.thread (.vm v)).state = .stopped
  suspended : 0 < r → s.world.thread (.vm v) = ⟨.suspended, k + 1⟩ ∧ k + r = body.yields + 1
  ran : s.segments i = List.range k
  result : s.result i = if k = body.yields + 1 then some body.result else none
  fresh : s.Fresh

/-- What happened did nothing for computation `j`. -/
def Spares (s : Session ρ) (j : ℕ) (s' : Session ρ) : Prop :=
  s'.segments j = s.segments j ∧ s'.result j = s.result j

/-- It did nothing for computations other than `i`, and made none. -/
structure OnlyMoves (s : Session ρ) (i : ℕ) (s' : Session ρ) : Prop where
  computations : s'.world.computations = s.world.computations
  spares : ∀ j, j ≠ i → s.Spares j s'

end Session

/-! ### What each call does -/

namespace World

variable {φ : Type} {w : World φ} {i : ℕ} {c : DynamicComputation}

theorem execute_of_suspended (h : w.computations[i]? = some c)
    (hstate : (w.thread c.thread).state = .suspended) (hcurrent : w.currentVmThread = none) :
    (Call.execute i).perform w = (.ok .unit, w.resumed c.thread) := by
  have hexecute : c.execute w = (.ok (), w.resumed c.thread) := by
    unfold DynamicComputation.execute
    rw [get_bind, if_pos hstate]
    exact VMThread.resume_of_none hcurrent c.thread
  exact (onComputation_of_some h).trans (bind_of_ok hexecute _)

theorem execute_of_not_suspended (h : w.computations[i]? = some c)
    (hstate : (w.thread c.thread).state ≠ .suspended) :
    (Call.execute i).perform w = (.ok .unit, w) := by
  have hexecute : c.execute w = (.ok (), w) := by
    unfold DynamicComputation.execute
    rw [get_bind, if_neg hstate]
    rfl
  exact (onComputation_of_some h).trans (bind_of_ok hexecute _)

theorem cancel_of_suspended (h : w.computations[i]? = some c)
    (hstate : (w.thread c.thread).state = .suspended) :
    (Call.cancel i).perform w = (.ok .unit, w.stopped c.thread) := by
  have hcancel : c.cancel w = (.ok (), w.stopped c.thread) := by
    unfold DynamicComputation.cancel
    rw [get_bind, if_pos hstate]
    exact VMThread.stop_of_not_running (by rw [hstate]; decide)
  exact (onComputation_of_some h).trans (bind_of_ok hcancel _)

theorem cancel_of_not_suspended (h : w.computations[i]? = some c)
    (hstate : (w.thread c.thread).state ≠ .suspended) :
    (Call.cancel i).perform w = (.ok .unit, w) := by
  have hcancel : c.cancel w = (.ok (), w) := by
    unfold DynamicComputation.cancel
    rw [get_bind, if_neg hstate]
    rfl
  exact (onComputation_of_some h).trans (bind_of_ok hcancel _)

end World

namespace Session

variable {s : Session ρ} {v i j k r : ℕ} {body : Body ρ}

/-- The host sees of a call on the world its answer and the world after it. -/
theorem onWorld_of_eq {α : Type} {p : Effect RuntimeError (World (Invocation ρ)) α}
    {a : Except RuntimeError α} {w : World (Invocation ρ)} (h : p s.world = (a, w)) :
    onWorld p s = (a, { s with world := w }) := by
  unfold onWorld
  rw [h]

section Guest

variable {fn : Invocation ρ}

/-- A segment of the function that ends with a `Yield`. -/
theorem runGuest_of_lt (hfn : (s.world.vm v).fn = some fn)
    (hcurrent : s.world.currentVmThread = some (.vm v))
    (hplace : (s.world.thread (.vm v)).myThreadState = k + 1) (hk : k < fn.yields) :
    runGuest v s = (.ok (), { s with
      world := s.world.left (.vm v) .suspended, ran := s.ran ++ [(fn.comp, k)] }) := by
  unfold runGuest
  rw [get_bind, hfn, hplace]
  show (if k < fn.yields then _ else _ : Effect RuntimeError (Session ρ) Unit) _ = _
  rw [if_pos hk]
  exact onWorld_of_eq (VMThread.yield_of_some hcurrent)

/-- The last segment, which returns. -/
theorem runGuest_of_not_lt (hfn : (s.world.vm v).fn = some fn)
    (hcurrent : s.world.currentVmThread = some (.vm v))
    (hplace : (s.world.thread (.vm v)).myThreadState = k + 1) (hk : ¬k < fn.yields) :
    runGuest v s = (.ok (), { s with
      world := s.world.left (.vm v) .stopped
      result := Function.update s.result fn.comp (some fn.result)
      ran := s.ran ++ [(fn.comp, k)] }) := by
  unfold runGuest
  rw [get_bind, hfn, hplace]
  show (if k < fn.yields then _ else _ : Effect RuntimeError (Session ρ) Unit) _ = _
  rw [if_neg hk, modify_bind]
  exact onWorld_of_eq (VMThread.finish_of_some hcurrent)

end Guest

theorem segments_append (ran : List (ℕ × ℕ)) (i j k : ℕ) :
    ((ran ++ [(i, k)]).filter fun p => p.1 = j).map Prod.snd =
      ((ran.filter fun p => p.1 = j).map Prod.snd) ++ if i = j then [k] else [] := by
  rw [List.filter_append, List.map_append]
  by_cases hij : i = j
  · simp [hij]
  · simp [hij]

theorem At.lt (h : s.At v i body k r) : i < s.world.computations.length :=
  (List.getElem?_eq_some_iff.mp h.computation).1

/-- A call on the last computation, which the host has. -/
theorem At.on_handle (h : s.At v i body k r) (f : ℕ → Effect RuntimeError (Session ρ) Answer) :
    (do
      let s ← get
      match s.handle with
      | none => pure .unit
      | some i => f i : Effect RuntimeError (Session ρ) Answer) s = f i s := by
  rw [get_bind, h.handle]

/-- `Execute` of a live computation enters its function. -/
theorem At.execute_eq (h : s.At v i body k (r + 1)) :
    Session.execute v i s = runGuest v { s with world := s.world.resumed (.vm v) } := by
  have hstate : (s.world.thread (.vm v)).state = .suspended := by
    rw [(h.suspended r.succ_pos).1]
  have hresume : onWorld (Call.perform (.execute i)) s =
      (.ok .unit, { s with world := s.world.resumed (.vm v) }) :=
    onWorld_of_eq (World.execute_of_suspended h.computation hstate h.outside)
  unfold Session.execute
  refine (bind_of_ok hresume _).trans ?_
  rw [get_bind]
  exact congrFun (if_pos rfl) _

theorem thread_resumed_left (w : World (Invocation ρ)) (t : ThreadId) {m : ℕ}
    (ht : w.thread t = ⟨.suspended, m⟩) (state : VMThread.State) :
    ((w.resumed t).left t state).thread t = ⟨state, m + 1⟩ := by
  simp [World.resumed, World.left, ht]

/-- One more segment ran, the last one if there was only this one left. -/
theorem At.advance (h : s.At v i body k (r + 1)) {state : VMThread.State} {result : ℕ → Option ρ}
    (hstate : state = if r = 0 then .stopped else .suspended)
    (hresult : result i = if r = 0 then some body.result else none)
    (hothers : ∀ j, j ≠ i → result j = s.result j) :
    let s' : Session ρ := ⟨(s.world.resumed (.vm v)).left (.vm v) state, s.handle, result,
      s.ran ++ [(i, k)]⟩
    s'.At v i body (k + 1) r ∧ s.OnlyMoves i s' := by
  intro s'
  obtain ⟨hthread, hcount⟩ := h.suspended r.succ_pos
  have hleft := thread_resumed_left s.world (.vm v) hthread state
  -- what ran is recorded for this computation only
  have hsegments : ∀ j, j ≠ i → s'.segments j = s.segments j := by
    intro j hj
    refine (segments_append ..).trans ?_
    rw [if_neg hj.symm, List.append_nil]
    rfl
  refine ⟨⟨rfl, h.vm, h.computation, h.handle, fun hr => ?_, fun hr => ?_, ?_, ?_, fun j hj => ?_⟩,
    rfl, fun j hj => ⟨hsegments j hj, hothers j hj⟩⟩
  · exact (congrArg VMThread.state hleft).trans (hstate.trans (if_pos hr))
  · rw [if_neg (Nat.pos_iff_ne_zero.mp hr)] at hstate
    exact ⟨hleft.trans (by rw [hstate]), by omega⟩
  · refine (segments_append ..).trans ?_
    rw [if_pos rfl, List.range_succ, ← h.ran]
    rfl
  · refine hresult.trans (if_congr ?_ rfl rfl)
    omega
  · rw [hsegments j fun hji => absurd h.lt (Nat.not_lt.mpr (hji ▸ hj))]
    exact h.fresh j hj

/-- **`Execute` of a live computation** runs the next segment of its function, and no other code. -/
theorem At.execute (h : s.At v i body k (r + 1)) :
    (HostCall.execute.perform v s).1 = .ok .unit ∧
      (s.step v .execute).At v i body (k + 1) r ∧ s.OnlyMoves i (s.step v .execute) := by
  obtain ⟨hthread, hcount⟩ := h.suspended r.succ_pos
  -- the thread goes on with the function of the computation, at segment `k`
  have hfn : ((s.world.resumed (.vm v)).vm v).fn = some ⟨body, i⟩ := by
    show (s.world.vm v).fn = _
    rw [h.vm]
  have hplace : ((s.world.resumed (.vm v)).thread (.vm v)).myThreadState = k + 1 := by
    simp [World.resumed, hthread]
  have hperform : HostCall.execute.perform v s =
      (do Session.execute v i; pure .unit : Effect RuntimeError (Session ρ) Answer) s :=
    h.on_handle fun i => do Session.execute v i; pure .unit
  have hstep : s.step v .execute = (Session.execute v i s).2 :=
    (congrArg Prod.snd hperform).trans (snd_bind_pure _ _ s)
  have hnone : s.result i = none := by rw [h.result, if_neg (by omega)]
  -- the segment ends with a `Yield`, or it is the last one
  by_cases hk : k < body.yields
  · have hrun := runGuest_of_lt (s := { s with world := s.world.resumed (.vm v) }) hfn rfl hplace hk
    rw [← h.execute_eq] at hrun
    rw [hstep, hperform, bind_of_ok hrun, hrun]
    have hr : r ≠ 0 := by omega
    exact ⟨rfl, h.advance (if_neg hr).symm (by rw [hnone, if_neg hr]) fun _ _ => rfl⟩
  · have hrun := runGuest_of_not_lt (s := { s with world := s.world.resumed (.vm v) }) hfn rfl
      hplace hk
    rw [← h.execute_eq] at hrun
    rw [hstep, hperform, bind_of_ok hrun, hrun]
    have hr : r = 0 := by omega
    exact ⟨rfl, h.advance (if_pos hr).symm (by rw [if_pos hr]; exact Function.update_self ..)
      fun j hj => Function.update_of_ne hj ..⟩

/-- A computation that is done or cancelled is not executed any more. -/
theorem At.execute_over (h : s.At v i body k 0) :
    HostCall.execute.perform v s = (.ok .unit, s) := by
  have hstate : (s.world.thread (.vm v)).state ≠ .suspended := by
    rw [h.stopped rfl]
    decide
  have hnothing : onWorld (Call.perform (.execute i)) s = (.ok .unit, s) :=
    onWorld_of_eq (World.execute_of_not_suspended h.computation hstate)
  have hexecute : Session.execute v i s = (.ok (), s) := by
    unfold Session.execute
    refine (bind_of_ok hnothing _).trans ?_
    rw [get_bind]
    exact congrFun (if_neg (by rw [h.outside]; exact nofun)) s
  exact (h.on_handle fun i => do Session.execute v i; pure .unit).trans (bind_of_ok hexecute _)

theorem At.cancel (h : s.At v i body k r) :
    (HostCall.cancel.perform v s).1 = .ok .unit ∧ (s.step v .cancel).At v i body k 0 ∧
      s.OnlyMoves i (s.step v .cancel) := by
  have hperform : HostCall.cancel.perform v s = onWorld (Call.perform (.cancel i)) s :=
    h.on_handle fun i => onWorld (Call.perform (.cancel i))
  unfold Session.step
  rw [hperform]
  unfold onWorld
  cases r with
  | zero =>
    -- it is done or cancelled already
    have hstate : (s.world.thread (.vm v)).state ≠ .suspended := by
      rw [h.stopped rfl]
      decide
    rw [World.cancel_of_not_suspended h.computation hstate]
    exact ⟨rfl, h, rfl, fun j _ => ⟨rfl, rfl⟩⟩
  | succ r =>
    have hstate : (s.world.thread (.vm v)).state = .suspended := by
      rw [(h.suspended r.succ_pos).1]
    rw [World.cancel_of_suspended h.computation hstate]
    refine ⟨rfl, ⟨h.outside, h.vm, h.computation, h.handle, fun _ => ?_, nofun, h.ran, h.result,
      h.fresh⟩, rfl, fun j _ => ⟨rfl, rfl⟩⟩
    simp [World.stopped]

/-- `IsDone` says whether the computation is done or cancelled. -/
theorem At.isDone (h : s.At v i body k r) :
    HostCall.isDone.perform v s = (.ok (.bool (r = 0)), s) := by
  refine (h.on_handle fun i => onWorld (Call.perform (.isDone i))).trans ?_
  unfold onWorld
  rw [World.perform_isDone h.computation]
  have hiff : (s.world.thread (.vm v)).state = .stopped ↔ r = 0 := by
    refine ⟨fun hstate => ?_, h.stopped⟩
    by_contra hr
    rw [(h.suspended (Nat.pos_of_ne_zero hr)).1] at hstate
    cases hstate
  simp [hiff]

/-- **`Invoke` of an idle VM** is accepted, and no segment of the function has run. -/
theorem invoke_of_idle (hidle : s.world.Idle v) (houtside : s.world.currentVmThread = none)
    (hfresh : s.Fresh) (body : Body ρ) :
    ((HostCall.invoke body).perform v s).1 = .ok .unit ∧
      (s.step v (.invoke body)).At v s.world.computations.length body 0 (body.yields + 1) ∧
      ∀ j, j < s.world.computations.length → s.Spares j (s.step v (.invoke body)) ∧
        j < (s.step v (.invoke body)).world.computations.length := by
  generalize hi : s.world.computations.length = i
  -- the result is cleared, the thread takes the function, and the handle is the new one
  have hinvoke : Session.invoke v body s = (.ok (), { s with
      world := VMImpl.invoked s.world v ⟨body, i⟩
      handle := some i
      result := Function.update s.result i none }) := by
    unfold Session.invoke
    rw [get_bind, modify_bind, hi]
    have hworld := onWorld_of_eq (s := { s with result := Function.update s.result i none })
      (VMImpl.invokeDynamic_of_host hidle houtside ⟨body, i⟩)
    exact (bind_of_ok hworld _).trans rfl
  have hstep : s.step v (.invoke body) = (Session.invoke v body s).2 :=
    snd_bind_pure (Session.invoke v body) (fun _ => Answer.unit) s
  rw [hstep, hinvoke]
  refine ⟨congrArg Prod.fst (bind_of_ok hinvoke _), ⟨rfl, Function.update_self .., ?_, rfl, nofun,
    fun _ => ⟨Function.update_self .., by omega⟩, hfresh i (Nat.le_of_eq hi), ?_,
    fun j hj => hfresh j ?_⟩,
    fun j hj => ⟨⟨rfl, Function.update_of_ne (by omega) ..⟩, ?_⟩⟩
  · show (s.world.computations ++ [_])[i]? = _
    -- the computation is the last one, and earlier ones keep their numbers
    rw [← hi, List.getElem?_append_right (Nat.le_refl _), Nat.sub_self]
    rfl
  · exact (Function.update_self ..).trans (if_neg (by omega)).symm
  · have hlen : (s.world.computations ++ [DynamicComputation.mk (.vm v)]).length ≤ j := hj
    rw [List.length_append] at hlen
    omega
  · show j < (s.world.computations ++ [DynamicComputation.mk (.vm v)]).length
    rw [List.length_append]
    omega

/-! ### Sequences of calls -/

theorem Spares.trans {s' s'' : Session ρ} (h : s.Spares j s') (h' : s'.Spares j s'') :
    s.Spares j s'' :=
  ⟨h'.1.trans h.1, h'.2.trans h.2⟩

/-- What a call that is not an invocation does to the last computation. -/
theorem At.step (h : s.At v i body k r) {call : HostCall ρ} (hcall : ∀ b, call ≠ .invoke b) :
    (∃ a, (call.perform v s).1 = .ok a) ∧
      (s.step v call).At v i body (k + min (HostCall.executes [call]) r) (call.remaining r) ∧
      s.OnlyMoves i (s.step v call) := by
  cases call with
  | invoke b => exact absurd rfl (hcall b)
  | execute =>
    cases r with
    | zero =>
      -- executing a computation that is over does nothing
      have hover := h.execute_over
      rw [Session.step, hover]
      exact ⟨⟨_, rfl⟩, h, rfl, fun _ _ => ⟨rfl, rfl⟩⟩
    | succ r =>
      obtain ⟨hok, hat, honly⟩ := h.execute
      have hmin : min 1 (r + 1) = 1 := by omega
      exact ⟨⟨_, hok⟩, by rwa [HostCall.executes, HostCall.executes, hmin], honly⟩
  | cancel =>
    obtain ⟨hok, hat, honly⟩ := h.cancel
    exact ⟨⟨_, hok⟩, by rwa [HostCall.executes, Nat.zero_min], honly⟩
  | isDone =>
    rw [Session.step, h.isDone]
    exact ⟨⟨_, rfl⟩, by rwa [HostCall.executes, HostCall.executes, Nat.zero_min],
      rfl, fun _ _ => ⟨rfl, rfl⟩⟩

/-- A computation that is not the last one any more is left alone. -/
theorem At.spares_run (h : s.At v i body k r) {rest : List (HostCall ρ)}
    (hallowed : EachStep HostCall.remaining HostCall.Allowed r rest) (hj : j ≠ i)
    (hlt : j < s.world.computations.length) : s.Spares j (runCalls (Session.step v) s rest) := by
  induction rest generalizing s i body k r with
  | nil => exact ⟨rfl, rfl⟩
  | cons call rest ih =>
    by_cases hinvoke : ∃ b, call = .invoke b
    · obtain ⟨b, rfl⟩ := hinvoke
      obtain rfl : r = 0 := hallowed.1
      have hidle : s.world.Idle v := ⟨by rw [h.vm], h.stopped rfl⟩
      obtain ⟨-, hat, hspares⟩ := invoke_of_idle hidle h.outside h.fresh b
      -- a new computation spares the older ones
      obtain ⟨hspared, hlt'⟩ := hspares j hlt
      exact hspared.trans (ih hat hallowed.2 (Nat.ne_of_lt hlt) hlt')
    · push Not at hinvoke
      -- any other call moves the last computation only
      obtain ⟨-, hat, honly⟩ := h.step hinvoke
      exact (honly.spares j hj).trans (ih hat hallowed.2 hj (by rwa [honly.computations]))

/-- **What runs of a function**: a segment for each `Execute` as long as there are segments left. -/
theorem At.run (h : s.At v i body k r) {rest : List (HostCall ρ)}
    (hallowed : EachStep HostCall.remaining HostCall.Allowed r rest) :
    (runCalls (Session.step v) s rest).segments i =
        List.range (k + min (HostCall.executes rest) r) ∧
      (runCalls (Session.step v) s rest).result i =
        if k + min (HostCall.executes rest) r = body.yields + 1 then some body.result
          else none := by
  induction rest generalizing s k r with
  | nil =>
    rw [HostCall.executes, Nat.zero_min]
    exact ⟨h.ran, h.result⟩
  | cons call rest ih =>
    by_cases hinvoke : ∃ b, call = .invoke b
    · -- the computation is over, and another one takes its place
      obtain ⟨b, rfl⟩ := hinvoke
      obtain rfl : r = 0 := hallowed.1
      have hidle : s.world.Idle v := ⟨by rw [h.vm], h.stopped rfl⟩
      obtain ⟨-, hat, hspares⟩ := invoke_of_idle hidle h.outside h.fresh b
      obtain ⟨hspared, hlt⟩ := hspares i h.lt
      obtain ⟨hsegments, hresult⟩ :=
        hspared.trans (hat.spares_run hallowed.2 (Nat.ne_of_lt h.lt) hlt)
      rw [Nat.min_zero, Nat.add_zero]
      exact ⟨hsegments.trans h.ran, hresult.trans h.result⟩
    · push Not at hinvoke
      have hcount : k + min (HostCall.executes (call :: rest)) r =
          k + min (HostCall.executes [call]) r +
            min (HostCall.executes rest) (call.remaining r) := by
        cases call with
        | invoke b => exact absurd rfl (hinvoke b)
        | _ =>
          simp only [HostCall.executes, HostCall.remaining]
          omega
      rw [hcount]
      exact ih (h.step hinvoke).2.1 hallowed.2

/-- As long as no other one is invoked, the computation is over if it was executed often enough or
cancelled. -/
theorem At.run_last (h : s.At v i body k r) {rest : List (HostCall ρ)}
    (hrest : ∀ b, .invoke b ∉ rest) :
    ∃ k' r', (runCalls (Session.step v) s rest).At v i body k' r' ∧
      (r' = 0 ↔ r ≤ HostCall.executes rest ∨ .cancel ∈ rest) := by
  induction rest generalizing s k r with
  | nil => exact ⟨k, r, h, by simp [HostCall.executes]⟩
  | cons call rest ih =>
    have hcall : ∀ b, call ≠ .invoke b := fun b heq => hrest b (heq ▸ List.mem_cons_self)
    obtain ⟨k', r', hat, hiff⟩ :=
      ih (h.step hcall).2.1 fun b hb => hrest b (List.mem_cons_of_mem _ hb)
    refine ⟨k', r', hat, hiff.trans ?_⟩
    -- a call counts one `Execute` less, or ends the computation
    cases call with
    | invoke b => exact absurd rfl (hcall b)
    | cancel => simp [HostCall.remaining]
    | isDone => simp [HostCall.remaining, HostCall.executes]
    | execute =>
      simp [HostCall.remaining, HostCall.executes]

/-- A VM in the hands of such a host: it is idle, or its last computation is somewhere. -/
def Inv (s : Session ρ) (v r : ℕ) : Prop :=
  (s.handle = none ∧ r = 0 ∧ s.world.Idle v ∧ s.world.currentVmThread = none ∧ s.Fresh) ∨
    ∃ i body k, s.At v i body k r

/-- An invocation that is allowed finds the VM idle. -/
theorem Inv.idle (h : s.Inv v 0) :
    s.world.Idle v ∧ s.world.currentVmThread = none ∧ s.Fresh := by
  obtain ⟨-, -, hidle, houtside, hfresh⟩ | ⟨i, body, k, hat⟩ := h
  · exact ⟨hidle, houtside, hfresh⟩
  · exact ⟨⟨by rw [hat.vm], hat.stopped rfl⟩, hat.outside, hat.fresh⟩

theorem Inv.step (h : s.Inv v r) {call : HostCall ρ} (hallowed : call.Allowed r) :
    (s.step v call).Inv v (call.remaining r) := by
  by_cases hinvoke : ∃ b, call = .invoke b
  · obtain ⟨b, rfl⟩ := hinvoke
    obtain rfl : r = 0 := hallowed
    obtain ⟨hidle, houtside, hfresh⟩ := h.idle
    exact .inr ⟨_, b, 0, (invoke_of_idle hidle houtside hfresh b).2.1⟩
  · push Not at hinvoke
    obtain ⟨hnone, rfl, hrest⟩ | ⟨i, body, k, hat⟩ := h
    · -- there is no computation to call
      have hsame : s.step v call = s := by
        cases call with
        | invoke b => exact absurd rfl (hinvoke b)
        | _ =>
          unfold Session.step HostCall.perform
          simp only [get_bind, hnone]
          rfl
      have hzero : call.remaining 0 = 0 := by
        cases call with
        | invoke b => exact absurd rfl (hinvoke b)
        | _ => rfl
      rw [hsame, hzero]
      exact .inl ⟨hnone, rfl, hrest⟩
    · exact .inr ⟨i, body, _, (hat.step hinvoke).2.1⟩

theorem Inv.run (h : s.Inv v r) {calls : List (HostCall ρ)}
    (hallowed : EachStep HostCall.remaining HostCall.Allowed r calls) :
    (runCalls (Session.step v) s calls).Inv v (runCalls HostCall.remaining r calls) := by
  induction calls generalizing s r with
  | nil => exact h
  | cons call calls ih => exact ih (h.step hallowed.1) hallowed.2

end Session

/-- **Invocation runs the function once.** In every sequence of calls that invokes a VM only when
no computation is live, each invocation is accepted. Of its function the segments run in order, one
for each `Execute` before the computation is cancelled, from the first `Execute` on until the
function has returned, and none of them ever again. The result is written when the function returns,
and `IsDone` says whether that has happened or the computation was cancelled. -/
theorem invoke_runs_once (v : ℕ) {w : World (Invocation ρ)} (hidle : w.Idle v)
    (houtside : w.currentVmThread = none) {done rest : List (HostCall ρ)} {body : Body ρ}
    (hallowed : EachStep HostCall.remaining HostCall.Allowed 0 (done ++ .invoke body :: rest)) :
    let before := runCalls (Session.step v) { world := w } done
    let s := runCalls (Session.step v) (before.step v (.invoke body)) rest
    let i := before.world.computations.length
    ((HostCall.invoke body).perform v before).1 = .ok .unit ∧
      s.segments i = List.range (min (HostCall.executes rest) (body.yields + 1)) ∧
      s.result i =
        (if body.yields + 1 ≤ HostCall.executes rest then some body.result else none) ∧
      ((∀ b, .invoke b ∉ rest) → ((HostCall.isDone.perform v s).1 = .ok (.bool true) ↔
        body.yields + 1 ≤ HostCall.executes rest ∨ .cancel ∈ rest)) := by
  intro before s i
  rw [EachStep.append] at hallowed
  obtain ⟨hdone, hinvoke, hrest⟩ := hallowed
  -- before the invocation the VM is free again
  have hinit : ({ world := w } : Session ρ).Inv v 0 :=
    .inl ⟨rfl, rfl, hidle, houtside, fun _ _ => rfl⟩
  have hbefore := hinit.run hdone
  have hzero : runCalls HostCall.remaining 0 done = 0 := hinvoke
  rw [hzero] at hbefore
  obtain ⟨hidle', houtside', hfresh⟩ := hbefore.idle
  -- from then on the segments count the calls of `Execute`
  obtain ⟨hok, hat, -⟩ := Session.invoke_of_idle hidle' houtside' hfresh body
  obtain ⟨hsegments, hresult⟩ := hat.run hrest
  rw [Nat.zero_add] at hsegments hresult
  refine ⟨hok, hsegments, hresult.trans (if_congr ?_ rfl rfl), fun hlast => ?_⟩
  · omega
  · obtain ⟨k, r, hend, hiff⟩ := hat.run_last hlast
    rw [← hiff, hend.isDone]
    simp

/-- A function that yields once, invoked after the cancelled computation of another one. -/
theorem invoke_runs_once_yielding :
    let s := runCalls (Session.step 0) ({} : Session ℕ)
      [.invoke ⟨0, 1⟩, .cancel, .invoke ⟨1, 7⟩, .execute, .isDone, .execute]
    s.segments 1 = [0, 1] ∧ s.result 1 = some 7 := by
  have hidle : ({} : World (Invocation ℕ)).Idle 0 := ⟨rfl, rfl⟩
  have hallowed : EachStep HostCall.remaining HostCall.Allowed 0
      ([.invoke ⟨0, 1⟩, .cancel] ++
        HostCall.invoke (Body.mk 1 7) :: [.execute, .isDone, .execute]) :=
    ⟨rfl, trivial, rfl, trivial, trivial, trivial, trivial⟩
  obtain ⟨-, hsegments, hresult, -⟩ := invoke_runs_once 0 hidle rfl hallowed
  exact ⟨hsegments, hresult⟩

end Wasmcc
