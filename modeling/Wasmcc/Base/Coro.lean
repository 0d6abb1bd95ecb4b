import Mathlib.Data.List.Nodup
import Mathlib.Logic.Function.Basic
import Mathlib.Logic.Relation

/-!
# Futures

`co::Future` of `base/coro.h`. A coroutine is a frame with a promise, which has the handle of its
parent and the result. To await a coroutine is to make oneself its parent and to transfer control to
it; one that ends stores its result and transfers control to its parent. So there is no stack, and
`get` drives a handle that does nothing as the parent of the first one.

A `Coro` is what the body of a coroutine does: it works on the rest of the program's state, awaits
others, goes on with the value or the exception of each, and in the end returns a value or throws.
`call` evaluates the same bodies as functions that call each other, and `events` are what happens on
the way. `get_eq_call` says that `get` ends with the outcome of the call, after the same events.

The machine has the rules of the language: a coroutine suspends before it begins and when it ends,
and a handle that an awaiter returns is resumed next. Where the language leaves the behaviour
undefined, it is stuck. Each `co_await` is a full expression of its own, at the end of which the
future of the child is destroyed, and the frame with it. In `co_await f() + co_await g()` the frame
of `f` would stay until the end of the sum: no outcome and no event depends on that.
-/

namespace Wasmcc

namespace Co

section

variable {Ty : Type} (Val : Ty → Type) (Ex World : Type)

/-- What a `Future` is for: a value of some type, or nothing. -/
def Res : Option Ty → Type
  | some t => Val t
  | none => Unit

/-- The rest of the body of a coroutine with a `Future` of this type. -/
inductive Coro : Option Ty → Type
  | coReturn {t : Ty} (v : Val t) : Coro (some t)
  | coReturnVoid : Coro none
  | throw_ {T : Option Ty} (e : Ex) : Coro T
  /-- Anything that is no matter of coroutines. -/
  | act {T : Option Ty} (f : World → World) (rest : World → Coro T) : Coro T
  /-- `co_await` of a call, as a full expression. The rest catches an exception of the child, or it
  throws it again. -/
  | coAwait {T U : Option Ty} (child : Coro U) (rest : Except Ex (Res Val U) → Coro T) : Coro T

/-- What happens. Coroutines are counted as they are called. -/
inductive Event where
  | act (n : ℕ) (w : World)
  | awaits (n child : ℕ)
  | enter (n : ℕ)
  | leave (n : ℕ)
  /-- The result of a child goes to a coroutine. -/
  | deliver (child n : ℕ)
deriving DecidableEq, Repr

end

/-! ### Ordinary calls -/

section Calls

variable {Ty : Type} {Val : Ty → Type} {Ex World : Type}

/-- The outcome of the body of a function, and the state of the rest of the program. -/
def Coro.call : {T : Option Ty} → Coro Val Ex World T → World → Except Ex (Res Val T) × World
  | _, .coReturn v, w => (.ok v, w)
  | _, .coReturnVoid, w => (.ok (), w)
  | _, .throw_ e, w => (.error e, w)
  | _, .act f rest, w => (rest (f w)).call (f w)
  | _, .coAwait child rest, w => (rest (child.call w).1).call (child.call w).2

/-- How many calls it makes. -/
def Coro.calls : {T : Option Ty} → Coro Val Ex World T → World → ℕ
  | _, .coReturn _, _ | _, .coReturnVoid, _ | _, .throw_ _, _ => 0
  | _, .act f rest, w => (rest (f w)).calls (f w)
  | _, .coAwait child rest, w =>
    1 + child.calls w + (rest (child.call w).1).calls (child.call w).2

/-- What happens in call number `n`, if the next call gets number `next`. -/
def Coro.events : {T : Option Ty} → Coro Val Ex World T → World → ℕ → ℕ → List (Event World)
  | _, .coReturn _, _, _, _ | _, .coReturnVoid, _, _, _ | _, .throw_ _, _, _, _ => []
  | _, .act f rest, w, n, next => .act n (f w) :: (rest (f w)).events (f w) n next
  | _, .coAwait child rest, w, n, next =>
    .awaits n next :: .enter next :: (child.events w next (next + 1) ++ .leave next ::
      .deliver next n :: (rest (child.call w).1).events (child.call w).2 n
        (next + 1 + child.calls w))

/-- What happens when a function is called that nobody awaits. -/
def Coro.log {T : Option Ty} (root : Coro Val Ex World T) (w : World) : List (Event World) :=
  .enter 0 :: (root.events w 0 1 ++ [.leave 0])

/-- The coroutines that begin, in this order. -/
def entered (log : List (Event World)) : List ℕ :=
  log.filterMap fun
    | .enter n => some n
    | _ => none

/-- The coroutines that are awaited, and who awaits each. -/
def awaited (log : List (Event World)) : List (ℕ × ℕ) :=
  log.filterMap fun
    | .awaits n child => some (child, n)
    | _ => none

end Calls

/-! ### Promises and futures -/

/-- `std::variant<std::monostate, T, std::exception_ptr>`. -/
inductive Variant (α Ex : Type) where
  | monostate
  | value (v : α)
  | exception (e : Ex)

inductive Handle where
  /-- `std::noop_coroutine()` -/
  | noop
  | frame (n : ℕ)
deriving DecidableEq, Repr

section Promise

variable {Ty : Type} (Val : Ty → Type) (Ex : Type)

/-- `_result` of a `Promise<T>`, and of a `Promise<void>`. -/
def Stored : Option Ty → Type
  | some t => Variant (Val t) Ex
  | none => Option Ex

variable {Val Ex}

def Stored.empty : (T : Option Ty) → Stored Val Ex T
  | some _ => Variant.monostate
  | none => (none : Option Ex)

def returnValue {t : Ty} (v : Val t) : Stored Val Ex (some t) := Variant.value v

/-- Nothing is stored. -/
def returnVoid (result : Stored Val Ex (none : Option Ty)) : Stored Val Ex (none : Option Ty) :=
  result

def unhandledException (e : Ex) : (T : Option Ty) → Stored Val Ex T
  | some _ => Variant.exception e
  | none => some e

/-- `await_resume()` returns, or throws again. There is nothing to throw in a promise of a value
that has none yet. -/
def awaitResume : {T : Option Ty} → Stored Val Ex T → Option (Except Ex (Res Val T))
  | some _, .value v => some (.ok v)
  | some _, .exception e => some (.error e)
  | some _, .monostate => none
  | none, some e => some (.error e)
  | none, none => some (.ok ())

end Promise

/-! ### The machine -/

section Machine

variable {Ty : Type} (Val : Ty → Type) (Ex World : Type)

/-- Where a coroutine is. -/
inductive Point : Option Ty → Type
  | initial {T : Option Ty} (body : Coro Val Ex World T) : Point T
  | running {T : Option Ty} (body : Coro Val Ex World T) : Point T
  | awaiting {T U : Option Ty} (child : ℕ) (rest : Except Ex (Res Val U) → Coro Val Ex World T) :
      Point T
  | final {T : Option Ty} : Point T

/-- A coroutine frame with its promise. `parent` is the handle in `_chain`. -/
structure Frame where
  type : Option Ty
  parent : Option Handle
  result : Stored Val Ex type
  point : Point Val Ex World type

/-- Where control is: in a coroutine, between two, or with the loop of `get`. -/
inductive Control where
  | active (n : ℕ)
  | resuming (h : Handle)
  | returned
deriving DecidableEq, Repr

structure Machine where
  frames : ℕ → Option (Frame Val Ex World) := fun _ => none
  /-- The number of the next frame. -/
  next : ℕ := 0
  control : Control := .returned
  world : World
  log : List (Event World) := []

end Machine

namespace Machine

variable {Ty : Type} {Val : Ty → Type} {Ex World : Type}

def setFrame (m : Machine Val Ex World) (n : ℕ) (fr : Frame Val Ex World) : Machine Val Ex World :=
  { m with frames := Function.update m.frames n (some fr) }

def destroy (m : Machine Val Ex World) (n : ℕ) : Machine Val Ex World :=
  { m with frames := Function.update m.frames n none }

/-- A call of a coroutine: it suspends at once. -/
def create {T : Option Ty} (m : Machine Val Ex World) (body : Coro Val Ex World T) :
    Machine Val Ex World :=
  { m.setFrame m.next ⟨T, none, .empty T, .initial body⟩ with next := m.next + 1 }

/-- `Future::await_suspend`: the parent of the coroutine, and the handle to go on with. -/
def awaitSuspend (m : Machine Val Ex World) (n : ℕ) (parent : Handle) :
    Option (Machine Val Ex World × Handle) :=
  match m.frames n with
  | some fr => some (m.setFrame n { fr with parent := some parent }, .frame n)
  | none => none

/-- `Future::await_resume`, for a future of this type. -/
def awaitResume [DecidableEq Ty] (m : Machine Val Ex World) (n : ℕ) (U : Option Ty) :
    Option (Except Ex (Res Val U)) :=
  match m.frames n with
  | some fr => if h : fr.type = U then Co.awaitResume (h ▸ fr.result) else none
  | none => none

/-- The end of a coroutine. `AwaiterNode::await_ready` is whether there is no parent; then the frame
would be gone, and the handle to it would dangle. -/
def finish (m : Machine Val Ex World) (n : ℕ) (fr : Frame Val Ex World) :
    Option (Machine Val Ex World) :=
  match fr.parent with
  | none => none
  | some parent => some
    { m.setFrame n fr with control := .resuming parent, log := m.log ++ [.leave n] }

/-- The active coroutine goes on. -/
def runBody (m : Machine Val Ex World) (n : ℕ) (parent : Option Handle) :
    {T : Option Ty} → Stored Val Ex T → Coro Val Ex World T → Option (Machine Val Ex World)
  | some t, _, .coReturn v => m.finish n ⟨some t, parent, returnValue v, .final⟩
  | none, result, .coReturnVoid => m.finish n ⟨none, parent, returnVoid result, .final⟩
  | T, _, .throw_ e => m.finish n ⟨T, parent, unhandledException e T, .final⟩
  | T, result, .act f rest => some
    { m.setFrame n ⟨T, parent, result, .running (rest (f m.world))⟩ with
      world := f m.world, log := m.log ++ [.act n (f m.world)] }
  | T, result, .coAwait child rest =>
    let c := m.next
    let m := (m.create child).setFrame n ⟨T, parent, result, .awaiting c rest⟩
    match m.awaitSuspend c (.frame n) with
    | none => none
    | some (m, handle) => some
      { m with control := .resuming handle, log := m.log ++ [.awaits n c] }

/-- A coroutine is resumed where it has suspended. It takes the result of the child, and at the end
of the full expression, which is next, `~Future` destroys the frame of the child. -/
def resume [DecidableEq Ty] (m : Machine Val Ex World) (n : ℕ) : Option (Machine Val Ex World) :=
  match m.frames n with
  | some ⟨T, parent, result, .initial body⟩ => some
    { m.setFrame n ⟨T, parent, result, .running body⟩ with
      control := .active n, log := m.log ++ [.enter n] }
  | some ⟨T, parent, result, .awaiting (U := U) child rest⟩ =>
    match m.awaitResume child U with
    | none => none
    | some outcome => some
      { (m.setFrame n ⟨T, parent, result, .running (rest outcome)⟩).destroy child with
        control := .active n, log := m.log ++ [.deliver child n] }
  | _ => none

def step [DecidableEq Ty] (m : Machine Val Ex World) : Option (Machine Val Ex World) :=
  match m.control with
  | .returned => none
  | .resuming .noop => some { m with control := .returned }
  | .resuming (.frame n) => m.resume n
  | .active n =>
    match m.frames n with
    | some ⟨_, parent, result, .running body⟩ => m.runBody n parent result body
    | _ => none

def done (m : Machine Val Ex World) (n : ℕ) : Bool :=
  match m.frames n with
  | some ⟨_, _, _, .final⟩ => true
  | _ => false

/-- The loop of `get`, with everything that happens before control returns to it. -/
def drive [DecidableEq Ty] (handle : ℕ) : ℕ → Machine Val Ex World → Option (Machine Val Ex World)
  | 0, _ => none
  | fuel + 1, m =>
    match m.control with
    | .returned =>
      if m.done handle then some m
      else drive handle fuel { m with control := .resuming (.frame handle) }
    | _ =>
      match m.step with
      | none => none
      | some m => drive handle fuel m

end Machine

/-- `Future::get` of a coroutine that has just been called: its outcome, the rest of the program's
state, and what happened. -/
def get {Ty : Type} [DecidableEq Ty] {Val : Ty → Type} {Ex World : Type} (fuel : ℕ) {T : Option Ty}
    (root : Coro Val Ex World T) (w : World) :
    Option (Except Ex (Res Val T) × World × List (Event World)) := do
  let m : Machine Val Ex World := Machine.create { world := w } root
  let (m, _) ← m.awaitSuspend 0 .noop
  let m ← m.drive 0 fuel
  let outcome ← m.awaitResume 0 T
  return (outcome, m.world, m.log)

/-! ### Runs -/

section Runs

variable {Ty : Type} {Val : Ty → Type} {Ex World : Type}

/-- What a promise holds when its coroutine has ended. -/
def Stored.of : {T : Option Ty} → Except Ex (Res Val T) → Stored Val Ex T
  | some _, .ok v => Variant.value v
  | some _, .error e => Variant.exception e
  | none, .ok _ => (none : Option Ex)
  | none, .error e => some e

theorem awaitResume_of {T : Option Ty} (outcome : Except Ex (Res Val T)) :
    awaitResume (Stored.of outcome) = some outcome := by
  cases T <;> cases outcome <;> rfl

theorem unhandledException_eq (e : Ex) (T : Option Ty) :
    unhandledException e T = (Stored.of (.error e) : Stored Val Ex T) := by
  cases T <;> rfl

namespace Machine

/-- Control passes from one machine to another, without return to the loop of `get`. -/
def Steps [DecidableEq Ty] : Machine Val Ex World → Machine Val Ex World → Prop :=
  Relation.ReflTransGen fun m m' => m.step = some m'

/-- A body has been run to its end, from its first action on. -/
structure Ended {T : Option Ty} (body : Coro Val Ex World T) (n : ℕ) (parent : Handle)
    (m m' : Machine Val Ex World) : Prop where
  control : m'.control = .resuming parent
  frame : m'.frames n = some ⟨T, some parent, .of (body.call m.world).1, .final⟩
  /-- The other coroutines are where they were. -/
  frames : ∀ i < m.next, i ≠ n → m'.frames i = m.frames i
  next : m'.next = m.next + body.calls m.world
  world : m'.world = (body.call m.world).2
  log : m'.log = m.log ++ (body.events m.world n m.next ++ [.leave n])

variable {m : Machine Val Ex World} {n : ℕ} {parent : Handle}

/-- The last action of a coroutine. -/
theorem ended_finish {T : Option Ty} (body : Coro Val Ex World T) (m : Machine Val Ex World) (n : ℕ)
    (parent : Handle) (hcalls : body.calls m.world = 0) (hworld : (body.call m.world).2 = m.world)
    (hevents : body.events m.world n m.next = []) :
    ∃ m', m.finish n ⟨T, some parent, .of (body.call m.world).1, .final⟩ = some m' ∧
      Ended body n parent m m' := by
  refine ⟨_, rfl, rfl, Function.update_self _ _ _, ?_, ?_, hworld.symm, ?_⟩
  · intro i _ hi
    exact Function.update_of_ne hi _ _
  · rw [hcalls]
    rfl
  · rw [hevents]
    rfl

/-- The machine after a coroutine has awaited a child. -/
def suspended {T U : Option Ty} (m : Machine Val Ex World) (n : ℕ) (parent : Handle)
    (child : Coro Val Ex World U) (rest : Except Ex (Res Val U) → Coro Val Ex World T) :
    Machine Val Ex World where
  frames := Function.update
    (Function.update m.frames n (some ⟨T, some parent, .empty T, .awaiting m.next rest⟩))
    m.next (some ⟨U, some (.frame n), .empty U, .initial child⟩)
  next := m.next + 1
  control := .resuming (.frame m.next)
  world := m.world
  log := m.log ++ [.awaits n m.next]

theorem runBody_coAwait {T U : Option Ty} {child : Coro Val Ex World U}
    {rest : Except Ex (Res Val U) → Coro Val Ex World T} (hn : n < m.next) :
    m.runBody n (some parent) (.empty T) (.coAwait child rest) =
      some (m.suspended n parent child rest) := by
  have hne : m.next ≠ n := Nat.ne_of_gt hn
  have hchild : ((m.create child).setFrame n
      ⟨T, some parent, .empty T, .awaiting m.next rest⟩).frames m.next =
      some ⟨U, none, .empty U, .initial child⟩ :=
    (Function.update_of_ne hne _ _).trans (Function.update_self _ _ _)
  rw [runBody, awaitSuspend, hchild]
  dsimp only [suspended, setFrame, create]
  rw [Function.update_comm hne, Function.update_idem]

/-- The machine after a coroutine has begun. -/
def begun {T : Option Ty} (m : Machine Val Ex World) (n : ℕ) (parent : Handle)
    (body : Coro Val Ex World T) : Machine Val Ex World :=
  { m.setFrame n ⟨T, some parent, .empty T, .running body⟩ with
    control := .active n, log := m.log ++ [.enter n] }

/-- The machine after an action of a coroutine. -/
def acted {T : Option Ty} (m : Machine Val Ex World) (n : ℕ) (parent : Handle) (f : World → World)
    (rest : World → Coro Val Ex World T) : Machine Val Ex World :=
  { m.setFrame n ⟨T, some parent, .empty T, .running (rest (f m.world))⟩ with
    world := f m.world, log := m.log ++ [.act n (f m.world)] }

/-- The machine after the result of a child went to a coroutine, which goes on with this body. -/
def delivered {T : Option Ty} (m : Machine Val Ex World) (child n : ℕ) (parent : Handle)
    (body : Coro Val Ex World T) : Machine Val Ex World :=
  { (m.setFrame n ⟨T, some parent, .empty T, .running body⟩).destroy child with
    control := .active n, log := m.log ++ [.deliver child n] }

section Delivered

variable {T : Option Ty} {child i : ℕ} {body : Coro Val Ex World T}

theorem delivered_frames_self (hn : n ≠ child) :
    (m.delivered child n parent body).frames n =
      some ⟨T, some parent, .empty T, .running body⟩ :=
  (Function.update_of_ne hn _ _).trans (Function.update_self _ _ _)

theorem delivered_frames_child : (m.delivered child n parent body).frames child = none :=
  Function.update_self _ _ _

theorem delivered_frames_of_ne (hchild : i ≠ child) (hn : i ≠ n) :
    (m.delivered child n parent body).frames i = m.frames i :=
  (Function.update_of_ne hchild _ _).trans (Function.update_of_ne hn _ _)

end Delivered

/-- Control is back in the loop of `get`. -/
def backInGet (m : Machine Val Ex World) : Machine Val Ex World := { m with control := .returned }

/-- The machine when `get` has made the loop the parent of the root. -/
def started {T : Option Ty} (root : Coro Val Ex World T) (w : World) : Machine Val Ex World where
  frames := Function.update (fun _ => none) 0 (some ⟨T, some .noop, .empty T, .initial root⟩)
  next := 1
  control := .returned
  world := w

/-- The loop of `get` has resumed the root for the first time. -/
def called {T : Option Ty} (root : Coro Val Ex World T) (w : World) : Machine Val Ex World :=
  { started root w with control := .resuming (.frame 0) }

theorem awaitSuspend_create {T : Option Ty} (root : Coro Val Ex World T) (w : World) :
    (create { world := w } root).awaitSuspend 0 .noop = some (started root w, .frame 0) := by
  have hroot : (create { world := w } root).frames 0 = some ⟨T, none, .empty T, .initial root⟩ :=
    rfl
  rw [awaitSuspend, hroot]
  dsimp only [setFrame, create, started]
  rw [Function.update_idem]

variable [DecidableEq Ty]

theorem step_active {T : Option Ty} {p : Option Handle} {result : Stored Val Ex T}
    {body : Coro Val Ex World T} (hcontrol : m.control = .active n)
    (hframe : m.frames n = some ⟨T, p, result, .running body⟩) :
    m.step = m.runBody n p result body := by
  rw [step, hcontrol]
  dsimp only
  rw [hframe]

theorem step_resuming (hcontrol : m.control = .resuming (.frame n)) : m.step = m.resume n := by
  rw [step, hcontrol]

/-- A coroutine that has been called and not resumed yet begins. -/
theorem resume_initial {T : Option Ty} {body : Coro Val Ex World T}
    (hframe : m.frames n = some ⟨T, some parent, .empty T, .initial body⟩) :
    m.resume n = some (m.begun n parent body) := by
  rw [resume, hframe]
  rfl

theorem awaitResume_final {U : Option Ty} {q : Option Handle} {outcome : Except Ex (Res Val U)}
    (hframe : m.frames n = some ⟨U, q, .of outcome, .final⟩) :
    m.awaitResume n U = some outcome := by
  rw [awaitResume, hframe]
  exact (dif_pos rfl).trans (awaitResume_of outcome)

/-- A coroutine that waits for a child takes the outcome of this child. -/
theorem resume_awaiting {T U : Option Ty} {q : Option Handle} {child : ℕ}
    {rest : Except Ex (Res Val U) → Coro Val Ex World T} {outcome : Except Ex (Res Val U)}
    (hframe : m.frames n = some ⟨T, some parent, .empty T, .awaiting child rest⟩)
    (hchild : m.frames child = some ⟨U, q, .of outcome, .final⟩) :
    m.resume n = some (m.delivered child n parent (rest outcome)) := by
  rw [resume, hframe]
  dsimp only
  rw [awaitResume_final hchild]
  rfl

/-- The body runs to its end, in whichever machine and for whichever parent it is started. -/
def RunsToEnd {T : Option Ty} (body : Coro Val Ex World T) : Prop :=
  ∀ {m : Machine Val Ex World} {n : ℕ} {parent : Handle}, n < m.next → m.control = .active n →
    m.frames n = some ⟨T, some parent, .empty T, .running body⟩ →
    ∃ m', m.Steps m' ∧ Ended body n parent m m'

theorem RunsToEnd.act {T : Option Ty} {f : World → World} {rest : World → Coro Val Ex World T}
    (hrest : ∀ w, RunsToEnd (rest w)) : RunsToEnd (.act f rest) := by
  intro m n parent hn hcontrol hframe
  have hact : m.step = some (m.acted n parent f rest) :=
    (step_active hcontrol hframe).trans (by rw [runBody]; rfl)
  -- the rest runs in the world after the action
  obtain ⟨m', hsteps, hended⟩ := @hrest (f m.world) (m.acted n parent f rest) n parent hn hcontrol
    (Function.update_self _ _ _)
  refine ⟨m', .head hact hsteps, hended.control, hended.frame, ?_, hended.next, hended.world, ?_⟩
  · intro i hi hne
    exact (hended.frames i hi hne).trans (Function.update_of_ne hne _ _)
  · refine hended.log.trans ?_
    rw [acted, List.append_assoc]
    rfl

/-- The child that coroutine `n` has called and awaited has ended, and control comes back. -/
structure ChildEnded {T U : Option Ty} (child : Coro Val Ex World U)
    (rest : Except Ex (Res Val U) → Coro Val Ex World T) (n : ℕ) (parent : Handle)
    (m m' : Machine Val Ex World) : Prop where
  control : m'.control = .resuming (.frame n)
  frame : m'.frames m.next = some ⟨U, some (.frame n), .of (child.call m.world).1, .final⟩
  /-- Nobody else has moved. -/
  frames : ∀ i < m.next, m'.frames i =
    Function.update m.frames n (some ⟨T, some parent, .empty T, .awaiting m.next rest⟩) i
  next : m'.next = m.next + 1 + child.calls m.world
  world : m'.world = (child.call m.world).2
  log : m'.log = m.log ++ [.awaits n m.next] ++ [.enter m.next] ++
    (child.events m.world m.next (m.next + 1) ++ [.leave m.next])

theorem RunsToEnd.childEnded {T U : Option Ty} {child : Coro Val Ex World U}
    {rest : Except Ex (Res Val U) → Coro Val Ex World T} (hchild : RunsToEnd child)
    (hn : n < m.next) (hcontrol : m.control = .active n)
    (hframe : m.frames n = some ⟨T, some parent, .empty T, .running (.coAwait child rest)⟩) :
    ∃ m', m.Steps m' ∧ ChildEnded child rest n parent m m' := by
  have hawait : m.step = some (m.suspended n parent child rest) :=
    (step_active hcontrol hframe).trans (runBody_coAwait hn)
  -- control goes to the child, which begins and runs to its end
  have hbegin : (m.suspended n parent child rest).step =
      some ((m.suspended n parent child rest).begun m.next (.frame n) child) :=
    (step_resuming rfl).trans (resume_initial (Function.update_self _ _ _))
  obtain ⟨m', hsteps, hended⟩ := hchild (m := (m.suspended n parent child rest).begun m.next
    (.frame n) child) (Nat.lt_succ_self m.next) rfl (Function.update_self _ _ _)
  refine ⟨m', .head hawait (.head hbegin hsteps), hended.control, hended.frame, ?_, hended.next,
    hended.world, hended.log⟩
  intro i hi
  have hic : i ≠ m.next := Nat.ne_of_lt hi
  rw [hended.frames i (Nat.lt_succ_of_lt hi) hic]
  exact (Function.update_of_ne hic _ _).trans (Function.update_of_ne hic _ _)

theorem RunsToEnd.coAwait {T U : Option Ty} {child : Coro Val Ex World U}
    {rest : Except Ex (Res Val U) → Coro Val Ex World T} (hchild : RunsToEnd child)
    (hrest : ∀ outcome, RunsToEnd (rest outcome)) : RunsToEnd (.coAwait child rest) := by
  intro m n parent hn hcontrol hframe
  have hne : n ≠ m.next := Nat.ne_of_lt hn
  obtain ⟨m₁, hsteps₁, h₁⟩ := hchild.childEnded hn hcontrol hframe
  have hwaiting : m₁.frames n = some ⟨T, some parent, .empty T, .awaiting m.next rest⟩ :=
    (h₁.frames n hn).trans (Function.update_self _ _ _)
  -- the outcome goes to the one that waits, which goes on
  have hdeliver : m₁.step = some (m₁.delivered m.next n parent (rest (child.call m.world).1)) :=
    (step_resuming h₁.control).trans (resume_awaiting hwaiting h₁.frame)
  -- all that were there before the call are still counted
  have hlt (i : ℕ) (hi : i < m.next) : i < m₁.next := by
    rw [h₁.next]
    exact Nat.lt_add_right _ (Nat.lt_succ_of_lt hi)
  obtain ⟨m', hsteps, hended⟩ := hrest (child.call m.world).1
    (m := m₁.delivered m.next n parent (rest (child.call m.world).1)) (hlt n hn) rfl
    (delivered_frames_self hne)
  have hworld : (m₁.delivered m.next n parent (rest (child.call m.world).1)).world =
      (child.call m.world).2 := h₁.world
  have hnext : (m₁.delivered m.next n parent (rest (child.call m.world).1)).next =
      m.next + 1 + child.calls m.world := h₁.next
  refine ⟨m', hsteps₁.trans (.head hdeliver hsteps), hended.control, ?_, ?_, ?_, ?_, ?_⟩
  · rw [hended.frame, hworld]
    rfl
  · intro i hi hin
    calc m'.frames i
      _ = (m₁.delivered m.next n parent (rest (child.call m.world).1)).frames i :=
        hended.frames i (hlt i hi) hin
      _ = m₁.frames i := delivered_frames_of_ne (Nat.ne_of_lt hi) hin
      _ = m.frames i := (h₁.frames i hi).trans (Function.update_of_ne hin _ _)
  · rw [hended.next, hnext, hworld, Coro.calls]
    omega
  · rw [hended.world, hworld]
    rfl
  · rw [hended.log, hworld, hnext, delivered, h₁.log, Coro.events]
    simp only [List.append_assoc, List.cons_append, List.nil_append]

/-- **A body runs to its end**, whatever the bodies that it awaits do. -/
theorem runsToEnd {T : Option Ty} (body : Coro Val Ex World T) : RunsToEnd body := by
  induction body with
  | coReturn v =>
    intro m n parent hn hcontrol hframe
    -- a body that ends does so in one step
    obtain ⟨m', hfinish, hended⟩ := ended_finish (.coReturn v) m n parent rfl rfl rfl
    exact ⟨m', .single ((step_active hcontrol hframe).trans hfinish), hended⟩
  | coReturnVoid =>
    intro m n parent hn hcontrol hframe
    obtain ⟨m', hfinish, hended⟩ := ended_finish .coReturnVoid m n parent rfl rfl rfl
    exact ⟨m', .single ((step_active hcontrol hframe).trans hfinish), hended⟩
  | @throw_ T e =>
    intro m n parent hn hcontrol hframe
    obtain ⟨m', hfinish, hended⟩ :=
      ended_finish (.throw_ e : Coro Val Ex World T) m n parent rfl rfl rfl
    refine ⟨m', .single ((step_active hcontrol hframe).trans ?_), hended⟩
    rw [← hfinish, runBody, unhandledException_eq]
    rfl
  | act f rest ih => exact RunsToEnd.act ih
  | coAwait child rest ihchild ihrest => exact RunsToEnd.coAwait ihchild ihrest

theorem drive_step {m m' : Machine Val Ex World} (hstep : m.step = some m') (handle fuel : ℕ) :
    drive handle (fuel + 1) m = drive handle fuel m' := by
  rw [drive]
  split
  · next hcontrol =>
    rw [step, hcontrol] at hstep
    nomatch hstep
  · rw [hstep]

/-- The loop of `get` follows a run. -/
theorem drive_steps {m m' : Machine Val Ex World} (hsteps : m.Steps m') (handle : ℕ) :
    ∃ k, ∀ fuel, drive handle (fuel + k) m = drive handle fuel m' := by
  induction hsteps using Relation.ReflTransGen.head_induction_on with
  | refl => exact ⟨0, fun _ => rfl⟩
  | head hstep _ ih =>
    obtain ⟨k, hk⟩ := ih
    exact ⟨k + 1, fun fuel => (drive_step hstep handle (fuel + k)).trans (hk fuel)⟩

/-- The root is resumed once, runs to its end, and control returns to the loop. -/
theorem drive_started {T : Option Ty} (root : Coro Val Ex World T) (w : World) :
    ∃ N, ∀ fuel ≥ N, ∃ m', drive 0 fuel (started root w) = some m' ∧
      m'.frames 0 = some ⟨T, some .noop, .of (root.call w).1, .final⟩ ∧
      m'.world = (root.call w).2 ∧ m'.log = .enter 0 :: (root.events w 0 1 ++ [.leave 0]) := by
  -- the loop resumes the root, and the root begins and runs to its end
  have hresume (fuel : ℕ) : drive 0 (fuel + 1) (started root w) = drive 0 fuel (called root w) :=
    rfl
  have hbegin : (called root w).step = some ((called root w).begun 0 .noop root) :=
    (step_resuming rfl).trans (resume_initial rfl)
  obtain ⟨m, hsteps, hended⟩ :=
    runsToEnd root (m := (called root w).begun 0 .noop root) Nat.one_pos rfl rfl
  -- the root resumes the handle that does nothing
  have hreturn : m.step = some m.backInGet := by
    rw [step, hended.control]
    rfl
  obtain ⟨k, hk⟩ := drive_steps (.head hbegin (hsteps.tail hreturn)) 0
  have hdone : m.backInGet.done 0 = true := by
    rw [done, backInGet, hended.frame]
  refine ⟨k + 2, fun fuel hfuel => ⟨m.backInGet, ?_, hended.frame, hended.world, hended.log⟩⟩
  -- two rounds of the loop: the one that resumes the root, and the one that sees it done
  obtain ⟨extra, rfl⟩ := Nat.exists_eq_add_of_le' hfuel
  calc drive 0 (extra + (k + 2)) (started root w)
    _ = drive 0 (extra + 1 + k) (called root w) := by
      rw [← hresume]
      congr 1
      omega
    _ = drive 0 (extra + 1) m.backInGet := hk (extra + 1)
    _ = some m.backInGet := by
      rw [drive, hdone]
      rfl

end Machine

/-! ### The order of the calls -/

theorem range'_one_add_add (n a b : ℕ) :
    n :: (List.range' (n + 1) a ++ List.range' (n + 1 + a) b) = List.range' n (1 + a + b) := by
  rw [List.range'_append_1, ← List.range'_succ, Nat.add_comm 1 a, Nat.add_right_comm a b 1]

/-- What a call shows once, when it is awaited or when it begins, is shown by all calls in the order
in which they are counted. -/
theorem filterMap_events {f : Event World → Option ℕ} (hact : ∀ n w, f (.act n w) = none)
    (hcall : ∀ n child, [Event.awaits n child, .enter child].filterMap f = [child])
    (hleave : ∀ n, f (.leave n) = none) (hdeliver : ∀ child n, f (.deliver child n) = none)
    {T : Option Ty} (body : Coro Val Ex World T) :
    ∀ (w : World) (n next : ℕ),
      (body.events w n next).filterMap f = List.range' next (body.calls w) := by
  induction body with
  | coReturn _ | coReturnVoid | throw_ _ => exact fun _ _ _ => rfl
  | act g rest ih =>
    intro w n next
    rw [Coro.events, List.filterMap_cons_none (hact n (g w)), ih]
    rfl
  | coAwait child rest ihchild ihrest =>
    intro w n next
    -- the call itself comes first, then those that it makes, then those of the rest
    calc ((Coro.coAwait child rest).events w n next).filterMap f
      _ = [Event.awaits n next, .enter next].filterMap f ++
          ((child.events w next (next + 1)).filterMap f ++
            ((rest (child.call w).1).events (child.call w).2 n
              (next + 1 + child.calls w)).filterMap f) := by
        rw [← List.filterMap_append, ← List.filterMap_append, Coro.events]
        simp only [List.cons_append, List.nil_append, List.filterMap_cons, List.filterMap_append,
          hleave, hdeliver]
      _ = next :: (List.range' (next + 1) (child.calls w) ++
          List.range' (next + 1 + child.calls w)
            ((rest (child.call w).1).calls (child.call w).2)) := by
        rw [hcall, ihchild, ihrest]
        rfl
      _ = List.range' next ((Coro.coAwait child rest).calls w) := range'_one_add_add _ _ _

/-- Every call is entered once, and they are entered as they are counted. -/
theorem entered_events {T : Option Ty} (body : Coro Val Ex World T) (w : World) (n next : ℕ) :
    entered (body.events w n next) = List.range' next (body.calls w) :=
  filterMap_events (fun _ _ => rfl) (fun _ _ => rfl) (fun _ => rfl) (fun _ _ => rfl) body w n next

/-- So is every call awaited, by one coroutine. -/
theorem awaited_events {T : Option Ty} (body : Coro Val Ex World T) (w : World) (n next : ℕ) :
    (awaited (body.events w n next)).map Prod.fst = List.range' next (body.calls w) := by
  rw [awaited, List.map_filterMap]
  exact filterMap_events (fun _ _ => rfl) (fun _ _ => rfl) (fun _ => rfl) (fun _ _ => rfl) body w n
    next

/-- What has been awaited is delivered, to the one that has awaited it. -/
theorem deliver_mem_events {T : Option Ty} (body : Coro Val Ex World T) :
    ∀ (w : World) (n next c p : ℕ),
      .deliver c p ∈ body.events w n next ↔ .awaits p c ∈ body.events w n next := by
  induction body with
  | coReturn _ | coReturnVoid | throw_ _ => exact fun _ _ _ _ _ => by simp [Coro.events]
  | act f rest ih =>
    intro w n next c p
    simpa [Coro.events] using ih (f w) (f w) n next c p
  | coAwait child rest ihchild ihrest =>
    intro w n next c p
    -- the events of the child, then those of the rest of the body
    have hchild := ihchild w next (next + 1) c p
    have hrest := ihrest (child.call w).1 (child.call w).2 n (next + 1 + child.calls w) c p
    simp only [Coro.events, List.mem_cons, List.mem_append, hchild, hrest, reduceCtorEq, false_or,
      Event.deliver.injEq, Event.awaits.injEq]
    tauto

theorem mem_awaited {log : List (Event World)} {c p : ℕ} :
    (c, p) ∈ awaited log ↔ .awaits p c ∈ log := by
  rw [awaited, List.mem_filterMap]
  constructor
  · rintro ⟨e, he, heq⟩
    cases e <;> simp at heq
    obtain ⟨rfl, rfl⟩ := heq
    exact he
  · exact fun h => ⟨_, h, rfl⟩

/-- **Futures behave like calls.** `get` ends, with the outcome of the call and after the same
events. The body of the root and each awaited one begin once, in the order of the calls, and the
result of each goes to the one that has awaited it. -/
theorem get_eq_call [DecidableEq Ty] {T : Option Ty} (root : Coro Val Ex World T) (w : World) :
    (∃ N, ∀ fuel ≥ N, get fuel root w = some ((root.call w).1, (root.call w).2, root.log w)) ∧
      entered (root.log w) = List.range (root.calls w + 1) ∧
      (awaited (root.log w)).map Prod.fst = List.range' 1 (root.calls w) ∧
      (∀ c p, .deliver c p ∈ root.log w ↔ .awaits p c ∈ root.log w) ∧
      ∀ c p q, .awaits p c ∈ root.log w → .deliver c q ∈ root.log w → q = p := by
  have hawaited : (awaited (root.log w)).map Prod.fst = List.range' 1 (root.calls w) := by
    rw [← awaited_events root w 0 1, awaited, awaited, Coro.log]
    simp
  have hdeliver (c p : ℕ) : .deliver c p ∈ root.log w ↔ .awaits p c ∈ root.log w := by
    simpa [Coro.log] using deliver_mem_events root w 0 1 c p
  refine ⟨?_, ?_, hawaited, hdeliver, ?_⟩
  · obtain ⟨N, hN⟩ := Machine.drive_started root w
    refine ⟨N, fun fuel hfuel => ?_⟩
    obtain ⟨m, hdrive, hframe, hworld, hlog⟩ := hN fuel hfuel
    rw [get, Machine.awaitSuspend_create, Option.bind_eq_bind, Option.bind_some]
    dsimp only
    rw [hdrive, Option.bind_eq_bind, Option.bind_some, Machine.awaitResume_final hframe, hworld,
      hlog]
    rfl
  · have hentered := entered_events root w 0 1
    rw [entered] at hentered
    rw [entered, Coro.log, List.range_eq_range', List.range'_succ]
    simp [hentered]
  · intro c p q hawaits hdelivered
    -- a coroutine is awaited once, so whoever gets its result is the one that has awaited it
    have hnodup : ((awaited (root.log w)).map Prod.fst).Nodup := by
      rw [hawaited]
      exact List.nodup_range'
    have heq := List.inj_on_of_nodup_map hnodup (mem_awaited.mpr ((hdeliver c q).mp hdelivered))
      (mem_awaited.mpr hawaits) rfl
    exact congrArg Prod.snd heq

end Runs

end Co

end Wasmcc
