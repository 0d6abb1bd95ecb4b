import Wasmcc.Basis.Abstraction
import Wasmcc.Runtime.ContextSwitch

/-!
# Threads on a processor

`Runtime/Switch.lean` takes it for granted that `WasmccSwitch` saves a context and restores another
one. Here a run of an OS thread is one of the processor: between the calls of `VMThread` its memory
and its registers change as the code that executes likes, as long as the contexts that wait are left
alone (`Kept`), and a switch is a run of the assembly.

`origin` records for each `ThreadStack` the context that was saved in it last: the state of the
processor in which `WasmccSwitch` was called. `Inv` says that the `ThreadStack`s hold these
contexts, `Inv.step` that every call keeps it so, and `SwitchesRight` what follows in every run: who
is resumed or left goes on where he was, with his stack pointer and his callee-saved registers.
-/

open Basis

namespace Wasmcc

variable {R : Type} {k : SwitchCode R}

/-- Whose context the pointer is for. -/
def ThreadStack.thread : ThreadStack → ThreadId
  | .myThreadState t | .mainThreadState t => t

/-- Which threads there are, and where their objects are in memory. No two `ThreadStack`s share a
byte, and none has one on the stack of a thread. -/
structure Placement (k : SwitchCode R) where
  created : ThreadId → Prop
  threadStack : ThreadStack → BitVec 64
  thread : ThreadId → BitVec 64
  stackBase : ThreadId → BitVec 64
  stackSize : ThreadId → BitVec 64
  apart : ∀ p q, created p.thread → created q.thread → p ≠ q →
    Memory.Disjoint (threadStack p) k.threadStackBytes (threadStack q) k.threadStackBytes
  stack_apart : ∀ t p, created t → created p.thread →
    Memory.Disjoint (threadStack p) k.threadStackBytes
      (k.initialSp (stackBase t) (stackSize t)) k.stackBytes

namespace Placement

variable (P : Placement k)

def initialSp (t : ThreadId) : BitVec 64 := k.initialSp (P.stackBase t) (P.stackSize t)

/-- The code that executes calls `WasmccSwitch(source, target)`. Its return address is on no
`ThreadStack`, and not where another thread has its own. -/
structure Calls (c : Cpu R) (source target : ThreadStack) : Prop where
  pc : c.pc = k.wasmccSwitch
  argument₀ : c.reg k.argument₀ = P.threadStack source
  argument₁ : c.reg k.argument₁ = P.threadStack target
  returns : k.Outside (k.returnAddress c)
  apart : ∀ p, P.created p.thread →
    Memory.Disjoint (P.threadStack p) k.threadStackBytes (c.reg k.sp) k.stackBytes
  others : ∀ t, P.created t → source ≠ .myThreadState t →
    Memory.Disjoint (P.initialSp t) k.stackBytes (c.reg k.sp) k.stackBytes

/-- What contexts in `live` need to go on has not changed. -/
def Kept (live : ThreadStack → Prop) (origin : ThreadStack → Origin R) (m m' : Memory) : Prop :=
  ∀ p, live p → Memory.AgreeOn m m' (P.threadStack p) k.threadStackBytes ∧
    Memory.AgreeOn m m' (k.originSp (origin p)) k.stackBytes

/-- The memories differ in the `ThreadStack`s of one thread only. -/
def AgreeElsewhere (t : ThreadId) (m m' : Memory) : Prop :=
  ∀ b, (∀ p : ThreadStack, p.thread = t →
    ¬Memory.InRange (P.threadStack p) k.threadStackBytes b) → m' b = m b

variable {P} in
theorem kept_self (live : ThreadStack → Prop) (origin : ThreadStack → Origin R) (m : Memory) :
    P.Kept live origin m m :=
  fun _ _ => ⟨fun _ _ => rfl, fun _ _ => rfl⟩

/-- There is one thread. -/
def single (k : SwitchCode R) (t : ThreadId) (my main base size thread : BitVec 64)
    (hapart : Memory.Disjoint my k.threadStackBytes main k.threadStackBytes)
    (hmy : Memory.Disjoint my k.threadStackBytes (k.initialSp base size) k.stackBytes)
    (hmain : Memory.Disjoint main k.threadStackBytes (k.initialSp base size) k.stackBytes) :
    Placement k where
  created := (· = t)
  threadStack
    | .myThreadState _ => my
    | .mainThreadState _ => main
  thread _ := thread
  stackBase _ := base
  stackSize _ := size
  apart p q hp hq hpq := by
    cases p <;> cases q <;> cases hp <;> cases hq
    · exact absurd rfl hpq
    · exact hapart
    · exact hapart.symm
    · exact absurd rfl hpq
  stack_apart _ p _ _ := by
    cases p
    · exact hmy
    · exact hmain

end Placement

/-- The context in a `ThreadStack` is one to go on with. -/
def Stacks.Live (s : Stacks) : ThreadStack → Prop
  | .myThreadState t => s.state t = .suspended
  | .mainThreadState t => s.currentVmThread = some t

/-- A call that leaves the running thread alone changes nothing, or stops another thread. -/
theorem Represents.step_of_stays {s : Stacks} {l : LifeCycle} (h : Represents s l)
    {call : ThreadCall} (hcurrent : (s.step call).currentVmThread = s.currentVmThread) :
    s.step call = s ∨ ∃ t, call = .stop t ∧
      s.step call = { s with state := Function.update s.state t .stopped } := by
  cases call with
  | resume t =>
    -- a resume that succeeds would change the running thread, and so would leaving it
    by_cases hnone : s.currentVmThread = none
    · rw [Stacks.step, show ThreadCall.perform (.resume t) = Stacks.resume t from rfl,
        Stacks.resume_of_none hnone, hnone] at hcurrent
      cases hcurrent
    · exact .inl (congrArg Prod.snd (Stacks.resume_of_some hnone t))
  | stop t =>
    by_cases hstate : s.state t = .running
    · exact .inl (congrArg Prod.snd (Stacks.stop_of_running hstate))
    · exact .inr ⟨t, rfl, congrArg Prod.snd (Stacks.stop_of_not_running hstate)⟩
  | yield =>
    cases hsome : s.currentVmThread with
    | none => exact .inl (congrArg Prod.snd (Stacks.yield_of_none hsome))
    | some t =>
      rw [Stacks.step, show ThreadCall.perform .yield = Stacks.yield from rfl,
        Stacks.yield_of_some hsome, hsome] at hcurrent
      cases hcurrent
  | return_ =>
    cases hrunner : l.runner with
    | none =>
      obtain ⟨n, hn⟩ := h.host hrunner
      exact .inl (congrArg Prod.snd (Stacks.return_of_host hn))
    | some p =>
      rw [Stacks.step, Stacks.return_of_guest (h.guest hrunner).1,
        h.current_of_guest hrunner] at hcurrent
      cases hcurrent

/-- The running thread is left, suspended or stopped. -/
theorem Represents.step_of_exits {s : Stacks} {l : LifeCycle} (h : Represents s l) {t : ThreadId}
    (hcurrent : s.currentVmThread = some t) :
    s.step .yield = s.left t .suspended ∧ s.step .return_ = s.left t .stopped := by
  refine ⟨congrArg Prod.snd (Stacks.yield_of_some hcurrent), ?_⟩
  rw [h.current, Option.map_eq_some_iff] at hcurrent
  obtain ⟨⟨u, n⟩, hrunner, rfl⟩ := hcurrent
  exact congrArg Prod.snd (Stacks.return_of_guest (h.guest hrunner).1)

/-- An OS thread: what the runtime knows of its `VMThread`s, and the processor. -/
structure OsThread (R : Type) where
  threads : Stacks
  cpu : Cpu R
  /-- The context that was saved last in each `ThreadStack`. -/
  origin : ThreadStack → Origin R

namespace OsThread

variable (P : Placement k) (h : OsThread R)

/-- The context that `Resume` goes on with. -/
def entering (t : ThreadId) : Origin R :=
  if h.threads.state t = .stopped then .fresh (P.thread t) (P.initialSp t)
  else h.origin (.myThreadState t)

/-- Memory when `Resume` has filled in the context of a stopped thread. -/
def prepared (t : ThreadId) (m : Memory) : Memory :=
  if h.threads.state t = .stopped then k.initializeVMThreadStackState
    (P.threadStack (.myThreadState t)) (P.thread t) (P.stackBase t) (P.stackSize t) m
  else m

/-- `Resume` gets to its call of `WasmccSwitch`, from memory `m` at its start. -/
structure Enters (t : ThreadId) (m : Memory) (c : Cpu R) : Prop where
  created : P.created t
  outside : h.threads.currentVmThread = none
  before : P.Kept h.threads.Live h.origin h.cpu.mem m
  after : P.Kept (fun p => h.threads.Live p ∨ p = .myThreadState t)
    (Function.update h.origin (.myThreadState t) (h.entering P t)) (h.prepared P t m) c.mem
  calls : P.Calls c (.mainThreadState t) (.myThreadState t)

/-- The function of thread `t` yields or returns, and gets to its call of `WasmccSwitch`. -/
structure Exits (t : ThreadId) (c : Cpu R) : Prop where
  current : h.threads.currentVmThread = some t
  before : P.Kept h.threads.Live h.origin h.cpu.mem c.mem
  calls : P.Calls c (.myThreadState t) (.mainThreadState t)

/-- What is known when thread `t` is entered from `c`, and executes in state `c'`. -/
def entered (t : ThreadId) (c c' : Cpu R) : OsThread R where
  threads := h.threads.step (.resume t)
  cpu := c'
  origin := Function.update (Function.update h.origin (.myThreadState t) (h.entering P t))
    (.mainThreadState t) (.caller c)

/-- What is known when thread `t` is left at `c` by a call. -/
def exited (call : ThreadCall) (t : ThreadId) (c c' : Cpu R) : OsThread R where
  threads := h.threads.step call
  cpu := c'
  origin := Function.update h.origin (.myThreadState t) (.caller c)

theorem entered_origin_main (t : ThreadId) (c c' : Cpu R) :
    (h.entered P t c c').origin (.mainThreadState t) = .caller c := Function.update_self ..

theorem entered_origin_my {t u : ThreadId} (hut : u ≠ t) (c c' : Cpu R) :
    (h.entered P t c c').origin (.myThreadState u) = h.origin (.myThreadState u) := by
  have hne : ThreadStack.myThreadState u ≠ .myThreadState t := by simpa using hut
  have hmain : ThreadStack.myThreadState u ≠ .mainThreadState t := nofun
  calc (h.entered P t c c').origin (.myThreadState u)
    _ = Function.update h.origin (.myThreadState t) (h.entering P t) (.myThreadState u) :=
      Function.update_of_ne hmain (.caller c) _
    _ = h.origin (.myThreadState u) := Function.update_of_ne hne _ _

theorem exited_origin_my (call : ThreadCall) (t : ThreadId) (c c' : Cpu R) :
    (h.exited call t c c').origin (.myThreadState t) = .caller c := Function.update_self ..

theorem exited_origin_of_ne {t : ThreadId} {p : ThreadStack} (hp : p ≠ .myThreadState t)
    (call : ThreadCall) (c c' : Cpu R) : (h.exited call t c c').origin p = h.origin p :=
  Function.update_of_ne hp _ _

/-- The code that executes makes a call. -/
inductive Step : ThreadCall → OsThread R → OsThread R → Prop
  | resume {h : OsThread R} {t : ThreadId} {m : Memory} {c c' : Cpu R}
      (henters : h.Enters P t m c) (hleaves : k.Leaves c c') :
      Step (.resume t) h (h.entered P t c c')
  | yield {h : OsThread R} {t : ThreadId} {c c' : Cpu R} (hexits : h.Exits P t c)
      (hleaves : k.Leaves c c') : Step .yield h (h.exited .yield t c c')
  | return_ {h : OsThread R} {t : ThreadId} {c c' : Cpu R} (hexits : h.Exits P t c)
      (hleaves : k.Leaves c c') : Step .return_ h (h.exited .return_ t c c')
  /-- A call that switches nothing. -/
  | stays {h : OsThread R} {call : ThreadCall} {c' : Cpu R}
      (hcurrent : (h.threads.step call).currentVmThread = h.threads.currentVmThread)
      (hkept : P.Kept h.threads.Live h.origin h.cpu.mem c'.mem) :
      Step call h ⟨h.threads.step call, c', h.origin⟩

/-! ### The invariant -/

/-- What holds of a context that waits. -/
structure Waits (p : ThreadStack) (o : Origin R) (m : Memory) : Prop where
  created : P.created p.thread
  holds : k.Holds m (P.threadStack p) o
  caller : ∃ c, o = .caller c ∧ k.Outside (k.returnAddress c)
  apart : ∀ q, P.created q.thread →
    Memory.Disjoint (P.threadStack q) k.threadStackBytes (k.originSp o) k.stackBytes
  others : ∀ t, P.created t → p ≠ .myThreadState t →
    Memory.Disjoint (P.initialSp t) k.stackBytes (k.originSp o) k.stackBytes

/-- Each context that is to be gone on with is in its `ThreadStack`. -/
structure Inv : Prop where
  represents : ∃ l, Represents h.threads l
  waits : ∀ p, h.threads.Live p → Waits P p (h.origin p) h.cpu.mem

variable {P h} {t : ThreadId} {call : ThreadCall}

theorem Waits.congr {p : ThreadStack} {o : Origin R} {m m' : Memory} (hw : Waits P p o m)
    (harea : Memory.AgreeOn m m' (P.threadStack p) k.threadStackBytes)
    (hstack : Memory.AgreeOn m m' (k.originSp o) k.stackBytes) : Waits P p o m' :=
  ⟨hw.created, k.holds_congr harea hstack hw.holds, hw.caller, hw.apart, hw.others⟩

/-- A context waits on while another one is saved. -/
theorem Waits.saved {p q : ThreadStack} {o : Origin R} {m m' : Memory} (hw : Waits P p o m)
    (hq : P.created q.thread) (hpq : q ≠ p)
    (hkept : ∀ b, ¬Memory.InRange (P.threadStack q) k.threadStackBytes b → m' b = m b) :
    Waits P p o m' :=
  hw.congr (Memory.agreeOn_of_disjoint hkept (P.apart q p hq hw.created hpq))
    (Memory.agreeOn_of_disjoint hkept (hw.apart q hq))

/-- A context waits on while that of another thread is filled in. -/
theorem Waits.prepared {p : ThreadStack} {o : Origin R} {m : Memory} (hw : Waits P p o m)
    {t : ThreadId} (ht : P.created t) (hp : p ≠ .myThreadState t) :
    Waits P p o (h.prepared P t m) := by
  unfold OsThread.prepared
  by_cases hstate : h.threads.state t = .stopped
  · rw [if_pos hstate]
    -- what is filled in is the `ThreadStack` of `t` and the first word of its stack
    have hkept : ∀ a n, Memory.Disjoint (P.threadStack (.myThreadState t)) k.threadStackBytes a n →
        Memory.Disjoint (P.initialSp t) k.stackBytes a n →
        Memory.AgreeOn m (k.initializeVMThreadStackState (P.threadStack (.myThreadState t))
          (P.thread t) (P.stackBase t) (P.stackSize t) m) a n := by
      intro a n harea hstack b hb
      exact (k.initialized_outside (P.thread t) m (fun hin => harea b hin hb)
        fun hin => hstack b hin hb).symm
    exact hw.congr
      (hkept _ _ (P.apart _ _ ht hw.created (Ne.symm hp)) (P.stack_apart t p ht hw.created).symm)
      (hkept _ _ (hw.apart (.myThreadState t) ht) (hw.others t ht hp))
  · rw [if_neg hstate]
    exact hw

theorem Waits.of_calls {c : Cpu R} {source target : ThreadStack} (hcalls : P.Calls c source target)
    (hsource : P.created source.thread) {m : Memory}
    (hholds : k.Holds m (c.reg k.argument₀) (.caller c)) :
    Waits P source (.caller c) m :=
  ⟨hsource, hcalls.argument₀ ▸ hholds, ⟨c, rfl, hcalls.returns⟩, hcalls.apart, hcalls.others⟩

/-- A switch to a context that is in its `ThreadStack`. -/
theorem arrives_of_calls {c : Cpu R} {source target : ThreadStack} {o : Origin R}
    (hcalls : P.Calls c source target) (hne : source ≠ target)
    (hsource : P.created source.thread) (htarget : P.created target.thread)
    (hholds : k.Holds c.mem (P.threadStack target) o)
    (hout : ∀ d, o = .caller d → k.Outside (k.returnAddress d))
    (hstack : Memory.Disjoint (P.threadStack source) k.threadStackBytes (k.originSp o)
      k.stackBytes) :
    ∃ c', k.Leaves c c' ∧ k.Arrived k.vmThreadStart k.dummyReturnAddress o c' ∧
      Waits P source (.caller c) c'.mem ∧
      ∀ b, ¬Memory.InRange (P.threadStack source) k.threadStackBytes b → c'.mem b = c.mem b := by
  obtain ⟨hpc, harg₀, harg₁, -, hapart, -⟩ := id hcalls
  -- the two areas are apart, so what is saved does not touch what is restored
  obtain ⟨c', hleaves, harrived, hsaved, hkept⟩ := k.switches hpc (harg₁ ▸ hholds) hout
    (by rw [harg₀, harg₁]; exact P.apart _ _ hsource htarget hne) (harg₀ ▸ hapart source hsource)
    (harg₀ ▸ hstack)
  exact ⟨c', hleaves, harrived, .of_calls hcalls hsource hsaved, harg₀ ▸ hkept⟩

namespace Inv

theorem not_running (hinv : h.Inv P) (hcurrent : h.threads.currentVmThread = none) (t : ThreadId) :
    h.threads.state t ≠ .running := by
  obtain ⟨l, hl⟩ := hinv.represents
  intro hrunning
  rw [hl.state_iff_current, hcurrent] at hrunning
  cases hrunning

/-- What is resumed is stopped or suspended. -/
theorem live_of_not_stopped (hinv : h.Inv P) (hcurrent : h.threads.currentVmThread = none)
    {t : ThreadId} (hstate : h.threads.state t ≠ .stopped) : h.threads.Live (.myThreadState t) := by
  have hrunning := hinv.not_running hcurrent t
  show h.threads.state t = .suspended
  cases hs : h.threads.state t with
  | stopped => exact absurd hs hstate
  | suspended => rfl
  | running => exact absurd hs hrunning

theorem waits_of_kept (hinv : h.Inv P) {m : Memory}
    (hkept : P.Kept h.threads.Live h.origin h.cpu.mem m) {p : ThreadStack} (hp : h.threads.Live p) :
    Waits P p (h.origin p) m :=
  (hinv.waits p hp).congr (hkept p hp).1 (hkept p hp).2

/-- The context that is entered is in its `ThreadStack` when `WasmccSwitch` is called. -/
theorem holds_entering (hinv : h.Inv P) {t : ThreadId} {m : Memory} {c : Cpu R}
    (henters : h.Enters P t m c) :
    k.Holds c.mem (P.threadStack (.myThreadState t)) (h.entering P t) := by
  obtain ⟨harea, hstack⟩ := henters.after (.myThreadState t) (.inr rfl)
  rw [Function.update_self] at hstack
  refine k.holds_congr harea hstack ?_
  unfold OsThread.entering OsThread.prepared
  by_cases hstate : h.threads.state t = .stopped
  · rw [if_pos hstate, if_pos hstate]
    -- a stopped thread was initialized just now
    have hapart := P.stack_apart t (.myThreadState t) henters.created henters.created
    exact k.holds_initialized (P.thread t) m hapart.symm
  · rw [if_neg hstate, if_neg hstate]
    -- a suspended one has been waiting
    exact (hinv.waits_of_kept henters.before
      (hinv.live_of_not_stopped henters.outside hstate)).holds

theorem entering_apart (hinv : h.Inv P) {t : ThreadId} (hcurrent : h.threads.currentVmThread = none)
    {p : ThreadStack} (ht : P.created t) (hp : P.created p.thread) :
    Memory.Disjoint (P.threadStack p) k.threadStackBytes (k.originSp (h.entering P t))
      k.stackBytes := by
  unfold OsThread.entering
  by_cases hstate : h.threads.state t = .stopped
  · rw [if_pos hstate]
    exact P.stack_apart t p ht hp
  · rw [if_neg hstate]
    exact (hinv.waits _ (hinv.live_of_not_stopped hcurrent hstate)).apart p hp

theorem entering_returns (hinv : h.Inv P) {t : ThreadId}
    (hcurrent : h.threads.currentVmThread = none) {d : Cpu R} (hd : h.entering P t = .caller d) :
    k.Outside (k.returnAddress d) := by
  unfold OsThread.entering at hd
  by_cases hstate : h.threads.state t = .stopped
  · rw [if_pos hstate] at hd
    cases hd
  · rw [if_neg hstate] at hd
    obtain ⟨c, hc, hout⟩ := (hinv.waits _ (hinv.live_of_not_stopped hcurrent hstate)).caller
    rw [hd] at hc
    cases hc
    exact hout

/-- **Resume goes on with the thread**, and leaves its own context behind. -/
theorem enters (hinv : h.Inv P) {t : ThreadId} {m : Memory} {c : Cpu R}
    (henters : h.Enters P t m c) :
    ∃ c', k.Leaves c c' ∧
      k.Arrived k.vmThreadStart k.dummyReturnAddress (h.entering P t) c' ∧
      Waits P (.mainThreadState t) (.caller c) c'.mem ∧
      ∀ b, ¬Memory.InRange (P.threadStack (.mainThreadState t)) k.threadStackBytes b →
        c'.mem b = c.mem b :=
  arrives_of_calls henters.calls nofun henters.created henters.created (hinv.holds_entering henters)
    (fun _ hd => hinv.entering_returns henters.outside hd)
    (hinv.entering_apart henters.outside henters.created henters.created)

/-- **Yielding and returning go on with who had resumed the thread.** -/
theorem exits (hinv : h.Inv P) {t : ThreadId} {c : Cpu R} (hexits : h.Exits P t c) :
    ∃ c', k.Leaves c c' ∧
      k.Arrived k.vmThreadStart k.dummyReturnAddress (h.origin (.mainThreadState t)) c' ∧
      Waits P (.myThreadState t) (.caller c) c'.mem ∧
      ∀ b, ¬Memory.InRange (P.threadStack (.myThreadState t)) k.threadStackBytes b →
        c'.mem b = c.mem b := by
  -- the host has been waiting since the thread was entered
  have hmain := hinv.waits_of_kept hexits.before
    (show h.threads.Live (.mainThreadState t) from hexits.current)
  refine arrives_of_calls hexits.calls nofun hmain.created hmain.created hmain.holds ?_
    (hmain.apart _ hmain.created)
  intro d hd
  obtain ⟨e, he, hout⟩ := hmain.caller
  rw [hd] at he
  cases he
  exact hout

/-! ### Every run -/

theorem init (hthreads : h.threads = {}) : h.Inv P where
  represents := ⟨{}, by rw [hthreads]; exact .init⟩
  waits p hp := by
    rw [hthreads] at hp
    cases p <;> cases hp

/-- A thread is entered: the code that resumed it waits, as the suspended threads go on to do. -/
theorem step_resume (hinv : h.Inv P) {m : Memory} {c c' : Cpu R} (henters : h.Enters P t m c)
    (hleaves : k.Leaves c c') : (h.entered P t c c').Inv P := by
  obtain ⟨l, hl⟩ := hinv.represents
  obtain ⟨c'', hleaves', -, hmain, hkept⟩ := hinv.enters henters
  obtain rfl := k.unique hleaves' hleaves
  refine ⟨⟨_, (hl.perform (.resume t)).2⟩, fun p hp => ?_⟩
  have hthreads : (h.entered P t c c'').threads = h.threads.entered t :=
    congrArg Prod.snd (Stacks.resume_of_none henters.outside t)
  rw [hthreads] at hp
  cases p with
  | mainThreadState u =>
    -- who resumed the thread waits with the context that was just saved
    obtain rfl : t = u := Option.some.inj hp
    rw [entered_origin_main]
    exact hmain
  | myThreadState u =>
    -- a suspended thread is another one, whose context stays where it is
    have hut : u ≠ t := by
      rintro rfl
      have hrunning : Function.update h.threads.state u .running u = .suspended := hp
      rw [Function.update_self] at hrunning
      cases hrunning
    have hlive : h.threads.Live (.myThreadState u) :=
      (Function.update_of_ne hut _ _).symm.trans hp
    have hne : ThreadStack.myThreadState u ≠ .myThreadState t := by simpa using hut
    obtain ⟨harea, hstack⟩ := henters.after _ (.inl hlive)
    rw [Function.update_of_ne hne] at hstack
    rw [entered_origin_my P h hut]
    have hwaits := (hinv.waits_of_kept henters.before hlive).prepared (h := h) henters.created hne
    exact (hwaits.congr harea hstack).saved (q := .mainThreadState t) henters.created nofun hkept

/-- A thread is left: it waits if it yielded. -/
theorem step_exits (hinv : h.Inv P) {state : VMThread.State} {c c' : Cpu R}
    (hexits : h.Exits P t c) (hleaves : k.Leaves c c')
    (hthreads : h.threads.step call = h.threads.left t state) : (h.exited call t c c').Inv P := by
  obtain ⟨l, hl⟩ := hinv.represents
  obtain ⟨c'', hleaves', -, hmy, hkept⟩ := hinv.exits hexits
  obtain rfl := k.unique hleaves' hleaves
  refine ⟨⟨_, (hl.perform call).2⟩, fun p hp => ?_⟩
  rw [show (h.exited call t c c'').threads = h.threads.left t state from hthreads] at hp
  cases p with
  -- nobody runs, so no context of a host waits
  | mainThreadState u => cases hp
  | myThreadState u =>
    -- the thread that was left waits, if it yielded; others wait as before
    by_cases hut : u = t
    · subst hut
      rw [exited_origin_my]
      exact hmy
    · have hne : ThreadStack.myThreadState u ≠ .myThreadState t := by simpa using hut
      have hlive : h.threads.Live (.myThreadState u) :=
        (Function.update_of_ne hut _ _).symm.trans hp
      rw [exited_origin_of_ne h hne]
      exact (hinv.waits_of_kept hexits.before hlive).saved hmy.created hne.symm hkept

theorem live_of_stays (hinv : h.Inv P)
    (hcurrent : (h.threads.step call).currentVmThread = h.threads.currentVmThread)
    {p : ThreadStack} (hp : (h.threads.step call).Live p) : h.threads.Live p := by
  obtain ⟨l, hl⟩ := hinv.represents
  obtain hsame | ⟨u, -, hstop⟩ := hl.step_of_stays hcurrent
  · rwa [hsame] at hp
  · rw [hstop] at hp
    cases p with
    | mainThreadState t => exact hp
    | myThreadState t =>
      -- a thread that was stopped is not suspended any more
      have hut : t ≠ u := by
        rintro rfl
        have hstopped : Function.update h.threads.state t .stopped t = .suspended := hp
        rw [Function.update_self] at hstopped
        cases hstopped
      exact (Function.update_of_ne hut _ _).symm.trans hp

/-- **Every call keeps the contexts.** -/
theorem step (hinv : h.Inv P) {h' : OsThread R} (hstep : Step P call h h') : h'.Inv P := by
  obtain ⟨l, hl⟩ := hinv.represents
  cases hstep with
  | resume henters hleaves => exact hinv.step_resume henters hleaves
  | yield hexits hleaves =>
    exact hinv.step_exits hexits hleaves (hl.step_of_exits hexits.current).1
  | return_ hexits hleaves =>
    exact hinv.step_exits hexits hleaves (hl.step_of_exits hexits.current).2
  | stays hcurrent hkept =>
    refine ⟨⟨_, (hl.perform call).2⟩, fun p hp => ?_⟩
    exact hinv.waits_of_kept hkept (hinv.live_of_stays hcurrent hp)

theorem run (hinv : h.Inv P) {h' : OsThread R} {calls : List ThreadCall}
    (hrun : Basis.Path (Step P) h calls h') : h'.Inv P := by
  induction hrun with
  | nil => exact hinv
  | cons hstep _ ih => exact ih (hinv.step hstep)

/-- Calls that do not concern a suspended thread leave its context as it is. -/
theorem suspended_step (hinv : h.Inv P) {h' : OsThread R} (hstep : Step P call h h')
    (hresume : call ≠ .resume t) (hstop : call ≠ .stop t)
    (hstate : h.threads.state t = .suspended) : h'.threads.state t = .suspended ∧
      h'.origin (.myThreadState t) = h.origin (.myThreadState t) := by
  obtain ⟨l, hl⟩ := hinv.represents
  -- who leaves runs, so it is another thread
  have hexits {u : ThreadId} {state : VMThread.State} {call : ThreadCall} {c c' : Cpu R}
      (hcurrent : h.threads.currentVmThread = some u)
      (hthreads : h.threads.step call = h.threads.left u state) :
      (h.exited call u c c').threads.state t = .suspended ∧
        (h.exited call u c c').origin (.myThreadState t) = h.origin (.myThreadState t) := by
    have htu : t ≠ u := by
      rintro rfl
      rw [(hl.state_iff_current t).mpr hcurrent] at hstate
      cases hstate
    refine ⟨?_, exited_origin_of_ne h (by simpa using htu) _ _ _⟩
    rw [show (h.exited call u c c').threads = h.threads.left u state from hthreads]
    exact (Function.update_of_ne htu _ _).trans hstate
  cases hstep with
  | @resume _ u m c c' henters hleaves =>
    have htu : t ≠ u := fun heq => hresume (congrArg _ heq.symm)
    refine ⟨?_, entered_origin_my P h htu _ _⟩
    have hthreads : (h.entered P u c c').threads = h.threads.entered u :=
      congrArg Prod.snd (Stacks.resume_of_none henters.outside u)
    rw [hthreads]
    exact (Function.update_of_ne htu _ _).trans hstate
  | yield hexit _ => exact hexits hexit.current (hl.step_of_exits hexit.current).1
  | return_ hexit _ => exact hexits hexit.current (hl.step_of_exits hexit.current).2
  | stays hcurrent _ =>
    refine ⟨?_, rfl⟩
    obtain hsame | ⟨u, rfl, hstopped⟩ := hl.step_of_stays hcurrent
    · show (h.threads.step call).state t = .suspended
      rw [hsame]
      exact hstate
    · have htu : t ≠ u := fun heq => hstop (congrArg _ heq.symm)
      show (h.threads.step (.stop u)).state t = .suspended
      rw [hstopped]
      exact (Function.update_of_ne htu _ _).trans hstate

theorem suspended_run (hinv : h.Inv P) {h' : OsThread R} {calls : List ThreadCall}
    (hrun : Basis.Path (Step P) h calls h') (hresume : .resume t ∉ calls) (hstop : .stop t ∉ calls)
    (hstate : h.threads.state t = .suspended) : h'.threads.state t = .suspended ∧
      h'.origin (.myThreadState t) = h.origin (.myThreadState t) := by
  induction hrun with
  | nil => exact ⟨hstate, rfl⟩
  | cons hstep _ ih =>
    rw [List.mem_cons, not_or] at hresume hstop
    obtain ⟨hstate', horigin⟩ :=
      hinv.suspended_step hstep (Ne.symm hresume.1) (Ne.symm hstop.1) hstate
    obtain ⟨hstate'', horigin'⟩ := ih (hinv.step hstep) hresume.2 hstop.2 hstate'
    exact ⟨hstate'', horigin'.trans horigin⟩

end Inv

/-- No `VMThread` has run. -/
def idle (c : Cpu R) : OsThread R := ⟨{}, c, fun _ => .fresh 0 0⟩

/-- Code that leaves memory alone can resume a thread, which yields, and resume it again. -/
theorem exists_resume_again {c d : Cpu R} (ht : P.created t) {m : Memory}
    (hmem : c.mem = k.initializeVMThreadStackState (P.threadStack (.myThreadState t)) (P.thread t)
      (P.stackBase t) (P.stackSize t) m)
    (hresumes : ∀ m', P.AgreeElsewhere t c.mem m' →
      P.Calls { c with mem := m' } (.mainThreadState t) (.myThreadState t))
    (hyields : ∀ m', P.AgreeElsewhere t c.mem m' →
      P.Calls { d with mem := m' } (.myThreadState t) (.mainThreadState t)) :
    ∃ h' : OsThread R, Basis.Path (Step P) (idle c) [.resume t, .yield, .resume t] h' := by
  -- the thread is stopped, so its context is filled in first
  have henters : (idle c).Enters P t m c := by
    refine ⟨ht, rfl, ?_, ?_, hresumes c.mem fun _ _ => rfl⟩
    · intro p hp
      cases p <;> cases hp
    · have hprepared : (idle c).prepared P t m = c.mem := (if_pos rfl).trans hmem.symm
      rw [hprepared]
      exact Placement.kept_self _ _ _
  obtain ⟨c', hleaves, -, -, hkept⟩ := (Inv.init rfl).enters henters
  have hinv := (Inv.init rfl).step_resume henters hleaves
  have hthreads : ((idle c).entered P t c c').threads = Stacks.entered {} t :=
    congrArg Prod.snd (Stacks.resume_of_none rfl t)
  have hagree : P.AgreeElsewhere t c.mem c'.mem := fun b hb => hkept b (hb (.mainThreadState t) rfl)
  -- the thread yields
  have hexits : ((idle c).entered P t c c').Exits P t { d with mem := c'.mem } :=
    ⟨by rw [hthreads]; rfl, Placement.kept_self _ _ _, hyields c'.mem hagree⟩
  obtain ⟨d', hleaves', -, -, hkept'⟩ := hinv.exits hexits
  obtain ⟨l, hl⟩ := hinv.represents
  have hleft := (hl.step_of_exits hexits.current).1
  have hinv' := hinv.step_exits hexits hleaves' hleft
  have hagree' : P.AgreeElsewhere t c.mem d'.mem := fun b hb =>
    (hkept' b (hb (.myThreadState t) rfl)).trans (hagree b hb)
  -- it is suspended now, and resumed as it is
  have hthreads' : (((idle c).entered P t c c').exited .yield t { d with mem := c'.mem }
      d').threads = (Stacks.entered {} t).left t .suspended := by
    rw [← hthreads]
    exact hleft
  have hstate : ((Stacks.entered {} t).left t .suspended).state t = .suspended :=
    Function.update_self ..
  have henters' : (((idle c).entered P t c c').exited .yield t { d with mem := c'.mem }
      d').Enters P t d'.mem { c with mem := d'.mem } := by
    refine ⟨ht, by rw [hthreads']; rfl, Placement.kept_self _ _ _, ?_, hresumes d'.mem hagree'⟩
    rw [OsThread.prepared, hthreads', hstate, if_neg (by decide)]
    exact Placement.kept_self _ _ _
  obtain ⟨c'', hleaves'', -⟩ := hinv'.enters henters'
  exact ⟨_, .cons (.resume henters hleaves)
    (.cons (.yield hexits hleaves') (.cons (.resume henters' hleaves'') .nil))⟩

/-- While a thread runs, the context of who resumed it stays. -/
theorem current_run {h' : OsThread R} {calls : List ThreadCall}
    (hrun : Basis.Path (Step P) h calls h') (hyield : .yield ∉ calls) (hreturn : .return_ ∉ calls)
    (hcurrent : h.threads.currentVmThread = some t) : h'.origin = h.origin := by
  induction hrun with
  | nil => rfl
  | cons hstep _ ih =>
    rw [List.mem_cons, not_or] at hyield hreturn
    cases hstep with
    | resume henters _ =>
      -- no thread is entered from inside of another one
      rw [henters.outside] at hcurrent
      cases hcurrent
    | yield _ _ => exact absurd rfl hyield.1
    | return_ _ _ => exact absurd rfl hreturn.1
    | stays hsame _ => exact ih hyield.2 hreturn.2 (hsame.trans hcurrent)

/-- What a context switch is for, from this state on. -/
structure SwitchesRight (P : Placement k) (h : OsThread R) : Prop where
  /-- A stopped thread starts, on its own stack. -/
  starts {t : ThreadId} {m : Memory} {c : Cpu R} : h.Enters P t m c →
    h.threads.state t = .stopped → ∃ c', k.Leaves c c' ∧
      k.Started k.vmThreadStart (P.thread t) (P.initialSp t) k.dummyReturnAddress c'
  /-- A thread that yields goes on from there when it is resumed, whatever is called before. -/
  continues {t : ThreadId} {c c' d : Cpu R} {m : Memory} {calls : List ThreadCall}
    {h' : OsThread R} : h.Exits P t c → k.Leaves c c' →
    Basis.Path (Step P) (h.exited .yield t c c') calls h' → .resume t ∉ calls → .stop t ∉ calls →
    h'.Enters P t m d → ∃ d', k.Leaves d d' ∧ k.Returned c d'
  /-- Who resumes a thread goes on from there when it is left. -/
  returns {t : ThreadId} {c c' d : Cpu R} {m : Memory} {calls : List ThreadCall}
    {h' : OsThread R} : h.Enters P t m c → k.Leaves c c' →
    Basis.Path (Step P) (h.entered P t c c') calls h' → .yield ∉ calls → .return_ ∉ calls →
    h'.Exits P t d → ∃ d', k.Leaves d d' ∧ k.Returned c d'

theorem Inv.switchesRight (hinv : h.Inv P) : h.SwitchesRight P where
  starts := by
    intro t m c henters hstate
    obtain ⟨c', hleaves, harrived, -⟩ := hinv.enters henters
    rw [entering, if_pos hstate] at harrived
    exact ⟨c', hleaves, harrived⟩
  continues := by
    intro t c c' d m calls h' hexits hleaves hrun hresume hstop henters
    obtain ⟨l, hl⟩ := hinv.represents
    have hinv₁ := hinv.step (.yield hexits hleaves)
    have hstate : (h.exited .yield t c c').threads.state t = .suspended := by
      rw [show (h.exited .yield t c c').threads = h.threads.left t .suspended from
        (hl.step_of_exits hexits.current).1]
      exact Function.update_self ..
    -- in between nobody touches the context that was saved by the `Yield`
    obtain ⟨hstate', horigin⟩ := hinv₁.suspended_run hrun hresume hstop hstate
    obtain ⟨d', hleaves', harrived, -⟩ := (hinv₁.run hrun).enters henters
    rw [entering, if_neg (by rw [hstate']; decide), horigin, exited_origin_my] at harrived
    exact ⟨d', hleaves', harrived⟩
  returns := by
    intro t c c' d m calls h' henters hleaves hrun hyield hreturn hexits
    have hinv₁ := hinv.step (.resume henters hleaves)
    -- the thread runs until it is left, and the host waits
    have hcurrent : (h.entered P t c c').threads.currentVmThread = some t := by
      rw [show (h.entered P t c c').threads = h.threads.entered t from
        congrArg Prod.snd (Stacks.resume_of_none henters.outside t)]
      rfl
    obtain ⟨d', hleaves', harrived, -⟩ := (hinv₁.run hrun).exits hexits
    rw [current_run hrun hyield hreturn hcurrent, entered_origin_main] at harrived
    exact ⟨d', hleaves', harrived⟩

end OsThread

end Wasmcc
