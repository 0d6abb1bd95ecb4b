import Wasmcc.Runtime.Execution

/-!
# Several VMs on one OS thread

A host may have several VMs and call them in turns: while the function of one is suspended, another
one is invoked or executed. All of them share the OS thread, with its `current_vm_thread`, and the
list of computations.

`Solo` is a VM by itself, with nothing of this: the computations that its host has made, each with
the number of segments that ran, and how often the last one is still to be executed. It also answers
the calls that come too early. `Session.Shows` relates a VM of the world to it, `Host.Shows.step`
says that a call keeps the relation for the VM that is called and for all others, and
`vms_run_apart` that a VM in any interleaving comes to what its own calls lead to.
-/

open Basis

namespace Wasmcc

open Effect

variable {ρ : Type}

/-- A host with several VMs, each with the computation that it was invoked for last. -/
structure Host (ρ : Type) where
  world : World (Invocation ρ) := {}
  handle : ℕ → Option ℕ := fun _ => none
  result : ℕ → Option ρ := fun _ => none
  ran : List (ℕ × ℕ) := []

namespace Host

/-- The session that the host has with VM `v`. -/
def view (h : Host ρ) (v : ℕ) : Session ρ := ⟨h.world, h.handle v, h.result, h.ran⟩

/-- A call on VM `v`. -/
def perform (v : ℕ) (call : HostCall ρ) : Effect RuntimeError (Host ρ) Answer :=
  fun h =>
    let s := (call.perform v (h.view v)).2
    ((call.perform v (h.view v)).1,
      ⟨s.world, Function.update h.handle v s.handle, s.result, s.ran⟩)

def step (h : Host ρ) (c : ℕ × HostCall ρ) : Host ρ := (perform c.1 c.2 h).2

end Host

/-! ### A VM by itself -/

/-- A computation, by how many segments of its function ran. -/
structure Progress (ρ : Type) where
  body : Body ρ
  ran : ℕ := 0
deriving DecidableEq, Repr

/-- The segments of the function that ran, and the result if it has returned. -/
def Progress.entry (p : Progress ρ) : List ℕ × Option ρ :=
  (List.range p.ran, if p.ran = p.body.yields + 1 then some p.body.result else none)

/-- A VM with nothing around it. -/
structure Solo (ρ : Type) where
  earlier : List (Progress ρ) := []
  last : Option (Progress ρ) := none
  /-- How many more times the last computation is to be executed. -/
  left : ℕ := 0

namespace Solo

def step (a : Solo ρ) : HostCall ρ → Solo ρ
  | .invoke body =>
    if a.left = 0 then ⟨a.earlier ++ a.last.toList, some { body }, body.yields + 1⟩ else a
  | .execute => { a with
      last := a.last.map fun p => { p with ran := p.ran + min 1 a.left }, left := a.left - 1 }
  | .cancel => { a with left := 0 }
  | .isDone => a

def answer (a : Solo ρ) : HostCall ρ → Except RuntimeError Answer
  | .invoke _ => if a.left = 0 then .ok .unit else .error .alreadyExecuting
  | .execute => .ok .unit
  | .cancel => .ok .unit
  | .isDone => .ok (if a.last.isSome then .bool (a.left = 0) else .unit)

/-- All computations of the VM, the oldest first. -/
def journal (a : Solo ρ) : List (List ℕ × Option ρ) :=
  (a.earlier ++ a.last.toList).map Progress.entry

end Solo

/-! ### A VM of the world -/

namespace Session

/-- The computations of VM `v`, by number. -/
def owned (s : Session ρ) (v : ℕ) : List ℕ :=
  (List.range s.world.computations.length).filter fun i => s.world.computations[i]? = some ⟨.vm v⟩

def entry (s : Session ρ) (i : ℕ) : List ℕ × Option ρ := (s.segments i, s.result i)

def journal (s : Session ρ) (v : ℕ) : List (List ℕ × Option ρ) := (s.owned v).map s.entry

/-- VM `v` has come to what `a` says. -/
inductive Shows (s : Session ρ) (v : ℕ) : Solo ρ → Prop
  | idle (hhandle : s.handle = none) (hidle : s.world.Idle v)
      (houtside : s.world.currentVmThread = none) (hfresh : s.Fresh) (howned : s.owned v = []) :
      Shows s v {}
  | live {earlier : List (Progress ρ)} {p : Progress ρ} {i r : ℕ} {js : List ℕ}
      (hat : s.At v i p.body p.ran r) (howned : s.owned v = js ++ [i])
      (hover : js.map s.entry = earlier.map Progress.entry) : Shows s v ⟨earlier, some p, r⟩

/-- Nothing that is of VM `v` has changed, and the host is outside any `VMThread` again. -/
structure LeavesAlone (s : Session ρ) (v : ℕ) (s' : Session ρ) : Prop where
  outside : s'.world.currentVmThread = none
  vm : s'.world.vm v = s.world.vm v
  thread : s'.world.thread (.vm v) = s.world.thread (.vm v)
  owned : s'.owned v = s.owned v
  spares : ∀ j ∈ s.owned v, s.Spares j s'
  fresh : s'.Fresh

variable {s s' : Session ρ} {v u i j k r : ℕ} {body : Body ρ} {a : Solo ρ}

theorem mem_owned : j ∈ s.owned v ↔ s.world.computations[j]? = some ⟨.vm v⟩ := by
  unfold owned
  rw [List.mem_filter, List.mem_range, decide_eq_true_iff]
  exact and_iff_right_of_imp fun h => (List.getElem?_eq_some_iff.mp h).1

theorem lt_of_mem_owned (h : j ∈ s.owned v) : j < s.world.computations.length :=
  (List.getElem?_eq_some_iff.mp (mem_owned.mp h)).1

/-- A computation is of one VM. -/
theorem not_mem_owned (h : j ∈ s.owned u) (huv : u ≠ v) : j ∉ s.owned v := by
  intro hv
  have hsame := (mem_owned.mp h).symm.trans (mem_owned.mp hv)
  simp only [Option.some.injEq, DynamicComputation.mk.injEq, ThreadId.vm.injEq] at hsame
  exact huv hsame

theorem nodup_owned (s : Session ρ) (v : ℕ) : (s.owned v).Nodup :=
  List.nodup_range.filter _

/-- What a computation has come to depends on what was done for it. -/
theorem Spares.entry (h : s.Spares j s') : s'.entry j = s.entry j := Prod.ext h.1 h.2

theorem owned_congr (h : s'.world.computations = s.world.computations) :
    s'.owned v = s.owned v := by
  unfold owned
  rw [h]

/-- One more computation was made, which is of VM `u`. -/
theorem owned_append (h : s'.world.computations = s.world.computations ++ [⟨.vm u⟩]) :
    s'.owned v = s.owned v ++ if u = v then [s.world.computations.length] else [] := by
  -- the computations before keep their numbers
  have hold : ∀ j ∈ List.range s.world.computations.length,
      (s'.world.computations[j]? = some ⟨.vm v⟩ ↔ s.world.computations[j]? = some ⟨.vm v⟩) := by
    intro j hj
    rw [h, List.getElem?_append_left (List.mem_range.mp hj)]
  have hnew : s'.world.computations[s.world.computations.length]? = some ⟨.vm u⟩ := by
    rw [h, List.getElem?_append_right (Nat.le_refl _), Nat.sub_self]
    rfl
  unfold owned
  rw [h, List.length_append, List.length_singleton, List.range_succ, List.filter_append, ← h]
  congr 1
  · exact List.filter_congr fun j hj => decide_eq_decide.mpr (hold j hj)
  · by_cases huv : u = v
    · simp [huv, hnew]
    · simp [huv, hnew]

/-! ### The calls on one VM -/

/-- What an accepted invocation leaves, all of it. -/
theorem step_invoke_of_idle (hidle : s.world.Idle v) (houtside : s.world.currentVmThread = none)
    (body : Body ρ) :
    s.step v (.invoke body) =
      ⟨VMImpl.invoked s.world v ⟨body, s.world.computations.length⟩,
        some s.world.computations.length,
        Function.update s.result s.world.computations.length none, s.ran⟩ := by
  have hworld := onWorld_of_eq
    (s := { s with result := Function.update s.result s.world.computations.length none })
    (VMImpl.invokeDynamic_of_host hidle houtside ⟨body, s.world.computations.length⟩)
  refine (snd_bind_pure (Session.invoke v body) (fun _ => Answer.unit) s).trans ?_
  unfold Session.invoke
  rw [get_bind, modify_bind, bind_of_ok hworld]
  rfl

/-- A refused invocation has cleared the result of a computation that is not made. -/
theorem invoke_of_busy (hbusy : ¬s.world.Idle v) (body : Body ρ) :
    (HostCall.invoke body).perform v s = (.error .alreadyExecuting,
      { s with result := Function.update s.result s.world.computations.length none }) := by
  have hworld := onWorld_of_eq
    (s := { s with result := Function.update s.result s.world.computations.length none })
    (VMImpl.invokeDynamic_of_busy hbusy ⟨body, s.world.computations.length⟩)
  have hinvoke : Session.invoke v body s = (.error .alreadyExecuting,
      { s with result := Function.update s.result s.world.computations.length none }) := by
    unfold Session.invoke
    rw [get_bind, modify_bind, bind_of_error hworld]
  exact bind_of_error hinvoke _

/-- A computation that is to be executed keeps its VM busy. -/
theorem At.busy (h : s.At v i body k (r + 1)) : ¬s.world.Idle v := by
  rintro ⟨-, hstopped⟩
  rw [(h.suspended r.succ_pos).1] at hstopped
  cases hstopped

/-- Without a computation, only invocations do anything. -/
theorem perform_of_none (hhandle : s.handle = none) {call : HostCall ρ}
    (hcall : ∀ b, call ≠ .invoke b) : call.perform v s = (.ok .unit, s) := by
  cases call with
  | invoke b => exact absurd rfl (hcall b)
  | _ =>
    unfold HostCall.perform
    simp only [get_bind, hhandle]
    rfl

/-- The host sees a live function run from one place to the next on the thread of its VM. -/
theorem At.execute_world (h : s.At v i body k (r + 1)) :
    ∃ state, (s.step v .execute).world = (s.world.resumed (.vm v)).left (.vm v) state := by
  have hfn : ((s.world.resumed (.vm v)).vm v).fn = some ⟨body, i⟩ := by
    show (s.world.vm v).fn = _
    rw [h.vm]
  have hplace : ((s.world.resumed (.vm v)).thread (.vm v)).myThreadState = k + 1 := by
    simp [World.resumed, (h.suspended r.succ_pos).1]
  have hperform : HostCall.execute.perform v s =
      (do Session.execute v i; pure .unit : Effect RuntimeError (Session ρ) Answer) s :=
    h.on_handle fun i => do Session.execute v i; pure .unit
  have hstep : s.step v .execute =
      (runGuest v { s with world := s.world.resumed (.vm v) }).2 := by
    rw [← h.execute_eq]
    exact (congrArg Prod.snd hperform).trans (snd_bind_pure _ _ s)
  rw [hstep]
  -- whether it yields or returns, the world is the resumed one, left by the thread
  by_cases hk : k < body.yields
  · have hrun := runGuest_of_lt (s := { s with world := s.world.resumed (.vm v) }) hfn rfl hplace hk
    exact ⟨.suspended, by rw [hrun]⟩
  · have hrun := runGuest_of_not_lt (s := { s with world := s.world.resumed (.vm v) }) hfn rfl
      hplace hk
    exact ⟨.stopped, by rw [hrun]⟩

/-- Of the world, a call on the last computation moves the thread of its VM and nothing else. -/
theorem At.world_step (h : s.At v i body k r) {call : HostCall ρ} (hcall : ∀ b, call ≠ .invoke b) :
    ∃ m, (s.step v call).world =
      ⟨none, Function.update s.world.thread (.vm v) m, s.world.vm, s.world.computations⟩ := by
  have hsame : s.world = ⟨none, Function.update s.world.thread (.vm v) (s.world.thread (.vm v)),
      s.world.vm, s.world.computations⟩ := by
    rw [Function.update_eq_self, ← h.outside]
  cases call with
  | invoke b => exact absurd rfl (hcall b)
  | isDone =>
    refine ⟨_, Eq.trans ?_ hsame⟩
    rw [Session.step, h.isDone]
  | cancel =>
    have hperform : HostCall.cancel.perform v s = onWorld (Call.perform (.cancel i)) s :=
      h.on_handle fun i => onWorld (Call.perform (.cancel i))
    have hworld : (s.step v .cancel).world = s.world.step (.cancel i) := by
      rw [Session.step, hperform]
      rfl
    rw [hworld, World.step_cancel h.computation]
    split_ifs with hstate
    · exact ⟨{ s.world.thread (.vm v) with state := .stopped }, by rw [← h.outside]; rfl⟩
    · exact ⟨_, hsame⟩
  | execute =>
    cases r with
    | zero =>
      refine ⟨_, Eq.trans ?_ hsame⟩
      rw [Session.step, h.execute_over]
    | succ r =>
      -- the thread is resumed, and it has been left when the host goes on
      obtain ⟨state, hworld⟩ := h.execute_world
      refine ⟨⟨state, ((s.world.resumed (.vm v)).thread (.vm v)).myThreadState + 1⟩, ?_⟩
      rw [hworld, World.left, World.resumed, Function.update_idem]

theorem At.execute_answer (h : s.At v i body k r) :
    (HostCall.execute.perform v s).1 = .ok .unit := by
  cases r with
  | zero => rw [h.execute_over]
  | succ r => exact h.execute.1

/-- Entries of computations that are spared. -/
theorem map_entry_congr {js : List ℕ} (h : ∀ j ∈ js, s.Spares j s') :
    js.map s'.entry = js.map s.entry :=
  List.map_congr_left fun j hj => (h j hj).entry

theorem At.entry {p : Progress ρ} (h : s.At v i p.body p.ran r) : s.entry i = p.entry :=
  Prod.ext h.ran h.result

/-- A result that is cleared for a computation that is not made does not matter. -/
theorem At.cleared (h : s.At v i body k r) {j : ℕ} (hj : s.world.computations.length ≤ j) :
    ({ s with result := Function.update s.result j none } : Session ρ).At v i body k r := by
  have hij : i ≠ j := Nat.ne_of_lt (Nat.lt_of_lt_of_le h.lt hj)
  exact ⟨h.outside, h.vm, h.computation, h.handle, h.stopped, h.suspended, h.ran,
    (Function.update_of_ne hij ..).trans h.result, h.fresh⟩

theorem spares_cleared (hj : j < s.world.computations.length) :
    s.Spares j
      { s with result := Function.update s.result s.world.computations.length none } :=
  ⟨rfl, Function.update_of_ne (Nat.ne_of_lt hj) ..⟩

theorem Shows.outside (h : s.Shows v a) : s.world.currentVmThread = none := by
  cases h with
  | idle _ _ houtside => exact houtside
  | live hat => exact hat.outside

/-- An invocation of a VM that is not busy. The computations that were made before are over. -/
theorem Shows.invoke_accepted (h : s.Shows v a) (hleft : a.left = 0) (body : Body ρ) :
    ((HostCall.invoke body).perform v s).1 = .ok .unit ∧
      (s.step v (.invoke body)).Shows v (a.step (.invoke body)) := by
  -- a VM with nothing left to execute is idle
  have hready : s.world.Idle v ∧ s.Fresh := by
    cases h with
    | idle _ hidle _ hfresh => exact ⟨hidle, hfresh⟩
    | live hat =>
      obtain rfl : _ = 0 := hleft
      exact ⟨⟨by rw [hat.vm], hat.stopped rfl⟩, hat.fresh⟩
  obtain ⟨hok, hat, hspares⟩ := invoke_of_idle hready.1 h.outside hready.2 body
  -- the new computation is the last one of this VM, and the earlier ones are as before
  have howned : (s.step v (.invoke body)).owned v =
      s.owned v ++ [s.world.computations.length] := by
    rw [owned_append (u := v) (by rw [step_invoke_of_idle hready.1 h.outside]; rfl), if_pos rfl]
  have hentries : (s.owned v).map (s.step v (.invoke body)).entry = (s.owned v).map s.entry :=
    map_entry_congr fun j hj => (hspares j (lt_of_mem_owned hj)).1
  refine ⟨hok, ?_⟩
  rw [Solo.step, if_pos hleft]
  refine .live hat howned (hentries.trans ?_)
  cases h with
  | idle _ _ _ _ hnone =>
    rw [hnone]
    rfl
  | live hat hsplit hover =>
    rw [hsplit, List.map_append, List.map_append, hover]
    exact congrArg (_ ++ [·]) hat.entry

/-- An invocation of a VM whose last computation is not over. -/
theorem Shows.invoke_refused (h : s.Shows v a) (hleft : a.left ≠ 0) (body : Body ρ) :
    ((HostCall.invoke body).perform v s).1 = .error .alreadyExecuting ∧
      (s.step v (.invoke body)).Shows v (a.step (.invoke body)) := by
  cases h with
  | idle => exact absurd rfl hleft
  | @live earlier p i r js hat howned hover =>
    obtain ⟨r, rfl⟩ := Nat.exists_eq_succ_of_ne_zero hleft
    have hrefused := invoke_of_busy hat.busy body
    rw [Session.step, hrefused, Solo.step, if_neg hleft]
    refine ⟨rfl, .live (hat.cleared (Nat.le_refl _)) howned (Eq.trans ?_ hover)⟩
    refine map_entry_congr fun j hj => spares_cleared (lt_of_mem_owned (v := v) ?_)
    rw [howned]
    exact List.mem_append_left _ hj

/-- **A call on a VM** answers what the VM by itself answers, and moves it in the same way. -/
theorem Shows.call (h : s.Shows v a) (call : HostCall ρ) :
    (call.perform v s).1 = a.answer call ∧ (s.step v call).Shows v (a.step call) := by
  by_cases hinvoke : ∃ b, call = .invoke b
  · obtain ⟨b, rfl⟩ := hinvoke
    unfold Solo.answer
    by_cases hleft : a.left = 0
    · rw [if_pos hleft]
      exact h.invoke_accepted hleft b
    · rw [if_neg hleft]
      exact h.invoke_refused hleft b
  · push Not at hinvoke
    cases h with
    | idle hhandle hidle houtside hfresh howned =>
      have hnothing := perform_of_none hhandle hinvoke (v := v)
      rw [Session.step, hnothing]
      have hshows : s.Shows v {} := .idle hhandle hidle houtside hfresh howned
      cases call with
      | invoke b => exact absurd rfl (hinvoke b)
      | _ => exact ⟨rfl, hshows⟩
    | @live earlier p i r js hat howned hover =>
      obtain ⟨⟨answer, hok⟩, hnext, honly⟩ := hat.step hinvoke
      -- the computations before the last one are others
      have hother : ∀ j ∈ js, j ≠ i := by
        have hnodup := nodup_owned s v
        rw [howned] at hnodup
        rintro j hj rfl
        exact (List.nodup_append.mp hnodup).2.2 j hj j (List.mem_singleton_self j) rfl
      have hover' : js.map (s.step v call).entry = earlier.map Progress.entry :=
        (map_entry_congr fun j hj => honly.spares j (hother j hj)).trans hover
      have howned' : (s.step v call).owned v = js ++ [i] :=
        (owned_congr honly.computations).trans howned
      cases call with
      | invoke b => exact absurd rfl (hinvoke b)
      | execute => exact ⟨hat.execute_answer, .live (p := ⟨p.body, _⟩) hnext howned' hover'⟩
      | cancel => exact ⟨hat.cancel.1, .live hnext howned' hover'⟩
      | isDone => exact ⟨congrArg Prod.fst hat.isDone, .live hnext howned' hover'⟩

/-! ### The other VMs -/

/-- An accepted invocation of VM `u` is nothing to the others. -/
theorem leavesAlone_accepted (huv : u ≠ v) (hready : s.world.Idle u)
    (houtside : s.world.currentVmThread = none) (hfresh : s.Fresh) (body : Body ρ) :
    s.LeavesAlone v (s.step u (.invoke body)) := by
  have hstep := step_invoke_of_idle hready houtside body
  obtain ⟨-, hat, hspares⟩ := invoke_of_idle hready houtside hfresh body
  have hthread : ThreadId.vm v ≠ .vm u := fun heq => huv (ThreadId.vm.inj heq).symm
  refine ⟨hat.outside, ?_, ?_, ?_, fun j hj => (hspares j (lt_of_mem_owned hj)).1, hat.fresh⟩
  · rw [hstep]
    exact Function.update_of_ne huv.symm ..
  · rw [hstep]
    exact Function.update_of_ne hthread ..
  · rw [owned_append (u := u) (by rw [hstep]; rfl), if_neg huv, List.append_nil]

/-- **A call on VM `u` leaves the others alone.** -/
theorem Shows.leavesAlone (h : s.Shows u a) (huv : u ≠ v) (call : HostCall ρ) :
    s.LeavesAlone v (s.step u call) := by
  -- an invocation makes a computation or is refused; other calls concern the last one
  by_cases hinvoke : ∃ b, call = .invoke b
  · obtain ⟨b, rfl⟩ := hinvoke
    by_cases hleft : a.left = 0
    · cases h with
      | idle _ hidle houtside hfresh => exact leavesAlone_accepted huv hidle houtside hfresh b
      | live hat =>
        obtain rfl : _ = 0 := hleft
        exact leavesAlone_accepted huv ⟨by rw [hat.vm], hat.stopped rfl⟩ hat.outside hat.fresh b
    · cases h with
      | idle => exact absurd rfl hleft
      | @live earlier p i r js hat =>
        obtain ⟨r, rfl⟩ := Nat.exists_eq_succ_of_ne_zero hleft
        rw [Session.step, invoke_of_busy hat.busy b]
        have hspares (j : ℕ) (hj : j ∈ s.owned v) := spares_cleared (lt_of_mem_owned hj)
        exact ⟨hat.outside, rfl, rfl, rfl, hspares, hat.fresh⟩
  · push Not at hinvoke
    cases h with
    | idle hhandle hidle houtside hfresh =>
      rw [Session.step, perform_of_none hhandle hinvoke]
      exact ⟨houtside, rfl, rfl, rfl, fun _ _ => ⟨rfl, rfl⟩, hfresh⟩
    | @live earlier p i r js hat howned =>
      obtain ⟨m, hworld⟩ := hat.world_step hinvoke
      obtain ⟨-, hnext, honly⟩ := hat.step hinvoke
      -- the computation belongs to `u`, so that its thread is not that of `v`
      have hthread : ThreadId.vm v ≠ .vm u := fun heq => huv (ThreadId.vm.inj heq).symm
      have hi : i ∉ s.owned v := not_mem_owned (mem_owned.mpr hat.computation) huv
      refine ⟨hnext.outside, ?_, ?_, owned_congr honly.computations, fun j hj => ?_, hnext.fresh⟩
      · rw [hworld]
      · rw [hworld]
        exact Function.update_of_ne hthread ..
      · exact honly.spares j fun hji => hi (hji ▸ hj)

/-- What leaves a VM alone and does not move its handle lets it be where it is. -/
theorem Shows.of_leavesAlone (h : s.Shows v a) (halone : s.LeavesAlone v s')
    (hhandle : s'.handle = s.handle) : s'.Shows v a := by
  cases h with
  | idle hnone hidle _ _ howned =>
    refine .idle (hhandle.trans hnone) ⟨?_, ?_⟩ halone.outside halone.fresh
      (halone.owned.trans howned)
    · rw [halone.vm, hidle.1]
    · rw [halone.thread, hidle.2]
  | @live earlier p i r js hat howned hover =>
    -- all that is shown is about computations of `v`
    have hmem : ∀ j ∈ js ++ [i], j ∈ s.owned v := fun j hj => howned ▸ hj
    have hi := halone.spares i (hmem i (by simp))
    refine .live (i := i) ⟨halone.outside, halone.vm.trans hat.vm, ?_,
      hhandle.trans hat.handle, fun hr => ?_, fun hr => ?_, hi.1.trans hat.ran,
      hi.2.trans hat.result, halone.fresh⟩ (halone.owned.trans howned) (Eq.trans ?_ hover)
    · exact mem_owned.mp (halone.owned ▸ hmem i (by simp))
    · rw [halone.thread, hat.stopped hr]
    · rw [halone.thread]
      exact hat.suspended hr
    · exact map_entry_congr fun j hj => halone.spares j (hmem j (List.mem_append_left _ hj))

end Session

/-! ### Interleavings -/

namespace Host

variable {h : Host ρ}

/-- Every VM of the host has come to what its model says. -/
def Shows (h : Host ρ) (a : ℕ → Solo ρ) : Prop := ∀ v, (h.view v).Shows v (a v)

/-- The session with VM `v` after a call on it is the session that was moved. -/
theorem view_step_self (h : Host ρ) (v : ℕ) (call : HostCall ρ) :
    (h.step (v, call)).view v = (h.view v).step v call := by
  unfold view step perform
  simp only [Function.update_self]
  rfl

/-- **The step lemma.** A call moves the VM that it is on, and no other one. -/
theorem Shows.step {a : ℕ → Solo ρ} (hs : h.Shows a) (c : ℕ × HostCall ρ) :
    (h.step c).Shows (sideBySide Solo.step a c) := by
  intro v
  unfold sideBySide
  by_cases hv : v = c.1
  · subst hv
    rw [Function.update_self, view_step_self]
    exact ((hs c.1).call c.2).2
  · rw [Function.update_of_ne hv]
    have halone := (hs c.1).leavesAlone (Ne.symm hv) c.2
    refine (hs v).of_leavesAlone ⟨halone.outside, halone.vm, halone.thread, halone.owned,
      halone.spares, halone.fresh⟩ ?_
    exact Function.update_of_ne hv ..

theorem shows_init : ({} : Host ρ).Shows fun _ => {} :=
  fun _ => .idle rfl ⟨rfl, rfl⟩ rfl (fun _ _ => rfl) rfl

/-- **The run lemma.** -/
theorem shows_run (calls : List (ℕ × HostCall ρ)) :
    (runCalls Host.step ({} : Host ρ) calls).Shows
      (runCalls (sideBySide Solo.step) (fun _ => {}) calls) := by
  have hstep : ∀ (h : Host ρ) (a : ℕ → Solo ρ) c, h.Shows a →
      (h.step c).Shows (sideBySide Solo.step a c) := fun _ _ c hs => hs.step c
  exact runCalls_simulates hstep shows_init calls

/-- All computations of VM `v`, the oldest first. -/
def journal (h : Host ρ) (v : ℕ) : List (List ℕ × Option ρ) := (h.view v).journal v

end Host

theorem Session.Shows.journal {s : Session ρ} {v : ℕ} {a : Solo ρ} (h : s.Shows v a) :
    s.journal v = a.journal := by
  unfold Session.journal Solo.journal
  cases h with
  | idle _ _ _ _ howned =>
    rw [howned]
    rfl
  | live hat howned hover =>
    rw [howned, List.map_append, List.map_append, hover]
    exact congrArg (_ ++ [·]) hat.entry

/-- **VMs run apart.** However a host takes turns with its VMs, each of them has come to what it
comes to by itself, from the calls on it alone: the same computations, with the same segments of
their functions run and the same results, and the same answer to every call that may follow. -/
theorem vms_run_apart (calls : List (ℕ × HostCall ρ)) (v : ℕ) :
    let h := runCalls Host.step {} calls
    let a := runCalls Solo.step {} (callsOn v calls)
    h.journal v = a.journal ∧ ∀ call, (Host.perform v call h).1 = a.answer call := by
  intro h a
  have hshows := Host.shows_run calls v
  rw [runCalls_sideBySide] at hshows
  exact ⟨hshows.journal, fun call => (hshows.call call).1⟩

/-- Two VMs in turns. The second one is invoked while the function of the first is suspended. -/
example :
    let h := runCalls Host.step ({} : Host ℕ)
      [(0, .invoke ⟨1, 5⟩), (0, .execute), (1, .invoke ⟨0, 7⟩), (0, .invoke ⟨0, 9⟩),
        (1, .execute), (0, .execute)]
    h.journal 0 = [([0, 1], some 5)] ∧ h.journal 1 = [([0], some 7)] := by decide

end Wasmcc
