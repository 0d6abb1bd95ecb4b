import Wasmcc.Base.Coro

/-!
# The frames of coroutines

A coroutine has its frame on the heap, and the `Future` that it returned destroys the frame in its
destructor. Where each `co_await` awaits a call and is a full expression of its own, this is when
the result has been taken. Here is which frames there are while `get` runs such coroutines: those of
the ones that have been called and have not given back their results yet. They are a chain, in which
each waits for the one that it has called and is its parent.

For a future with a name, or in an expression with more than one `co_await`, the destructor runs
later, and a frame that has ended can stay while its parent awaits another coroutine.

`Machine.InCall` is the invariant, `InCall.step` that a step keeps it and `InCall.exists_step` that
there is a next step, so that no handle is resumed that dangles. `frames_are_calls` says it of all
that `get` goes through, and that in the end only the frame of the root is left, which is destroyed
with the future that `get` was called on.
-/

namespace Wasmcc

namespace Co

variable {Ty : Type} {Val : Ty → Type} {Ex World : Type}

namespace Machine

/-- Coroutine `n` was called by the first of the others, which waits for it and is its parent. That
one was called by the next, and the last one is the root. -/
inductive Chain (m : Machine Val Ex World) : ℕ → List ℕ → Prop
  | root {fr : Frame Val Ex World} (hframe : m.frames 0 = some fr)
      (hparent : fr.parent = some .noop) : Chain m 0 []
  | call {n p : ℕ} {ps : List ℕ} {fr : Frame Val Ex World} {T U : Option Ty} {q : Handle}
      {rest : Except Ex (Res Val U) → Coro Val Ex World T}
      (hframe : m.frames n = some fr) (hparent : fr.parent = some (.frame p))
      (htype : fr.type = U) (hwaits : m.frames p = some ⟨T, some q, .empty T, .awaiting n rest⟩)
      (hlt : p < n) (hps : Chain m p ps) : Chain m n (p :: ps)

/-- What the innermost coroutine is doing, and where control is. -/
inductive Place (m : Machine Val Ex World) (n : ℕ) : Prop
  | begins {T : Option Ty} {q : Handle} {body : Coro Val Ex World T}
      (hcontrol : m.control = .resuming (.frame n))
      (hframe : m.frames n = some ⟨T, some q, .empty T, .initial body⟩)
  | runs {T : Option Ty} {q : Handle} {body : Coro Val Ex World T}
      (hcontrol : m.control = .active n)
      (hframe : m.frames n = some ⟨T, some q, .empty T, .running body⟩)
  | ends {T : Option Ty} {q : Handle} {outcome : Except Ex (Res Val T)}
      (hcontrol : m.control = .resuming q)
      (hframe : m.frames n = some ⟨T, some q, .of outcome, .final⟩)
  | ended {T : Option Ty} {outcome : Except Ex (Res Val T)} (hcontrol : m.control = .returned)
      (hframe : m.frames n = some ⟨T, some .noop, .of outcome, .final⟩)

/-- **The invariant.** The frames that there are belong to coroutine `n`, where control is, and to
the ones that wait in `ps`. A coroutine has no frame any more exactly when its result was given to
the one that has awaited it. -/
structure InCall (m : Machine Val Ex World) (n : ℕ) (ps : List ℕ) : Prop where
  chain : m.Chain n ps
  place : m.Place n
  lt : n < m.next
  live : ∀ i, m.frames i ≠ none ↔ i ∈ n :: ps
  destroyed : ∀ i, (∃ p, .deliver i p ∈ m.log) ↔ i < m.next ∧ m.frames i = none

variable {m m' : Machine Val Ex World} {n i : ℕ} {ps : List ℕ}

/-! ### Chains -/

/-- The coroutines were called one after the other. -/
theorem Chain.lt_of_mem (h : m.Chain n ps) : ∀ i ∈ ps, i < n := by
  induction h with
  | root => exact fun i hi => absurd hi List.not_mem_nil
  | call _ _ _ _ hlt _ ih =>
    intro i hi
    rcases List.mem_cons.mp hi with rfl | hi
    · exact hlt
    · exact Nat.lt_trans (ih i hi) hlt

theorem Chain.congr (h : m.Chain n ps) (hframes : ∀ i ∈ n :: ps, m'.frames i = m.frames i) :
    m'.Chain n ps := by
  induction h with
  | root hframe hparent => exact .root ((hframes _ List.mem_cons_self).trans hframe) hparent
  | call hframe hparent htype hwaits hlt _ ih =>
    have hwaits' := (hframes _ (List.mem_cons_of_mem _ List.mem_cons_self)).trans hwaits
    exact .call ((hframes _ List.mem_cons_self).trans hframe) hparent htype hwaits' hlt
      (ih fun i hi => hframes i (List.mem_cons_of_mem _ hi))

/-- The coroutine that runs may change what it does, but not its parent. -/
theorem Chain.setFrame (h : m.Chain n ps) {fr fr' : Frame Val Ex World}
    (hframe : m.frames n = some fr) (hparent : fr'.parent = fr.parent) (htype : fr'.type = fr.type)
    (hnew : m'.frames n = some fr') (hframes : ∀ i < n, m'.frames i = m.frames i) :
    m'.Chain n ps := by
  have hbelow := h.lt_of_mem
  cases h with
  | root hframe' hroot =>
    obtain rfl := Option.some.inj (hframe.symm.trans hframe')
    exact .root hnew (hparent.trans hroot)
  | call hframe' hcaller hU hwaits hlt hps =>
    obtain rfl := Option.some.inj (hframe.symm.trans hframe')
    -- the frames below are those they were
    have hwaits' := (hframes _ hlt).trans hwaits
    exact .call hnew (hparent.trans hcaller) (htype.trans hU) hwaits' hlt
      (hps.congr fun i hi => hframes i (hbelow i hi))

/-! ### Steps -/

section Steps

variable {T U : Option Ty} {q : Handle} {fr fr' : Frame Val Ex World}

/-- The innermost coroutine does something by itself. -/
theorem InCall.moves (h : m.InCall n ps) (hframe : m.frames n = some fr)
    (hframes : m'.frames = Function.update m.frames n (some fr'))
    (hparent : fr'.parent = fr.parent) (htype : fr'.type = fr.type) (hnext : m'.next = m.next)
    (hlog : ∃ e, m'.log = m.log ++ [e] ∧ ∀ c p, e ≠ .deliver c p) (hplace : m'.Place n) :
    m'.InCall n ps := by
  obtain ⟨e, hlog, he⟩ := hlog
  have hother : ∀ i, i ≠ n → m'.frames i = m.frames i := by
    intro i hi
    rw [hframes, Function.update_of_ne hi]
  have hself : m'.frames n = some fr' := by rw [hframes, Function.update_self]
  -- there is a frame where there was one before
  have hsame : ∀ i, m'.frames i = none ↔ m.frames i = none := by
    intro i
    by_cases hi : i = n
    · subst hi
      rw [hself, hframe]
      exact iff_of_false nofun nofun
    · rw [hother i hi]
  have hchain := h.chain.setFrame hframe hparent htype hself fun i hi => hother i (Nat.ne_of_lt hi)
  refine ⟨hchain, hplace, hnext ▸ h.lt, fun i => ?_, fun i => ?_⟩
  · rw [Ne, hsame]
    exact h.live i
  · rw [hsame, hnext, ← h.destroyed i, hlog]
    refine exists_congr fun p => ?_
    rw [List.mem_append, List.mem_singleton]
    exact or_iff_left fun heq => he i p heq.symm

/-- A coroutine calls another one and awaits it. -/
theorem InCall.awaits (h : m.InCall n ps) {child : Coro Val Ex World U}
    {rest : Except Ex (Res Val U) → Coro Val Ex World T}
    (hframe : m.frames n = some ⟨T, some q, .empty T, .running (.coAwait child rest)⟩) :
    (m.suspended n q child rest).InCall m.next (n :: ps) := by
  have hne : n ≠ m.next := Nat.ne_of_lt h.lt
  -- the number of the child is a new one
  have hfree : m.frames m.next = none := by
    by_contra hsome
    rcases List.mem_cons.mp ((h.live m.next).mp hsome) with heq | hmem
    · exact hne heq.symm
    · exact absurd (h.chain.lt_of_mem _ hmem) (Nat.not_lt.mpr (Nat.le_of_lt h.lt))
  have hnew : (m.suspended n q child rest).frames m.next =
      some ⟨U, some (.frame n), .empty U, .initial child⟩ := Function.update_self ..
  have hself : (m.suspended n q child rest).frames n =
      some ⟨T, some q, .empty T, .awaiting m.next rest⟩ :=
    (Function.update_of_ne hne ..).trans (Function.update_self ..)
  have hother : ∀ i, i ≠ n → i ≠ m.next → (m.suspended n q child rest).frames i = m.frames i :=
    fun i hin hinext => (Function.update_of_ne hinext ..).trans (Function.update_of_ne hin ..)
  -- the caller waits, and is otherwise where it was in the chain
  have hbelow : (m.suspended n q child rest).Chain n ps := by
    refine h.chain.setFrame hframe ?_ ?_ hself fun i hi =>
      hother i (Nat.ne_of_lt hi) (Nat.ne_of_lt (Nat.lt_trans hi h.lt))
    · rfl
    · rfl
  refine ⟨.call hnew rfl rfl hself h.lt hbelow, .begins rfl hnew, Nat.lt_succ_self _, fun i => ?_,
    fun i => ?_⟩
  -- the child has a frame now, and so do all that had one
  · by_cases hinext : i = m.next
    · subst hinext
      exact iff_of_true (by rw [hnew]; nofun) List.mem_cons_self
    · rw [List.mem_cons, or_iff_right hinext, ← h.live i]
      by_cases hin : i = n
      · subst hin
        exact iff_of_true (by rw [hself]; nofun) (by rw [hframe]; nofun)
      · rw [hother i hin hinext]
  -- nothing is delivered by this step
  · have hlog : (∃ p, Event.deliver i p ∈ (m.suspended n q child rest).log) ↔
        ∃ p, Event.deliver i p ∈ m.log := by
      simp [suspended]
    rw [hlog, h.destroyed i]
    by_cases hinext : i = m.next
    · subst hinext
      exact iff_of_false (fun hboth => Nat.lt_irrefl _ hboth.1) (by rw [hnew]; nofun)
    · refine and_congr ?_ ?_
      · exact ⟨fun hlt => Nat.lt_succ_of_lt hlt,
          fun hle => Nat.lt_of_le_of_ne (Nat.le_of_lt_succ hle) hinext⟩
      · by_cases hin : i = n
        · subst hin
          exact iff_of_false (by rw [hframe]; nofun) (by rw [hself]; nofun)
        · rw [hother i hin hinext]

/-- The result of a coroutine goes to the one that has awaited it, and its frame is destroyed. -/
theorem InCall.delivers {p : ℕ} (h : m.InCall n (p :: ps)) (hcaller : m.Chain p ps)
    {rest : Except Ex (Res Val U) → Coro Val Ex World T}
    (hwaits : m.frames p = some ⟨T, some q, .empty T, .awaiting n rest⟩)
    (body : Coro Val Ex World T) : (m.delivered n p q body).InCall p ps := by
  have hlt : ∀ i ∈ p :: ps, i < n := h.chain.lt_of_mem
  have hpn : p < n := hlt p List.mem_cons_self
  have hself : (m.delivered n p q body).frames p = some ⟨T, some q, .empty T, .running body⟩ :=
    delivered_frames_self (Nat.ne_of_lt hpn)
  -- the others have frames as before
  have hsame : ∀ i, i ≠ n → ((m.delivered n p q body).frames i = none ↔ m.frames i = none) := by
    intro i hin
    by_cases hip : i = p
    · subst hip
      exact iff_of_false (by rw [hself]; nofun) (by rw [hwaits]; nofun)
    · rw [delivered_frames_of_ne hin hip]
  have hchain : (m.delivered n p q body).Chain p ps := by
    refine hcaller.setFrame hwaits ?_ ?_ hself fun i hi =>
      delivered_frames_of_ne (Nat.ne_of_lt (Nat.lt_trans hi hpn)) (Nat.ne_of_lt hi)
    · rfl
    · rfl
  refine ⟨hchain, .runs rfl hself, Nat.lt_trans hpn h.lt, fun i => ?_, fun i => ?_⟩
  · by_cases hin : i = n
    · subst hin
      exact iff_of_false (not_not.mpr delivered_frames_child) fun hmem =>
        Nat.lt_irrefl _ (hlt _ hmem)
    · rw [Ne, hsame i hin, ← Ne, h.live i, List.mem_cons, or_iff_right hin]
  · have hlog : (m.delivered n p q body).log = m.log ++ [.deliver n p] := rfl
    rw [hlog]
    by_cases hin : i = n
    · subst hin
      exact iff_of_true ⟨p, by simp⟩ ⟨h.lt, delivered_frames_child⟩
    · rw [hsame i hin]
      refine Iff.trans ?_ (h.destroyed i)
      refine exists_congr fun r => ?_
      rw [List.mem_append, List.mem_singleton]
      exact or_iff_left fun heq => hin (by cases heq; rfl)

/-- The end of a coroutine, with its result stored for the one that waits. -/
theorem InCall.finishes (h : m.InCall n ps) {body : Coro Val Ex World T}
    {outcome : Except Ex (Res Val T)}
    (hframe : m.frames n = some ⟨T, some q, .empty T, .running body⟩)
    (hfinish : m.finish n ⟨T, some q, .of outcome, .final⟩ = some m') : m'.InCall n ps := by
  obtain rfl := Option.some.inj hfinish
  exact h.moves hframe rfl rfl rfl rfl ⟨_, rfl, fun c p heq => by cases heq⟩
    (.ends rfl (Function.update_self ..))

theorem inCall_called (root : Coro Val Ex World T) (w : World) : (called root w).InCall 0 [] := by
  have hframe : (called root w).frames 0 = some ⟨T, some .noop, .empty T, .initial root⟩ := rfl
  refine ⟨.root hframe rfl, .begins rfl hframe, Nat.one_pos, fun i => ?_, fun i => ?_⟩
  · rw [List.mem_singleton]
    by_cases hi : i = 0
    · subst hi
      exact iff_of_true (by rw [hframe]; nofun) rfl
    · have hnone : (called root w).frames i = none := by simp [called, started, hi]
      exact iff_of_false (not_not.mpr hnone) hi
  · -- no frame has been made but the first one
    refine iff_of_false (fun ⟨p, hp⟩ => absurd hp List.not_mem_nil) fun ⟨hlt, hnone⟩ => ?_
    obtain rfl := Nat.lt_one_iff.mp hlt
    rw [hframe] at hnone
    cases hnone

/-- When control has returned, the root has ended and nothing else is there. -/
theorem InCall.returned (h : m.InCall n ps) (hcontrol : m.control = .returned) :
    m.done 0 = true ∧ ∀ i, m.frames i ≠ none ↔ i = 0 := by
  cases h.place with
  | begins hresuming => simp [hcontrol] at hresuming
  | runs hactive => simp [hcontrol] at hactive
  | ends hresuming => simp [hcontrol] at hresuming
  | ended _ hframe =>
    have hlive := h.live
    -- a frame with a caller would have gone on in it instead
    cases h.chain with
    | root => exact ⟨by rw [done, hframe], fun i => (hlive i).trans List.mem_singleton⟩
    | call hframe' hparent =>
      obtain rfl := Option.some.inj (hframe.symm.trans hframe')
      cases hparent

variable [DecidableEq Ty]

/-- **The step lemma.** -/
theorem InCall.step (h : m.InCall n ps) (hstep : m.step = some m') :
    ∃ n' ps', m'.InCall n' ps' := by
  cases h.place with
  | begins hcontrol hframe =>
    rw [step_resuming hcontrol, resume_initial hframe] at hstep
    obtain rfl := Option.some.inj hstep
    exact ⟨n, ps, h.moves hframe rfl rfl rfl rfl ⟨_, rfl, fun c p heq => by cases heq⟩
      (.runs rfl (Function.update_self ..))⟩
  | @runs T q body hcontrol hframe =>
    rw [step_active hcontrol hframe] at hstep
    cases body with
    | @coReturn t v =>
      have hfinish : m.finish n ⟨some t, some q, .of (.ok v), .final⟩ = some m' := hstep
      exact ⟨n, ps, h.finishes hframe hfinish⟩
    | coReturnVoid =>
      have hfinish : m.finish n ⟨none, some q, .of (.ok ()), .final⟩ = some m' := hstep
      exact ⟨n, ps, h.finishes hframe hfinish⟩
    | throw_ e =>
      rw [runBody, unhandledException_eq] at hstep
      exact ⟨n, ps, h.finishes hframe hstep⟩
    | act f rest =>
      rw [runBody] at hstep
      obtain rfl := Option.some.inj hstep
      exact ⟨n, ps, h.moves hframe rfl rfl rfl rfl ⟨_, rfl, fun c p heq => by cases heq⟩
        (.runs hcontrol (Function.update_self ..))⟩
    | coAwait child rest =>
      rw [runBody_coAwait h.lt] at hstep
      obtain rfl := Option.some.inj hstep
      exact ⟨m.next, n :: ps, h.awaits hframe⟩
  | @ends T q outcome hcontrol hframe =>
    -- control goes to the parent, which is the loop of `get` for the root
    cases h.chain with
    | root hframe' hparent =>
      obtain rfl := Option.some.inj (hframe.symm.trans hframe')
      obtain rfl : q = .noop := Option.some.inj hparent
      rw [Machine.step, hcontrol] at hstep
      obtain rfl := Option.some.inj hstep
      exact ⟨0, [], ⟨.root hframe rfl, .ended rfl hframe, h.lt, h.live, h.destroyed⟩⟩
    | @call _ p ps fr T' U q' rest hframe' hparent htype hwaits hlt hps =>
      obtain rfl := Option.some.inj (hframe.symm.trans hframe')
      obtain rfl : q = .frame p := Option.some.inj hparent
      obtain rfl : T = U := htype
      rw [step_resuming hcontrol, resume_awaiting hwaits hframe] at hstep
      obtain rfl := Option.some.inj hstep
      exact ⟨p, ps, h.delivers hps hwaits (rest outcome)⟩
  | ended hcontrol hframe =>
    rw [Machine.step, hcontrol] at hstep
    cases hstep

/-- Control can go on, until the root has returned to the loop of `get`. -/
theorem InCall.exists_step (h : m.InCall n ps) (hcontrol : m.control ≠ .returned) :
    ∃ m', m.step = some m' := by
  cases h.place with
  | begins hresuming hframe => exact ⟨_, (step_resuming hresuming).trans (resume_initial hframe)⟩
  -- every action of a body has a next machine
  | @runs T q body hactive hframe =>
    rw [step_active hactive hframe]
    cases body with
    | coReturn v => exact ⟨_, rfl⟩
    | coReturnVoid => exact ⟨_, rfl⟩
    | throw_ e => exact ⟨_, by rw [runBody, finish]⟩
    | act f rest => exact ⟨_, by rw [runBody]⟩
    | coAwait child rest => exact ⟨_, runBody_coAwait h.lt⟩
  | @ends T q outcome hresuming hframe =>
    cases h.chain with
    -- the parent is the loop of `get`, or a coroutine that awaits this one
    | root hframe' hparent =>
      obtain rfl := Option.some.inj (hframe.symm.trans hframe')
      obtain rfl : q = .noop := Option.some.inj hparent
      exact ⟨_, by rw [Machine.step, hresuming]⟩
    | @call _ p ps fr T' U q' rest hframe' hparent htype hwaits hlt hps =>
      obtain rfl := Option.some.inj (hframe.symm.trans hframe')
      obtain rfl : q = .frame p := Option.some.inj hparent
      obtain rfl : T = U := htype
      exact ⟨_, (step_resuming hresuming).trans (resume_awaiting hwaits hframe)⟩
  | ended hreturned => exact absurd hreturned hcontrol

/-! ### Runs of `get` -/

/-- **The run lemma.** -/
theorem InCall.steps (h : m.InCall n ps) (hsteps : m.Steps m') : ∃ n' ps', m'.InCall n' ps' := by
  induction hsteps with
  | refl => exact ⟨n, ps, h⟩
  | tail _ hstep ih =>
    obtain ⟨n', ps', hbefore⟩ := ih
    exact hbefore.step hstep

/-- The loop of `get` resumes the root once and leaves when control has returned. -/
theorem InCall.drive (h : m.InCall n ps) {fuel : ℕ} (hdrive : drive 0 fuel m = some m') :
    ∀ i, m'.frames i ≠ none ↔ i = 0 := by
  induction fuel generalizing m n ps with
  | zero => cases hdrive
  | succ fuel ih =>
    by_cases hcontrol : m.control = .returned
    · obtain ⟨hdone, hframes⟩ := h.returned hcontrol
      rw [Machine.drive, hcontrol] at hdrive
      dsimp only at hdrive
      rw [if_pos hdone] at hdrive
      obtain rfl := Option.some.inj hdrive
      exact hframes
    -- control has not returned: one more step, with less fuel
    · obtain ⟨m₁, hstep⟩ := h.exists_step hcontrol
      obtain ⟨n', ps', hnext⟩ := h.step hstep
      rw [drive_step hstep] at hdrive
      exact ih hnext hdrive

end Steps

end Machine

open Machine

/-- **The frames are the calls in progress.** Whatever coroutines do whose every `co_await` is a
full expression of its own, at every moment of a `get` the frames are those of a chain of
coroutines, from the one that has control to the root, in which each one is awaited by its parent. A
frame is destroyed when the result of its coroutine has been delivered, and only then, and control
never gets stuck. In the end the frame of the root is the only one. -/
theorem frames_are_calls [DecidableEq Ty] {T : Option Ty} (root : Coro Val Ex World T) (w : World) :
    (∀ m, (called root w).Steps m → (∃ n ps, m.InCall n ps) ∧
      (m.control ≠ .returned → ∃ m', m.step = some m')) ∧
    ∃ N, ∀ fuel ≥ N, ∃ m, drive 0 fuel (started root w) = some m ∧
      ∀ i, m.frames i ≠ none ↔ i = 0 := by
  constructor
  · intro m hsteps
    obtain ⟨n, ps, h⟩ := (inCall_called root w).steps hsteps
    exact ⟨⟨n, ps, h⟩, h.exists_step⟩
  · obtain ⟨N, hN⟩ := drive_started root w
    refine ⟨N + 1, fun fuel hfuel => ?_⟩
    obtain ⟨m, hdrive, -⟩ := hN fuel (Nat.le_of_succ_le hfuel)
    refine ⟨m, hdrive, ?_⟩
    -- the first round of the loop resumes the root
    obtain ⟨fuel, rfl⟩ := Nat.exists_eq_add_of_le' (Nat.le_trans N.succ_pos hfuel)
    have hrest : drive 0 fuel (called root w) = some m := hdrive
    exact (inCall_called root w).drive hrest

end Co

end Wasmcc
