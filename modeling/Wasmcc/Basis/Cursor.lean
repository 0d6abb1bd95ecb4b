import Mathlib

/-!
# Byte cursors and the readers that run over them

A `Cursor` is a list of bytes still to be read together with the number of bytes read so far. A
`Reader ε α` consumes some of those bytes and either returns a value or stops with an `ε`.

Two properties of a reader carry everything that is proved about one:

* `Consumes p used a`: in front of any further bytes, `p` reads exactly `used` and returns `a`;
* `Local p`: whatever `p` accepts, it accepts by `Consumes`: the value it returns depends on the
  bytes it read and on nothing after them.

A third, `Steady eof p`, adds to `Local p` what happens when the bytes end too early: `p` stops with
`eof`.

They compose through `bind` (`Consumes.bind`, `Local.bind`), through the counted loop `iterate`
and through the loop `loop` that runs until its body says stop. The latter is fuelled by the number
of bytes left; `loop_unroll` shows that the fuel is never seen as long as the body makes progress.
-/

namespace Basis

/-- One byte. -/
abbrev Byte := BitVec 8

/-- The bytes not read yet, and how many have been read. -/
structure Cursor where
  rest : List Byte
  consumed : ℕ
deriving DecidableEq, Repr

/-- A computation that reads from a cursor and may stop with an error. -/
def Reader (ε α : Type) : Type := Cursor → Except ε (α × Cursor)

namespace Reader

variable {ε α β σ : Type}

/-- Stop with `e`. -/
def fail (e : ε) : Reader ε α := fun _ => .error e

instance : Monad (Reader ε) where
  pure a := fun c => .ok (a, c)
  bind p f := fun c =>
    match p c with
    | .ok (a, c') => f a c'
    | .error e => .error e

instance : LawfulMonad (Reader ε) := by
  refine LawfulMonad.mk' (Reader ε) (fun p => funext fun c => ?_) (fun _ _ => rfl)
    fun p f g => funext fun c => ?_
  · change (match p c with
      | .ok (a, c') => .ok (a, c')
      | .error e => .error e) = p c
    cases p c <;> rfl
  · change (match (match p c with
        | .ok (a, c') => f a c'
        | .error e => .error e) with
      | .ok (b, c') => g b c'
      | .error e => .error e) = match p c with
        | .ok (a, c') => (f a >>= g) c'
        | .error e => .error e
    cases p c <;> rfl

/-- The next byte, or the error `eof` when there is none. -/
def readByte (eof : ε) : Reader ε Byte
  | ⟨[], _⟩ => .error eof
  | ⟨b :: rest, n⟩ => .ok (b, ⟨rest, n + 1⟩)

/-- The next `n` bytes, or `eof` when fewer are left. -/
def readBytes (eof : ε) (n : ℕ) : Reader ε (List Byte) := fun c =>
  if c.rest.length < n then .error eof
  else .ok (c.rest.take n, ⟨c.rest.drop n, c.consumed + n⟩)

/-- Pass over `n` bytes, or stop with `eof` when fewer are left. -/
def skip (eof : ε) (n : ℕ) : Reader ε Unit := fun c =>
  if c.rest.length < n then .error eof
  else .ok ((), ⟨c.rest.drop n, c.consumed + n⟩)

/-- Whether a byte is left. -/
def hasRemaining : Reader ε Bool := fun c => .ok (!c.rest.isEmpty, c)

/-- How many bytes have been read. -/
def bytesConsumed : Reader ε ℕ := fun c => .ok (c.consumed, c)

/-- What `p` returns, and how many bytes it read. -/
def measured (p : Reader ε α) : Reader ε (ℕ × α) := do
  let start ← bytesConsumed
  let a ← p
  let position ← bytesConsumed
  pure (position - start, a)

/-- `n` rounds of `step`, each from the state the last one left. -/
def iterate (step : σ → Reader ε σ) : ℕ → σ → Reader ε σ
  | 0, s => pure s
  | n + 1, s => do
    let s' ← step s
    iterate step n s'

/-- `step` on every element of a list, in order. -/
def forEach (step : α → Reader ε β) : List α → Reader ε (List β)
  | [] => pure []
  | a :: as => do
    let b ← step a
    let bs ← forEach step as
    pure (b :: bs)

/-- `step` until it answers `.inr`, for at most `fuel` rounds. -/
def loopFuel (stuck : ε) (step : σ → Reader ε (σ ⊕ β)) : ℕ → σ → Reader ε β
  | 0, _ => fail stuck
  | fuel + 1, s => do
    match ← step s with
    | .inl s' => loopFuel stuck step fuel s'
    | .inr b => pure b

/-- `step` until it answers `.inr`. One round more than there are bytes is enough for a `step` that
reads something whenever it goes on (`loop_unroll`). -/
def loop (stuck : ε) (step : σ → Reader ε (σ ⊕ β)) (s : σ) : Reader ε β :=
  fun c => loopFuel stuck step (c.rest.length + 1) s c

/-! ### Running the primitives -/

@[simp] theorem pure_apply (a : α) (c : Cursor) : (pure a : Reader ε α) c = .ok (a, c) := rfl

@[simp] theorem fail_apply (e : ε) (c : Cursor) : (fail e : Reader ε α) c = .error e := rfl

theorem bind_apply (p : Reader ε α) (f : α → Reader ε β) (c : Cursor) :
    (p >>= f) c = match p c with
      | .ok (a, c') => f a c'
      | .error e => .error e := rfl

@[simp] theorem bind_of_ok {p : Reader ε α} {c c' : Cursor} {a : α} (h : p c = .ok (a, c'))
    (f : α → Reader ε β) : (p >>= f) c = f a c' := by
  rw [bind_apply, h]

@[simp] theorem bind_of_error {p : Reader ε α} {c : Cursor} {e : ε} (h : p c = .error e)
    (f : α → Reader ε β) : (p >>= f) c = .error e := by
  rw [bind_apply, h]

/-- **Inverting a bind.** A sequence succeeds exactly when its first part does and its second part
does from where the first stopped. -/
theorem bind_eq_ok {p : Reader ε α} {f : α → Reader ε β} {c c'' : Cursor} {b : β} :
    (p >>= f) c = .ok (b, c'') ↔ ∃ a c', p c = .ok (a, c') ∧ f a c' = .ok (b, c'') := by
  rw [bind_apply]
  constructor
  · intro h
    -- an error of `p` would be the result of the whole
    cases hp : p c with
    | error e => rw [hp] at h; cases h
    | ok r =>
      obtain ⟨a, c'⟩ := r
      rw [hp] at h
      exact ⟨a, c', rfl, h⟩
  · rintro ⟨a, c', hp, hf⟩
    rw [hp]
    exact hf

/-- The second parts need to agree where the first one leads to. -/
theorem bind_eq_bind {p : Reader ε α} {f g : α → Reader ε β} {c : Cursor}
    (h : ∀ a c', p c = .ok (a, c') → f a c' = g a c') : (p >>= f) c = (p >>= g) c := by
  rw [bind_apply, bind_apply]
  cases hp : p c with
  | error e => rfl
  | ok r => exact h r.1 r.2 hp

theorem pure_eq_ok {a b : α} {c c' : Cursor} :
    (pure a : Reader ε α) c = .ok (b, c') ↔ a = b ∧ c = c' := by
  simp

theorem fail_ne_ok {e : ε} {a : α} {c c' : Cursor} : (fail e : Reader ε α) c ≠ .ok (a, c') := by
  simp

/-- A guarded failure that did not happen: the guard was false. -/
theorem guard_eq_ok {p : Prop} [Decidable p] {e : ε} {k : Reader ε α} {a : α} {c c' : Cursor}
    (h : (if p then fail e else k) c = .ok (a, c')) : ¬p ∧ k c = .ok (a, c') := by
  by_cases hp : p
  · rw [if_pos hp] at h
    exact absurd h fail_ne_ok
  · rw [if_neg hp] at h
    exact ⟨hp, h⟩

@[simp] theorem iterate_zero (step : σ → Reader ε σ) (s : σ) : iterate step 0 s = pure s := rfl

theorem iterate_succ (step : σ → Reader ε σ) (n : ℕ) (s : σ) :
    iterate step (n + 1) s = step s >>= fun s' => iterate step n s' := rfl

@[simp] theorem forEach_nil (step : α → Reader ε β) : forEach step [] = pure [] := rfl

theorem forEach_cons (step : α → Reader ε β) (a : α) (as : List α) :
    forEach step (a :: as) = step a >>= fun b => forEach step as >>= fun bs => pure (b :: bs) := rfl

theorem readByte_eq_ok {eof : ε} {b : Byte} {c c' : Cursor} :
    readByte eof c = .ok (b, c') ↔ c.rest = b :: c'.rest ∧ c'.consumed = c.consumed + 1 := by
  obtain ⟨rest, n⟩ := c
  obtain ⟨rest', n'⟩ := c'
  cases rest with
  | nil => simp [readByte]
  | cons x xs =>
    simp only [readByte, Except.ok.injEq, Prod.mk.injEq, Cursor.mk.injEq, List.cons.injEq]
    constructor
    · rintro ⟨rfl, rfl, rfl⟩; exact ⟨⟨rfl, rfl⟩, rfl⟩
    · rintro ⟨⟨rfl, rfl⟩, rfl⟩; exact ⟨rfl, rfl, rfl⟩

theorem readBytes_eq_ok {eof : ε} {n : ℕ} {bs : List Byte} {c c' : Cursor} :
    readBytes eof n c = .ok (bs, c') ↔
      bs.length = n ∧ c.rest = bs ++ c'.rest ∧ c'.consumed = c.consumed + n := by
  obtain ⟨rest', n'⟩ := c'
  unfold readBytes
  constructor
  · intro h
    split at h
    · cases h
    next hlen =>
      simp only [Except.ok.injEq, Prod.mk.injEq, Cursor.mk.injEq] at h
      obtain ⟨rfl, rfl, rfl⟩ := h
      refine ⟨?_, (List.take_append_drop n c.rest).symm, rfl⟩
      rw [List.length_take]
      omega
  · rintro ⟨rfl, hrest, hn⟩
    -- what was read in front of what is left, and as much as was asked for
    rw [hrest, if_neg (by simp)]
    simp [hn.symm]

/-! ### Readers that consume exactly given bytes -/

/-- In front of any bytes at all, `p` reads exactly `used` and returns `a`. -/
def Consumes (p : Reader ε α) (used : List Byte) (a : α) : Prop :=
  ∀ rest n, p ⟨used ++ rest, n⟩ = .ok (a, ⟨rest, n + used.length⟩)

theorem Consumes.pure (a : α) : Consumes (Pure.pure a : Reader ε α) [] a := by
  intro rest n
  simp

theorem Consumes.bind {p : Reader ε α} {f : α → Reader ε β} {u v : List Byte} {a : α} {b : β}
    (hp : Consumes p u a) (hf : Consumes (f a) v b) : Consumes (p >>= f) (u ++ v) b := by
  intro rest n
  rw [List.append_assoc, bind_of_ok (hp (v ++ rest) n), hf rest (n + u.length), List.length_append,
    Nat.add_assoc]

/-- `Consumes.bind` for a second part that reads nothing. -/
theorem Consumes.bind_nil {p : Reader ε α} {f : α → Reader ε β} {u : List Byte} {a : α} {b : β}
    (hp : Consumes p u a) (hf : Consumes (f a) [] b) : Consumes (p >>= f) u b := by
  simpa using hp.bind hf

/-- The value a reader returns after given bytes is unique. -/
theorem Consumes.det {p : Reader ε α} {u v : List Byte} {a b : α} {rest rest' : List Byte}
    (hu : Consumes p u a) (hv : Consumes p v b) (h : u ++ rest = v ++ rest') :
    a = b ∧ u = v ∧ rest = rest' := by
  have h1 := hu rest 0
  rw [h, hv rest' 0] at h1
  simp only [Except.ok.injEq, Prod.mk.injEq, Cursor.mk.injEq] at h1
  obtain ⟨hab, hrest, -⟩ := h1
  subst hrest
  exact ⟨hab.symm, List.append_cancel_right h, rfl⟩

theorem consumes_readByte (eof : ε) (b : Byte) : Consumes (readByte eof) [b] b := by
  intro rest n
  rfl

theorem consumes_readBytes (eof : ε) (bs : List Byte) :
    Consumes (readBytes eof bs.length) bs bs := by
  intro rest n
  simp [readBytes]

theorem consumes_skip (eof : ε) (bs : List Byte) : Consumes (skip eof bs.length) bs () := by
  intro rest n
  simp [skip]

theorem Consumes.measured {p : Reader ε α} {u : List Byte} {a : α} (hp : Consumes p u a) :
    Consumes (Reader.measured p) u (u.length, a) := by
  intro rest n
  change (p >>= fun a => bytesConsumed >>= fun position => Pure.pure (position - n, a)) _ = _
  rw [bind_of_ok (hp rest n)]
  change Except.ok ((n + u.length - n, a), _) = _
  rw [Nat.add_sub_cancel_left]

/-- A loop over bytes that encode its rounds one after another. `P` is what is known of the state
and of the elements that are left. -/
theorem Consumes.iterate {step : σ → Reader ε σ} {enc : α → List Byte} {next : σ → α → σ}
    {P : σ → List α → Prop} {as : List α} {s s' : σ} (hend : as.foldl next s = s') (hs : P s as)
    (hstep : ∀ s a as, P s (a :: as) → Consumes (step s) (enc a) (next s a))
    (hnext : ∀ s a as, P s (a :: as) → P (next s a) as) :
    Consumes (Reader.iterate step as.length s) (as.flatMap enc) s' := by
  induction as generalizing s with
  | nil =>
    obtain rfl : s = s' := hend
    exact Consumes.pure s
  | cons a as ih =>
    rw [List.length_cons, iterate_succ, List.flatMap_cons]
    -- one round reads its element, and what it leaves satisfies `P` for the others
    exact (hstep s a as hs).bind (ih hend (hnext s a as hs))

/-- In front of any bytes at all, `p` reads at most `used` and stops with an error. -/
def Rejects (p : Reader ε α) (used : List Byte) : Prop :=
  ∀ rest n, ∃ e, p ⟨used ++ rest, n⟩ = .error e

theorem Rejects.append {p : Reader ε α} {u : List Byte} (h : Rejects p u) (v : List Byte) :
    Rejects p (u ++ v) := by
  intro rest n
  rw [List.append_assoc]
  exact h (v ++ rest) n

theorem Rejects.fail (e : ε) : Rejects (Reader.fail e : Reader ε α) [] := fun _ _ => ⟨e, rfl⟩

theorem Rejects.bind {p : Reader ε α} {u : List Byte} (h : Rejects p u) (f : α → Reader ε β) :
    Rejects (p >>= f) u := by
  intro rest n
  obtain ⟨e, he⟩ := h rest n
  exact ⟨e, bind_of_error he f⟩

/-- The first part reads its bytes, and the second part stops on the rest. -/
theorem Consumes.bind_rejects {p : Reader ε α} {f : α → Reader ε β} {u v : List Byte} {a : α}
    (hp : Consumes p u a) (hf : Rejects (f a) v) : Rejects (p >>= f) (u ++ v) := by
  intro rest n
  rw [List.append_assoc, bind_of_ok (hp (v ++ rest) n)]
  exact hf rest (n + u.length)

/-! ### Local readers -/

/-- Whatever `p` accepts, it accepts by reading some bytes that fix its answer. -/
def Local (p : Reader ε α) : Prop :=
  ∀ c a c', p c = .ok (a, c') → ∃ used, c.rest = used ++ c'.rest ∧
    c'.consumed = c.consumed + used.length ∧ Consumes p used a

/-- One run of a local reader that reads everything there is. -/
theorem Local.consumes {p : Reader ε α} (hp : Local p) {u : List Byte} {a : α} {n : ℕ}
    (h : p ⟨u, 0⟩ = .ok (a, ⟨[], n⟩)) : Consumes p u a := by
  obtain ⟨v, hv, -, hcons⟩ := hp _ _ _ h
  have hu : u = v ++ [] := hv
  rwa [hu, List.append_nil]

theorem Local.pure (a : α) : Local (Pure.pure a : Reader ε α) := by
  intro c b c' h
  obtain ⟨rfl, rfl⟩ := pure_eq_ok.mp h
  exact ⟨[], rfl, rfl, Consumes.pure a⟩

theorem Local.fail (e : ε) : Local (Reader.fail e : Reader ε α) := by
  intro c a c' h
  exact absurd h fail_ne_ok

theorem Local.bind {p : Reader ε α} {f : α → Reader ε β} (hp : Local p) (hf : ∀ a, Local (f a)) :
    Local (p >>= f) := by
  intro c b c'' h
  obtain ⟨a, c', h1, h2⟩ := bind_eq_ok.mp h
  obtain ⟨u, hu, hun, hcu⟩ := hp c a c' h1
  obtain ⟨v, hv, hvn, hcv⟩ := hf a c' b c'' h2
  refine ⟨u ++ v, ?_, ?_, hcu.bind hcv⟩
  · rw [hu, hv, List.append_assoc]
  · rw [hvn, hun, List.length_append, Nat.add_assoc]

theorem measured_eq_ok {p : Reader ε α} {c c' : Cursor} {n : ℕ} {a : α} :
    measured p c = .ok ((n, a), c') ↔ p c = .ok (a, c') ∧ n = c'.consumed - c.consumed := by
  -- the sequence that `measured` stands for, to split it at `p`
  change (p >>= fun a => bytesConsumed >>= fun position =>
    Pure.pure (position - c.consumed, a)) c = _ ↔ _
  rw [bind_apply]
  cases p c with
  | error e => simp
  | ok r =>
    obtain ⟨x, d⟩ := r
    change Except.ok ((d.consumed - c.consumed, x), d) = Except.ok ((n, a), c') ↔ _
    simp only [Except.ok.injEq, Prod.mk.injEq]
    constructor
    · rintro ⟨⟨rfl, rfl⟩, rfl⟩
      exact ⟨⟨rfl, rfl⟩, rfl⟩
    · rintro ⟨⟨rfl, rfl⟩, rfl⟩
      exact ⟨⟨rfl, rfl⟩, rfl⟩

/-- **Measuring a local reader**: the number is that of the bytes that fix its answer. -/
theorem Local.of_measured {p : Reader ε α} (hp : Local p) {c c' : Cursor} {n : ℕ} {a : α}
    (h : Reader.measured p c = .ok ((n, a), c')) :
    ∃ used, c.rest = used ++ c'.rest ∧ c'.consumed = c.consumed + used.length ∧
      used.length = n ∧ Consumes p used a := by
  obtain ⟨h1, rfl⟩ := measured_eq_ok.mp h
  obtain ⟨u, hu, hun, hcu⟩ := hp c a c' h1
  exact ⟨u, hu, hun, by rw [hun, Nat.add_sub_cancel_left], hcu⟩

theorem Local.measured {p : Reader ε α} (hp : Local p) : Local (Reader.measured p) := by
  rintro c ⟨n, a⟩ c' h
  obtain ⟨u, hu, hun, rfl, hcu⟩ := hp.of_measured h
  exact ⟨u, hu, hun, hcu.measured⟩

theorem Local.ite {p : Prop} [Decidable p] {x y : Reader ε α} (hx : Local x) (hy : Local y) :
    Local (if p then x else y) := by
  split
  · exact hx
  · exact hy

theorem local_readByte (eof : ε) : Local (readByte eof) := by
  intro c b c' h
  obtain ⟨h1, h2⟩ := readByte_eq_ok.mp h
  exact ⟨[b], h1, h2, consumes_readByte eof b⟩

theorem local_readBytes (eof : ε) (n : ℕ) : Local (readBytes eof n) := by
  intro c bs c' h
  obtain ⟨rfl, hrest, hn⟩ := readBytes_eq_ok.mp h
  exact ⟨bs, hrest, hn, consumes_readBytes eof bs⟩

theorem local_skip (eof : ε) (n : ℕ) : Local (skip eof n) := by
  intro c u c' h
  unfold skip at h
  split at h
  · cases h
  next hlen =>
    simp only [Except.ok.injEq, Prod.mk.injEq] at h
    obtain ⟨-, rfl⟩ := h
    have hn : (c.rest.take n).length = n := by
      rw [List.length_take]; omega
    -- the bytes that it skips are those that are gone afterwards
    refine ⟨c.rest.take n, (List.take_append_drop n c.rest).symm, by rw [hn], ?_⟩
    have h := consumes_skip eof (c.rest.take n)
    rwa [hn] at h

theorem Local.iterate {step : σ → Reader ε σ} (hstep : ∀ s, Local (step s)) :
    ∀ n s, Local (Reader.iterate step n s) := by
  intro n
  induction n with
  | zero => exact fun s => Local.pure s
  | succ n ih => exact fun s => (hstep s).bind ih

theorem Local.forEach {step : α → Reader ε β} (hstep : ∀ a, Local (step a)) :
    ∀ as, Local (Reader.forEach step as) := by
  intro as
  induction as with
  | nil => exact Local.pure []
  | cons a as ih => exact (hstep a).bind fun b => ih.bind fun bs => Local.pure (b :: bs)

/-- A local reader never gives bytes back. -/
theorem Local.length_le {p : Reader ε α} (hp : Local p) {c c' : Cursor} {a : α}
    (h : p c = .ok (a, c')) : c'.rest.length ≤ c.rest.length := by
  obtain ⟨used, hu, -, -⟩ := hp c a c' h
  rw [hu, List.length_append]
  omega

/-- **Splitting the bytes of a sequence** of local readers into those of its two parts. -/
theorem Consumes.of_bind {p : Reader ε α} {f : α → Reader ε β} (hp : Local p)
    (hf : ∀ a, Local (f a)) {u : List Byte} {b : β} (h : Consumes (p >>= f) u b) :
    ∃ v w a, u = v ++ w ∧ Consumes p v a ∧ Consumes (f a) w b := by
  obtain ⟨a, c', h1, h2⟩ := bind_eq_ok.mp (h [] 0)
  obtain ⟨v, hv, -, hcv⟩ := hp _ a c' h1
  obtain ⟨w, hw, -, hcw⟩ := hf a c' b _ h2
  refine ⟨v, w, a, ?_, hcv, hcw⟩
  have hu : u ++ [] = v ++ c'.rest := hv
  rw [List.append_nil] at hu hw
  rw [hu, hw]

theorem Consumes.of_pure {a b : α} {u : List Byte}
    (h : Consumes (Pure.pure a : Reader ε α) u b) : u = [] ∧ a = b := by
  obtain ⟨rfl, hc⟩ := pure_eq_ok.mp (h [] 0)
  simp only [List.append_nil, Cursor.mk.injEq] at hc
  exact ⟨hc.1, rfl⟩

theorem Consumes.of_guard {p : Prop} [Decidable p] {e : ε} {k : Reader ε α} {u : List Byte} {a : α}
    (h : Consumes (if p then Reader.fail e else k) u a) : ¬p ∧ Consumes k u a :=
  ⟨(guard_eq_ok (h [] 0)).1, fun rest n => (guard_eq_ok (h rest n)).2⟩

theorem Consumes.of_measured {p : Reader ε α} (hp : Local p) {u : List Byte} {n : ℕ} {a : α}
    (h : Consumes (Reader.measured p) u (n, a)) : u.length = n ∧ Consumes p u a := by
  obtain ⟨v, hv, -, hlen, hcons⟩ := hp.of_measured (h [] 0)
  have hu : u ++ [] = v ++ [] := hv
  obtain rfl := List.append_cancel_right hu
  exact ⟨hlen, hcons⟩

/-- The bytes of a loop over a list, element by element. -/
theorem Consumes.of_forEach {step : α → Reader ε β} (hstep : ∀ a, Local (step a)) {as : List α} :
    ∀ {u : List Byte} {bs : List β}, Consumes (Reader.forEach step as) u bs →
      ∃ es : List (α × List Byte × β), es.map (·.1) = as ∧ es.flatMap (·.2.1) = u ∧
        es.map (·.2.2) = bs ∧ ∀ e ∈ es, Consumes (step e.1) e.2.1 e.2.2 := by
  induction as with
  | nil =>
    intro u bs h
    obtain ⟨rfl, rfl⟩ := h.of_pure
    exact ⟨[], rfl, rfl, rfl, fun e he => absurd he List.not_mem_nil⟩
  | cons a as ih =>
    intro u bs h
    -- the round on `a` has its own piece, and the rounds on the others share the rest
    obtain ⟨v, w, b, rfl, hv, hw⟩ := Consumes.of_bind (hstep a)
      (fun b => (Local.forEach hstep as).bind fun bs => Local.pure _) h
    obtain ⟨w₁, x, bs', rfl, hw₁, hx⟩ := Consumes.of_bind (Local.forEach hstep as)
      (fun bs => Local.pure _) hw
    obtain ⟨rfl, rfl⟩ := hx.of_pure
    obtain ⟨es, rfl, rfl, rfl, hes⟩ := ih hw₁
    refine ⟨(a, v, b) :: es, rfl, by simp, rfl, fun e he => ?_⟩
    rcases List.mem_cons.mp he with rfl | he
    · exact hv
    · exact hes e he

/-! ### What a reader ensures of its answer -/

/-- Whatever `p` returns has the property. -/
def Ensures (p : Reader ε α) (Q : α → Prop) : Prop := ∀ c a c', p c = .ok (a, c') → Q a

theorem Ensures.mono {p : Reader ε α} {P Q : α → Prop} (h : Ensures p P) (hPQ : ∀ a, P a → Q a) :
    Ensures p Q := fun c a c' hp => hPQ a (h c a c' hp)

theorem Ensures.pure {Q : α → Prop} {a : α} (h : Q a) : Ensures (Pure.pure a : Reader ε α) Q := by
  intro c b c' hb
  obtain ⟨rfl, -⟩ := pure_eq_ok.mp hb
  exact h

theorem Ensures.fail (e : ε) (Q : α → Prop) : Ensures (Reader.fail e : Reader ε α) Q :=
  fun _ _ _ h => absurd h fail_ne_ok

theorem Ensures.bind {p : Reader ε α} {f : α → Reader ε β} {Q : β → Prop}
    (hf : ∀ a, Ensures (f a) Q) : Ensures (p >>= f) Q := by
  intro c b c' h
  obtain ⟨a, c₁, -, h2⟩ := bind_eq_ok.mp h
  exact hf a c₁ b c' h2

/-- `Ensures.bind` with what the first part ensures. -/
theorem Ensures.bind' {p : Reader ε α} {f : α → Reader ε β} {P : α → Prop} {Q : β → Prop}
    (hp : Ensures p P) (hf : ∀ a, P a → Ensures (f a) Q) : Ensures (p >>= f) Q := by
  intro c b c' h
  obtain ⟨a, c₁, h1, h2⟩ := bind_eq_ok.mp h
  exact hf a (hp c a c₁ h1) c₁ b c' h2

theorem Ensures.ite {p : Prop} [Decidable p] {x y : Reader ε α} {Q : α → Prop}
    (hx : p → Ensures x Q) (hy : ¬p → Ensures y Q) : Ensures (if p then x else y) Q := by
  split
  next h => exact hx h
  next h => exact hy h

/-- What a counted loop ensures: a property kept by every round. -/
theorem Ensures.iterate {step : σ → Reader ε σ} {Q : σ → Prop}
    (hstep : ∀ s, Q s → Ensures (step s) Q) :
    ∀ (n : ℕ) {s : σ}, Q s → Ensures (Reader.iterate step n s) Q := by
  intro n
  induction n with
  | zero => exact fun hs => Ensures.pure hs
  | succ n ih => exact fun {s} hs => (hstep s hs).bind' fun _ => ih

/-- A counted loop whose rounds raise a number by one each. -/
theorem Ensures.iterate_add {step : σ → Reader ε σ} {μ : σ → ℕ}
    (hstep : ∀ s, Ensures (step s) fun s' => μ s' = μ s + 1) :
    ∀ (n : ℕ) (s : σ), Ensures (Reader.iterate step n s) fun s' => μ s' = μ s + n := by
  intro n
  induction n with
  | zero => exact fun s => Ensures.pure rfl
  | succ n ih =>
    intro s
    refine (hstep s).bind' fun s₁ h1 => ?_
    intro c s' c' h
    have h2 := ih s₁ c s' c' h
    dsimp only at h1 h2 ⊢
    omega

/-! ### Loops that run until their body stops them -/

/-- `step` reads at least one byte whenever it asks for another round. -/
def Progress (step : σ → Reader ε (σ ⊕ β)) : Prop :=
  ∀ s c s' c', step s c = .ok (.inl s', c') → c'.rest.length < c.rest.length

/-- With progress, any two amounts of fuel above the number of bytes left agree. -/
theorem loopFuel_eq {stuck : ε} {step : σ → Reader ε (σ ⊕ β)} (hp : Progress step) :
    ∀ {fuel fuel' : ℕ} {s : σ} {c : Cursor}, c.rest.length < fuel → c.rest.length < fuel' →
      loopFuel stuck step fuel s c = loopFuel stuck step fuel' s c := by
  intro fuel
  induction fuel with
  | zero => intro fuel' s c h _; omega
  | succ fuel ih =>
    intro fuel' s c h h'
    obtain ⟨fuel', rfl⟩ : ∃ k, fuel' = k + 1 := ⟨fuel' - 1, by omega⟩
    simp only [loopFuel]
    cases hs : step s c with
    | error e => rw [bind_of_error hs, bind_of_error hs]
    | ok r =>
      obtain ⟨x, c'⟩ := r
      rw [bind_of_ok hs, bind_of_ok hs]
      cases x with
      | inl s' =>
        -- a round consumes at least a byte, so both have fuel left for what remains
        have hlt := hp s c s' c' hs
        exact ih (by omega) (by omega)
      | inr b => rfl

/-- **Unrolling a loop** whose body makes progress: one round, then the loop again. -/
theorem loop_unroll {stuck : ε} {step : σ → Reader ε (σ ⊕ β)} (hp : Progress step) (s : σ)
    (c : Cursor) :
    loop stuck step s c =
      (step s >>= fun x => match x with
        | .inl s' => loop stuck step s'
        | .inr b => pure b) c := by
  unfold loop
  rw [loopFuel]
  cases hs : step s c with
  | error e => rw [bind_of_error hs, bind_of_error hs]
  | ok r =>
    obtain ⟨x, c'⟩ := r
    rw [bind_of_ok hs, bind_of_ok hs]
    cases x with
    | inl s' =>
      -- the fuel after a round is not that of a new loop, but both are enough
      have hlt := hp s c s' c' hs
      exact loopFuel_eq hp hlt (by omega)
    | inr b => rfl

/-- A loop that consumes the bytes of one round and then those of the rest. -/
theorem Consumes.loop_inl {stuck : ε} {step : σ → Reader ε (σ ⊕ β)} (hp : Progress step)
    {s s' : σ} {u v : List Byte} {b : β} (hs : Consumes (step s) u (.inl s'))
    (hl : Consumes (Reader.loop stuck step s') v b) :
    Consumes (Reader.loop stuck step s) (u ++ v) b := by
  intro rest n
  rw [loop_unroll hp]
  exact hs.bind (f := fun x => match x with
    | .inl s' => Reader.loop stuck step s'
    | .inr b => Pure.pure b) hl rest n

theorem Consumes.loop_inr {stuck : ε} {step : σ → Reader ε (σ ⊕ β)} (hp : Progress step)
    {s : σ} {u : List Byte} {b : β} (hs : Consumes (step s) u (.inr b)) :
    Consumes (Reader.loop stuck step s) u b := by
  intro rest n
  rw [loop_unroll hp, bind_of_ok (hs rest n)]
  rfl

/-- **Induction over a loop that returned.** If every round keeps `P`, and a round that stops from
a state with `P` gives `Q`, then what the loop returns satisfies `Q`. -/
theorem loop_induction {stuck : ε} {step : σ → Reader ε (σ ⊕ β)} {P : σ → Cursor → Prop}
    {Q : β → Cursor → Prop}
    (hinl : ∀ s c s' c', P s c → step s c = .ok (.inl s', c') → P s' c')
    (hinr : ∀ s c b c', P s c → step s c = .ok (.inr b, c') → Q b c') :
    ∀ {s c b c'}, P s c → loop stuck step s c = .ok (b, c') → Q b c' := by
  -- for any fuel, by induction on it
  have h : ∀ fuel {s c b c'}, P s c → loopFuel stuck step fuel s c = .ok (b, c') → Q b c' := by
    intro fuel
    induction fuel with
    | zero => intro s c b c' _ h; exact absurd h fail_ne_ok
    | succ fuel ih =>
      intro s c b c' hs h
      obtain ⟨x, c₁, h1, h2⟩ := bind_eq_ok.mp h
      cases x with
      | inl s₁ => exact ih (hinl s c s₁ c₁ hs h1) h2
      | inr b₁ =>
        obtain ⟨rfl, rfl⟩ := pure_eq_ok.mp h2
        exact hinr s c _ _ hs h1
  intro s c b c' hs hl
  exact h _ hs hl

/-- **Two loops** whose rounds agree wherever they come to. -/
theorem loop_congr {stuck : ε} {step step' : σ → Reader ε (σ ⊕ β)} {P : σ → Cursor → Prop}
    (hround : ∀ s c, P s c → step s c = step' s c)
    (hinl : ∀ s c s' c', P s c → step' s c = .ok (.inl s', c') → P s' c') :
    ∀ {s c}, P s c → loop stuck step s c = loop stuck step' s c := by
  have h : ∀ fuel {s c}, P s c → loopFuel stuck step fuel s c = loopFuel stuck step' fuel s c := by
    intro fuel
    induction fuel with
    | zero => exact fun _ => rfl
    | succ fuel ih =>
      intro s c hs
      rw [loopFuel, loopFuel, bind_apply, hround s c hs, ← bind_apply]
      -- the rounds agree here, and `P` goes on to hold if the loop does
      refine bind_eq_bind fun x c' hx => ?_
      cases x with
      | inl s' => exact ih (hinl s c s' c' hs hx)
      | inr b => rfl
  intro s c hs
  exact h _ hs

theorem Local.loop {stuck : ε} {step : σ → Reader ε (σ ⊕ β)} (hp : Progress step)
    (hstep : ∀ s, Local (step s)) : ∀ s, Local (Reader.loop stuck step s) := by
  have h : ∀ (k : ℕ) (s : σ) (c : Cursor) (b : β) (c' : Cursor), c.rest.length ≤ k →
      Reader.loop stuck step s c = .ok (b, c') → ∃ used, c.rest = used ++ c'.rest ∧
        c'.consumed = c.consumed + used.length ∧ Consumes (Reader.loop stuck step s) used b := by
    intro k
    -- induction on the number of bytes left, which every further round lowers
    induction k with
    | zero =>
      intro s c b c' hk hl
      rw [loop_unroll hp] at hl
      obtain ⟨x, c₁, h1, h2⟩ := bind_eq_ok.mp hl
      obtain ⟨u, hu, hun, hcu⟩ := hstep s c x c₁ h1
      cases x with
      | inl s₁ => have := hp s c s₁ c₁ h1; omega
      | inr b₁ =>
        obtain ⟨rfl, rfl⟩ := pure_eq_ok.mp h2
        exact ⟨u, hu, hun, Consumes.loop_inr hp hcu⟩
    | succ k ih =>
      intro s c b c' hk hl
      rw [loop_unroll hp] at hl
      obtain ⟨x, c₁, h1, h2⟩ := bind_eq_ok.mp hl
      obtain ⟨u, hu, hun, hcu⟩ := hstep s c x c₁ h1
      cases x with
      | inl s₁ =>
        have hlt := hp s c s₁ c₁ h1
        obtain ⟨v, hv, hvn, hcv⟩ := ih s₁ c₁ b c' (by omega) h2
        refine ⟨u ++ v, ?_, ?_, Consumes.loop_inl hp hcu hcv⟩
        · rw [hu, hv, List.append_assoc]
        · rw [hvn, hun, List.length_append, Nat.add_assoc]
      | inr b₁ =>
        obtain ⟨rfl, rfl⟩ := pure_eq_ok.mp h2
        exact ⟨u, hu, hun, Consumes.loop_inr hp hcu⟩
  intro s c b c' hl
  exact h c.rest.length s c b c' le_rfl hl

/-! ### Readers that are cut off -/

/-- A local reader that, when the bytes end before it has read what it would have read, stops with
`eof` and with nothing else. -/
structure Steady (eof : ε) (p : Reader ε α) : Prop where
  isLocal : Local p
  stops : ∀ {c a c'}, p c = .ok (a, c') → ∀ {pre suf : List Byte}, c.rest = pre ++ suf →
    c'.rest.length < suf.length → ∀ n, p ⟨pre, n⟩ = .error eof

variable {eof : ε}

theorem Steady.pure (a : α) : Steady eof (Pure.pure a : Reader ε α) where
  isLocal := .pure a
  stops {c b c'} h {pre suf} hrest hlt n := by
    obtain ⟨-, rfl⟩ := pure_eq_ok.mp h
    rw [hrest, List.length_append] at hlt
    omega

theorem Steady.fail (e : ε) : Steady eof (Reader.fail e : Reader ε α) where
  isLocal := .fail e
  stops {_ _ _} h := absurd h fail_ne_ok

/-- **A sequence of steady readers.** The bytes end inside what the first part reads, or after it
and inside what the second reads. -/
theorem Steady.bind {p : Reader ε α} {f : α → Reader ε β} (hp : Steady eof p)
    (hf : ∀ a, Steady eof (f a)) : Steady eof (p >>= f) where
  isLocal := hp.isLocal.bind fun a => (hf a).isLocal
  stops {c b c'} h {pre suf} hrest hlt n := by
    obtain ⟨a, c₁, h1, h2⟩ := bind_eq_ok.mp h
    by_cases hfirst : c₁.rest.length < suf.length
    · exact bind_of_error (hp.stops h1 hrest hfirst n) f
    · -- the first part is whole, and what is left for the second is cut off where `pre` was
      obtain ⟨u, hu, -, hcons⟩ := hp.isLocal c a c₁ h1
      have hsplit : u ++ c₁.rest = pre ++ suf := hu.symm.trans hrest
      have hlen := congrArg List.length hsplit
      rw [List.length_append, List.length_append] at hlen
      have hpre : u <+: pre :=
        List.prefix_of_prefix_length_le ⟨c₁.rest, hsplit⟩ ⟨suf, rfl⟩ (by omega)
      obtain ⟨pre', rfl⟩ := hpre
      rw [List.append_assoc] at hsplit
      rw [bind_of_ok (hcons pre' n)]
      exact (hf a).stops h2 (List.append_cancel_left hsplit) hlt _

theorem Steady.ite {p : Prop} [Decidable p] {x y : Reader ε α} (hx : Steady eof x)
    (hy : Steady eof y) : Steady eof (if p then x else y) := by
  split
  · exact hx
  · exact hy

theorem steady_readByte (eof : ε) : Steady eof (readByte eof) where
  isLocal := local_readByte eof
  stops {c b c'} h {pre suf} hrest hlt n := by
    obtain ⟨h1, -⟩ := readByte_eq_ok.mp h
    have hlen := congrArg List.length (h1.symm.trans hrest)
    rw [List.length_cons, List.length_append] at hlen
    obtain rfl : pre = [] := List.eq_nil_of_length_eq_zero (by omega)
    rfl

theorem steady_readBytes (eof : ε) (n : ℕ) : Steady eof (readBytes eof n) where
  isLocal := local_readBytes eof n
  stops {c bs c'} h {pre suf} hrest hlt m := by
    obtain ⟨rfl, h1, -⟩ := readBytes_eq_ok.mp h
    have hlen := congrArg List.length (h1.symm.trans hrest)
    rw [List.length_append, List.length_append] at hlen
    unfold readBytes
    exact if_pos (show pre.length < bs.length by omega)

theorem steady_skip (eof : ε) (n : ℕ) : Steady eof (skip eof n) where
  isLocal := local_skip eof n
  stops {c u c'} h {pre suf} hrest hlt m := by
    unfold skip at h
    split at h
    · cases h
    next hle =>
      obtain ⟨-, rfl⟩ := Prod.mk.inj (Except.ok.inj h)
      have hlen := congrArg List.length hrest
      rw [List.length_append] at hlen
      rw [List.length_drop] at hlt
      unfold skip
      -- the cut is inside of what would be skipped
      exact if_pos (show pre.length < n by omega)

theorem Steady.measured {p : Reader ε α} (hp : Steady eof p) :
    Steady eof (Reader.measured p) where
  isLocal := hp.isLocal.measured
  stops {c r c'} h {pre suf} hrest hlt n := by
    obtain ⟨h1, -⟩ := measured_eq_ok.mp h
    exact bind_of_error (hp.stops h1 hrest hlt n) _

theorem Steady.iterate {step : σ → Reader ε σ} (hstep : ∀ s, Steady eof (step s)) :
    ∀ n s, Steady eof (Reader.iterate step n s) := by
  intro n
  induction n with
  | zero => exact fun s => .pure s
  | succ n ih => exact fun s => (hstep s).bind ih

theorem Steady.forEach {step : α → Reader ε β} (hstep : ∀ a, Steady eof (step a)) :
    ∀ as, Steady eof (Reader.forEach step as) := by
  intro as
  induction as with
  | nil => exact .pure []
  | cons a as ih => exact (hstep a).bind fun b => ih.bind fun bs => .pure (b :: bs)

/-- With a fixed amount of fuel a loop is a sequence; and any sufficient amount will do. -/
theorem Steady.loop {stuck : ε} {step : σ → Reader ε (σ ⊕ β)} (hp : Progress step)
    (hstep : ∀ s, Steady eof (step s)) (s : σ) : Steady eof (Reader.loop stuck step s) := by
  have hfuel : ∀ fuel s, Steady eof (loopFuel stuck step fuel s) := by
    intro fuel
    induction fuel with
    | zero => exact fun s => .fail stuck
    | succ fuel ih =>
      refine fun s => (hstep s).bind fun x => ?_
      cases x with
      | inl s' => exact ih s'
      | inr b => exact .pure b
  refine ⟨Local.loop hp (fun s => (hstep s).isLocal) s, fun {c b c'} h {pre suf} hrest hlt n => ?_⟩
  have hlen := congrArg List.length hrest
  rw [List.length_append] at hlen
  -- a shorter input has less fuel, which makes no difference
  have hsame : loopFuel stuck step (pre.length + 1) s ⟨pre, n⟩ =
      loopFuel stuck step (c.rest.length + 1) s ⟨pre, n⟩ :=
    loopFuel_eq hp (Nat.lt_succ_self pre.length) (show pre.length < c.rest.length + 1 by omega)
  exact hsame.trans ((hfuel (c.rest.length + 1) s).stops h hrest hlt n)

end Reader

end Basis
