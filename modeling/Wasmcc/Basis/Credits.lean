import Wasmcc.Basis.Cursor

/-!
# What a reader builds, paid for by the bytes it reads

A bound on the size of what a reader returns is proved by amortisation: every byte that is read
earns a fixed number of credits, and everything that is built takes some. `Earns price w p R` is a
Hoare triple for this. A run of `p` that begins with `w` credits, and returns, ends with a value and
credits for which `R` holds.

There is one rule for each way to put readers together; for the loops the assertion is an invariant.
-/

namespace Basis

namespace Reader

variable {ε α β σ : Type}

/-- Whenever `p` returns, `R` holds of its value and of the credits, which are `price` more for
every byte it has read. -/
def Earns (price w : ℕ) (p : Reader ε α) (R : α → ℕ → Prop) : Prop :=
  ∀ c a c', p c = .ok (a, c') → ∃ n, c.rest.length = n + c'.rest.length ∧ R a (w + price * n)

namespace Earns

variable {price w : ℕ} {p : Reader ε α} {R S : α → ℕ → Prop}

theorem pure {a : α} (h : R a w) : Earns price w (Pure.pure a : Reader ε α) R := by
  intro c b c' hc
  obtain ⟨rfl, rfl⟩ := pure_eq_ok.mp hc
  exact ⟨0, (Nat.zero_add _).symm, h⟩

theorem fail (e : ε) : Earns price w (Reader.fail e : Reader ε α) R :=
  fun _ _ _ hc => absurd hc fail_ne_ok

theorem mono (h : Earns price w p R) (hRS : ∀ a w', R a w' → S a w') : Earns price w p S := by
  intro c a c' hc
  obtain ⟨n, hn, hR⟩ := h c a c' hc
  exact ⟨n, hn, hRS a _ hR⟩

/-- What is known of the value in any case. -/
theorem and (h : Earns price w p R) {Q : α → Prop} (hQ : Ensures p Q) :
    Earns price w p fun a w' => Q a ∧ R a w' := by
  intro c a c' hc
  obtain ⟨n, hn, hR⟩ := h c a c' hc
  exact ⟨n, hn, hQ c a c' hc, hR⟩

/-- The second part goes on with the credits that the first has left. -/
theorem bind {f : α → Reader ε β} {T : β → ℕ → Prop} (hp : Earns price w p R)
    (hf : ∀ a w', R a w' → Earns price w' (f a) T) : Earns price w (p >>= f) T := by
  intro c b c'' hc
  obtain ⟨a, c', h1, h2⟩ := bind_eq_ok.mp hc
  obtain ⟨n, hn, hR⟩ := hp c a c' h1
  obtain ⟨m, hm, hT⟩ := hf a _ hR c' b c'' h2
  refine ⟨n + m, by omega, ?_⟩
  rwa [Nat.mul_add, ← Nat.add_assoc]

theorem ite {q : Prop} [Decidable q] {x y : Reader ε α} (hx : q → Earns price w x R)
    (hy : ¬q → Earns price w y R) : Earns price w (if q then x else y) R := by
  by_cases hq : q
  · rw [if_pos hq]
    exact hx hq
  · rw [if_neg hq]
    exact hy hq

/-- A reader that reads at least one byte. -/
theorem of_progress (hp : Local p) (h : ∀ c a c', p c = .ok (a, c') →
    c'.rest.length < c.rest.length) : Earns price w p fun _ w' => w + price ≤ w' := by
  intro c a c' hc
  obtain ⟨used, hused, -⟩ := hp c a c' hc
  have hlt := h c a c' hc
  have hlen := congrArg List.length hused
  rw [List.length_append] at hlen
  refine ⟨used.length, hlen, Nat.add_le_add_left ?_ w⟩
  exact Nat.le_mul_of_pos_right price (by omega)

theorem readByte (eof : ε) : Earns price w (Reader.readByte eof) fun _ w' => w + price ≤ w' := by
  refine of_progress (local_readByte eof) fun c b c' hc => ?_
  obtain ⟨hrest, -⟩ := readByte_eq_ok.mp hc
  rw [hrest]
  exact Nat.lt_succ_self _

theorem readBytes (eof : ε) (n : ℕ) :
    Earns price w (Reader.readBytes eof n) fun bs w' => w + price * bs.length ≤ w' := by
  intro c bs c' hc
  obtain ⟨-, hrest, -⟩ := readBytes_eq_ok.mp hc
  exact ⟨bs.length, by rw [hrest, List.length_append], Nat.le_refl _⟩

/-- A reader that only looks where it is. -/
theorem of_looking (hp : ∀ c, ∃ a, p c = .ok (a, c)) (h : ∀ a, R a w) : Earns price w p R := by
  intro c a c' hc
  obtain ⟨b, hb⟩ := hp c
  obtain ⟨rfl, rfl⟩ := Prod.mk.inj (Except.ok.inj (hb.symm.trans hc))
  exact ⟨0, (Nat.zero_add _).symm, h b⟩

/-- A reader that returns nothing of what it reads. -/
theorem of_local (hp : Local p) : Earns price w p fun _ w' => w ≤ w' := by
  intro c a c' hc
  obtain ⟨used, hused, -⟩ := hp c a c' hc
  exact ⟨used.length, by rw [hused, List.length_append], Nat.le_add_right ..⟩

section Loops

variable {I : σ → ℕ → Prop}

theorem iterate {step : σ → Reader ε σ} (hstep : ∀ s w, I s w → Earns price w (step s) I) :
    ∀ n s w, I s w → Earns price w (Reader.iterate step n s) I := by
  intro n
  induction n with
  | zero => exact fun s w hs => pure hs
  | succ n ih => exact fun s w hs => (hstep s w hs).bind ih

theorem loop {stuck : ε} {step : σ → Reader ε (σ ⊕ β)} {J : β → ℕ → Prop}
    (hstep : ∀ s w, I s w → Earns price w (step s) fun x w' => Sum.elim I J x w') {s : σ}
    (hs : I s w) : Earns price w (Reader.loop stuck step s) J := by
  have hfuel : ∀ fuel s w, I s w → Earns price w (loopFuel stuck step fuel s) J := by
    intro fuel
    induction fuel with
    | zero => exact fun s w _ => fail stuck
    | succ fuel ih =>
      -- what a round earns is there for the next one
      refine fun s w hs => (hstep s w hs).bind fun x w' hx => ?_
      cases x with
      | inl s' => exact ih s' w' hx
      | inr b => exact pure hx
  exact fun c => hfuel (c.rest.length + 1) s w hs c

/-- Each element is turned into one that weighs more, and the difference is paid for. -/
theorem forEach {step : α → Reader ε β} {φ : α → ℕ} {ψ : β → ℕ}
    (hstep : ∀ a w, Earns price (w + φ a) (step a) fun b w' => w + ψ b ≤ w') :
    ∀ (as : List α) (w : ℕ), Earns price (w + (as.map φ).sum) (Reader.forEach step as)
      fun bs w' => w + (bs.map ψ).sum ≤ w' := by
  intro as
  induction as with
  | nil => exact fun w => pure (Nat.le_refl _)
  | cons a as ih =>
    intro w
    have hsplit : w + ((a :: as).map φ).sum = w + (as.map φ).sum + φ a := by
      rw [List.map_cons, List.sum_cons]
      omega
    rw [hsplit, forEach_cons]
    refine (hstep a _).bind fun b w₁ hb => ?_
    -- what is left beside the elements still to come
    obtain ⟨w₂, rfl⟩ := Nat.exists_eq_add_of_le' (show (as.map φ).sum ≤ w₁ by omega)
    refine (ih w₂).bind fun bs w₃ hbs => pure ?_
    rw [List.map_cons, List.sum_cons]
    omega

end Loops

end Earns

end Reader

end Basis
