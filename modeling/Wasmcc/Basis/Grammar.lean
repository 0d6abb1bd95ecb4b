import Wasmcc.Basis.Cursor

/-!
# What readers read, as formal languages

A format can be described without any reader: as a `Language` of bytes, made from smaller ones by
concatenation, powers and unions. `Reads p L` compares the two. Whatever `p` accepts, the bytes it
reads are a word of `L`.

A word of a `PrefixFree` language is found in front of any further bytes, since no other word begins
there. Where a part of the format depends on what is before it, such as the elements of a vector on
their count, the part before has to tell which language is to follow: `Determines L` says that the
words of the languages `L i` do.
-/

namespace Basis

/-! ### Prefix-free languages -/

section PrefixFree

variable {α ι : Type} {L M : Language α} {u v r s : List α}

/-- No word of the language begins with another one. -/
def PrefixFree (L : Language α) : Prop :=
  ∀ ⦃u v r s : List α⦄, u ∈ L → v ∈ L → u ++ r = v ++ s → u = v

/-- A word of one of these languages begins with no other word of any of them, and is in one
only. -/
def Determines (L : ι → Language α) : Prop :=
  ∀ ⦃i j : ι⦄ ⦃u v r s : List α⦄, u ∈ L i → v ∈ L j → u ++ r = v ++ s → u = v ∧ i = j

theorem PrefixFree.zero : PrefixFree (0 : Language α) := fun _ _ _ _ hu => absurd hu id

theorem PrefixFree.one : PrefixFree (1 : Language α) := fun _ _ _ _ hu hv _ =>
  ((Language.mem_one _).mp hu).trans ((Language.mem_one _).mp hv).symm

theorem PrefixFree.mono (h : PrefixFree M) (hle : ∀ u ∈ L, u ∈ M) : PrefixFree L :=
  fun _ _ _ _ hu hv => h (hle _ hu) (hle _ hv)

theorem PrefixFree.of_length {n : ℕ} (h : ∀ u ∈ L, u.length = n) : PrefixFree L :=
  fun u v _ _ hu hv heq => (List.append_inj heq ((h u hu).trans (h v hv).symm)).1

theorem PrefixFree.mul (hL : PrefixFree L) (hM : PrefixFree M) : PrefixFree (L * M) := by
  intro w w' r s hw hw' heq
  obtain ⟨u, hu, v, hv, rfl⟩ := Language.mem_mul.mp hw
  obtain ⟨u', hu', v', hv', rfl⟩ := Language.mem_mul.mp hw'
  rw [List.append_assoc, List.append_assoc] at heq
  obtain rfl := hL hu hu' heq
  rw [hM hv hv' (List.append_cancel_left heq)]

theorem PrefixFree.pow (h : PrefixFree L) (n : ℕ) : PrefixFree (L ^ n) := by
  induction n with
  | zero => exact pow_zero L ▸ .one
  | succ n ih => exact pow_succ' L n ▸ h.mul ih

/-- What comes after the words does not matter, if it tells where it ends. -/
theorem Determines.mul {L M : ι → Language α} (hL : Determines L) (hM : ∀ i, PrefixFree (M i)) :
    Determines fun i => L i * M i := by
  intro i j w w' r s hw hw' heq
  obtain ⟨u, hu, v, hv, rfl⟩ := Language.mem_mul.mp hw
  obtain ⟨u', hu', v', hv', rfl⟩ := Language.mem_mul.mp hw'
  rw [List.append_assoc, List.append_assoc] at heq
  obtain ⟨rfl, rfl⟩ := hL hu hu' heq
  rw [hM i hv hv' (List.append_cancel_left heq)]
  exact ⟨rfl, rfl⟩

theorem Determines.iSup {L : ι → Language α} (h : Determines L) : PrefixFree (⨆ i, L i) := by
  intro u v r s hu hv heq
  obtain ⟨i, hi⟩ := Language.mem_iSup.mp hu
  obtain ⟨j, hj⟩ := Language.mem_iSup.mp hv
  exact (h hi hj heq).1

/-- A family whose words say where they belong, each followed by a language of its own. -/
theorem PrefixFree.iSup_mul {L M : ι → Language α} (hL : Determines L)
    (hM : ∀ i, PrefixFree (M i)) : PrefixFree (⨆ i, L i * M i) := (hL.mul hM).iSup

/-- Words of one letter say which letter it is. -/
theorem determines_singleton : Determines fun a : α => ({[a]} : Language α) := by
  rintro a b _ _ r s rfl rfl heq
  obtain ⟨rfl, -⟩ := List.cons.inj heq
  exact ⟨rfl, rfl⟩

/-- One word more. -/
theorem append_mem_kstar (hu : u ∈ KStar.kstar L) (hv : v ∈ L) : u ++ v ∈ KStar.kstar L := by
  obtain ⟨us, rfl, hus⟩ := Language.mem_kstar.mp hu
  refine Language.mem_kstar.mpr ⟨us ++ [v], by rw [List.flatten_append, List.flatten_singleton], ?_⟩
  intro w hw
  rcases List.mem_append.mp hw with hw | hw
  · exact hus w hw
  · exact List.mem_singleton.mp hw ▸ hv

end PrefixFree

/-! ### Readers -/

namespace Reader

variable {ε α β σ : Type}

/-- The bytes that `p` reads, when it returns, are a word of the language. -/
structure Reads (p : Reader ε α) (L : Language Byte) : Prop where
  isLocal : Local p
  mem : ∀ ⦃u a⦄, Consumes p u a → u ∈ L

namespace Reads

variable {p q : Reader ε α} {f : α → Reader ε β} {L M : Language Byte}

theorem pure (a : α) : Reads (Pure.pure a : Reader ε α) 1 where
  isLocal := .pure a
  mem _ _ h := (Language.mem_one _).mpr h.of_pure.1

theorem fail (e : ε) (L : Language Byte) : Reads (Reader.fail e : Reader ε α) L where
  isLocal := .fail e
  mem _ _ h := absurd (h [] 0) fail_ne_ok

theorem readByte (eof : ε) : Reads (Reader.readByte eof) {u | u.length = 1} where
  isLocal := local_readByte eof
  mem u b h := by
    obtain ⟨hrest, -⟩ := readByte_eq_ok.mp (h [] 0)
    rw [List.append_nil] at hrest
    exact congrArg List.length hrest

theorem readBytes (eof : ε) (n : ℕ) : Reads (Reader.readBytes eof n) {u | u.length = n} where
  isLocal := local_readBytes eof n
  mem u bs h := by
    obtain ⟨hlen, hrest, -⟩ := readBytes_eq_ok.mp (h [] 0)
    rw [List.append_nil] at hrest
    have hu : u = bs := hrest.trans (List.append_nil bs)
    exact hu ▸ hlen

theorem bind (hp : Reads p L) (hf : ∀ a, Reads (f a) M) : Reads (p >>= f) (L * M) where
  isLocal := hp.isLocal.bind fun a => (hf a).isLocal
  mem u b h := by
    obtain ⟨v, w, a, rfl, hv, hw⟩ := Consumes.of_bind hp.isLocal (fun a => (hf a).isLocal) h
    exact Language.append_mem_mul (hp.mem hv) ((hf a).mem hw)

/-- A second part that reads nothing. -/
theorem bind_one (hp : Reads p L) (hf : ∀ a, Reads (f a) 1) : Reads (p >>= f) L :=
  mul_one L ▸ hp.bind hf

/-- A second part that depends on the value of the first. -/
theorem bind_iSup {L M : α → Language Byte} (hlocal : Local p)
    (hp : ∀ ⦃u a⦄, Consumes p u a → u ∈ L a) (hf : ∀ a, Reads (f a) (M a)) :
    Reads (p >>= f) (⨆ a, L a * M a) where
  isLocal := hlocal.bind fun a => (hf a).isLocal
  mem u b h := by
    obtain ⟨v, w, a, rfl, hv, hw⟩ := Consumes.of_bind hlocal (fun a => (hf a).isLocal) h
    exact Language.mem_iSup.mpr ⟨a, Language.append_mem_mul (hp hv) ((hf a).mem hw)⟩

/-- A byte, and what it says is to follow. -/
theorem readByte_bind {eof : ε} {f : Byte → Reader ε β} {M : Byte → Language Byte}
    (hf : ∀ b, Reads (f b) (M b)) : Reads (Reader.readByte eof >>= f) (⨆ b, {[b]} * M b) := by
  refine bind_iSup (local_readByte eof) (fun u b h => ?_) hf
  obtain ⟨hrest, -⟩ := readByte_eq_ok.mp (h [] 0)
  rwa [List.append_nil] at hrest

theorem ite {c : Prop} [Decidable c] (hp : c → Reads p L) (hq : ¬c → Reads q L) :
    Reads (if c then p else q) L := by
  split
  next hc => exact hp hc
  next hc => exact hq hc

/-- Two ways to go on, each with its own language. -/
theorem ite_ite {c : Prop} [Decidable c] (hp : Reads p L) (hq : Reads q M) :
    Reads (if c then p else q) (if c then L else M) := by
  split
  · exact hp
  · exact hq

theorem iterate {step : σ → Reader ε σ} (hstep : ∀ s, Reads (step s) L) (n : ℕ) :
    ∀ s, Reads (Reader.iterate step n s) (L ^ n) := by
  induction n with
  | zero => exact fun s => pow_zero L ▸ .pure s
  | succ n ih => exact fun s => pow_succ' L n ▸ (hstep s).bind ih

/-- **A loop** that reads words of `L` until it comes to one of `M`. -/
theorem loop {stuck : ε} {step : σ → Reader ε (σ ⊕ β)} (hprogress : Progress step)
    (hlocal : ∀ s, Local (step s)) (hinl : ∀ ⦃s u s'⦄, Consumes (step s) u (.inl s') → u ∈ L)
    (hinr : ∀ ⦃s u b⦄, Consumes (step s) u (.inr b) → u ∈ M) (s : σ) :
    Reads (Reader.loop stuck step s) (KStar.kstar L * M) where
  isLocal := Local.loop hprogress hlocal s
  mem u b h := by
    -- on the number of bytes, of which every round reads some
    induction hn : u.length using Nat.strong_induction_on generalizing u s with
    | _ n ih =>
    have hround : Consumes (step s >>= _) u b := fun rest k =>
      (loop_unroll hprogress s _).symm.trans (h rest k)
    obtain ⟨v, w, x, rfl, hv, hw⟩ := Consumes.of_bind (hlocal s) (fun x => by
      cases x with
      | inl s' => exact Local.loop hprogress hlocal s'
      | inr b' => exact .pure b') hround
    cases x with
    | inl s' =>
      have hpos := hprogress s _ s' _ (hv [] 0)
      rw [List.append_nil] at hpos
      have hlt : w.length < n := by
        rw [← hn, List.length_append]
        exact Nat.lt_add_of_pos_left hpos
      obtain ⟨y, hy, z, hz, rfl⟩ := Language.mem_mul.mp (ih _ hlt s' w hw rfl)
      obtain ⟨ys, rfl, hys⟩ := Language.mem_kstar.mp hy
      rw [← List.append_assoc, ← List.flatten_cons]
      refine Language.append_mem_mul (Language.join_mem_kstar ?_) hz
      exact List.forall_mem_cons.mpr ⟨hinl hv, hys⟩
    | inr b' =>
      obtain ⟨rfl, -⟩ := hw.of_pure
      rw [List.append_nil]
      exact Language.append_mem_mul (Language.nil_mem_kstar L) (hinr hv)

end Reads

end Reader

end Basis
