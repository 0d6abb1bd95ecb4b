import Wasmcc.Basis.Abstraction
import Wasmcc.Parser.ValidatorSound

/-!
# The validator decides the typing rules

The WebAssembly specification types a body by rules: each instruction takes one stack of types to
another, and `return` takes the result types to any stack whatever, since what follows it is never
reached. A body is well typed if some sequence of stacks fits all its instructions, which is a guess
at every `return`.

`FunctionValidator` does not guess. After a `Return` its flag stands for everything that could be
below the types it has pushed since (`Represents`). One lemma for each visitor says that a visitor
computes exactly where its rule leads from the stacks that the validator stands for
(`visit_image`), so the validator accepts just the bodies that are well typed
(`validate_iff_typed`).
-/

open Basis

namespace Wasmcc

/-! ### The rules -/

/-- `i` takes the first stack to the second one, in a function with these locals and results. The
top of a stack is its last element. -/
inductive Instruction.Types (locals results : List ValType) :
    Instruction → List ValType → List ValType → Prop
  | constI32 {value : Value} {s : List ValType} :
      Types locals results (.constI32 value) s (s ++ [.i32])
  | addI32 {s : List ValType} :
      Types locals results .addI32 (s ++ [.i32, .i32]) (s ++ [.i32])
  | getLocalI32 {idx : ℕ} {s : List ValType} (hl : locals[idx]? = some .i32) :
      Types locals results (.getLocalI32 idx) s (s ++ [.i32])
  | setLocalI32 {idx : ℕ} {s : List ValType} (hl : locals[idx]? = some .i32) :
      Types locals results (.setLocalI32 idx) (s ++ [.i32]) s
  | return_ {t : List ValType} : Types locals results .return_ results t

/-- There are stacks from the empty one to the results, and each instruction of the body takes one
to the next. -/
def WellTyped (ft : BlockType) (locals : List ValType) (body : List Instruction) : Prop :=
  Path (Instruction.Types (ft.parameterTypes ++ locals) ft.resultTypes) [] body ft.resultTypes

namespace FunctionValidator

/-! ### What a validator stands for -/

/-- The validator pushed nothing but `i32`, and in unreachable code the results are all `i32`: the
`Return` that it came from found them on the stack. -/
structure Known (v : FunctionValidator) : Prop where
  underlying : ∃ n, v.underlying = List.replicate n (.val .i32)
  returns : v.unreachable = true → ∀ vt ∈ v.returns, vt = .i32

/-- One of the stacks that the validator stands for: what it has pushed, and in unreachable code
anything below. -/
def Represents (v : FunctionValidator) (s : List ValType) : Prop :=
  ∃ base n, v.underlying = List.replicate n (.val .i32) ∧ s = base ++ List.replicate n .i32 ∧
    (v.unreachable = false → base = [])

variable {v v' : FunctionValidator} {s t : List ValType}

theorem pop_i32 {below : List ValidationType} (h : v.underlying = .val .i32 :: below) :
    v.pop (.val .i32) = .ok { v with
      underlying := below
      currentMemoryUsage := (v.currentMemoryUsage + 2 ^ 64 - ValType.i32.sizeBytes) % 2 ^ 64 } := by
  rw [pop_cons h]
  exact if_pos rfl

theorem Known.push (h : v.Known) : (v.push (.val .i32)).Known := by
  obtain ⟨n, hn⟩ := h.underlying
  exact ⟨⟨n + 1, by rw [push_underlying, hn, List.replicate_succ]⟩, h.returns⟩

theorem Known.pop (h : v.Known) (hp : v.pop (.val .i32) = .ok v') : v'.Known := by
  have hframe := pop_frame hp
  refine ⟨?_, by rw [hframe.unreachable, hframe.returns]; exact h.returns⟩
  obtain ⟨n, hn⟩ := h.underlying
  cases n with
  | zero =>
    -- dead code: nothing is known of what is popped
    rw [pop_nil hn] at hp
    split at hp
    · obtain rfl := Except.ok.inj hp
      exact ⟨0, hn⟩
    · cases hp
  | succ n =>
    rw [pop_i32 (by rw [hn, List.replicate_succ])] at hp
    obtain rfl := Except.ok.inj hp
    exact ⟨n, rfl⟩

/-- **A push** leads from the stacks represented to those with an `i32` on top. -/
theorem represents_push (v : FunctionValidator) (t : List ValType) :
    (v.push (.val .i32)).Represents t ↔ ∃ s, v.Represents s ∧ t = s ++ [.i32] := by
  constructor
  · rintro ⟨base, n, hn, rfl, hbase⟩
    cases n with
    | zero => cases hn
    | succ n =>
      refine ⟨base ++ List.replicate n .i32,
        ⟨base, n, List.cons_eq_cons.mp hn |>.2, rfl, hbase⟩, ?_⟩
      rw [List.replicate_succ', List.append_assoc]
  · rintro ⟨s, ⟨base, n, hn, rfl, hbase⟩, rfl⟩
    refine ⟨base, n + 1, by rw [push_underlying, hn, List.replicate_succ], ?_, hbase⟩
    rw [List.replicate_succ', List.append_assoc]

/-- **A pop** leads from the stacks represented that have an `i32` on top to what is below it. -/
theorem pop_image (h : v.Known) (s : List ValType) :
    (∃ v', v.pop (.val .i32) = .ok v' ∧ v'.Represents s) ↔ v.Represents (s ++ [.i32]) := by
  obtain ⟨n, hn⟩ := h.underlying
  cases n with
  | zero =>
    rw [pop_nil hn]
    cases hu : v.unreachable with
    | true =>
      -- the type below what is known is one of those that could be there
      rw [if_pos rfl]
      constructor
      · rintro ⟨v', hv', base, k, hk, rfl, -⟩
        refine ⟨base ++ List.replicate k .i32 ++ [.i32], 0, hn, by simp, fun hno => ?_⟩
        rw [hu] at hno
        cases hno
      · rintro -
        exact ⟨_, rfl, s, 0, hn, by simp, fun hno => by cases hno⟩
    | false =>
      rw [if_neg Bool.false_ne_true]
      constructor
      · rintro ⟨v', hv', -⟩
        cases hv'
      · rintro ⟨base, k, hk, heq, hbase⟩
        -- nothing is on the stack
        obtain rfl : k = 0 := by simpa [hn] using (congrArg List.length hk).symm
        rw [hbase hu] at heq
        simp at heq
  | succ n =>
    rw [pop_i32 (by rw [hn, List.replicate_succ])]
    constructor
    · rintro ⟨v', hv', base, k, hk, rfl, hbase⟩
      obtain rfl := Except.ok.inj hv'
      refine ⟨base, k + 1, ?_, by rw [List.replicate_succ', List.append_assoc], hbase⟩
      rw [hn, List.replicate_succ, List.replicate_succ]
      exact congrArg _ hk
    · rintro ⟨base, k, hk, heq, hbase⟩
      obtain rfl : n + 1 = k := by simpa [hn] using congrArg List.length hk
      rw [List.replicate_succ', ← List.append_assoc] at heq
      exact ⟨_, rfl, base, n, rfl, List.append_cancel_right heq, hbase⟩

theorem Known.popAll {m : ℕ} : ∀ {v v' : FunctionValidator}, v.Known →
    v.popAll (List.replicate m .i32) = .ok v' → v'.Known := by
  induction m with
  | zero =>
    intro v v' h hp
    obtain rfl := Except.ok.inj hp
    exact h
  | succ m ih =>
    intro v v' h hp
    obtain ⟨v₁, h1, h2⟩ := bind_eq_ok.mp hp
    exact ih (h.pop h1) h2

/-- In unreachable code and in reachable code alike, the results that a validator represents are all
`i32`, and so are those that it pops. -/
theorem Known.results_eq (h : v.Known) (hends : v.Represents v.returns ∨
    ∃ v', v.popAll v.returns = .ok v' ∧ v'.underlying = []) :
    v.returns = List.replicate v.returns.length .i32 := by
  rw [List.eq_replicate_iff]
  refine ⟨rfl, fun vt hvt => ?_⟩
  cases hu : v.unreachable with
  | true => exact h.returns hu vt hvt
  | false =>
    obtain ⟨base, n, -, hs, hbase⟩ | ⟨v', hp, he⟩ := hends
    · -- in live code, the stack is what is known and nothing below
      rw [hs, hbase hu, List.nil_append] at hvt
      exact List.eq_of_mem_replicate hvt
    · obtain ⟨n, hn⟩ := h.underlying
      have hreach : v.Reachable n := ⟨hu, hn⟩
      rw [hreach.results hp he] at hvt
      exact List.eq_of_mem_replicate hvt

/-- The types are popped from the first one on, but they are all the same. -/
theorem popAll_i32_iff (m : ℕ) : ∀ {v : FunctionValidator}, v.Known →
    ((∃ v', v.popAll (List.replicate m .i32) = .ok v' ∧ v'.underlying = []) ↔
      v.Represents (List.replicate m .i32)) := by
  induction m with
  | zero =>
    intro v _
    -- nothing is popped: no value is left, and the stack is that of no known value
    constructor
    · rintro ⟨v', hp, he⟩
      obtain rfl := Except.ok.inj hp
      exact ⟨[], 0, he, rfl, fun _ => rfl⟩
    · rintro ⟨base, n, hn, hs, -⟩
      obtain ⟨-, hn'⟩ := List.append_eq_nil_iff.mp hs.symm
      obtain rfl : n = 0 := (List.replicate_eq_nil_iff _).mp hn'
      exact ⟨v, rfl, hn⟩
  | succ m ih =>
    intro v h
    -- the first pop, then the others, and both are pulled back to the stack before
    calc (∃ v', v.popAll (List.replicate (m + 1) .i32) = .ok v' ∧ v'.underlying = [])
      _ ↔ ∃ v₁, v.pop (.val .i32) = .ok v₁ ∧
          ∃ v', v₁.popAll (List.replicate m .i32) = .ok v' ∧ v'.underlying = [] := by
        rw [List.replicate_succ]
        constructor
        · rintro ⟨v', hp, he⟩
          obtain ⟨v₁, h1, h2⟩ := bind_eq_ok.mp hp
          exact ⟨v₁, h1, v', h2, he⟩
        · rintro ⟨v₁, h1, v', h2, he⟩
          exact ⟨v', bind_eq_ok.mpr ⟨v₁, h1, h2⟩, he⟩
      _ ↔ ∃ v₁, v.pop (.val .i32) = .ok v₁ ∧ v₁.Represents (List.replicate m .i32) :=
        exists_congr fun v₁ => and_congr_right fun h1 => ih (h.pop h1)
      _ ↔ v.Represents (List.replicate (m + 1) .i32) := by
        rw [pop_image h, ← List.replicate_succ']

/-- **The check of the results**, at a `Return` or at the end: it finds them exactly if the
validator represents a stack of just them. -/
theorem results_iff (h : v.Known) :
    (∃ v', v.popAll v.returns = .ok v' ∧ v'.underlying = []) ↔ v.Represents v.returns := by
  constructor
  · intro hends
    have heq := h.results_eq (.inr hends)
    rw [heq] at hends ⊢
    exact (popAll_i32_iff _ h).mp hends
  · intro hends
    have heq := h.results_eq (.inl hends)
    rw [heq] at hends ⊢
    exact (popAll_i32_iff _ h).mpr hends

/-! ### Visitors and rules -/

theorem Known.visit (h : v.Known) {i : Instruction} (hcore : i.isCore = true)
    (hv : v.visit i = .ok v') : v'.Known := by
  cases i with
  | constI32 value =>
    obtain rfl := Except.ok.inj hv
    exact h.push
  | addI32 =>
    obtain ⟨v₁, h1, hv⟩ := bind_eq_ok.mp hv
    obtain ⟨v₂, h2, hv⟩ := bind_eq_ok.mp hv
    obtain rfl := Except.ok.inj hv
    exact ((h.pop h1).pop h2).push
  | getLocalI32 idx =>
    obtain ⟨u, -, hv⟩ := bind_eq_ok.mp hv
    obtain rfl := Except.ok.inj hv
    exact h.push
  | setLocalI32 idx =>
    obtain ⟨v₁, h1, hv⟩ := bind_eq_ok.mp hv
    obtain ⟨u, -, hv⟩ := bind_eq_ok.mp hv
    obtain rfl := Except.ok.inj hv
    exact h.pop h1
  | return_ =>
    obtain ⟨v₁, h1, hv⟩ := bind_eq_ok.mp hv
    obtain ⟨u, he, hv⟩ := bind_eq_ok.mp hv
    obtain rfl := Except.ok.inj hv
    have hempty := assertEmpty_eq_ok.mp he
    refine ⟨⟨0, hempty⟩, fun _ => ?_⟩
    -- what was popped was all `i32`
    show ∀ vt ∈ v₁.returns, vt = .i32
    rw [(popAll_frame h1).returns, h.results_eq (.inr ⟨v₁, h1, hempty⟩)]
    exact fun vt => List.eq_of_mem_replicate
  | label id => cases hcore
  | br id => cases hcore
  | brIf thenId elseId => cases hcore

theorem visitAddI32_image (h : v.Known) (t : List ValType) :
    (∃ v', v.visitAddI32 = .ok v' ∧ v'.Represents t) ↔
      ∃ s, v.Represents (s ++ [.i32, .i32]) ∧ t = s ++ [.i32] := by
  constructor
  · rintro ⟨v', hv, ht⟩
    obtain ⟨v₁, h1, hv⟩ := bind_eq_ok.mp hv
    obtain ⟨v₂, h2, hv⟩ := bind_eq_ok.mp hv
    obtain rfl := Except.ok.inj hv
    obtain ⟨s, hs, rfl⟩ := (represents_push v₂ t).mp ht
    -- one operand is below the other
    have hs1 := (pop_image (h.pop h1) s).mp ⟨v₂, h2, hs⟩
    have hs2 := (pop_image h _).mp ⟨v₁, h1, hs1⟩
    rw [List.append_assoc] at hs2
    exact ⟨s, hs2, rfl⟩
  · rintro ⟨s, hs, rfl⟩
    have hs2 : v.Represents (s ++ [.i32] ++ [.i32]) := by rwa [List.append_assoc]
    obtain ⟨v₁, h1, hs1⟩ := (pop_image h _).mpr hs2
    obtain ⟨v₂, h2, hs⟩ := (pop_image (h.pop h1) s).mpr hs1
    refine ⟨v₂.push (.val .i32), ?_, (represents_push v₂ _).mpr ⟨s, hs, rfl⟩⟩
    exact bind_eq_ok.mpr ⟨v₁, h1, bind_eq_ok.mpr ⟨v₂, h2, rfl⟩⟩

theorem visitGetLocalI32_image (v : FunctionValidator) (idx : ℕ) (t : List ValType) :
    (∃ v', v.visitGetLocalI32 idx = .ok v' ∧ v'.Represents t) ↔
      v.locals[idx]? = some .i32 ∧ ∃ s, v.Represents s ∧ t = s ++ [.i32] := by
  rw [← represents_push]
  constructor
  · rintro ⟨v', hv, ht⟩
    obtain ⟨u, hlocal, hv⟩ := bind_eq_ok.mp hv
    obtain rfl := Except.ok.inj hv
    exact ⟨assertLocal_eq_ok.mp hlocal, ht⟩
  · rintro ⟨hlocal, ht⟩
    exact ⟨_, bind_eq_ok.mpr ⟨(), assertLocal_eq_ok.mpr hlocal, rfl⟩, ht⟩

theorem visitSetLocalI32_image (h : v.Known) (idx : ℕ) (t : List ValType) :
    (∃ v', v.visitSetLocalI32 idx = .ok v' ∧ v'.Represents t) ↔
      v.locals[idx]? = some .i32 ∧ v.Represents (t ++ [.i32]) := by
  rw [← pop_image h]
  constructor
  · rintro ⟨v', hv, ht⟩
    obtain ⟨v₁, h1, hv⟩ := bind_eq_ok.mp hv
    obtain ⟨u, hlocal, hv⟩ := bind_eq_ok.mp hv
    -- the check of the local does not change the validator
    obtain rfl := Except.ok.inj hv
    rw [← (pop_frame h1).locals]
    exact ⟨assertLocal_eq_ok.mp hlocal, v₁, h1, ht⟩
  · rintro ⟨hlocal, v₁, h1, ht⟩
    rw [← (pop_frame h1).locals] at hlocal
    exact ⟨v₁, bind_eq_ok.mpr ⟨v₁, h1, bind_eq_ok.mpr ⟨(), assertLocal_eq_ok.mpr hlocal, rfl⟩⟩, ht⟩

/-- After a `Return` nothing is known of the stack, which may be any. -/
theorem visitReturn_image (h : v.Known) (t : List ValType) :
    (∃ v', v.visitReturn = .ok v' ∧ v'.Represents t) ↔ v.Represents v.returns := by
  rw [← results_iff h]
  constructor
  · rintro ⟨v', hv, -⟩
    obtain ⟨v₁, h1, hv⟩ := bind_eq_ok.mp hv
    obtain ⟨u, he, -⟩ := bind_eq_ok.mp hv
    exact ⟨v₁, h1, assertEmpty_eq_ok.mp he⟩
  · rintro ⟨v₁, h1, he⟩
    refine ⟨{ v₁ with unreachable := true }, ?_, t, 0, he, by simp, nofun⟩
    exact bind_eq_ok.mpr ⟨v₁, h1, bind_eq_ok.mpr ⟨(), assertEmpty_eq_ok.mpr he, rfl⟩⟩

/-- **A visitor computes the image of its rule.** -/
theorem visit_image (h : v.Known) {i : Instruction} (hcore : i.isCore = true) (t : List ValType) :
    (∃ v', v.visit i = .ok v' ∧ v'.Represents t) ↔
      ∃ s, v.Represents s ∧ i.Types v.locals v.returns s t := by
  cases i with
  | constI32 value =>
    constructor
    · rintro ⟨v', hv, ht⟩
      obtain rfl := Except.ok.inj hv
      -- each visitor: what its stack stands for afterwards is what the rule makes of it
      obtain ⟨s, hs, rfl⟩ := (represents_push v t).mp ht
      exact ⟨s, hs, .constI32⟩
    · rintro ⟨s, hs, ht⟩
      cases ht
      exact ⟨_, rfl, (represents_push v _).mpr ⟨s, hs, rfl⟩⟩
  | addI32 =>
    rw [visit, visitAddI32_image h]
    constructor
    · rintro ⟨s, hs, rfl⟩
      exact ⟨_, hs, .addI32⟩
    · rintro ⟨s, hs, ht⟩
      cases ht
      exact ⟨_, hs, rfl⟩
  | getLocalI32 idx =>
    rw [visit, visitGetLocalI32_image]
    constructor
    · rintro ⟨hlocal, s, hs, rfl⟩
      exact ⟨s, hs, .getLocalI32 hlocal⟩
    · rintro ⟨s, hs, ht⟩
      cases ht with
      | getLocalI32 hlocal => exact ⟨hlocal, s, hs, rfl⟩
  | setLocalI32 idx =>
    rw [visit, visitSetLocalI32_image h]
    constructor
    · rintro ⟨hlocal, hs⟩
      exact ⟨_, hs, .setLocalI32 hlocal⟩
    · rintro ⟨s, hs, ht⟩
      cases ht with
      | setLocalI32 hlocal => exact ⟨hlocal, hs⟩
  | return_ =>
    rw [visit, visitReturn_image h]
    constructor
    · exact fun hs => ⟨v.returns, hs, .return_⟩
    · rintro ⟨s, hs, ht⟩
      cases ht
      exact hs
  -- control flow is not among the core instructions
  | label id => cases hcore
  | br id => cases hcore
  | brIf thenId elseId => cases hcore

theorem visitAll_eq_foldlM (v : FunctionValidator) (body : List Instruction) :
    v.visitAll body = body.foldlM visit v := by
  induction body generalizing v with
  | nil => rfl
  | cons i is ih =>
    rw [visitAll, List.foldlM_cons]
    exact congrArg _ (funext ih)

/-- The visitors follow the rules of a function with these locals and results. -/
theorem exactSteps (locals results : List ValType) :
    ExactSteps (fun v : FunctionValidator => v.Known ∧ v.locals = locals ∧ v.returns = results)
      (fun i : Instruction => i.isCore = true) Represents visit
      (Instruction.Types locals results) where
  keeps v i v' := by
    rintro ⟨h, rfl, rfl⟩ hcore hv
    exact ⟨h.visit hcore hv, visit_signature hv⟩
  image v i t := by
    rintro ⟨h, rfl, rfl⟩ hcore
    exact visit_image h hcore t

theorem known_new (ft : BlockType) (locals : List ValType) : (new ft locals).Known :=
  ⟨⟨0, rfl⟩, nofun⟩

/-- A validator starts with the empty stack and no other. -/
theorem represents_new (ft : BlockType) (locals s : List ValType) :
    (new ft locals).Represents s ↔ s = [] := by
  constructor
  · rintro ⟨base, n, hn, rfl, hbase⟩
    obtain rfl : n = 0 := by simpa [new] using (congrArg List.length hn).symm
    rw [hbase rfl]
    rfl
  · rintro rfl
    exact ⟨[], 0, rfl, rfl, fun _ => rfl⟩

theorem finalize_iff (h : v.Known) : (∃ v', v.finalize = .ok v') ↔ v.Represents v.returns := by
  rw [← results_iff h]
  constructor
  · rintro ⟨v', hv⟩
    obtain ⟨v₁, h1, hv⟩ := bind_eq_ok.mp hv
    obtain ⟨u, he, -⟩ := bind_eq_ok.mp hv
    exact ⟨v₁, h1, assertEmpty_eq_ok.mp he⟩
  · rintro ⟨v₁, h1, he⟩
    exact ⟨v₁, bind_eq_ok.mpr ⟨v₁, h1, bind_eq_ok.mpr ⟨(), assertEmpty_eq_ok.mpr he, rfl⟩⟩⟩

end FunctionValidator

open FunctionValidator

/-- **The validator decides the typing rules.** It accepts a body for a signature and locals if and
only if the body is well typed for them. -/
theorem validate_iff_typed (ft : BlockType) (locals : List ValType) (body : List Instruction)
    (hcore : CoreBody body) :
    (∃ v, validate ft locals body = .ok v) ↔ WellTyped ft locals body := by
  have hsteps := exactSteps (ft.parameterTypes ++ locals) ft.resultTypes
  have hnew : (new ft locals).Known ∧ (new ft locals).locals = ft.parameterTypes ++ locals ∧
      (new ft locals).returns = ft.resultTypes := ⟨known_new ft locals, rfl, rfl⟩
  calc (∃ v, validate ft locals body = .ok v)
      ↔ ∃ v, body.foldlM visit (new ft locals) = .ok v ∧ v.Represents ft.resultTypes := by
        -- `Finalize` accepts the stacks that stand for the results
        constructor
        · rintro ⟨v', hv⟩
          obtain ⟨v, hall, hfin⟩ := bind_eq_ok.mp hv
          rw [visitAll_eq_foldlM] at hall
          obtain ⟨hknown, -, hreturns⟩ := hsteps.foldlM_keeps hcore hnew hall
          exact ⟨v, hall, hreturns ▸ (finalize_iff hknown).mp ⟨v', hfin⟩⟩
        · rintro ⟨v, hall, hends⟩
          obtain ⟨hknown, -, hreturns⟩ := hsteps.foldlM_keeps hcore hnew hall
          obtain ⟨v', hfin⟩ := (finalize_iff hknown).mpr (hreturns ▸ hends)
          rw [← visitAll_eq_foldlM] at hall
          exact ⟨v', bind_eq_ok.mpr ⟨v, hall, hfin⟩⟩
    -- the visitors are exact, so that a run of them is a derivation
    _ ↔ ∃ s, (new ft locals).Represents s ∧
          Path (Instruction.Types (ft.parameterTypes ++ locals) ft.resultTypes) s body
            ft.resultTypes := hsteps.path_iff hcore hnew
    _ ↔ WellTyped ft locals body := by
        simp only [represents_new, exists_eq_left]
        exact Iff.rfl

/-- The addition finds its operands on a stack that nothing reaches. -/
theorem wellTyped_unreachable :
    WellTyped ⟨[], [.i32]⟩ [] [.constI32 ⟨1⟩, .return_, .addI32] :=
  (validate_iff_typed _ _ _ (by decide)).mp ⟨_, rfl⟩

end Wasmcc
