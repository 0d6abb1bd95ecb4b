import Wasmcc.Compiler.X64

/-!
# Spilling and where values are

`AllocateRegister` in a state in which every stack element is found in its register, if it has one,
and in its slot otherwise. With a free register it emits nothing. Without one, the loop runs over
the whole stack, hands the register of each element to the next one up and stores that one's.

So an element whose register is taken is recorded in the register of an element below it
(`spill_cons`), which holds the other value. Only with a single element in a register is every value
found again, and only if all of its bytes are stored, over no slot in use
(`keepsFindable_iff`).
-/

open Basis

namespace Wasmcc

/-- The slots of two elements, relative to the stack pointer: no byte of `u` is among the first
`n` of `v`. -/
def RuntimeValue.ApartFrom (u v : RuntimeValue) (n : ℕ) : Prop :=
  Memory.Disjoint (u.stackPointer.signExtend 64) u.type.sizeBytes
    (v.stackPointer.signExtend 64) n

namespace Machine

/-- The value of a stack element: what its register holds, or what is in its slot. -/
def find (m : Machine) (v : RuntimeValue) : ℕ :=
  match v.reg with
  | some r => (m.reg r).toNat % 256 ^ v.type.sizeBytes
  | none => m.read v.stackPointer v.type.sizeBytes

theorem find_reg {v : RuntimeValue} {r : Reg} (m : Machine) (h : v.reg = some r) :
    m.find v = (m.reg r).toNat % 256 ^ v.type.sizeBytes := by
  rw [find, h]

theorem find_slot {v : RuntimeValue} (m : Machine) (h : v.reg = none) :
    m.find v = m.read v.stackPointer v.type.sizeBytes := by
  rw [find, h]

/-- Every byte of memory is set, and all else is zero. -/
def allSet : Machine where
  reg _ := 0
  sp := 0
  carry := false
  mem _ := 255#8
  ip := 0

theorem allSet_addr (offset : BitVec 32) : allSet.addr offset = offset.signExtend 64 :=
  BitVec.zero_add _

end Machine

/-! ### The condition -/

namespace Target

variable {ι : Type} (t : Target ι)

/-- `AllocateRegister` and the code it emits leave every value of the stack where the compiler will
look for it, and return a register that no element has. -/
def KeepsFindable (s : CompilerState) : Prop :=
  ∃ reg s' code, t.allocateRegister s = .ok (reg, s', code) ∧
    (∀ m, ∃ m', t.isa.execBlock code m = some m' ∧
      s'.stack.stack.map m'.find = s.stack.stack.map m.find) ∧
    ∀ v ∈ s'.stack.stack, v.reg ≠ some reg

/-- Either a register is free that no element has, or exactly one element is in a register, and its
store covers its value and touches no slot in use. -/
def Spillable (s : CompilerState) : Prop :=
  match s.regTracker.takeUnusedRegister t.callerSaved with
  | some (reg, _) => ∀ v ∈ s.stack.stack, v.reg ≠ some reg
  | none =>
    ∃ v, s.stack.stack.filter (fun u => u.reg.isSome) = [v] ∧ v.type.sizeBytes ≤ v.type.castBytes ∧
      ∀ u ∈ s.stack.stack, u.reg = none → u.ApartFrom v v.type.castBytes

end Target

/-! ### One store -/

namespace RuntimeValue

variable {u v : RuntimeValue} {r : Reg}

/-- The machine after an element's register is stored to its slot. -/
def spilled (v : RuntimeValue) (r : Reg) (m : Machine) : Machine :=
  m.store v.stackPointer (r.cast v.type)

theorem spilled_mem (v : RuntimeValue) (r : Reg) (m : Machine) : (v.spilled r m).mem =
    m.mem.write (m.addr v.stackPointer) v.type.castBytes (m.reg r).toNat := by
  rw [spilled, Machine.store, Reg.cast_bytes, Reg.cast_id]

theorem spilled_allSet_addr (v : RuntimeValue) (r : Reg) (offset : BitVec 32) :
    (v.spilled r .allSet).addr offset = offset.signExtend 64 := Machine.allSet_addr offset

/-- A store of zeros over a memory of ones shows which bytes it wrote. -/
theorem spilled_allSet (v : RuntimeValue) (r : Reg) (b : BitVec 64) :
    (v.spilled r .allSet).mem b =
      if Memory.InRange (v.stackPointer.signExtend 64) v.type.castBytes b then 0#8 else 255#8 := by
  rw [spilled_mem, Machine.allSet_addr]
  by_cases hb : Memory.InRange (v.stackPointer.signExtend 64) v.type.castBytes b
  · rw [Memory.write_of_inRange _ _ hb, if_pos hb]
    change BitVec.ofNat 8 (0 / _) = 0#8
    rw [Nat.zero_div]
  · rw [Memory.write_of_not_inRange _ _ hb, if_neg hb]
    rfl

/-- **Another slot** keeps its value, from every machine, exactly if it is apart from the bytes
stored. -/
theorem find_spilled_slot_iff (hu : u.reg = none) :
    (∀ m : Machine, (v.spilled r m).find u = m.find u) ↔ u.ApartFrom v v.type.castBytes := by
  have hsize := u.type.sizeBytes_le
  constructor
  · intro h b hb hb'
    have hread := h .allSet
    rw [Machine.find_slot _ hu, Machine.find_slot _ hu] at hread
    rw [Machine.read, Machine.read, spilled_allSet_addr, Machine.allSet_addr] at hread
    -- from memory that is all ones, the zeros of the spilled register show
    have hbyte := Memory.agreeOn_of_read_eq hread b hb
    rw [spilled_allSet, if_pos hb'] at hbyte
    change 0#8 = 255#8 at hbyte
    exact absurd hbyte (by decide)
  · intro h m
    -- a store somewhere else changes nothing in the slot
    rw [Machine.find_slot _ hu, Machine.find_slot _ hu, Machine.read, Machine.read, spilled_mem]
    exact Memory.read_write_of_disjoint m.mem _ (by omega)
      ((Memory.disjoint_add_iff m.sp _ _ _ _).mpr h)

/-- **Its own slot** gets the value of an element, from every machine, exactly if the store is as
wide as the value. -/
theorem find_spilled_self_iff (hv : v.reg = some r) :
    (∀ m : Machine, (v.spilled r m).find { v with reg := none } = m.find v) ↔
      v.type.sizeBytes ≤ v.type.castBytes := by
  have hsize := v.type.sizeBytes_le
  have hbytes := v.type.castBytes_le
  constructor
  · intro h
    -- a store that is too narrow leaves ones behind
    by_contra hlt
    rw [not_le] at hlt
    have hread := h .allSet
    rw [Machine.find_reg _ hv, Machine.find_slot _ rfl, Machine.read, spilled_mem] at hread
    change _ = 0 % _ at hread
    rw [Nat.zero_mod] at hread
    exact Memory.read_write_narrow _ hlt (by omega) hread
  · intro h m
    rw [Machine.find_reg _ hv, Machine.find_slot _ rfl, Machine.read, spilled_mem]
    exact Memory.read_write_first m.mem _ _ h (by omega)

end RuntimeValue

/-! ### The loop -/

/-- Two lists with the same elements around one place. -/
theorem map_append_cons_eq_iff {α β : Type} {f g : α → β} {above below : List α} {x y : α} :
    (above ++ x :: below).map f = (above ++ y :: below).map g ↔
      f x = g y ∧ ∀ u ∈ above ++ below, f u = g u := by
  simp only [List.map_append, List.map_cons, List.mem_append]
  constructor
  · intro h
    obtain ⟨habove, hrest⟩ := List.append_inj h (by rw [List.length_map, List.length_map])
    obtain ⟨hxy, hbelow⟩ := List.cons.inj hrest
    exact ⟨hxy, fun u hu => hu.elim (List.map_inj_left.mp habove u) (List.map_inj_left.mp hbelow u)⟩
  · rintro ⟨hxy, h⟩
    rw [hxy, List.map_inj_left.mpr fun u hu => h u (.inl hu),
      List.map_inj_left.mpr fun u hu => h u (.inr hu)]

namespace Assembler

variable {ι : Type} (a : Assembler ι) {above below : List RuntimeValue} {v : RuntimeValue} {r : Reg}

/-- Elements without a register are passed over. -/
theorem spill_append (h : ∀ u ∈ above, u.reg = none) (below : List RuntimeValue) :
    a.spill (above ++ below) =
      ((a.spill below).1, above ++ (a.spill below).2.1, (a.spill below).2.2) := by
  induction above with
  | nil => rfl
  | cons u above ih =>
    rw [List.cons_append, spill, ih fun v hv => h v (List.mem_cons_of_mem u hv)]
    simp only [h u List.mem_cons_self]
    rfl

theorem spill_of_free (h : ∀ u ∈ below, u.reg = none) : a.spill below = (none, below, []) := by
  have happ := a.spill_append h []
  rw [List.append_nil] at happ
  rw [happ, spill, List.append_nil]

/-- The element takes the register that the loop has, and gives up its own. -/
theorem spill_cons (hv : v.reg = some r) (below : List RuntimeValue) :
    a.spill (v :: below) =
      (some r, { v with reg := (a.spill below).1 } :: (a.spill below).2.1,
        (a.spill below).2.2 ++ [a.store v.stackPointer (r.cast v.type)]) := by
  rw [spill]
  simp only [hv]

/-- The loop has a register as soon as one element does. -/
theorem spill_fst_isSome : (a.spill below).1.isSome = below.any fun u => u.reg.isSome := by
  induction below with
  | nil => rfl
  | cons v below ih =>
    cases hv : v.reg with
    | none =>
      have hpass : (a.spill (v :: below)).1 = (a.spill below).1 := by
        rw [spill]
        simp only [hv]
      rw [hpass, ih, List.any_cons, hv, Option.isSome_none, Bool.false_or]
    | some r => rw [spill_cons a hv, List.any_cons, hv, Option.isSome_some, Bool.true_or]

end Assembler

namespace Target

variable {ι : Type} {t : Target ι} {s : CompilerState} {above below : List RuntimeValue}
  {v : RuntimeValue} {r r' : Reg}

/-- The stores of the loop leave the registers alone. -/
theorem execBlock_spill (stack : List RuntimeValue) (m : Machine) :
    ∃ m', t.isa.execBlock (t.spill stack).2.2 m = some m' ∧ m'.reg = m.reg := by
  have hstores : t.isa.Triple (fun m' => m'.reg = m.reg) (t.spill stack).2.2
      (fun m' => m'.reg = m.reg) := by
    refine Isa.Triple.each fun i hi => ?_
    obtain ⟨offset, g, rfl⟩ := t.mem_spill hi
    exact .single fun m' hm' => ⟨_, t.exec_store offset g m', hm'⟩
  exact hstores m rfl

/-- A free register: nothing moves. -/
theorem keepsFindable_of_free {tracker : RegisterTracker}
    (h : s.regTracker.takeUnusedRegister t.callerSaved = some (r, tracker)) :
    t.KeepsFindable s ↔ ∀ v ∈ s.stack.stack, v.reg ≠ some r := by
  have halloc : t.allocateRegister s = .ok (r, { s with regTracker := tracker }, []) := by
    rw [Assembler.allocateRegister, h]
  constructor
  · rintro ⟨reg, s', code, hs, -, hfresh⟩
    rw [halloc] at hs
    cases hs
    exact hfresh
  · intro hfresh
    exact ⟨r, _, _, halloc, fun m => ⟨m, rfl, rfl⟩, hfresh⟩

/-- No register to hand out. -/
theorem not_keepsFindable_of_nil (h : s.regTracker.takeUnusedRegister t.callerSaved = none)
    (hstack : ∀ u ∈ s.stack.stack, u.reg = none) : ¬t.KeepsFindable s := by
  rintro ⟨reg, s', code, hs, -⟩
  rw [Assembler.allocateRegister, h] at hs
  simp only [t.spill_of_free hstack] at hs
  cases hs

/-- **One element in a register**, which is stored and handed out. -/
theorem keepsFindable_of_one (h : s.regTracker.takeUnusedRegister t.callerSaved = none)
    (hstack : s.stack.stack = above ++ v :: below) (habove : ∀ u ∈ above, u.reg = none)
    (hv : v.reg = some r) (hbelow : ∀ u ∈ below, u.reg = none) :
    t.KeepsFindable s ↔
      v.type.sizeBytes ≤ v.type.castBytes ∧
        ∀ u ∈ above ++ below, u.ApartFrom v v.type.castBytes := by
  have halloc : t.allocateRegister s =
      .ok (r,
        { s with stack := { s.stack with stack := above ++ { v with reg := none } :: below } },
        [t.store v.stackPointer (r.cast v.type)]) := by
    rw [Assembler.allocateRegister, h, hstack, t.spill_append habove, t.spill_cons hv,
      t.spill_of_free hbelow]
    rfl
  have hfree : ∀ u ∈ above ++ below, u.reg = none := by
    intro u hu
    exact (List.mem_append.mp hu).elim (habove u) (hbelow u)
  have hexec (m : Machine) :
      t.isa.execBlock [t.store v.stackPointer (r.cast v.type)] m = some (v.spilled r m) := by
    rw [Isa.execBlock_cons (t.exec_store _ _ _)]
    rfl
  constructor
  · rintro ⟨reg, s', code, hs, hfind, -⟩
    rw [halloc] at hs
    cases hs
    -- the spilled value is looked for in its slot, and the others where they were
    have hall (m : Machine) : (v.spilled r m).find { v with reg := none } = m.find v ∧
        ∀ u ∈ above ++ below, (v.spilled r m).find u = m.find u := by
      obtain ⟨m', hm', hvals⟩ := hfind m
      obtain rfl := Option.some.inj ((hexec m).symm.trans hm')
      rw [hstack] at hvals
      exact map_append_cons_eq_iff.mp hvals
    refine ⟨(RuntimeValue.find_spilled_self_iff hv).mp fun m => (hall m).1, fun u hu => ?_⟩
    exact (RuntimeValue.find_spilled_slot_iff (hfree u hu)).mp fun m => (hall m).2 u hu
  · rintro ⟨hself, hothers⟩
    refine ⟨r, _, _, halloc, fun m => ⟨_, hexec m, ?_⟩, fun u hu => ?_⟩
    · rw [hstack]
      refine map_append_cons_eq_iff.mpr
        ⟨(RuntimeValue.find_spilled_self_iff hv).mpr hself m, fun u hu => ?_⟩
      exact (RuntimeValue.find_spilled_slot_iff (hfree u hu)).mpr (hothers u hu) m
    · have hnone : u.reg = none := by
        rcases List.mem_append.mp hu with hu | hu
        · exact habove u hu
        rcases List.mem_cons.mp hu with rfl | hu
        · rfl
        · exact hbelow u hu
      rw [hnone]
      exact nofun

/-- **Two elements in registers.** The upper one is recorded in the register of an element below,
which need not hold the same. -/
theorem not_keepsFindable_of_two (h : s.regTracker.takeUnusedRegister t.callerSaved = none)
    (hstack : s.stack.stack = above ++ v :: below) (habove : ∀ u ∈ above, u.reg = none)
    (hv : v.reg = some r) (hbelow : (below.any fun u => u.reg.isSome) = true) :
    ¬t.KeepsFindable s := by
  obtain ⟨r', hr'⟩ := Option.isSome_iff_exists.mp (t.spill_fst_isSome.trans hbelow)
  have halloc : t.allocateRegister s =
      .ok (r, { s with stack := { s.stack with
          stack := above ++ { v with reg := some r' } :: (t.spill below).2.1 } },
        (t.spill s.stack.stack).2.2) := by
    rw [Assembler.allocateRegister, h, hstack, t.spill_append habove, t.spill_cons hv, hr']
  rintro ⟨reg, s', code, hs, hfind, hfresh⟩
  rw [halloc] at hs
  cases hs
  have hne : r' ≠ r := by
    rintro rfl
    exact hfresh { v with reg := some r' } (by simp) rfl
  -- one in the register of `v`, zero in the one that it is recorded in
  set m : Machine := { Machine.allSet with reg := Function.update 0 r 1 }
  obtain ⟨m', hm', hvals⟩ := hfind m
  obtain ⟨m₁, hm₁, hreg⟩ := t.execBlock_spill s.stack.stack m
  obtain rfl := Option.some.inj (hm₁.symm.trans hm')
  rw [hstack] at hvals
  simp only [List.map_append, List.map_cons] at hvals
  have hrest := (List.append_inj hvals (by rw [List.length_map, List.length_map])).2
  have hfound := (List.cons.inj hrest).1
  have hr : m.reg r = 1 := Function.update_self r 1 0
  have hr0 : m.reg r' = 0 := Function.update_of_ne hne 1 0
  rw [Machine.find_reg m₁ rfl, Machine.find_reg m hv, hreg, hr, hr0] at hfound
  have hpow : 1 < 256 ^ v.type.sizeBytes := Nat.one_lt_pow v.type.sizeBytes_pos.ne' (by norm_num)
  change 0 % 256 ^ v.type.sizeBytes = 1 % 256 ^ v.type.sizeBytes at hfound
  rw [Nat.zero_mod, Nat.mod_eq_of_lt hpow] at hfound
  exact absurd hfound (by decide)

/-- **What `AllocateRegister` keeps**, on either architecture. It leaves every value where it will
be looked for, and hands out a register that no element has, exactly in the states of
`Spillable`. -/
theorem keepsFindable_iff (t : Target ι) (s : CompilerState) :
    t.KeepsFindable s ↔ t.Spillable s := by
  rw [Spillable]
  cases h : s.regTracker.takeUnusedRegister t.callerSaved with
  -- with a free register nothing is spilled
  | some free => exact keepsFindable_of_free h
  | none =>
    cases hf : s.stack.stack.filter (fun u => u.reg.isSome) with
    | nil =>
      -- no value is in a register, so the allocation fails
      have hnone : ∀ u ∈ s.stack.stack, u.reg = none := by
        simpa using List.filter_eq_nil_iff.mp hf
      simp only [List.nil_eq, reduceCtorEq, false_and, exists_false, iff_false]
      exact not_keepsFindable_of_nil h hnone
    | cons v rest =>
      -- `v` is the one nearest to the top, and is spilled
      obtain ⟨above, below, hstack, habove, hv, hrest⟩ := List.filter_eq_cons_iff.mp hf
      obtain ⟨r, hr⟩ := Option.isSome_iff_exists.mp hv
      have hfree : ∀ u ∈ above, u.reg = none := by simpa using habove
      cases rest with
      | nil =>
        -- it is the only one in a register, and its register is free now
        have hbelow : ∀ u ∈ below, u.reg = none := by
          simpa using List.filter_eq_nil_iff.mp hrest
        rw [keepsFindable_of_one h hstack hfree hr hbelow]
        constructor
        · rintro ⟨hself, hothers⟩
          refine ⟨v, rfl, hself, fun u hu hur => hothers u ?_⟩
          rw [hstack] at hu
          rcases List.mem_append.mp hu with hu | hu
          · exact List.mem_append_left _ hu
          · obtain rfl | hu := List.mem_cons.mp hu
            · rw [hur] at hr
              cases hr
            · exact List.mem_append_right _ hu
        · rintro ⟨w, hw, hself, hothers⟩
          obtain rfl := (List.cons.inj hw).1
          refine ⟨hself, fun u hu => hothers u ?_ ?_⟩
          · rw [hstack]
            exact (List.mem_append.mp hu).elim (List.mem_append_left _)
              fun hu => List.mem_append_right _ (List.mem_cons_of_mem _ hu)
          · exact (List.mem_append.mp hu).elim (hfree u) (hbelow u)
      | cons w rest =>
        -- with a second one, `v` is recorded in its register, which holds another value
        have hmem : w ∈ below.filter fun u => u.reg.isSome := by
          rw [hrest]
          exact List.mem_cons_self
        have hany : (below.any fun u => u.reg.isSome) = true :=
          List.any_eq_true.mpr ⟨w, List.mem_filter.mp hmem⟩
        refine iff_of_false (not_keepsFindable_of_two h hstack hfree hr hany) ?_
        rintro ⟨u, hu, -⟩
        cases hu

/-- Ten constants on x86-64: the tenth has no register, and spilling for it moves the nine below it
to each other's registers. -/
theorem ten_constants_lost :
    ∃ s code stack,
      X64.assembler.visitAll (.new ⟨⟨[], [.i32]⟩, [], 40, 10⟩) 0 { stack := { capacity := 10 } }
          (List.replicate 9 (.constI32 (Value.mk 0))) = .ok (s, code) ∧
        s.stack.push { type := .i32 } = .ok stack ∧
        ¬X64.target.KeepsFindable { s with stack } := by
  refine ⟨_, _, _, rfl, rfl, ?_⟩
  exact not_keepsFindable_of_two rfl (show _ = [_] ++ _ :: _ from rfl) (by decide) rfl rfl

end Target

end Wasmcc
