import Wasmcc.Compiler.Correct
import Wasmcc.Compiler.Pointers
import Wasmcc.Runtime.Execution
import Wasmcc.Runtime.Exports

/-!
# From the bytes of a module to the result of a call

What a host does with all of this: it parses a module, compiles it, looks a function up under its
name with the signature of a C++ function, invokes the handle and executes the computation. Here the
parts are put together: the parser and its validator, the compiler, the lookup, the VM.

`FunctionHandle.call` is the host's side: it invokes a lambda that applies the compiled function and
reads the result after one `Execute`. `IsFor.apply` says that the code returns what the function
means, for the function that the compiler compiled first and where its run is clear of the
compiler's defects; `FunctionHandle.call_of_calls` says that the host reads what the code returns.
-/

open Basis

namespace Wasmcc

open Reader ModuleBuilder

/-! ### Native signatures -/

/-- The C++ types that stand for WebAssembly types. -/
inductive NativeType where
  | int32
  | uint32
  | int64
  | uint64
  | float
  | double
deriving DecidableEq, Repr

/-- A C++ function type. Without a result it is `void`. -/
structure NativeSignature where
  argTypes : List NativeType
  resultType : Option NativeType
deriving DecidableEq, Repr

/-- `NativeToWasm`. -/
def nativeToWasm : NativeType → ValType
  | .int32 | .uint32 => .i32
  | .int64 | .uint64 => .i64
  | .float => .f32
  | .double => .f64

def signatureFromNative (signature : NativeSignature) : BlockType where
  parameterTypes := signature.argTypes.map nativeToWasm
  resultTypes := signature.resultType.toList.map nativeToWasm

/-- `VM::LookupFunctionHandle`. -/
def CompiledModule.lookupFunctionHandle (compiled : CompiledModule) (name : Name)
    (signature : NativeSignature) : Option CompiledFunction :=
  compiled.lookupFunctionHandleDynamic name (signatureFromNative signature)

/-- Arguments and the result are 32-bit integers. -/
def NativeSignature.IsI32 (signature : NativeSignature) : Prop :=
  ∀ τ ∈ signature.argTypes ++ signature.resultType.toList, nativeToWasm τ = .i32

instance NativeSignature.instDecidableIsI32 (signature : NativeSignature) :
    Decidable signature.IsI32 :=
  inferInstanceAs (Decidable (∀ τ ∈ signature.argTypes ++ signature.resultType.toList, _))

/-- `CompiledFunction::apply`: the code is called with its arguments in place. -/
def CompiledFunction.apply {ι : Type} (cf : CompiledFunction) (t : Target ι)
    (runtime : JitRuntime ι) (s : Machine) : Option Machine :=
  t.isa.call (runtime.codeAt cf.ptr) s

/-! ### What a lookup finds -/

section Lookup

variable {compiled : CompiledModule} {name : Name} {signature : BlockType} {cf : CompiledFunction}

/-- A handle is for the function that the name is exported for, which has the signature. -/
theorem lookupFunctionHandleDynamic_eq_some
    (h : compiled.lookupFunctionHandleDynamic name signature = some cf) :
    ∃ idx, compiled.exportedFunctions.lookup name = some idx ∧ compiled.functions[idx]? = some cf ∧
      cf.meta_.signature = signature := by
  unfold CompiledModule.lookupFunctionHandleDynamic at h
  split at h
  · cases h
  next idx hidx =>
    split at h
    · cases h
    next f hf =>
      split at h
      · cases h
      next hsignature =>
        obtain rfl := Option.some.inj h
        exact ⟨idx, hidx, hf, not_not.mp hsignature⟩

end Lookup

/-- A compiled function has the metadata of its source. -/
theorem CompilerImpl.compileFunctions_meta {ι : Type} {t : Target ι} {funcs : List Function} :
    ∀ {c c' : CompilerImpl ι} {compiled : List CompiledFunction},
      c.compileFunctions t.toAssembler funcs = .ok (compiled, c') →
      compiled.map (·.meta_) = funcs.map (·.meta_) := by
  induction funcs with
  | nil =>
    intro c c' compiled h
    obtain ⟨rfl, -⟩ := Prod.mk.inj (Except.ok.inj h)
    rfl
  | cons func funcs ih =>
    intro c c' compiled h
    obtain ⟨⟨cf, c₁⟩, h1, h2⟩ := bind_eq_ok.mp h
    obtain ⟨⟨rest, c₂⟩, h3, hr⟩ := bind_eq_ok.mp h2
    obtain ⟨rfl, -⟩ := Prod.mk.inj (Except.ok.inj hr)
    -- `Compile` puts the metadata of the function into what it returns
    obtain ⟨code, -, hfirst⟩ := bind_eq_ok.mp h1
    obtain ⟨rfl, -⟩ := Prod.mk.inj (Except.ok.inj hfirst)
    rw [List.map_cons, List.map_cons, ih h3]

/-! ### Functions with a body are validated -/

/-- A function with a body was validated. -/
theorem isValidated_of_body {dangling : List Name → Name → Bool} {bytes : List Byte}
    {parsed : ParsedModule} {c' : Cursor}
    (haccepted : parseModule dangling ⟨bytes, 0⟩ = .ok (parsed, c')) {f : Function}
    (hf : f ∈ parsed.functions) (hbody : f.body ≠ []) : f.IsValidated := by
  obtain ⟨-, secs, b, hcut, rfl⟩ := parseModule_eq_ok_iff.mp haccepted
  obtain ⟨rest, -, hsecs⟩ := id hcut
  by_cases hcode : ∃ s ∈ secs, s.id = 0x0A#8
  · exact (hsecs.defines hcode).1 f hf
  · have hnone : ∀ s ∈ secs, s.id ≠ 0x0A#8 := fun s hs he => hcode ⟨s, hs, he⟩
    obtain ⟨sig, rfl⟩ := hsecs.only_declared hnone (fun g hg => absurd hg List.not_mem_nil) f hf
    exact absurd rfl hbody

/-! ### From the bytes to the result -/

/-- What a host does with a function: `Invoke`, one `Execute`, then `IsDone` and `GetResult`. -/
def Session.invokeAndExecute {ρ : Type} (v : ℕ) (body : Body ρ) :
    Effect RuntimeError (Session ρ) (Answer × Option ρ) := do
  let before ← Effect.get
  let _ ← HostCall.perform v (.invoke body)
  let _ ← HostCall.perform v .execute
  let done ← HostCall.perform v .isDone
  let after ← Effect.get
  pure (done, after.result before.world.computations.length)

/-- How a host gets a handle: it parses the bytes, compiles the module with a new compiler, and
looks the name up. -/
structure FunctionHandle {ι : Type} (t : Target ι) (bytes : List Byte) where
  dangling : List Name → Name → Bool
  parsed : ParsedModule
  rest : Cursor
  accepted : parseModule dangling ⟨bytes, 0⟩ = .ok (parsed, rest)
  compiled : CompiledModule
  compiler : CompilerImpl ι
  compiles : CompilerImpl.compile t.toAssembler {} parsed = .ok (compiled, compiler)
  name : Name
  signature : NativeSignature
  function : CompiledFunction
  found : compiled.lookupFunctionHandle name signature = some function

namespace FunctionHandle

variable {ι : Type} {t : Target ι} {bytes : List Byte} {f : Function}

/-- The function `f` is the first one of the module and exported under the name. Its types are
`i32`, and it is made of the core instructions. -/
structure IsFor (h : FunctionHandle t bytes) (f : Function) : Prop where
  exported : h.parsed.exportedFunctions.lookup h.name = some 0
  first : h.parsed.functions[0]? = some f
  signature : h.signature.IsI32
  locals : ∀ vt ∈ f.meta_.locals, vt = .i32
  body : f.body ≠ []
  core : CoreBody f.body

section

variable {h : FunctionHandle t bytes}

/-- The handle has the signature of the function. -/
theorem IsFor.signature_eq (hf : h.IsFor f) :
    f.meta_.signature = signatureFromNative h.signature := by
  obtain ⟨⟨functions, c⟩, h1, hr⟩ := bind_eq_ok.mp h.compiles
  have hcompiled := (Prod.mk.inj (Except.ok.inj hr)).1
  have hmeta := CompilerImpl.compileFunctions_meta h1
  -- the lookup has compared the signatures
  obtain ⟨idx, hidx, hget, hsignature⟩ := lookupFunctionHandleDynamic_eq_some h.found
  have hexports : h.compiled.exportedFunctions = h.parsed.exportedFunctions := by rw [← hcompiled]
  rw [hexports, hf.exported] at hidx
  obtain rfl := Option.some.inj hidx
  have hfunctions : h.compiled.functions = functions := by rw [← hcompiled]
  have hfirst := congrArg (·[0]?) hmeta
  simp only [List.getElem?_map, hf.first, ← hfunctions, hget, Option.map_some,
    Option.some.injEq] at hfirst
  rw [← hsignature, hfirst]

theorem IsFor.isI32 (hf : h.IsFor f) : f.IsI32 where
  parameters vt hvt := by
    rw [hf.signature_eq] at hvt
    obtain ⟨τ, hτ, rfl⟩ := List.mem_map.mp hvt
    exact hf.signature τ (List.mem_append_left _ hτ)
  locals := hf.locals
  results vt hvt := by
    rw [hf.signature_eq] at hvt
    obtain ⟨τ, hτ, rfl⟩ := List.mem_map.mp hvt
    exact hf.signature τ (List.mem_append_right _ hτ)
  oneResult := by
    rw [hf.signature_eq]
    unfold signatureFromNative
    -- a C++ function has one result or none
    cases h.signature.resultType with
    | none => exact Nat.zero_le _
    | some τ => exact le_rfl

theorem IsFor.isValidated (hf : h.IsFor f) : f.IsValidated :=
  isValidated_of_body h.accepted (List.mem_of_getElem? hf.first) hf.body

/-- The parser admits no more parameters than there are argument registers. -/
theorem IsFor.parameters (hf : h.IsFor f) : f.meta_.signature.parameterTypes.length ≤ 6 := by
  obtain ⟨-, secs, b, hcut, hb⟩ := parseModule_eq_ok_iff.mp h.accepted
  obtain ⟨rest, -, hsecs⟩ := id hcut
  have hmem : f ∈ b.functions := by
    have hmem := List.mem_of_getElem? hf.first
    rwa [hb] at hmem
  exact ((hsecs.guaranteed guaranteed_empty).functions f hmem).signature.parameters

/-- **A call of the handle** returns what the function means. -/
theorem IsFor.apply (hf : h.IsFor f) (hregs : 6 ≤ t.gpArgs.length) {args : List (BitVec 32)}
    (hargs : args.length = h.signature.argTypes.length) (hclear : f.RunsClear t.arch args)
    {s : Machine} (hcall : CallState t f args s) :
    ∃ s' m, h.function.apply t h.compiler.runtime s = some s' ∧
      (StackMachine.start (args.map .i32) f.meta_.locals).run f.body = .ok m ∧
      (h.signature.resultType ≠ none → m.results = [.i32 (s'.lo t.gpRet)]) ∧
      s'.ip = t.returnAddress s ∧ s'.sp = s.sp + t.retPops := by
  have hlen : args.length = f.meta_.signature.parameterTypes.length := by
    rw [hargs, hf.signature_eq]
    exact (List.length_map _).symm
  obtain ⟨code, s', m, hcode, hrun, hmeans, hresult, hip, hsp⟩ := t.returns_of_clear 0 hf.isI32
    hf.core hf.isValidated hclear.1 hlen ((hlen.le.trans hf.parameters).trans hregs) hclear.2
    ⟨hcall.args, hcall.room⟩
  -- the handle's pointer leads to the first function, which is this one
  have hhead : (CompilerImpl.functionsOf ([] ++ [h.parsed])).head? = some f := by
    simpa [CompilerImpl.functionsOf, List.head?_eq_getElem?] using hf.first
  obtain ⟨code', hcode', hfront⟩ := CompilerImpl.entersFirst rfl h.compiles hhead
  obtain rfl := Except.ok.inj (hcode.symm.trans hcode')
  obtain ⟨idx, -, hget, -⟩ := lookupFunctionHandleDynamic_eq_some h.found
  refine ⟨s', m, Isa.call_prefix (hfront _ (List.mem_of_getElem? hget)) hrun, hmeans,
    fun hne => ?_, hip, hsp⟩
  refine hresult fun hnil => hne ?_
  rw [hf.signature_eq] at hnil
  simpa [signatureFromNative] using hnil

end

/-! ### The lambda of `LookupFunctionHandle` -/

/-- The lambda that `Invoke` passes to `InvokeDynamic`, run in the state `s`: it applies the
compiled function and assigns what this returns. Compiled code does not call `Yield`. -/
def lambda (h : FunctionHandle t bytes) (s : Machine) : Option (Body (BitVec 32)) :=
  (h.function.apply t h.compiler.runtime s).map fun s' => ⟨0, s'.lo t.gpRet⟩

/-- A host invokes the handle and executes the computation once. This is what it then reads, if the
code returns: the answer of `IsDone`, and `GetResult`. -/
def call (h : FunctionHandle t bytes) (s : Machine) (v : ℕ) (before : Session (BitVec 32)) :
    Option (Except RuntimeError (Answer × Option (BitVec 32))) :=
  (h.lambda s).map fun body => (Session.invokeAndExecute v body before).1

end FunctionHandle

/-- A VM that is free runs a function that does not yield in one `Execute`. -/
theorem Session.Inv.invokeAndExecute {before : Session (BitVec 32)} {v : ℕ}
    (hinv : before.Inv v 0) (value : BitVec 32) :
    (Session.invokeAndExecute v ⟨0, value⟩ before).1 = .ok (.bool true, some value) := by
  obtain ⟨hidle, houtside, hfresh⟩ := hinv.idle
  obtain ⟨hinvoked, hat, -⟩ := Session.invoke_of_idle hidle houtside hfresh ⟨0, value⟩
  -- the function does not yield, so one `Execute` is all of it
  obtain ⟨hexecuted, hdone, -⟩ := hat.execute
  have hinvoke : (HostCall.invoke ⟨0, value⟩).perform v before =
      (.ok .unit, before.step v (.invoke ⟨0, value⟩)) := Prod.ext hinvoked rfl
  have hexecute : HostCall.execute.perform v (before.step v (.invoke ⟨0, value⟩)) =
      (.ok .unit, (before.step v (.invoke ⟨0, value⟩)).step v .execute) := Prod.ext hexecuted rfl
  unfold Session.invokeAndExecute
  rw [Effect.get_bind, Effect.bind_of_ok hinvoke, Effect.bind_of_ok hexecute,
    Effect.bind_of_ok hdone.isDone]
  exact congrArg (fun result => Except.ok (Answer.bool true, result)) hdone.result

/-- **A host that calls a handle** on a free VM reads what the code of the handle returns. -/
theorem FunctionHandle.call_of_calls {ι : Type} {t : Target ι} {bytes : List Byte}
    {h : FunctionHandle t bytes} {s s' : Machine}
    (happly : h.function.apply t h.compiler.runtime s = some s') {v : ℕ}
    {w : World (Invocation (BitVec 32))} {calls : List (HostCall (BitVec 32))}
    (hidle : w.Idle v) (houtside : w.currentVmThread = none)
    (hallowed : EachStep HostCall.remaining HostCall.Allowed 0 calls)
    (hover : runCalls HostCall.remaining 0 calls = 0) :
    h.call s v (runCalls (Session.step v) { world := w } calls) =
      some (.ok (.bool true, some (s'.lo t.gpRet))) := by
  have hinit : ({ world := w } : Session (BitVec 32)).Inv v 0 :=
    .inl ⟨rfl, rfl, hidle, houtside, fun _ _ => rfl⟩
  -- the calls before have left the VM idle
  have hinv := hinit.run hallowed
  rw [hover] at hinv
  -- what the lambda stores is what the code has returned
  have hlambda : h.lambda s = some ⟨0, s'.lo t.gpRet⟩ := congrArg (Option.map _) happly
  unfold FunctionHandle.call
  rw [hlambda, Option.map_some, hinv.invokeAndExecute]

/-- A module that exports, as `f`, the function that adds its two parameters. -/
def addBytes : List Byte :=
  kMagicBytes ++ kVersionOne ++
    [0x01#8, 0x07#8, 0x01#8, 0x60#8, 0x02#8, 0x7F#8, 0x7F#8, 0x01#8, 0x7F#8,
      0x03#8, 0x02#8, 0x01#8, 0x00#8,
      0x07#8, 0x05#8, 0x01#8, 0x01#8, 0x66#8, 0x00#8, 0x00#8,
      0x0A#8, 0x09#8, 0x01#8, 0x07#8, 0x00#8, 0x20#8, 0x00#8, 0x20#8, 0x01#8, 0x6A#8, 0x0B#8]

/-- `int32_t(int32_t, int32_t)` -/
def addSignature : NativeSignature := ⟨[.int32, .int32], some .int32⟩

theorem addFn_means : (StackMachine.start ([1, 2].map .i32) addFn.meta_.locals).run addFn.body =
    .ok ⟨[.i32 3], [.i32 1, .i32 2]⟩ := rfl

/-- **From the bytes of a module to the result of a call, on x64.** Where the first function of an
accepted module is exported and runs clear, the code of a handle of it returns what the stack
machine computes from the body; and a host that invokes the handle on a free VM reads what the code
returned after one `Execute`. -/
theorem X64.handle_delivers_x64 {bytes : List Byte} (h : FunctionHandle X64.target bytes)
    {f : Function} (hf : h.IsFor f) {args : List (BitVec 32)}
    (hargs : args.length = h.signature.argTypes.length)
    (hclear : f.RunsClear X64.target.arch args) {s : Machine}
    (hcall : CallState X64.target f args s) :
    ∃ s' m, h.function.apply X64.target h.compiler.runtime s = some s' ∧
      (StackMachine.start (args.map .i32) f.meta_.locals).run f.body = .ok m ∧
      (h.signature.resultType ≠ none → m.results = [.i32 (s'.lo X64.rax)]) ∧
      s'.ip = X64.returnAddress s ∧ s'.sp = s.sp + 8 ∧
      ∀ (v : ℕ) (w : World (Invocation (BitVec 32))) (calls : List (HostCall (BitVec 32))),
        w.Idle v → w.currentVmThread = none →
        EachStep HostCall.remaining HostCall.Allowed 0 calls →
        runCalls HostCall.remaining 0 calls = 0 →
        h.call s v (runCalls (Session.step v) { world := w } calls) =
          some (.ok (.bool true, some (s'.lo X64.rax))) := by
  -- what the code computes, from the compiler and the validator
  obtain ⟨s', m, happly, hmeans, hresult, hip, hsp⟩ := hf.apply (by decide) hargs hclear hcall
  exact ⟨s', m, happly, hmeans, hresult, hip, hsp, fun v w calls hidle houtside hallowed hover =>
    FunctionHandle.call_of_calls happly hidle houtside hallowed hover⟩

/-- The handle of `f` in the module `addBytes`. -/
def X64.addHandle : FunctionHandle X64.target addBytes where
  dangling := fun _ _ => false
  parsed := _
  rest := _
  accepted := rfl
  compiled := _
  compiler := _
  compiles := rfl
  name := [0x66#8]
  signature := addSignature
  function := _
  found := rfl

theorem X64.addHandle_isFor : X64.addHandle.IsFor addFn :=
  ⟨rfl, rfl, by decide, by decide, by decide, by decide⟩

/-- Another computation was cancelled before the call. -/
theorem X64.handle_delivers_x64_add :
    X64.addHandle.call (.fresh [(X64.rdi, 1), (X64.rsi, 2)] 0) 0
        (runCalls (Session.step 0) {} [.invoke ⟨0, 7⟩, .cancel]) =
      some (.ok (.bool true, some 3)) := by
  have hclear : addFn.RunsClear X64.target.arch [1, 2] := by decide +kernel
  obtain ⟨s', m, -, hmeans, hresult, -, -, hcall⟩ :=
    X64.handle_delivers_x64 X64.addHandle X64.addHandle_isFor rfl hclear X64.addFn_callState
  have hresults := hresult (by decide)
  rw [← Except.ok.inj (addFn_means.symm.trans hmeans)] at hresults
  have hthree : (3 : BitVec 32) = s'.lo X64.rax :=
    WasmValue.i32.inj (List.cons.inj hresults).1
  rw [hthree]
  exact hcall 0 {} [.invoke ⟨0, 7⟩, .cancel] ⟨rfl, rfl⟩ rfl ⟨rfl, trivial, trivial⟩ rfl

/-- **From the bytes of a module to the result of a call, on arm64.** -/
theorem Arm64.handle_delivers_arm64 {bytes : List Byte} (h : FunctionHandle Arm64.target bytes)
    {f : Function} (hf : h.IsFor f) {args : List (BitVec 32)}
    (hargs : args.length = h.signature.argTypes.length)
    (hclear : f.RunsClear Arm64.target.arch args) {s : Machine}
    (hcall : CallState Arm64.target f args s) :
    ∃ s' m, h.function.apply Arm64.target h.compiler.runtime s = some s' ∧
      (StackMachine.start (args.map .i32) f.meta_.locals).run f.body = .ok m ∧
      (h.signature.resultType ≠ none → m.results = [.i32 (s'.lo Arm64.x0)]) ∧
      s'.ip = Arm64.returnAddress s ∧ s'.sp = s.sp + 0 ∧
      ∀ (v : ℕ) (w : World (Invocation (BitVec 32))) (calls : List (HostCall (BitVec 32))),
        w.Idle v → w.currentVmThread = none →
        EachStep HostCall.remaining HostCall.Allowed 0 calls →
        runCalls HostCall.remaining 0 calls = 0 →
        h.call s v (runCalls (Session.step v) { world := w } calls) =
          some (.ok (.bool true, some (s'.lo Arm64.x0))) := by
  -- what the code computes, from the compiler and the validator
  obtain ⟨s', m, happly, hmeans, hresult, hip, hsp⟩ := hf.apply (by decide) hargs hclear hcall
  exact ⟨s', m, happly, hmeans, hresult, hip, hsp, fun v w calls hidle houtside hallowed hover =>
    FunctionHandle.call_of_calls happly hidle houtside hallowed hover⟩

/-- The handle of `f` in the module `addBytes`. -/
def Arm64.addHandle : FunctionHandle Arm64.target addBytes where
  dangling := fun _ _ => false
  parsed := _
  rest := _
  accepted := rfl
  compiled := _
  compiler := _
  compiles := rfl
  name := [0x66#8]
  signature := addSignature
  function := _
  found := rfl

theorem Arm64.addHandle_isFor : Arm64.addHandle.IsFor addFn :=
  ⟨rfl, rfl, by decide, by decide, by decide, by decide⟩

/-- Another computation was cancelled before the call. -/
theorem Arm64.handle_delivers_arm64_add :
    Arm64.addHandle.call (.fresh [(0, 1), (1, 2)] 0) 0
        (runCalls (Session.step 0) {} [.invoke ⟨0, 7⟩, .cancel]) =
      some (.ok (.bool true, some 3)) := by
  have hclear : addFn.RunsClear Arm64.target.arch [1, 2] := by decide +kernel
  obtain ⟨s', m, -, hmeans, hresult, -, -, hcall⟩ :=
    Arm64.handle_delivers_arm64 Arm64.addHandle Arm64.addHandle_isFor rfl hclear
      Arm64.addFn_callState
  -- the result of the body is 3, so the result of the code is
  have hresults := hresult (by decide)
  rw [← Except.ok.inj (addFn_means.symm.trans hmeans)] at hresults
  have hthree : (3 : BitVec 32) = s'.lo Arm64.x0 :=
    WasmValue.i32.inj (List.cons.inj hresults).1
  rw [hthree]
  exact hcall 0 {} [.invoke ⟨0, 7⟩, .cancel] ⟨rfl, rfl⟩ rfl ⟨rfl, trivial, trivial⟩ rfl

end Wasmcc
