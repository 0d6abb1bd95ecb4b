import Wasmcc.Basis.Groups
import Wasmcc.Basis.Memory
import Wasmcc.Basis.Program
import Wasmcc.Basis.Runs
import Wasmcc.Basis.Abstraction
import Wasmcc.Basis.Pages
import Wasmcc.Basis.Cpu
import Wasmcc.Basis.Grammar
import Wasmcc.Parser.Grammar
import Wasmcc.Parser.Spelling
import Wasmcc.Leb128
import Wasmcc.Leb128.Groups
import Wasmcc.Parser.Validator
import Wasmcc.Parser.Lookups
import Wasmcc.Parser.ModuleBuilder
import Wasmcc.Parser.Reading
import Wasmcc.Parser.Code
import Wasmcc.Parser.Sections
import Wasmcc.Parser.Framing
import Wasmcc.Parser.Frame
import Wasmcc.Parser.Validated
import Wasmcc.Parser.ValidatorSound
import Wasmcc.Parser.Guarantees
import Wasmcc.Parser.Truncated
import Wasmcc.Parser.Custom
import Wasmcc.Compiler.Common
import Wasmcc.Compiler.Emit
import Wasmcc.Compiler.Window
import Wasmcc.Compiler.Compiled
import Wasmcc.Compiler.Machine
import Wasmcc.Compiler.Labels
import Wasmcc.Compiler.X64
import Wasmcc.Compiler.Arm64
import Wasmcc.Compiler.Spill
import Wasmcc.Compiler.SetLocal
import Wasmcc.Compiler.SaveParameters
import Wasmcc.Compiler.Allocation
import Wasmcc.Compiler.StackFit
import Wasmcc.Compiler.ReturnLocation
import Wasmcc.Compiler.Ownership
import Wasmcc.Compiler.Emitted
import Wasmcc.Compiler.Convention
import Wasmcc.Compiler.Shadow
import Wasmcc.Compiler.Correct
import Wasmcc.Compiler.CompilerImpl
import Wasmcc.Compiler.Pointers
import Wasmcc.Compiler.Leak
import Wasmcc.Compiler.FrameWrites
import Wasmcc.Compiler.SpillSlots
import Wasmcc.Compiler.FrameLayout
import Wasmcc.Compiler.Registers
import Wasmcc.Runtime.Exports
import Wasmcc.Parser.Binary
import Wasmcc.Parser.RoundTrip
import Wasmcc.Runtime.Thread
import Wasmcc.Runtime.VM
import Wasmcc.Runtime.Invocations
import Wasmcc.Runtime.Computations
import Wasmcc.Runtime.Execution
import Wasmcc.Runtime.FunctionHandle
import Wasmcc.Runtime.Switch
import Wasmcc.Runtime.FunctionIndices
import Wasmcc.Runtime.GuardPages
import Wasmcc.Runtime.StackPointer
import Wasmcc.Runtime.ContextSwitch
import Wasmcc.Runtime.OsThread
import Wasmcc.Runtime.SwitchX64
import Wasmcc.Runtime.SwitchArm64
import Wasmcc.Parser.Constants
import Wasmcc.Parser.Globals
import Wasmcc.Parser.Branches
import Wasmcc.Parser.StackMemory
import Wasmcc.Parser.Typing
import Wasmcc.Parser.Nesting
import Wasmcc.Parser.ExportNames
import Wasmcc.Base.ByteStream
import Wasmcc.Base.Coro
import Wasmcc.Runtime.Isolation
import Wasmcc.Base.CoroFrames
import Wasmcc.Parser.Weight
import Wasmcc.Compiler.CodeSize
