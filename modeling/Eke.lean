import Eke.Fs.Remount
import Eke.Fs.FailedWrite
import Eke.Compiler.Linking
import Eke.Compiler.Reparsing
import Eke.Compiler.Sema
import Eke.Kernel.ReadyQueue
import Eke.Kernel.FaultIsolation
import Eke.Memory.PageRuns
import Eke.Memory.Routing
import Eke.Storage.Accounting
import Eke.Compiler.Independence
import Eke.Editor.Preserving
import Eke.Fs.PageUse
import Eke.Fs.Room
import Eke.Fs.Lasting
import Eke.Kernel.Drives
import Eke.Compiler.Trees
import Eke.Lib.Search
import Eke.Storage.FirstFit
import Eke.Memory.PageSearch
import Eke.Lib.Paging
import Eke.Memory.Vmm
import Eke.Memory.AddressSpace
import Eke.Memory.Mapping
import Eke.Memory.MappedPages
import Eke.Compiler.Operators
import Eke.Compiler.Image
import Eke.Compiler.Locals
import Eke.Compiler.MoreFuel
import Eke.Compiler.Termination
import Eke.Compiler.ParameterList
import Eke.Compiler.Coverage
import Eke.Compiler.ForLoops
import Eke.Compiler.Header
import Eke.Compiler.Lexer
import Eke.Compiler.Pointers
import Eke.Compiler.Strings
import Eke.Compiler.Precedence
import Eke.Compiler.Postfix
import Eke.Lib.Paths
import Eke.Compiler.Balance
import Eke.Compiler.Bodies
import Eke.Compiler.CalleeSaved
import Eke.Compiler.LocalVariables
import Eke.Kernel.Scrollback
import Eke.Compiler.TypeAgreement
import Eke.Compiler.Compatibility
import Eke.Compiler.TokenSpans
import Eke.Compiler.LexerReads
import Eke.Compiler.OperatorTokens
import Eke.Editor.Undo
import Eke.Kernel.Rotation
import Eke.Kernel.ModuleSwap
import Eke.Kernel.Boot
import Eke.Compiler.StringPool
import Eke.Compiler.StructMembers
import Eke.Compiler.StructLayout
import Eke.Memory.BumpHeap
import Eke.Kernel.Arguments
import Eke.Lib.Queue
import Eke.Kernel.Keyboard
import Eke.Kernel.Shell
import Eke.Kernel.ShellHistory
import Eke.Kernel.ShellScreen
import Eke.Lib.CStrings
import Eke.Storage.RamDisk
import Eke.Kernel.ShellScreen
import Eke.Kernel.Boot
import Eke.Compiler.StructMembers
import Eke.Compiler.StructLayout
import Eke.Lib.ByteLoops
import Eke.Compiler.Arena
import Eke.Compiler.TokenArray
import Eke.Compiler.Sprintf
import Eke.Compiler.TokenArray
import Eke.Lib.Printing
import Eke.Compiler.Sprintf
import Eke.Kernel.Kprintf
import Eke.Kernel.Kprintf
import Eke.Compiler.Builtins
import Eke.Compiler.Builtins
import Eke.Compiler.Preservation
import Eke.Kernel.Contexts
import Eke.Storage.Ata
import Eke.Kernel.Fairness
import Eke.Fs.Refinement
import Eke.Kernel.Programs
