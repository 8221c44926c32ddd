import FlashStack.Lib.Memory
import FlashStack.Lib.Program
import FlashStack.Lib.Events
import FlashStack.Lib.Patch
import FlashStack.Lib.CString
import FlashStack.Lib.Search
import FlashStack.Lib.Align
import FlashStack.Lib.Editor
import FlashStack.Lib.Pages
import FlashStack.Lib.Interleaving
import FlashStack.Lib.Listing
import FlashStack.Lib.Sections
import FlashStack.Spa
import FlashStack.Runtime.Machine
import FlashStack.Runtime.GsRsp
import FlashStack.Runtime.Region
import FlashStack.Runtime.Placement
import FlashStack.Runtime.Progress
import FlashStack.Runtime.Layout
import FlashStack.Runtime.Rerandomize
import FlashStack.Runtime.Lifecycle
import FlashStack.Runtime.Action
import FlashStack.Runtime.System
import FlashStack.Runtime.Atomicity
import FlashStack.Runtime.Cleaner
import FlashStack.Runtime.Reentrancy
import FlashStack.Runtime.Interference
import FlashStack.Runtime.GsBase
import FlashStack.Runtime.Attempts
import FlashStack.Runtime.ExitTable
import FlashStack.Asm.Cpu
import FlashStack.Asm.Sequences
import FlashStack.Asm.Alike
import FlashStack.Asm.Signals
import FlashStack.Asm.Returns
import FlashStack.Asm.DirectCall
import FlashStack.Asm.IndirectCall
import FlashStack.Asm.Team
import FlashStack.Asm.Concurrency
import FlashStack.Asm.Process
import FlashStack.Asm.Programs
import FlashStack.Asm.Preservation
import FlashStack.As.Instrumentation
import FlashStack.As.Lines
import FlashStack.As.Iteration
import FlashStack.As.Tracking
import FlashStack.As.Conservation
import FlashStack.As.Pairing
import FlashStack.As.Notice
import FlashStack.As.Coverage
import FlashStack.As.Names
import FlashStack.As.ProtectedCalls
import FlashStack.As.ProtectedList
import FlashStack.As.Passes
import FlashStack.As.Chance
import FlashStack.As.Reader
import FlashStack.As.Assembled
import FlashStack.As.Fetched
import FlashStack.Buddy.VectorAdd
import FlashStack.Buddy.Scheme
import FlashStack.Buddy.Decoding
import FlashStack.Buddy.Sizes
import FlashStack.Buddy.Threads
import FlashStack.FsGs.VectorAdd
import FlashStack.FsGs.Runtime
import FlashStack.FsGs.Layout
import FlashStack.FsGs.Rerandomize
import FlashStack.FsGs.Run
import FlashStack.FsGs.ExitState
import FlashStack.FsGs.Decoding
import FlashStack.FsGs.Confinement
import FlashStack.FsGs.Threads
import FlashStack.FsGs.Sequences
import FlashStack.FsGs.Returns
import FlashStack.Rewriter
import FlashStack.Rewriter.Sites
import FlashStack.Rewriter.Meaning
