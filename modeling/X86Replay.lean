import X86Replay.Memory.Remapped
import X86Replay.Proofs.Addition
import X86Replay.Proofs.AddressSpace
import X86Replay.Proofs.Aliasing
import X86Replay.Proofs.Atomicity
import X86Replay.Proofs.Bounds
import X86Replay.Proofs.ByteMemory
import X86Replay.Proofs.CachedBlocks
import X86Replay.Proofs.Caching
import X86Replay.Proofs.CodeBytes
import X86Replay.Proofs.CodeIdentity
import X86Replay.Proofs.CodeLimit
import X86Replay.Proofs.Coherence
import X86Replay.Proofs.Comparison
import X86Replay.Proofs.Compiling
import X86Replay.Proofs.Confinement
import X86Replay.Proofs.Consistency
import X86Replay.Proofs.CountedPages
import X86Replay.Proofs.Coverage
import X86Replay.Proofs.Delivery
import X86Replay.Proofs.Descriptors
import X86Replay.Proofs.Epochs
import X86Replay.Proofs.FarFrames
import X86Replay.Proofs.FastPath
import X86Replay.Proofs.Faulting
import X86Replay.Proofs.FlatCompiling
import X86Replay.Proofs.Handles
import X86Replay.Proofs.Interrupts
import X86Replay.Proofs.Keeping
import X86Replay.Proofs.Layout
import X86Replay.Proofs.Linking
import X86Replay.Proofs.LittleEndian
import X86Replay.Proofs.Locking
import X86Replay.Proofs.Lockstep
import X86Replay.Proofs.MemoryMaps
import X86Replay.Proofs.Mode
import X86Replay.Proofs.MultiPrecision
import X86Replay.Proofs.PageCounts
import X86Replay.Proofs.Pages
import X86Replay.Proofs.PhysicalMemory
import X86Replay.Proofs.Prefetching
import X86Replay.Proofs.PrefixRuns
import X86Replay.Proofs.ReadBack
import X86Replay.Proofs.Recency
import X86Replay.Proofs.Recompiling
import X86Replay.Proofs.Recording
import X86Replay.Proofs.Refetching
import X86Replay.Proofs.Remapping
import X86Replay.Proofs.Replaying
import X86Replay.Proofs.Representation
import X86Replay.Proofs.Retrying
import X86Replay.Proofs.RunLoop
import X86Replay.Proofs.Runner
import X86Replay.Proofs.SameMode
import X86Replay.Proofs.Stack
import X86Replay.Proofs.StaleWindows
import X86Replay.Proofs.Starts
import X86Replay.Proofs.StatusFlags
import X86Replay.Proofs.Stepping
import X86Replay.Proofs.StraightLine
import X86Replay.Proofs.Subtraction
import X86Replay.Proofs.Termination
import X86Replay.Proofs.Transaction
import X86Replay.Proofs.Transparency
import X86Replay.Proofs.Turns
import X86Replay.Proofs.TwinWindows
import X86Replay.Proofs.Undecodable
import X86Replay.Proofs.Walks
import X86Replay.Proofs.WellFormedBlocks
import X86Replay.Proofs.WriteLog
import X86Replay.Run
