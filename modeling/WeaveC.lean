import WeaveC.Library.Bytes
import WeaveC.Library.Dataflow
import WeaveC.Library.Intrusive
import WeaveC.Library.Transition
import WeaveC.Library.Interleave
import WeaveC.Library.Code
import WeaveC.Library.Checks
import WeaveC.Runtime.Shadow
import WeaveC.Runtime.ShadowWrite
import WeaveC.Runtime.Guard
import WeaveC.Runtime.GuardSpec
import WeaveC.Runtime.Color
import WeaveC.Pass.Inline
import WeaveC.Pass.InlineSpec
import WeaveC.Pass.Dominated
import WeaveC.Pass.DominatedSpec
import WeaveC.Alloc.Class
import WeaveC.Alloc.Heap
import WeaveC.Alloc.Sweep
import WeaveC.Alloc.Machine
import WeaveC.Alloc.Place
import WeaveC.Alloc.Moves
import WeaveC.Alloc.Sections
import WeaveC.Alloc.Marks
import WeaveC.Alloc.Moved
import WeaveC.Alloc.Taking
import WeaveC.Alloc.Releasing
import WeaveC.Alloc.Partition
import WeaveC.Alloc.Slots
import WeaveC.Alloc.Requests
import WeaveC.Alloc.Stages
import WeaveC.Alloc.Written
import WeaveC.Alloc.HugeBlocks
import WeaveC.Alloc.Growth
import WeaveC.Alloc.Sound
import WeaveC.Alloc.HugeShadow
import WeaveC.Alloc.HugeLife
import WeaveC.Alloc.Recycled
import WeaveC.Alloc.Unused
import WeaveC.Alloc.Boundary
import WeaveC.Alloc.Refused
import WeaveC.Alloc.SpareRuns
import WeaveC.Sweep.Work
import WeaveC.Sweep.Workers
import WeaveC.Sweep.Stop
import WeaveC.Sweep.StopSpec
import WeaveC.Sweep.Stopping
import WeaveC.Sweep.World
import WeaveC.Sweep.Maps
import WeaveC.Sweep.Roots
import WeaveC.Sweep.InternalSpec
import WeaveC.Pass.ShadowRuns
import WeaveC.Pass.Frame
import WeaveC.Pass.FrameSpec
import WeaveC.Pass.InBoundsSpec
import WeaveC.Pass.LoopsSpec
import WeaveC.Pass.HullSpec
import WeaveC.Pass.MergeSpec
import WeaveC.Pass.EnforcementSpec
import WeaveC.Pass.Strings
import WeaveC.Pass.Dynamic
import WeaveC.Calls.TermSpec
import WeaveC.Calls.FormatSpec
import WeaveC.Calls.Copies
import WeaveC.Locks.Entries
import WeaveC.Locks.Order
import WeaveC.Locks.System
import WeaveC.Locks.Acyclic
import WeaveC.Locks.Signals
import WeaveC.Locks.Nesting
import WeaveC.Locks.Deferred
import WeaveC.Locks.Ledger
import WeaveC.Locks.SignalRuns
import WeaveC.Library.Settling
import WeaveC.Pass.Entry
import WeaveC.Pass.Placement
import WeaveC.Pass.Scopes
import WeaveC.Calls.Exact
import WeaveC.Calls.SpellingSpec
import WeaveC.Calls.NumbersSpec
import WeaveC.Runtime.Mapping
import WeaveC.Alloc.Colors
import WeaveC.Alloc.Intact
import WeaveC.Alloc.Sealed
import WeaveC.Alloc.Reuse
import WeaveC.Pass.RootSearchSpec
import WeaveC.Calls.ScannedSpec
import WeaveC.Runtime.Report
import WeaveC.Sweep.Excluded
import WeaveC.Runtime.Clearing
import WeaveC.Calls.Aliases
import WeaveC.Library.Memory
import WeaveC.Library.Store
import WeaveC.Alloc.Contents
import WeaveC.Alloc.Entries
import WeaveC.Alloc.Zeroed
import WeaveC.Alloc.Aims
import WeaveC.Alloc.Blocks
import WeaveC.Alloc.Serving
import WeaveC.Alloc.Served
import WeaveC.Alloc.Faithful
import WeaveC.Alloc.Lookup
import WeaveC.Library.Accounts
import WeaveC.Alloc.Counts
import WeaveC.Alloc.Accounts
import WeaveC.Alloc.Quarantine
import WeaveC.Alloc.Fork
import WeaveC.Alloc.Refills
import WeaveC.Alloc.ForkChild
import WeaveC.Alloc.Doubles
import WeaveC.Runtime.Globals
import WeaveC.Pass.Globals
import WeaveC.Library.Matching
import WeaveC.Runtime.Lines
import WeaveC.Runtime.CaseRunner
