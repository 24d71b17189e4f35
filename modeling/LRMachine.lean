import LRMachine.Draft
import LRMachine.Main
import LRMachine.Proofs.CheckedTables
import LRMachine.Proofs.Outcome
import LRMachine.Proofs.Levels
import LRMachine.Proofs.Runs
import LRMachine.Proofs.RunErrors
import LRMachine.Proofs.Acceptance
import LRMachine.Proofs.Correspondence
import LRMachine.Proofs.Balance
import LRMachine.Proofs.Mounting
import LRMachine.Proofs.Lockstep
import LRMachine.Proofs.Readings
import LRMachine.Proofs.StorageFormat
import LRMachine.Proofs.TokenOrder
import LRMachine.Proofs.SpanOrder
import LRMachine.Proofs.Evaluation
import LRMachine.Proofs.SumWords
import LRMachine.Proofs.Sums
import LRMachine.Proofs.Documents
import LRMachine.Proofs.Limits
import LRMachine.Proofs.ActionCodec
import LRMachine.Proofs.DraftLayout
import LRMachine.Proofs.DraftLookups
import LRMachine.Proofs.Invariants
import LRMachine.Proofs.Overflow
import LRMachine.Proofs.LevelBounds
import LRMachine.Proofs.Positions
import LRMachine.Proofs.Recoveries
import LRMachine.Proofs.MountedItems
import LRMachine.Proofs.Lookups
import LRMachine.Proofs.EntryScan
import LRMachine.Proofs.Adoption
import LRMachine.Proofs.Resolution
import LRMachine.Proofs.Leaves
import LRMachine.Proofs.Arena
import LRMachine.Proofs.Flattening
import LRMachine.Proofs.Repetition
import LRMachine.Proofs.Termination
import LRMachine.Proofs.FrameBases
import LRMachine.Proofs.ClosedLevels
import LRMachine.Proofs.SkippedTail
import LRMachine.Proofs.GraphOrder
import LRMachine.Proofs.TaggedForests
import LRMachine.Proofs.LayoutOffsets
import LRMachine.Proofs.EndMarks
