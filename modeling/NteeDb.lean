import NteeDb.Verified.Base64
import NteeDb.Verified.BinaryFloat
import NteeDb.Verified.Decimal
import NteeDb.Verified.Faults
import NteeDb.Verified.Journal
import NteeDb.Verified.Json
import NteeDb.Verified.JsonCodec
import NteeDb.Verified.JsonDecoding
import NteeDb.Verified.JsonString
import NteeDb.Verified.JsonTokens
import NteeDb.Verified.Lines
import NteeDb.Verified.OrderedTree
import NteeDb.Verified.Prog
import NteeDb.Verified.Ranks
import NteeDb.Verified.TextDecoder
import NteeDb.Verified.Utf8
import NteeDb.Core.Carried
import NteeDb.Core.Checkpoint
import NteeDb.Core.Counter
import NteeDb.Core.CounterWords
import NteeDb.Core.Handle
import NteeDb.Core.Hint
import NteeDb.Core.Indexes
import NteeDb.Core.Lock
import NteeDb.Core.MainLog
import NteeDb.Core.Open
import NteeDb.Core.PkIndex
import NteeDb.Core.Read
import NteeDb.Core.Record
import NteeDb.Core.Rewrite
import NteeDb.Core.Runs
import NteeDb.Core.SecIndex
import NteeDb.Core.Store
import NteeDb.Core.Write
import NteeDb.Invariants.Building
import NteeDb.Invariants.Checkpoints
import NteeDb.Invariants.CounterText
import NteeDb.Invariants.Counters
import NteeDb.Invariants.Durability
import NteeDb.Invariants.Evictions
import NteeDb.Invariants.Exact
import NteeDb.Invariants.Groups
import NteeDb.Invariants.IndexValues
import NteeDb.Invariants.Layout
import NteeDb.Invariants.Log
import NteeDb.Invariants.Lookups
import NteeDb.Invariants.Mutations
import NteeDb.Invariants.Open
import NteeDb.Invariants.Origins
import NteeDb.Invariants.Reads
import NteeDb.Invariants.Reclaiming
import NteeDb.Invariants.Refusals
import NteeDb.Invariants.Reopen
import NteeDb.Invariants.Retention
import NteeDb.Invariants.Rewrites
import NteeDb.Invariants.Rules
import NteeDb.Invariants.Scan
import NteeDb.Invariants.SecIndexes
import NteeDb.Invariants.Sessions
import NteeDb.Invariants.Sound
import NteeDb.Invariants.Swapping
import NteeDb.Invariants.Tidy
import NteeDb.Invariants.Writes
import NteeDb.Binding.BinaryBatch
import NteeDb.Server.AutoCompact
import NteeDb.Server.Backend
import NteeDb.Server.Client
import NteeDb.Server.Commands
import NteeDb.Server.Dispatch
import NteeDb.Server.Framing
import NteeDb.Server.Values
import NteeDb.Server.Wire
import NteeDb.Properties.AutoCompaction
import NteeDb.Properties.BatchAtomicity
import NteeDb.Properties.BinaryBatch
import NteeDb.Properties.Capping
import NteeDb.Properties.ClientTokens
import NteeDb.Properties.ClosedHandle
import NteeDb.Properties.Compaction
import NteeDb.Properties.CounterArithmetic
import NteeDb.Properties.CounterForm
import NteeDb.Properties.CrashSafety
import NteeDb.Properties.Credentials
import NteeDb.Properties.Demultiplexing
import NteeDb.Properties.EvictionOrder
import NteeDb.Properties.ExpiringMap
import NteeDb.Properties.FailedRelieve
import NteeDb.Properties.Framing
import NteeDb.Properties.HintAgreement
import NteeDb.Properties.IndexCompleteness
import NteeDb.Properties.IndexDrift
import NteeDb.Properties.IndexQueries
import NteeDb.Properties.InlinePut
import NteeDb.Properties.Lengths
import NteeDb.Properties.PowerLoss
import NteeDb.Properties.Purging
import NteeDb.Properties.RangeDelete
import NteeDb.Properties.ReadOwnWrite
import NteeDb.Properties.ReaperTiming
import NteeDb.Properties.RecordCodec
import NteeDb.Properties.Recovery
import NteeDb.Properties.Reindexing
import NteeDb.Properties.Relieving
import NteeDb.Properties.SecondaryIndexes
import NteeDb.Properties.SingleWriter
import NteeDb.Properties.TornPatch
import NteeDb.Properties.WireTTL
import NteeDb.Properties.WireValues
