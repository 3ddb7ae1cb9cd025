import MongolDb.Bson.ElementWalk
import MongolDb.Exec.PlanTrial
import MongolDb.Ftdc.Untrusted
import MongolDb.Index.KeyAgreement
import MongolDb.Lock.Bookkeeping
import MongolDb.Lock.Calls
import MongolDb.Lock.Deadlock
import MongolDb.Lock.Safety
import MongolDb.MmapV1.CrashRecovery
import MongolDb.MmapV1.UnitsOfWork
import MongolDb.Pipeline.SkipLimit
import MongolDb.Query.CachedPlan
import MongolDb.Query.SingleInterval
import MongolDb.Repl.BatchCrash
import MongolDb.Repl.CappedInserts
import MongolDb.Repl.ElectionSafety
import MongolDb.Repl.LastVote
import MongolDb.Repl.Quorums
import MongolDb.Repl.RoleMachine
import MongolDb.Repl.RollBack
import MongolDb.Sharding.MetadataLoader
import MongolDb.Sharding.MigrationAbort
import MongolDb.Sharding.OrphanRanges
import MongolDb.Sharding.Targeting
import MongolDb.Update.SafeNum
import MongolDb.WiredTiger.BulkBuilder
import MongolDb.WiredTiger.SeekPoints
import MongolDb.WiredTiger.TypeBitsRoom
