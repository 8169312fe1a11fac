import PgBoss.Connection.Transaction
import PgBoss.Fetch.Conflict
import PgBoss.Fetch.Order
import PgBoss.Fetch.Uncontended
import PgBoss.Lifecycle.BatchCommit
import PgBoss.Lifecycle.SettledOnce
import PgBoss.Lifecycle.GiveBack
import PgBoss.Lifecycle.Retention
import PgBoss.Lifecycle.QueueRules
import PgBoss.Lifecycle.StrictFifo
import PgBoss.Flow.Counter
import PgBoss.Failure.Conservation
import PgBoss.Failure.Agreement
import PgBoss.Failure.Drain
import PgBoss.Timekeeper.Spacing
import PgBoss.Timekeeper.CatchUp
import PgBoss.Monitor.Tiles
import PgBoss.Monitor.History
import PgBoss.Monitor.Claims
import PgBoss.Monitor.TrueUpCheck
import PgBoss.Bam.Exclusion
import PgBoss.Bam.Outcomes
import PgBoss.Bam.StopAccounted
import PgBoss.Contractor.Versions
import PgBoss.Retained.Exact
import PgBoss.Retained.OneShot
import PgBoss.Upsert.Agree
import PgBoss.Manager.Update
import PgBoss.Attorney.Flow
import PgBoss.Monitor.Bucketed
import PgBoss.Lifecycle.LineageRoot
import PgBoss.Instance.Overlap
import PgBoss.LocalGroups.Bounded
import PgBoss.Attorney.SendUpdate
import PgBoss.Timekeeper.LastJob
import PgBoss.Lifecycle.Debounced
import PgBoss.Plans.Paged
import PgBoss.Connection.ListenAlive
import PgBoss.Clock.TestClock
import PgBoss.Clock.Ticks
import PgBoss.Clock.Fired
import PgBoss.Clock.Elapsed
import PgBoss.Sql.Lexer
import PgBoss.Adapters.Placeholders
import PgBoss.Adapters.Expanded
import PgBoss.Contractor.TableFormat
import PgBoss.Contractor.Retarget
import PgBoss.Contractor.Formatters
import PgBoss.Contractor.Exported
import PgBoss.Timekeeper.OccurrenceKeys
import PgBoss.Ecma.Doubles
import PgBoss.Monitor.Latency
import PgBoss.Timekeeper.TimerChain
import PgBoss.Worker.Loop
import PgBoss.Worker.WakeUp
import PgBoss.Instance.CrashCount
import PgBoss.Instance.CrashHistory
