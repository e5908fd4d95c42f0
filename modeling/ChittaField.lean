import ChittaField.Log.Repair
import ChittaField.Log.Incremental
import ChittaField.Sync.Handoff
import ChittaField.Sync.Convergence
import ChittaField.Sync.Fence
import ChittaField.Organs.Checkpoint
import ChittaField.Checkpoint.Crash
import ChittaField.Checkpoint.Interleaving
import ChittaField.Store.Pruning
import ChittaField.Store.Suppression
import ChittaField.Organs.LiveTape
import ChittaField.Organs.Writers
import ChittaField.Checkpoint.Publishing
import ChittaField.Checkpoint.DirtySkip
import ChittaField.Organs.WisdomPromotion
import ChittaField.Checkpoint.Retention
import ChittaField.Organs.CleanupRuns
import ChittaField.Organs.Learning
import ChittaField.Organs.Beliefs
import ChittaField.Organs.Facts
import ChittaField.Memory.Accesses
import ChittaField.Store.ChunkHash
import ChittaField.Store.FailedAppends
import ChittaField.Store.EmbedQueue
import ChittaField.Organs.AgentIndexes
import ChittaField.Organs.Tasks
import ChittaField.Organs.EventIds
import ChittaField.Spans.Commands
import ChittaField.Spans.Trigrams
import ChittaField.Vectors.GraphSearch
import ChittaField.Vectors.Mirrors
import ChittaField.Organs.Episodes
import ChittaField.Organs.SymbolEvents
import ChittaField.Organs.KeywordRuns
import ChittaField.Recall.PageRank
import ChittaField.Recall.Bridge
import ChittaField.Recall.Routed
import ChittaField.Recall.TimeWindow
import ChittaField.Vectors.Rows
import ChittaField.Recall.Traversal
import ChittaField.Organs.HdcFile
import ChittaField.Organs.ThemeUpkeep
import ChittaField.Organs.CortexRuns
import ChittaField.Vectors.TopK
import ChittaField.Log.InstanceIds
import ChittaField.Organs.RealmScan
import ChittaField.Organs.Ledger
import ChittaField.Organs.Refutation
import ChittaField.Recall.Associations
import ChittaField.Recall.Stratified
