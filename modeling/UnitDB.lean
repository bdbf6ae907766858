import UnitDB.Source.Basic
import UnitDB.Source.WriteBatch
import UnitDB.Source.SyncHandle
import UnitDB.Source.SyncRun
import UnitDB.Source.LogPool
import UnitDB.Source.LogPoolInvariant
import UnitDB.Source.TopicTrie
import UnitDB.Source.TopicTrieEntries
import UnitDB.Guarantees.BatchWrite
import UnitDB.Guarantees.SyncSignal
import UnitDB.Guarantees.MemtableKeys
import UnitDB.Guarantees.LogPoolDelivery
import UnitDB.Guarantees.TopicTrieRefinement
import UnitDB.Source.LinearHash
import UnitDB.Source.LinearHashChains
import UnitDB.Source.LinearHashLayout
import UnitDB.Source.Header
import UnitDB.Guarantees.LinearHashLookup
import UnitDB.Guarantees.LinearHashInvariant
import UnitDB.Guarantees.LinearHashGet
import UnitDB.Guarantees.LinearHashKeys
import UnitDB.Guarantees.HeaderCodec
import UnitDB.Guarantees.BatchDedup
import UnitDB.Guarantees.BatchFrames
import UnitDB.Source.Expiry
import UnitDB.Guarantees.ExpiryIndex
import UnitDB.Source.TraceDB
import UnitDB.Guarantees.TraceDBIndex
import UnitDB.Source.Wal
import UnitDB.Guarantees.WalShutdown
import UnitDB.Source.TopicTrieHeap
import UnitDB.Guarantees.TopicTrieLinks
import UnitDB.Guarantees.TopicTrieHeapRefinement
import UnitDB.Guarantees.TraceDBSplitTrigger
