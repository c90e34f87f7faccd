import FrenzyKV.Db.CachedSearch
import FrenzyKV.Db.CompactionEnds
import FrenzyKV.Db.CompactionTrigger
import FrenzyKV.Db.DbLocal
import FrenzyKV.Db.DiskImage
import FrenzyKV.Db.DiskInit
import FrenzyKV.Db.DiskOrder
import FrenzyKV.Db.DiskStore
import FrenzyKV.Db.HeldEntries
import FrenzyKV.Db.Init
import FrenzyKV.Db.InsertLoop
import FrenzyKV.Db.KeySerializers
import FrenzyKV.Db.KvEntry
import FrenzyKV.Db.KvdbDeps
import FrenzyKV.Db.LevelOrder
import FrenzyKV.Db.SequenceNumbers
import FrenzyKV.Db.Snapshot
import FrenzyKV.Db.SplitLoops
import FrenzyKV.Db.SyncBeforePublish
import FrenzyKV.Db.TornUpdate
import FrenzyKV.Db.Version
import FrenzyKV.Db.VersionCenter
import FrenzyKV.Db.VersionDeltas
import FrenzyKV.Db.VersionDescriptor
import FrenzyKV.Db.VersionReload
import FrenzyKV.Framework.ByteReader
import FrenzyKV.Framework.Cache
import FrenzyKV.Framework.Checked
import FrenzyKV.Framework.CrashStates
import FrenzyKV.Framework.LockOrder
import FrenzyKV.Framework.Machine
import FrenzyKV.Framework.RefCount
import FrenzyKV.Framework.Register
import FrenzyKV.Framework.Simulation
import FrenzyKV.Io.CopyLoops
import FrenzyKV.Io.InMemRw
import FrenzyKV.Io.IouringWritable
import FrenzyKV.Io.SeqWritable
import FrenzyKV.Io.WritableCalls
import FrenzyKV.Log.BatchAtomicity
import FrenzyKV.Log.EntryBuffer
import FrenzyKV.Log.LogFile
import FrenzyKV.Log.TornTail
import FrenzyKV.Log.WriteAheadLogger
import FrenzyKV.Math.Bytes
import FrenzyKV.Math.Chunked
import FrenzyKV.Math.Merge
import FrenzyKV.Math.PartialMap
import FrenzyKV.Math.RemoveIf
import FrenzyKV.Math.SkipList
import FrenzyKV.Math.SortedDifference
import FrenzyKV.Math.SortedGroups
import FrenzyKV.Math.Versioned
import FrenzyKV.Persistent.Block
import FrenzyKV.Persistent.BlockBuilder
import FrenzyKV.Persistent.BlockFormat
import FrenzyKV.Persistent.BlockLimits
import FrenzyKV.Persistent.BlockLookup
import FrenzyKV.Persistent.BlockParse
import FrenzyKV.Persistent.BlockRoundTrip
import FrenzyKV.Persistent.BlockSearch
import FrenzyKV.Persistent.Compaction
import FrenzyKV.Persistent.CompactionProof
import FrenzyKV.Persistent.LengthFields
import FrenzyKV.Persistent.MergeOrder
import FrenzyKV.Persistent.SegmentFormat
import FrenzyKV.Store.CallHistory
import FrenzyKV.Store.CallLog
import FrenzyKV.Store.CallSessions
import FrenzyKV.Store.Calls
import FrenzyKV.Store.CallsProof
import FrenzyKV.Store.Collection
import FrenzyKV.Store.CompactionExclusion
import FrenzyKV.Store.ConcurrentCompaction
import FrenzyKV.Store.DiskCompactions
import FrenzyKV.Store.DiskRuns
import FrenzyKV.Store.DiskSessions
import FrenzyKV.Store.Draining
import FrenzyKV.Store.DurableMap
import FrenzyKV.Store.GuardCounts
import FrenzyKV.Store.HistorySteps
import FrenzyKV.Store.InitCrash
import FrenzyKV.Store.Leftovers
import FrenzyKV.Store.Linearizability
import FrenzyKV.Store.Locking
import FrenzyKV.Store.Publication
import FrenzyKV.Store.ReadYourWrites
import FrenzyKV.Store.Recovery
import FrenzyKV.Store.SequentialRuns
import FrenzyKV.Store.Sessions
import FrenzyKV.Store.SnapshotStability
import FrenzyKV.Store.VersionSwitch
import FrenzyKV.Store.VersionedReads
import FrenzyKV.Table.BlockQuery
import FrenzyKV.Table.BlockSubspans
import FrenzyKV.Table.CompressorChoice
import FrenzyKV.Table.FileBuilder
import FrenzyKV.Table.FilterGate
import FrenzyKV.Table.Memtable
import FrenzyKV.Table.MemtableFilling
import FrenzyKV.Table.MetaData
import FrenzyKV.Table.OpeningAgrees
import FrenzyKV.Table.SegmentsInside
import FrenzyKV.Table.SizeAccounting
import FrenzyKV.Table.Sstable
import FrenzyKV.Table.SstableBuilder
import FrenzyKV.Table.SstableFormat
import FrenzyKV.Table.SstableInside
import FrenzyKV.Table.SstableLookup
import FrenzyKV.Table.SstableOpening
import FrenzyKV.Table.SstableParse
import FrenzyKV.Table.SstableRoundTrip
import FrenzyKV.Table.TableCache
import FrenzyKV.Table.TableImage
import FrenzyKV.Table.TableRoom
import FrenzyKV.Util.BloomFilter
import FrenzyKV.Util.Comp
import FrenzyKV.Util.Compressor
import FrenzyKV.Util.FileCenter
import FrenzyKV.Util.FileNames
import FrenzyKV.Util.KeyOrder
import FrenzyKV.Util.Options
import FrenzyKV.Util.WriteBatch
