import LevelDB.Lib.Multiversion
import LevelDB.Lib.Seek
import LevelDB.Lib.Cursor
import LevelDB.Lib.Merge
import LevelDB.Lib.MergeCursor
import LevelDB.Lib.Chain
import LevelDB.Lib.Trace
import LevelDB.DbFormat
import LevelDB.Table.Table
import LevelDB.Version.Version
import LevelDB.Version.Builder
import LevelDB.Iterator.DBIter
import LevelDB.Compaction.Overlap
import LevelDB.Compaction.Inputs
import LevelDB.Compaction.Pick
import LevelDB.Compaction.Manual
import LevelDB.Compaction.Work
import LevelDB.Compaction.Install
import LevelDB.Version.PickLevel
import LevelDB.Version.Shape
import LevelDB.Version.Layered
import LevelDB.Db.Batch
import LevelDB.Db.MemTable
import LevelDB.Db.Disk
import LevelDB.Db.VersionSet
import LevelDB.Db.Contents
import LevelDB.Db.Recovery
import LevelDB.Db.Covers
import LevelDB.Db.Sound
import LevelDB.Db.Machine
import LevelDB.Db.Session
import LevelDB.Db.Open
import LevelDB.Db.Durability
import LevelDB.Db.Manifest
import LevelDB.Db.Current
import LevelDB.Lib.LittleEndian
import LevelDB.Util.Coding
import LevelDB.Util.Crc32c
import LevelDB.Util.Crc32cStrides
import LevelDB.Util.Bloom
import LevelDB.Log.Writer
import LevelDB.Log.Reader
import LevelDB.Log.ReadBack
import LevelDB.Log.Damage
import LevelDB.Version.EditCodec
import LevelDB.Db.ManifestBytes
import LevelDB.Db.BatchCodec
import LevelDB.Db.BatchProgram
import LevelDB.Db.LogRecovery
import LevelDB.Db.Repair
import LevelDB.Table.FilterBlock
import LevelDB.Table.Comparator
import LevelDB.Table.Block
import LevelDB.Table.Format
import LevelDB.Table.ReadBlock
import LevelDB.Table.TwoLevelIterator
import LevelDB.Table.BlockSafety
import LevelDB.Table.TwoLevelCursor
import LevelDB.Table.MergingIterator
import LevelDB.Db.SkipList
import LevelDB.Db.SnapshotList
import LevelDB.Db.MemTableBytes
import LevelDB.Table.TableBuilder
import LevelDB.Table.TableReader
import LevelDB.Table.BlockRoundTrip
import LevelDB.Table.Lookup
import LevelDB.Table.ApproximateOffset
import LevelDB.Version.ApproximateSizes
import LevelDB.Db.RepairFilter
import LevelDB.Db.WriteQueue
import LevelDB.Iterator.Growing
import LevelDB.Db.Isolation
import LevelDB.Db.CompactMemTable
import LevelDB.Db.ApplyErrors
import LevelDB.Db.StorageFailure
import LevelDB.Db.FileName
import LevelDB.Db.Destroy
import LevelDB.Db.DestroyErrors
import LevelDB.Db.FileNumbers
import LevelDB.Db.Salvage
import LevelDB.Db.SalvageOpen
import LevelDB.Db.SalvageTables
import LevelDB.Util.CodingStream
import LevelDB.Util.Arena
import LevelDB.Db.Options
import LevelDB.Log.ReadFrom
import LevelDB.Version.LevelIterator
import LevelDB.Iterator.InternalIterator
import LevelDB.Db.TableCache
