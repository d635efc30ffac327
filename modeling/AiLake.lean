import AiLake.StoreProgram.Basic
import AiLake.Arrow
import AiLake.Provider
import AiLake.EqualityDelete
import AiLake.Layout
import AiLake.AvroManifest
import AiLake.Metadata
import AiLake.Object
import AiLake.ManifestCommit
import AiLake.Hadoop
import AiLake.TableView
import AiLake.CommitSpec
import AiLake.Listing
import AiLake.SchemaUpdate
import AiLake.FieldIds
import AiLake.SchemaHistory
import AiLake.FileFormat
import AiLake.Compaction
import AiLake.Content
import AiLake.ContentCommit
import AiLake.RewriteSpec
import AiLake.DeleteSpec
import AiLake.CompactionSpec
import AiLake.WriterSpec
import AiLake.StoreProgram.History
import AiLake.TableHistory
import AiLake.RowLineage
import AiLake.PartitionFilter
import AiLake.Ranking
import AiLake.SchemaFiller
import AiLake.Search
import AiLake.SearchDeletes
import AiLake.Avro.Binary
import AiLake.AvroRaw
import AiLake.ManifestBytes
import AiLake.DataManifestBytes
import AiLake.ManifestList
import AiLake.ManifestListHistory
import AiLake.SchemaRead
import AiLake.StoreProgram.Calls
import AiLake.VectorWrites
import AiLake.VectorWritesSpec
import AiLake.IdempotentWrites
import AiLake.Binary.LittleEndian
import AiLake.FileLayout
import AiLake.FileLayoutSpec
import AiLake.IndexLoader
import AiLake.FixedWindow
import AiLake.RateLimiter
import AiLake.CachingStore
import AiLake.CompactionJobs
import AiLake.CompactionJobsSpec
import AiLake.IndexJobs
import AiLake.IndexJobsSpec
import AiLake.ParquetFieldIds
import AiLake.ManifestListBytes
import AiLake.HadoopFaults
import AiLake.PartitionTransform
import AiLake.JdbcCommits
import AiLake.JdbcCommitsRuns
import AiLake.MergeCalls
import AiLake.TableIsolation
import AiLake.Binary.Bincode
import AiLake.Checked
import AiLake.IvfPq
import AiLake.IvfPqRows
import AiLake.IvfPqSdks
import AiLake.BestFirst
import AiLake.Hnsw
import AiLake.HnswBuild
import AiLake.HnswExact
import AiLake.HnswSafety
import AiLake.DeleteRows
import AiLake.CircuitBreaker
import AiLake.LruCache
import AiLake.MemTableRuns
import AiLake.SearchTopK
import AiLake.VectorPruning
import AiLake.CachingStoreRuns
import AiLake.FencedLeaseRuns
import AiLake.HnswWellFormed
import AiLake.CompactionPasses
import AiLake.PartitionTruncate
import AiLake.SchemaRenames
import AiLake.VisitedTracker
import AiLake.HybridFusion
import AiLake.SimdKernels
import AiLake.BloomFilter
