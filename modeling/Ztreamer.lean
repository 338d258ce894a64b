import Ztreamer.Backend.State
import Ztreamer.Chain.BlockParsers
import Ztreamer.Chain.Codec
import Ztreamer.Chain.Indexing
import Ztreamer.Chain.Parser
import Ztreamer.Chain.Plain
import Ztreamer.Chain.Proto
import Ztreamer.Chain.Range
import Ztreamer.Chain.RangeWriter
import Ztreamer.Chain.RecordSize
import Ztreamer.Chain.TransactionLayout
import Ztreamer.Chain.TransactionSoundness
import Ztreamer.Chain.Types
import Ztreamer.Import.Attestation
import Ztreamer.Import.Fetch
import Ztreamer.Import.Proof
import Ztreamer.Import.Range
import Ztreamer.Import.Replica
import Ztreamer.Import.Sample
import Ztreamer.Import.World
import Ztreamer.Import.Writers
import Ztreamer.Index.Answers
import Ztreamer.Index.Blocks
import Ztreamer.Index.BuilderRun
import Ztreamer.Index.Building
import Ztreamer.Index.Continuity
import Ztreamer.Index.Coverage
import Ztreamer.Index.Ingest
import Ztreamer.Index.IngestRun
import Ztreamer.Index.Install
import Ztreamer.Index.NodeChain
import Ztreamer.Index.Opening
import Ztreamer.Index.Provenance
import Ztreamer.Index.RangeCheck
import Ztreamer.Index.Reachable
import Ztreamer.Index.Rebuild
import Ztreamer.Index.Rows
import Ztreamer.Index.Sealing
import Ztreamer.Index.Snapshot
import Ztreamer.Index.Soundness
import Ztreamer.Index.State
import Ztreamer.Index.Tables
import Ztreamer.Index.Updates
import Ztreamer.Index.Writer
import Ztreamer.Index.Writes
import Ztreamer.Lib.Atomic
import Ztreamer.Lib.Bisect
import Ztreamer.Lib.Cursor
import Ztreamer.Lib.Merkle
import Ztreamer.Lib.Octets
import Ztreamer.Lib.Packed
import Ztreamer.Lib.Panicking
import Ztreamer.Lib.Result
import Ztreamer.Lib.Sorted
import Ztreamer.Lib.Table
import Ztreamer.Lib.Walk
import Ztreamer.Lib.Wire
import Ztreamer.Replicator.RangeMetaFill
import Ztreamer.Replicator.RowBlobs
import Ztreamer.Replicator.RowEpochs
import Ztreamer.Replicator.SnapshotExport
import Ztreamer.Replicator.SubtreeLists
import Ztreamer.Rpc.Client
import Ztreamer.Service.Mempool
import Ztreamer.Service.Projection
import Ztreamer.Service.RangeArithmetic
import Ztreamer.Service.RangeSession
import Ztreamer.Service.RangeStream
import Ztreamer.Service.SubtreeRoots
import Ztreamer.Snapshot.Manifest
import Ztreamer.Snapshot.ManifestEntry
import Ztreamer.Sync.Agreement
import Ztreamer.Sync.ByteBudget
import Ztreamer.Sync.Classification
import Ztreamer.Sync.Extension
import Ztreamer.Sync.FlowControl
import Ztreamer.Sync.Follower
import Ztreamer.Sync.Head
import Ztreamer.Sync.Moving
import Ztreamer.Sync.Poll
import Ztreamer.Sync.Preparation
import Ztreamer.Sync.Reconcile
import Ztreamer.Sync.Recovery
import Ztreamer.Sync.Replace
import Ztreamer.Sync.Serving
