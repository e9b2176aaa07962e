import Manticore.Zip
import Manticore.FileIo
import Manticore.Search
import Manticore.BlobRow
import Manticore.BlobRowRun
import Manticore.DocidLookup
import Manticore.DocidLookupFile
import Manticore.DocidValues
import Manticore.DocidRoundTrip
import Manticore.ExtNode
import Manticore.Sweep
import Manticore.ExtNodeSweep
import Manticore.ExtNodeLoops
import Manticore.ExtNodeRun
import Manticore.AuthPerms
import Manticore.FilterSettings
import Manticore.FilterTree
import Manticore.ShardBatch
import Manticore.GroupMerge
import Manticore.QcacheEntry
import Manticore.QueryCache
import Manticore.DocstoreBlock
import Manticore.DocstoreRead
import Manticore.DocstoreBuild
import Manticore.DocstoreRoundTrip
import Manticore.PtrTree
import Manticore.XQNode
import Manticore.XQBool
import Manticore.TransformCommonNot
import Manticore.XQCleanup
import Manticore.TransformCommonAndNotFactor
import Manticore.TransformCommonOrNot
import Manticore.XQBuild
import Manticore.TransformCommonCompoundNot
import Manticore.TransformCommonSubTerm
import Manticore.Multinear
import Manticore.PhraseFsm
import Manticore.ProximityFsm
import Manticore.MergeRun
import Manticore.Queue
import Manticore.MultiAndHits
import Manticore.HitStream
import Manticore.MultiAndDocs
import Manticore.NotNear
import Manticore.Conditional
import Manticore.Quorum
import Manticore.RowidBlocks
import Manticore.RowidIntersect
import Manticore.RowidUnion
import Manticore.GatherUpdates
import Manticore.AccumDoc
import Manticore.Compact
import Manticore.CleanupDuplicates
import Manticore.DocidRange
import Manticore.DocidRangeRun
import Manticore.DiskQword
import Manticore.Doclist
import Manticore.Hitlist
import Manticore.Skiplist
import Manticore.RegistersPacked
import Manticore.JsonKeys
import Manticore.GroupConcat
import Manticore.BinlogWriter
import Manticore.AuthRules
import Manticore.HistogramBuild
import Manticore.ShardPredicate
import Manticore.Levenshtein
