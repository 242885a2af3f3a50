import KernSql.Lib.Bytes
import KernSql.Lib.Exec
import KernSql.Lib.Refine
import KernSql.Lib.Machine
import KernSql.Lib.Chain
import KernSql.Lib.Search
import KernSql.Lib.Directory
import KernSql.Lib.BTree.Basic
import KernSql.Lib.BTree.Insert
import KernSql.Lib.BTree.Delete
import KernSql.Lib.ByteFile
import KernSql.Lib.Prog
import KernSql.Lib.Fixes
import KernSql.Lib.Footprint
import KernSql.Common.Types
import KernSql.Index.Node
import KernSql.Index.NodeSpec
import KernSql.Index.Structural
import KernSql.Index.NodeBytes
import KernSql.Buffer.PageStore
import KernSql.Storage.DiskManager
import KernSql.Storage.Freelist
import KernSql.Storage.FreelistRun
import KernSql.Storage.Transfer
import KernSql.Buffer.Replacer
import KernSql.Buffer.ReplacerRun
import KernSql.Buffer.BufferPool
import KernSql.Buffer.BufferPoolSpec
import KernSql.Buffer.BufferPoolCalls
import KernSql.Buffer.BufferPoolRun
import KernSql.Buffer.BadFetch
import KernSql.Buffer.Release
import KernSql.Buffer.Shutdown
import KernSql.Buffer.PoolCalls
import KernSql.Buffer.PoolRefine
import KernSql.Buffer.Flag
import KernSql.Buffer.Concurrent
import KernSql.Buffer.ConcurrentMoves
import KernSql.Buffer.ConcurrentInv
import KernSql.Buffer.ConcurrentRun
import KernSql.Buffer.ConcurrentReclaim
import KernSql.Buffer.ConcurrentLedger
import KernSql.Buffer.ConcurrentDisk
import KernSql.Buffer.Epoch
import KernSql.Index.BPlusTree
import KernSql.Index.Represent
import KernSql.Index.InOrder
import KernSql.Index.Descend
import KernSql.Index.Insert
import KernSql.Index.Delete
import KernSql.Index.Run
import KernSql.Index.Pages
import KernSql.Index.Scan
import KernSql.Index.IndexCode
import KernSql.Index.IndexGuards
import KernSql.Index.ScanCode
import KernSql.Index.Check
import KernSql.Index.CheckNodes
import KernSql.Index.CheckSound
import KernSql.Index.CheckPool
import KernSql.Heap.HeapPage
import KernSql.Heap.HeapPageSpec
import KernSql.Heap.HeapPageRun
import KernSql.Heap.HeapPageSpace
import KernSql.Heap.HeapPageAccepted
import KernSql.Heap.TableHeap
import KernSql.Heap.TableSpec
import KernSql.Heap.TableRun
import KernSql.Heap.TableConcurrent
import KernSql.Heap.TableConcurrentRun
import KernSql.Heap.TableConcurrentUpdate
import KernSql.Heap.TableScan
import KernSql.Heap.TableCursor
import KernSql.Heap.TableFailure
import KernSql.Heap.TableCode
import KernSql.Engine.Objects
import KernSql.Engine.Scans
import KernSql.Engine.Requests
import KernSql.Engine.Service
import KernSql.Engine.Restart
import KernSql.Engine.Budget
