import CppLearn.Algorithm.Isort
import CppLearn.Algorithm.MedianOfMedians
import CppLearn.Algorithm.MedianRanks
import CppLearn.Algorithm.Partition
import CppLearn.Algorithm.Qselect
import CppLearn.Algorithm.Qsort
import CppLearn.DataStructure.BST
import CppLearn.DataStructure.BSTRemove
import CppLearn.DataStructure.BSTSet
import CppLearn.DataStructure.Hanoi
import CppLearn.DataStructure.Queue
import CppLearn.Foundation.Arrangements
import CppLearn.Foundation.ByteOrder
import CppLearn.Foundation.ByteSource
import CppLearn.Foundation.CallSequence
import CppLearn.Foundation.CartesianTree
import CppLearn.Foundation.CircularBuffer
import CppLearn.Foundation.DecimalText
import CppLearn.Foundation.Enumeration
import CppLearn.Foundation.EventualCycle
import CppLearn.Foundation.GuardedRun
import CppLearn.Foundation.HeapList
import CppLearn.Foundation.HeapTree
import CppLearn.Foundation.HeldHandles
import CppLearn.Foundation.HexText
import CppLearn.Foundation.InternetAddress
import CppLearn.Foundation.JsonText
import CppLearn.Foundation.LinearBuffer
import CppLearn.Foundation.LocalTime
import CppLearn.Foundation.LongestRun
import CppLearn.Foundation.NodeChain
import CppLearn.Foundation.NodeHeap
import CppLearn.Foundation.OnesComplement
import CppLearn.Foundation.OrderStatistic
import CppLearn.Foundation.PriorityQueue
import CppLearn.Foundation.QuadTrees
import CppLearn.Foundation.ReadySet
import CppLearn.Foundation.RowMajor
import CppLearn.Foundation.RunningBounds
import CppLearn.Foundation.SearchTree
import CppLearn.Foundation.SegmentSums
import CppLearn.Foundation.SharedPlaces
import CppLearn.Foundation.SignMarks
import CppLearn.Foundation.SpacedElements
import CppLearn.Foundation.StableSort
import CppLearn.Foundation.StackWalk
import CppLearn.Foundation.TextSearch
import CppLearn.Foundation.ThreadTable
import CppLearn.Foundation.Tiling
import CppLearn.Foundation.TimeText
import CppLearn.Foundation.TreeContext
import CppLearn.Foundation.TreeLevels
import CppLearn.Foundation.TreePaths
import CppLearn.Foundation.TreeSlots
import CppLearn.Foundation.ValueObjects
import CppLearn.Foundation.VectorAccess
import CppLearn.Foundation.WrappingIndex
import CppLearn.Foundation.XorSum
import CppLearn.Leetcode.BinaryTreeToList
import CppLearn.Leetcode.CopyRandomList
import CppLearn.Leetcode.CycleList
import CppLearn.Leetcode.FindDuplicates
import CppLearn.Leetcode.FindMode
import CppLearn.Leetcode.FlattenBSTInorder
import CppLearn.Leetcode.FlattenMultilevelDoublyList
import CppLearn.Leetcode.GenUniqueBSTs
import CppLearn.Leetcode.GreaterTree
import CppLearn.Leetcode.InsertionSortList
import CppLearn.Leetcode.IntersectQuadTrees
import CppLearn.Leetcode.IntersectionOfTwoLists
import CppLearn.Leetcode.LevelViews
import CppLearn.Leetcode.LongPressedName
import CppLearn.Leetcode.MaximumBinaryTree
import CppLearn.Leetcode.MaximumSubarray
import CppLearn.Leetcode.MergeKSortedLists
import CppLearn.Leetcode.MergeTwoLists
import CppLearn.Leetcode.MonotonicArray
import CppLearn.Leetcode.NextPermutation
import CppLearn.Leetcode.NumUniqueBSTs
import CppLearn.Leetcode.PalindromeList
import CppLearn.Leetcode.PartitionList
import CppLearn.Leetcode.Permutations
import CppLearn.Leetcode.PrintTree
import CppLearn.Leetcode.RandomNode
import CppLearn.Leetcode.RemoveDuplicates
import CppLearn.Leetcode.ReorderList
import CppLearn.Leetcode.RepeatedElement
import CppLearn.Leetcode.ReverseListII
import CppLearn.Leetcode.RotateList
import CppLearn.Leetcode.SearchMatrix
import CppLearn.Leetcode.SearchMatrixII
import CppLearn.Leetcode.SetMismatch
import CppLearn.Leetcode.SortList
import CppLearn.Leetcode.SortedListToBST
import CppLearn.Leetcode.SplitListToParts
import CppLearn.Leetcode.SymmetricTree
import CppLearn.Leetcode.TraversalToTree
import CppLearn.Leetcode.TreeDiameter
import CppLearn.Leetcode.TreeTraversals
import CppLearn.Leetcode.TreeWidth
import CppLearn.Pipeline.Capture
import CppLearn.Pipeline.DaySplit
import CppLearn.Pipeline.FileBounds
import CppLearn.Pipeline.NameRoundTrip
import CppLearn.Pipeline.StoreScan
import CppLearn.RecvEngine.BucketOwnership
import CppLearn.RecvEngine.ChunkHandover
import CppLearn.RecvEngine.Dump
import CppLearn.RecvEngine.FrameHeaders
import CppLearn.RecvEngine.HdfsParquetWriter
import CppLearn.RecvEngine.MemParquetWriter
import CppLearn.RecvEngine.PacketDefine
import CppLearn.RecvEngine.PacketGroupPool
import CppLearn.RecvEngine.PacketReceiver
import CppLearn.RecvEngine.PayloadSlots
import CppLearn.RecvEngine.QfsParquetWriter
import CppLearn.RecvEngine.ReceiverFraming
import CppLearn.RecvEngine.RingQueue
import CppLearn.RecvEngine.SinkCapacity
import CppLearn.RecvEngine.StoredFiles
import CppLearn.RecvEngine.WorkRing
import CppLearn.SearchEngine.CancelPending
import CppLearn.SearchEngine.ChildStartup
import CppLearn.SearchEngine.Client
import CppLearn.SearchEngine.ColumnReader
import CppLearn.SearchEngine.CompleteRequests
import CppLearn.SearchEngine.DescriptorTable
import CppLearn.SearchEngine.DfsParquetReader
import CppLearn.SearchEngine.DiskPcapWriter
import CppLearn.SearchEngine.ExactTransfer
import CppLearn.SearchEngine.FileListSearch
import CppLearn.SearchEngine.HdfsFileRead
import CppLearn.SearchEngine.HdfsParquetReader
import CppLearn.SearchEngine.LimitedSearch
import CppLearn.SearchEngine.LoopMoves
import CppLearn.SearchEngine.LoopPipe
import CppLearn.SearchEngine.LoopProgress
import CppLearn.SearchEngine.MemberAccess
import CppLearn.SearchEngine.Monitor
import CppLearn.SearchEngine.QfsParquetReader
import CppLearn.SearchEngine.ReplyPipe
import CppLearn.SearchEngine.RunningPool
import CppLearn.SearchEngine.SearchDaemon
import CppLearn.SearchEngine.SearchStop
import CppLearn.SearchEngine.SessionFilter
import CppLearn.SearchEngine.SockFraming
import CppLearn.SearchEngine.StoreTree
import CppLearn.SearchEngine.TaskChanges
import CppLearn.SearchEngine.TaskDocument
import CppLearn.SearchEngine.TaskLedger
import CppLearn.SearchEngine.TaskOutcome
import CppLearn.SearchEngine.TaskRequest
import CppLearn.SearchEngine.Utils
import CppLearn.SearchEngine.WaitStatus
import CppLearn.Unp.AddressText
import CppLearn.Unp.Checksum
import CppLearn.Unp.DatagramQueue
import CppLearn.Unp.PreforkServer
import CppLearn.Unp.ReadLine
import CppLearn.Unp.ReliableDatagram
import CppLearn.Unp.SelectServer
import CppLearn.Unp.StrClient
import CppLearn.Unp.ThreadServer
import CppLearn.Unp.UdpRead
import CppLearn.Unp.WebThreads
