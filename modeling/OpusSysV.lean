import OpusSysV.Lib.Run
import OpusSysV.Lib.Extent
import OpusSysV.Lib.Reads
import OpusSysV.Lib.Rollback
import OpusSysV.Lib.Word
import OpusSysV.Lib.Ring
import OpusSysV.Lib.Follow
import OpusSysV.Lib.Linked
import OpusSysV.Lib.Radix
import OpusSysV.Lib.Circular
import OpusSysV.Lib.Comparator
import OpusSysV.Lib.Slots
import OpusSysV.Os.Malloc
import OpusSysV.Os.MapHistory
import OpusSysV.Os.Flock
import OpusSysV.Os.FlockScan
import OpusSysV.Os.FlockMap
import OpusSysV.Os.FlockFail
import OpusSysV.Os.FlockSleep
import OpusSysV.Os.FlockRec
import OpusSysV.Os.FlockWait
import OpusSysV.Os.FlockRun
import OpusSysV.Os.Swap
import OpusSysV.Os.SwapAdm
import OpusSysV.Os.ForkFail
import OpusSysV.Os.Bio
import OpusSysV.Os.BioCache
import OpusSysV.Os.BioAhead
import OpusSysV.Os.Page
import OpusSysV.Os.PageLists
import OpusSysV.Os.ProcTree
import OpusSysV.Os.SigMask
import OpusSysV.Os.SigMaskRun
import OpusSysV.Cmd.AsOps
import OpusSysV.Os.JmpOrBr
import OpusSysV.Os.SleepQueue
import OpusSysV.Os.SmallPage
import OpusSysV.Os.WaitPid
import OpusSysV.Os.PageSteal
import OpusSysV.Os.Region
import OpusSysV.Os.RegionLoops
import OpusSysV.Os.RegionTables
import OpusSysV.Os.Pregion
import OpusSysV.Os.RegionMoves
import OpusSysV.Os.PregionLayout
import OpusSysV.Libc.Malloc
import OpusSysV.Libc.MallocHold
import OpusSysV.Libc.MallocQueue
import OpusSysV.Libc.MallocSmall
import OpusSysV.Libc.Tsearch
import OpusSysV.Os.Callout
import OpusSysV.Os.CalloutTime
import OpusSysV.Io.Stream
import OpusSysV.Io.StreamFlow
import OpusSysV.Io.StreamHead
import OpusSysV.Io.MuxLinks
import OpusSysV.Io.Shm
import OpusSysV.Io.ShmRun
import OpusSysV.Io.ShmSteps
import OpusSysV.Io.ShmSegs
import OpusSysV.Io.ShmLives
import OpusSysV.Io.StrIoctl
import OpusSysV.Io.StrIoctlRun
import OpusSysV.Io.StreamCount
import OpusSysV.Io.StreamBuf
import OpusSysV.Io.StreamRef
import OpusSysV.Io.StreamBufcall
import OpusSysV.Io.StreamLinks
import OpusSysV.Io.RunQueue
import OpusSysV.Io.Sem
import OpusSysV.Io.SemUndo
import OpusSysV.Io.SemAtomic
import OpusSysV.Io.SemSet
import OpusSysV.Io.SemLedger
import OpusSysV.Io.SemWakeup
import OpusSysV.Io.Msg
import OpusSysV.Io.Clist
import OpusSysV.Io.ClistQueue
import OpusSysV.Io.MsgQueue
import OpusSysV.Io.MsgStep
import OpusSysV.Io.MsgTrim
import OpusSysV.Io.MsgPull
import OpusSysV.Io.MsgSegs
import OpusSysV.Io.MsgRcv
import OpusSysV.Io.MsgRoom
import OpusSysV.Fs.S5Alloc
import OpusSysV.Fs.S5Chain
import OpusSysV.Fs.S5Rdwri
import OpusSysV.Fs.S5Pipe
import OpusSysV.Fs.S5Ialloc
import OpusSysV.Fs.S5Bmap
import OpusSysV.Fs.S5BmapTree
import OpusSysV.Fs.S5Ahead
import OpusSysV.Fs.S5Itrunc
import OpusSysV.Fs.S5Getdents
import OpusSysV.Fs.S5Nami
import OpusSysV.Os.Rename
import OpusSysV.Os.RenameTree
import OpusSysV.Lib.Huffman
import OpusSysV.Lib.KMerge
import OpusSysV.Lib.DList
import OpusSysV.Lib.Sweep
import OpusSysV.Cmd.Elm
import OpusSysV.Cmd.ElmAdd
import OpusSysV.Cmd.ElmRemove
import OpusSysV.Cmd.ElmFirst
import OpusSysV.Cmd.ElmRun
import OpusSysV.Cmd.Pack
import OpusSysV.Cmd.PackTree
import OpusSysV.Cmd.PackDepth
import OpusSysV.Cmd.Sccs
import OpusSysV.Cmd.SccsSum
import OpusSysV.Cmd.SccsSumRun
import OpusSysV.Cmd.SccsText
import OpusSysV.Cmd.SccsBody
import OpusSysV.Cmd.SccsApply
import OpusSysV.Cmd.SccsDelta
import OpusSysV.Cmd.SccsTable
import OpusSysV.Cmd.SccsWoven
import OpusSysV.Cmd.SccsPatch
import OpusSysV.Cmd.SccsDeltaRun
import OpusSysV.Cmd.SccsDeltaText
import OpusSysV.Cmd.SccsRmdel
import OpusSysV.Cmd.SccsRmdelText
import OpusSysV.Cmd.Tsort
import OpusSysV.Cmd.TsortOrder
import OpusSysV.Cmd.Unpack
import OpusSysV.Cmd.LexClass
import OpusSysV.Cmd.LexTree
import OpusSysV.Cmd.SortMerge
import OpusSysV.Cmd.SortRead
import OpusSysV.Cmd.SortTree
import OpusSysV.Cmd.SortKey
import OpusSysV.Cmd.SortStay
import OpusSysV.Cmd.SortFrame
import OpusSysV.Cmd.SortOrder
import OpusSysV.Cmd.SortQuick
import OpusSysV.Cmd.SortCore
import OpusSysV.Cmd.SortRun
import OpusSysV.Cmd.SortPasses
