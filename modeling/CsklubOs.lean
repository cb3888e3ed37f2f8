import CsklubOs.WriteSeq
import CsklubOs.ByteSeq
import CsklubOs.Params
import CsklubOs.Block
import CsklubOs.Log
import CsklubOs.RedoLog
import CsklubOs.LogCrash
import CsklubOs.Runs
import CsklubOs.GroupCommit
import CsklubOs.LogReserve
import CsklubOs.Bio
import CsklubOs.BioData
import CsklubOs.CacheLog
import CsklubOs.CacheCommit
import CsklubOs.Wp
import CsklubOs.Tally
import CsklubOs.PageTable
import CsklubOs.UserMem
import CsklubOs.UserBytes
import CsklubOs.ExecArgs
import CsklubOs.Exec
import CsklubOs.ProcMem
import CsklubOs.FileTable
import CsklubOs.Ownership
import CsklubOs.Inode
import CsklubOs.OpenFile
import CsklubOs.MemSys
import CsklubOs.DiskOwner
import CsklubOs.InodeSpec
import CsklubOs.InodeIo
import CsklubOs.InodeTable
import CsklubOs.InodeOps
import CsklubOs.Sched
import CsklubOs.ExitWait
import CsklubOs.Kill
import CsklubOs.SleepWakeup
import CsklubOs.RingBuffer
import CsklubOs.Pipe
import CsklubOs.Virtio
import CsklubOs.VirtioRun
import CsklubOs.Dirent
import CsklubOs.NameTree
import CsklubOs.Directory
import CsklubOs.SlotMap
import CsklubOs.DirMap
import CsklubOs.Path
import CsklubOs.NameOps
import CsklubOs.FileSys
import CsklubOs.ShellLex
import CsklubOs.ShellParse
import CsklubOs.OrderRing
import CsklubOs.UserHeap
import CsklubOs.IntrNest
import CsklubOs.LinkedRing
import CsklubOs.BufList
import CsklubOs.CacheRoom
import CsklubOs.InodeRoom
import CsklubOs.DiskFormat
import CsklubOs.Mkfs
import CsklubOs.MkfsSpec
import CsklubOs.MkfsFiles
import CsklubOs.MkfsMain
import CsklubOs.MkfsRead
import CsklubOs.Marking
import CsklubOs.MarkSweep
import CsklubOs.Console
import CsklubOs.ReadBytes
import CsklubOs.ReadBound
import CsklubOs.OpBlocks
import CsklubOs.PageBytes
import CsklubOs.FileBytes
import CsklubOs.FaultWrite
import CsklubOs.FileOffset
import CsklubOs.FailedCalls
import CsklubOs.FailedOpen
import CsklubOs.PathNames
import CsklubOs.ExecCall
import CsklubOs.Memmove
import CsklubOs.GrepMatch
import CsklubOs.Printf
import CsklubOs.HeapGrowth
import CsklubOs.ShellWords
import CsklubOs.Rv64
import CsklubOs.Trap
import CsklubOs.Switch
