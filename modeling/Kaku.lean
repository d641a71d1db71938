import Kaku.Lib.Run
import Kaku.Lib.Except
import Kaku.Lib.Bytes
import Kaku.Lib.Buddy
import Kaku.Lib.Chain
import Kaku.Lib.Tiling
import Kaku.Lib.Dyadic
import Kaku.Lib.Cyclic
import Kaku.Lib.Records
import Kaku.Fault
import Kaku.Mm.Heap
import Kaku.Mm.HeapInv
import Kaku.Mm.HeapRun
import Kaku.Mm.HeapRefine
import Kaku.Mm.HeapCoalesced
import Kaku.Lib.Holding
import Kaku.Mm.Pools
import Kaku.Mm.Frame
import Kaku.Mm.Paging
import Kaku.Mm.Translate
import Kaku.Mm.Boot
import Kaku.Mm.DirectMap
import Kaku.Mm.FrameRun
import Kaku.Proc.State
import Kaku.Proc.Sched
import Kaku.Proc.Syscall
import Kaku.Proc.Life
import Kaku.Proc.Refine
import Kaku.Proc.Waiting
import Kaku.Proc.Turnover
import Kaku.Proc.Zombie
import Kaku.Proc.WakeUp
import Kaku.Proc.Wait
import Kaku.Proc.Dispatch
import Kaku.Proc.Copy
import Kaku.Proc.Line
import Kaku.Proc.ReadBuf
import Kaku.Proc.Args
import Kaku.Proc.ArgsFit
import Kaku.Proc.RoundRobin
import Kaku.Fs.Fd
import Kaku.Fs.Files
import Kaku.Fs.BadFd
import Kaku.Fs.Volume
import Kaku.Fs.Alloc
import Kaku.Fs.Sectors
import Kaku.Fs.Mounting
import Kaku.Fs.OneBit
import Kaku.Fs.InStep
import Kaku.Fs.AllocRun
import Kaku.Fs.FreeBits
import Kaku.Fs.BlockPtr
import Kaku.Fs.Inode
import Kaku.Fs.Listing
import Kaku.Fs.Walk
import Kaku.Fs.InodeTable
import Kaku.Fs.InodeRoundTrip
import Kaku.Fs.WriteFile
import Kaku.Fs.ReadFile
import Kaku.Fs.Contents
import Kaku.Fs.Owned
import Kaku.Fs.Supply
import Kaku.Fs.DiskTable
import Kaku.Fs.WriteRun
import Kaku.Fs.Stored
import Kaku.Fs.Path
import Kaku.Fs.Resolve
import Kaku.Fs.Create
import Kaku.Fs.Tree
import Kaku.Fs.Link
import Kaku.Fs.NewInode
import Kaku.Fs.Created
import Kaku.Fs.Open
import Kaku.Fs.Readdir
import Kaku.User.Malloc
import Kaku.User.MallocInv
import Kaku.User.MallocOps
import Kaku.User.MallocRun
import Kaku.User.Readdir
import Kaku.Fs.Dir
import Kaku.Proc.Space
import Kaku.User.Break
import Kaku.User.Usable
import Kaku.User.Align
import Kaku.Lib.Fields
import Kaku.User.Strings
import Kaku.User.Cd
import Kaku.User.CdPath
import Kaku.User.CdTables
import Kaku.User.EnvironMap
import Kaku.User.Printf
import Kaku.Proc.Slots
import Kaku.Proc.SpaceRun
import Kaku.Proc.Reap
import Kaku.Proc.Refuse
import Kaku.Proc.Image
import Kaku.Proc.Regions
import Kaku.Proc.Mmap
import Kaku.Proc.Apart
import Kaku.Proc.KernelHalf
import Kaku.Klib.Print
import Kaku.Tty.Screen
import Kaku.Tty.Drawing
import Kaku.Tty.Layout
import Kaku.Tty.Console
import Kaku.Tty.Editing
import Kaku.Lib.Outcome
import Kaku.Klib.Stdmem
import Kaku.Klib.Dynarray
import Kaku.Klib.Split
import Kaku.Klib.Overrun
import Kaku.Klib.SplitJoin
import Kaku.Lib.Register
import Kaku.Fs.Spared
import Kaku.Fs.InOrder
import Kaku.Fs.Drive
import Kaku.Fs.FileSystem
import Kaku.Fs.Coherent
import Kaku.Fs.Descriptor
import Kaku.Proc.Exec
import Kaku.User.Output
import Kaku.User.Kai
import Kaku.Proc.Program
import Kaku.Fs.Listed
import Kaku.Fs.Shared
import Kaku.Lib.Wrap
import Kaku.User.Ls
import Kaku.User.Transcript
