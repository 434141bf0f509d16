import Xv6.Lib.Prog
import Xv6.Lib.Bytes
import Xv6.Lib.Cstr
import Xv6.Lib.RedoLog
import Xv6.Lib.Links
import Xv6.Lib.Owner
import Xv6.Lib.Ring
import Xv6.Lib.Scan
import Xv6.Params
import Xv6.Bio
import Xv6.Log
import Xv6.BioSpec
import Xv6.LogSpec
import Xv6.LogCrash
import Xv6.Conc
import Xv6.ConcLog
import Xv6.ConcRef
import Xv6.ConcTxn
import Xv6.Fs.Kernel
import Xv6.Fs.Inode
import Xv6.Fs.Dir
import Xv6.Fs.Sysfile
import Xv6.Fs.Discipline
import Xv6.Fs.Image
import Xv6.Fs.Clean
import Xv6.Fs.Pipes
import Xv6.Fs.Store
import Xv6.Fs.Layout
import Xv6.Fs.Exec
import Xv6.Fs.Alloc
import Xv6.Fs.Refs
import Xv6.Fs.Mkfs
import Xv6.Fs.MkfsSpec
import Xv6.Fs.MkfsImage
import Xv6.Fs.MkfsLimits
import Xv6.Fs.Bmap
import Xv6.Fs.Vol
import Xv6.Fs.VolInode
import Xv6.Fs.VolTrunc
import Xv6.Fs.VolIo
import Xv6.Fs.VolWrite
import Xv6.Fs.VolSound
import Xv6.Lib.Tally
import Xv6.Lib.Radix
import Xv6.Lib.Words
import Xv6.Fs.Grip
import Xv6.Fs.Icache
import Xv6.Fs.Ledger
import Xv6.Fs.Accounts
import Xv6.Fs.Holdings
import Xv6.Fs.Processes
import Xv6.Fs.Fifo
import Xv6.Console
import Xv6.Proc.Table
import Xv6.Proc.Reap
import Xv6.Proc.Kill
import Xv6.Virtio
import Xv6.VirtioProtocol
import Xv6.Fs.Shows
import Xv6.Fs.OneFile
import Xv6.Fs.Path
import Xv6.Fs.ChildPath
import Xv6.Fs.Tree
import Xv6.Fs.Patient
import Xv6.Fs.Crowd
import Xv6.Fs.Namei
import Xv6.Fs.Chmod
import Xv6.Fs.Raw
import Xv6.Fs.Trust
import Xv6.Fs.FileWrite
import Xv6.Shell.Parse
import Xv6.Shell.Grammar
import Xv6.Shell.Tokens
import Xv6.Shell.Lex
import Xv6.Shell.Text
import Xv6.Vm.Pages
import Xv6.Vm.Table
import Xv6.Vm.Sv39
import Xv6.Vm.Walk
import Xv6.Vm.Procs
import Xv6.Vm.User
import Xv6.Vm.Bare
import Xv6.Vm.Sbrk
import Xv6.Vm.Copy
import Xv6.Vm.PipeRead
import Xv6.User.Match
import Xv6.User.Grep
import Xv6.Lru
import Xv6.Lib.Chain
import Xv6.Lib.Extents
import Xv6.User.Malloc
import Xv6.User.FreeSpec
import Xv6.User.MallocSpec
import Xv6.User.Heap
import Xv6.Vm.Brk
