import KernelThreads.Lib.Transition
import KernelThreads.Lib.Scan
import KernelThreads.Lib.Program
import KernelThreads.Lib.Ring
import KernelThreads.Lib.Bytes
import KernelThreads.Lib.Writes
import KernelThreads.Lib.Meets
import KernelThreads.Lib.Exclusive
import KernelThreads.Lib.Stream
import KernelThreads.Lib.Memory
import KernelThreads.Lib.Copy
import KernelThreads.Lib.Links
import KernelThreads.Lib.Tiling
import KernelThreads.Lib.DList
import KernelThreads.Lib.Queue
import KernelThreads.Proc.Table
import KernelThreads.Proc.HandOff
import KernelThreads.Proc.Tree
import KernelThreads.Sched.System
import KernelThreads.Sched.Step
import KernelThreads.Sched.Clone
import KernelThreads.Sched.Core
import KernelThreads.Sched.Effect
import KernelThreads.Sched.Safety
import KernelThreads.Sched.Calls
import KernelThreads.Sched.Sleep
import KernelThreads.Sched.Kill
import KernelThreads.Group.Invariant
import KernelThreads.Group.Step
import KernelThreads.Group.Wait
import KernelThreads.Group.Slots
import KernelThreads.Group.Leaders
import KernelThreads.Group.Exec
import KernelThreads.Group.Identity
import KernelThreads.Group.Cwd
import KernelThreads.Group.Join
import KernelThreads.Group.Dirs
import KernelThreads.Group.HandOff
import KernelThreads.Group.Kin
import KernelThreads.Group.Notice
import KernelThreads.Mem.Page
import KernelThreads.Mem.Paging
import KernelThreads.Mem.Stack
import KernelThreads.Mem.Image
import KernelThreads.Mem.Owned
import KernelThreads.Mem.Space
import KernelThreads.Mem.Spec
import KernelThreads.Mem.Dir
import KernelThreads.Mem.Load
import KernelThreads.Mem.Layout
import KernelThreads.Mem.Grow
import KernelThreads.Mem.Copy
import KernelThreads.Mem.Frames
import KernelThreads.Mem.Exact
import KernelThreads.Mem.Setup
import KernelThreads.Mem.Duplicate
import KernelThreads.Mem.Bytes
import KernelThreads.Mem.Copyout
import KernelThreads.Mem.Loading
import KernelThreads.Mem.Arguments
import KernelThreads.Machine.System
import KernelThreads.Machine.Clone
import KernelThreads.Machine.Exec
import KernelThreads.Machine.Grow
import KernelThreads.Machine.Args
import KernelThreads.Machine.Mp
import KernelThreads.Machine.Resize
import KernelThreads.Machine.Fork
import KernelThreads.User.Semaphore
import KernelThreads.User.Queue
import KernelThreads.User.Memmove
import KernelThreads.User.Match
import KernelThreads.User.Grep
import KernelThreads.User.Permits
import KernelThreads.User.Waiters
import KernelThreads.Fs.Log
import KernelThreads.Fs.Crash
import KernelThreads.Fs.Layout
import KernelThreads.Fs.Inode
import KernelThreads.Fs.Name
import KernelThreads.Fs.Calls
import KernelThreads.Fs.Store
import KernelThreads.Fs.Owned
import KernelThreads.Fs.Content
import KernelThreads.Fs.Entries
import KernelThreads.Fs.Cache
import KernelThreads.Fs.Refs
import KernelThreads.Fs.Path
import KernelThreads.Fs.Namei
import KernelThreads.Fs.Balance
import KernelThreads.Fs.Buffer
import KernelThreads.Fs.Bcache
import KernelThreads.Fs.Coherence
import KernelThreads.Fs.Ide
import KernelThreads.Fs.IdeSerial
import KernelThreads.Sync.Wakeup
import KernelThreads.Sync.SleepLock
import KernelThreads.Sync.SpinLock
import KernelThreads.Sync.Ticks
import KernelThreads.Sync.Sbrk
import KernelThreads.Sync.Pipe
import KernelThreads.Sync.Console
import KernelThreads.User.Shell
import KernelThreads.User.Tokens
import KernelThreads.User.Grammar
import KernelThreads.User.Words
import KernelThreads.User.Malloc
import KernelThreads.User.FreeList
import KernelThreads.User.Alloc
import KernelThreads.User.Arena
import KernelThreads.User.Limit
