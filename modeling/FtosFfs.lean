import FtosFfs.Lib.Machine
import FtosFfs.Lib.Bytes
import FtosFfs.Layout
import FtosFfs.Cache.Blocks
import FtosFfs.Cache.Held
import FtosFfs.Lib.Recency
import FtosFfs.Cache.Lru
import FtosFfs.Cache.Content
import FtosFfs.Cache.Log
import FtosFfs.Cache.Reservation
import FtosFfs.Cache.Checkpoint
import FtosFfs.Cache.Crash
import FtosFfs.Cache.Flat
import FtosFfs.Lib.Exec
import FtosFfs.Lib.Counting
import FtosFfs.Lib.Ring
import FtosFfs.Lib.View
import FtosFfs.Lib.Bitmap
import FtosFfs.Lib.Circular
import FtosFfs.Common.String
import FtosFfs.Common.List
import FtosFfs.Lib.Paths
import FtosFfs.Fs.Blocks
import FtosFfs.Fs.Inode
import FtosFfs.Fs.Path
import FtosFfs.Fs.Load
import FtosFfs.Fs.Syscall
import FtosFfs.Fs.Mkfs
import FtosFfs.Lib.Ownership
import FtosFfs.Fs.Area
import FtosFfs.Fs.Used
import FtosFfs.Fs.Slots
import FtosFfs.Fs.Map
import FtosFfs.Fs.Alloc
import FtosFfs.Fs.BlockOps
import FtosFfs.Fs.Handle
import FtosFfs.Fs.Write
import FtosFfs.Fs.Choose
import FtosFfs.Fs.Clear
import FtosFfs.Fs.Read
import FtosFfs.Fs.Put
import FtosFfs.Fs.Refs
import FtosFfs.Fs.Balance
import FtosFfs.Fs.Counts
import FtosFfs.Fs.Calls
import FtosFfs.Fs.InodeAlloc
import FtosFfs.Fs.Cached
import FtosFfs.Fs.Dir
import FtosFfs.Fs.Ops
import FtosFfs.Fs.Image
import FtosFfs.Fs.Listing
import FtosFfs.Fs.Addressing
import FtosFfs.Fs.Contents
import FtosFfs.Fs.Need
import FtosFfs.Fs.Fits
import FtosFfs.Fs.EmptyFiles
import FtosFfs.Fs.Holes
import FtosFfs.Fs.ReadBack
import FtosFfs.Fs.Grow
import FtosFfs.Fs.Geometry
import FtosFfs.Fs.Groups
import FtosFfs.Fs.Synced
import FtosFfs.Fs.Budget
import FtosFfs.Fs.File
import FtosFfs.Fs.Filewrite
import FtosFfs.Fs.Overwrite
import FtosFfs.Fs.Shape
import FtosFfs.Fs.Handles
import FtosFfs.Fs.Walk
import FtosFfs.Fs.Freed
import FtosFfs.Fs.Journal
import FtosFfs.Fs.Durable
import FtosFfs.Fs.Idle
import FtosFfs.Fs.Errors
import FtosFfs.Fs.Writev
import FtosFfs.Fs.Directory
import FtosFfs.Fs.Resolve
import FtosFfs.Fs.Elements
import FtosFfs.Fs.Unlink
import FtosFfs.Fs.Covered
import FtosFfs.Fs.Create
import FtosFfs.Fs.Race
import FtosFfs.Core.Table
import FtosFfs.Core.Pid
import FtosFfs.Core.Wait
import FtosFfs.Core.Wakeup
import FtosFfs.Driver.Sd
import FtosFfs.Core.Console
import FtosFfs.Core.Arena
import FtosFfs.Core.Memory
import FtosFfs.Core.Pointers
import FtosFfs.Core.Execve
import FtosFfs.Core.Space
import FtosFfs.Core.Translate
import FtosFfs.Core.Walks
import FtosFfs.Core.Mapping
import FtosFfs.Core.Rollback
import FtosFfs.Core.Growproc
import FtosFfs.Core.Afford
import FtosFfs.Core.Stack
import FtosFfs.Core.ExecFile
import FtosFfs.Core.Image
import FtosFfs.Core.Leak
import FtosFfs.Core.Copies
import FtosFfs.Core.Forks
import FtosFfs.Core.Inherit
import FtosFfs.User.Parsing
import FtosFfs.Lib.Agree
import FtosFfs.Fs.Watched
import FtosFfs.Fs.Order
import FtosFfs.Fs.Agreeing
import FtosFfs.Fs.Coherent
import FtosFfs.Core.Argv
import FtosFfs.Core.ArgStack
import FtosFfs.Core.Launch
import FtosFfs.Lib.Arm
import FtosFfs.Asm.Switch
import FtosFfs.Asm.Trap
import FtosFfs.Common.Spinlock
import FtosFfs.Core.Sleeplock
import FtosFfs.Core.Turns
import FtosFfs.Core.Sleepers
import FtosFfs.Core.Owners
import FtosFfs.Core.Isolation
