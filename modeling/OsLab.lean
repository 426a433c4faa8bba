import OsLab.Lib.Run
import OsLab.Lib.Store
import OsLab.Lib.Prog
import OsLab.Lib.DiskProgram
import OsLab.Lib.Bytes
import OsLab.Lib.Act
import OsLab.Lib.Owned
import OsLab.Lib.Acyclic
import OsLab.Lib.Ring
import OsLab.Lib.Radix
import OsLab.Lib.Machine
import OsLab.Lib.Circle
import OsLab.Proc.State
import OsLab.Proc.Model
import OsLab.Proc.Script
import OsLab.Proc.Invariant
import OsLab.Proc.Steps
import OsLab.Proc.Runs
import OsLab.Proc.Reports
import OsLab.Proc.Lineage
import OsLab.Proc.Kill
import OsLab.Proc.Deadlock
import OsLab.Proc.Wakeup
import OsLab.Proc.SleepLock
import OsLab.Proc.WaitFlags
import OsLab.Proc.Yield
import OsLab.Console.Transmit
import OsLab.Console.Write
import OsLab.Pipe.Model
import OsLab.Pipe.Stranded
import OsLab.Pipe.Fifo
import OsLab.Pipe.ReadFault
import OsLab.Virtio.Model
import OsLab.Virtio.Requests
import OsLab.Virtio.Protocol
import OsLab.Log.Model
import OsLab.Log.GroupCommit
import OsLab.Log.Reservation
import OsLab.Log.Waiting
import OsLab.Log.Header
import OsLab.Log.Recovery
import OsLab.Log.Atomic
import OsLab.Bio.Model
import OsLab.Bio.Script
import OsLab.Bio.Invariant
import OsLab.Bio.Steps
import OsLab.Bio.Count
import OsLab.Bio.Contents
import OsLab.Bio.Coherence
import OsLab.Bio.Refine
import OsLab.Fs.Model
import OsLab.Fs.Calls
import OsLab.Fs.Frame
import OsLab.Fs.Script
import OsLab.Fs.Accounts
import OsLab.Fs.Core
import OsLab.Fs.Operations
import OsLab.Fs.Running
import OsLab.Fs.References
import OsLab.Fs.Layout
import OsLab.Fs.Volume
import OsLab.Fs.Inodes
import OsLab.Fs.Blocks
import OsLab.Fs.Sample
import OsLab.Fs.Files
import OsLab.Fs.Writing
import OsLab.Fs.Chunks
import OsLab.Fs.Reading
import OsLab.Fs.ReadUser
import OsLab.Fs.Contents
import OsLab.Fs.WriteUser
import OsLab.Fs.SharedFile
import OsLab.Fs.LinkCount
import OsLab.Mkfs.Model
import OsLab.Mkfs.Append
import OsLab.Mkfs.Files
import OsLab.Mkfs.Bounds
import OsLab.Mkfs.ReadBack
import OsLab.Mkfs.Holes
import OsLab.Vm.Model
import OsLab.Vm.Table
import OsLab.Vm.Walk
import OsLab.Vm.Map
import OsLab.Vm.UserString
import OsLab.Trap.Model
import OsLab.Trap.Frames
import OsLab.Shell.Command
import OsLab.Shell.Processes
import OsLab.Shell.Wiring
import OsLab.Shell.Runs
import OsLab.Shell.Parser
import OsLab.Shell.Grammar
import OsLab.Shell.Parses
import OsLab.Shell.Strings
import OsLab.User.Grep
import OsLab.User.Memmove
import OsLab.Umalloc.Model
import OsLab.Umalloc.Blocks
import OsLab.Umalloc.Freeing
import OsLab.Umalloc.Allocating
import OsLab.Umalloc.Runs
import OsLab.Umalloc.Break
