import Nachos.Framework.Run
import Nachos.Framework.Simulation
import Nachos.Framework.Chain
import Nachos.Framework.CInt
import Nachos.Framework.Bytes
import Nachos.Framework.Words
import Nachos.Framework.Rotation
import Nachos.Framework.CString
import Nachos.Framework.Stop
import Nachos.Framework.Traced
import Nachos.Framework.Ownership
import Nachos.Framework.I386
import Nachos.Framework.Waiting
import Nachos.Threads.List
import Nachos.Threads.ListRefinement
import Nachos.Threads.Semaphore
import Nachos.Threads.Synch
import Nachos.Threads.Queues
import Nachos.Threads.Scheduler
import Nachos.Threads.System
import Nachos.Threads.Conservation
import Nachos.Threads.LockCondition
import Nachos.Threads.SynchList
import Nachos.Threads.Sections
import Nachos.Threads.AllAsleep
import Nachos.Threads.Renaming
import Nachos.Threads.Reclaim
import Nachos.Threads.Release
import Nachos.Threads.Elevator
import Nachos.Threads.ElevatorDeadlock
import Nachos.Threads.ElevatorCounters
import Nachos.Threads.ElevatorShaft
import Nachos.Threads.ElevatorSweep
import Nachos.Threads.ThreadTest
import Nachos.Threads.Switch
import Nachos.Threads.Processors
import Nachos.Threads.RoundRobin
import Nachos.Machine.Translate
import Nachos.Machine.Memory
import Nachos.Machine.MipsSim
import Nachos.Machine.Decode
import Nachos.Machine.Step
import Nachos.Machine.Signed
import Nachos.Machine.Logical
import Nachos.Machine.Arithmetic
import Nachos.Machine.DelayedLoads
import Nachos.Machine.Exceptions
import Nachos.Machine.RegisterFile
import Nachos.Machine.Flat
import Nachos.Machine.Interrupt
import Nachos.Machine.Disk
import Nachos.Machine.InterruptOrder
import Nachos.Userprog.BitMap
import Nachos.Userprog.BitMapSet
import Nachos.Userprog.AddrSpace
import Nachos.Userprog.Translation
import Nachos.Userprog.Loader
import Nachos.Userprog.Kernel
import Nachos.Userprog.Replace
import Nachos.Userprog.Steps
import Nachos.Userprog.ProcessTree
import Nachos.Userprog.Linked
import Nachos.Userprog.Frames
import Nachos.Userprog.Duplicate
import Nachos.Userprog.Progress
import Nachos.Userprog.Isolation
import Nachos.Userprog.Resume
import Nachos.Userprog.ExecStart
import Nachos.Userprog.ExecErrors
import Nachos.Userprog.PidArguments
import Nachos.Userprog.ForkErrors
import Nachos.Userprog.ForkPreempt
import Nachos.Userprog.Join
import Nachos.Userprog.Loads
import Nachos.Userprog.Advance
import Nachos.Userprog.Console
import Nachos.Userprog.Crashes
import Nachos.Userprog.Confined
import Nachos.Userprog.UserMachine
import Nachos.Userprog.Turns
import Nachos.Userprog.Stubs
import Nachos.Userprog.Reservation
import Nachos.Bin.Coff2noff
import Nachos.Bin.NoffImage
import Nachos.Filesys.FileHeader
import Nachos.Filesys.OpenFile
import Nachos.Filesys.Slices
import Nachos.Filesys.Bounds
import Nachos.Filesys.Copy
import Nachos.Filesys.Create
import Nachos.Filesys.Handles
import Nachos.Filesys.HeaderCapacity
import Nachos.Filesys.Directory
import Nachos.Filesys.FileSystem
import Nachos.Filesys.Layout
import Nachos.Filesys.Calls
import Nachos.Filesys.Consistency
import Nachos.Filesys.Refinement
import Nachos.Filesys.SynchDisk
import Nachos.Network.Packet
import Nachos.Network.PostOffice
import Nachos.Network.Handling
import Nachos.Network.Delivery
import Nachos.Network.AtRest
import Nachos.Network.Assertions
import Nachos.Network.MailTest
