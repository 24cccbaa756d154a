import Ohmylib.Libc
import Ohmylib.Loop.While
import Ohmylib.Alloc.Ledger
import Ohmylib.Monitor.Machine
import Ohmylib.Monitor.Discipline
import Ohmylib.Monitor.Outline
import Ohmylib.Monitor.History
import Ohmylib.Monitor.Solo
import Ohmylib.Monitor.Steps
import Ohmylib.Monitor.Progress
import Ohmylib.Cyclic.Window
import Ohmylib.Slots.Table
import Ohmylib.Slots.Padding
import Ohmylib.Sentinel.Block
import Ohmylib.Sentinel.Fields
import Ohmylib.Linked.Ring
import Ohmylib.Linked.Contents
import Ohmylib.Linked.Walk
import Ohmylib.Files.Stream
import Ohmylib.CInt.Arith
import Ohmylib.Orbit.Period
import Ohmylib.Galois.Register
import Ohmylib.Mixing.Word
import Ohmylib.Delimited.Field
import Ohmylib.Queue.Model
import Ohmylib.Queue.Threads
import Ohmylib.Queue.Discipline
import Ohmylib.Queue.Statements
import Ohmylib.Queue.Fifo
import Ohmylib.Queue.Geometry
import Ohmylib.Queue.Linearizable
import Ohmylib.Queue.Progress
import Ohmylib.Queue.Wakeup
import Ohmylib.Queue.Confinement
import Ohmylib.Queue.Lifetime
import Ohmylib.Queue.Sizes
import Ohmylib.Queue.Frame
import Ohmylib.Queue.Capacity
import Ohmylib.Queue.Deadline
import Ohmylib.Queue.EmptyWakeup
import Ohmylib.Queue.EmptyAnswer
import Ohmylib.Dictionary.Model
import Ohmylib.Dictionary.Invariant
import Ohmylib.Dictionary.Calls
import Ohmylib.Dictionary.Runs
import Ohmylib.Dictionary.Atomicity
import Ohmylib.Dictionary.Map
import Ohmylib.Dictionary.Growth
import Ohmylib.Dictionary.Overwrite
import Ohmylib.Dictionary.Capacity
import Ohmylib.Dictionary.Peak
import Ohmylib.Dictionary.Hash
import Ohmylib.Dictionary.Faithful
import Ohmylib.Dictionary.Blocks
import Ohmylib.Dictionary.Ownership
import Ohmylib.Dictionary.Destroy
import Ohmylib.Dictionary.Failures
import Ohmylib.Dictionary.Borrow
import Ohmylib.Vector.Model
import Ohmylib.Vector.Deque
import Ohmylib.Vector.Empty
import Ohmylib.Vector.Blocks
import Ohmylib.Substr.Model
import Ohmylib.Substr.Split
import Ohmylib.Substr.Failure
import Ohmylib.Substr.Cursor
import Ohmylib.Substr.Listing
import Ohmylib.Printlog.Model
import Ohmylib.Printlog.Reads
import Ohmylib.Printlog.Rows
import Ohmylib.Printlog.Decode
import Ohmylib.Printlog.Dump
import Ohmylib.Printlog.Column
import Ohmylib.Sysreg.Model
import Ohmylib.Sysreg.Honest
import Ohmylib.Timestamp.Model
import Ohmylib.Timestamp.Elapsed
import Ohmylib.Timestamp.Stopwatch
import Ohmylib.Lfsr.Model
import Ohmylib.Lfsr.Linear
import Ohmylib.Lfsr.Period
import Ohmylib.Lfsr.Maximal
import Ohmylib.ListHead.Model
import Ohmylib.ListHead.Refinement
import Ohmylib.ListHead.Runs
import Ohmylib.ListHead.Walks
