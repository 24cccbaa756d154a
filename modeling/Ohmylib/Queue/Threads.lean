import Ohmylib.Queue.Model
import Ohmylib.Monitor.Machine

/-! The thread-safe queue functions, statement by statement, as a program over the
queue mutex and its condition variables. `clock_gettime`, `queue_ts_add` and the
cancel state touch only thread-local data; a deadline is not modelled, a timed
wait may time out at any moment whatever `timeout` is. The handle is not `NULL`. -/

namespace Ohmylib.Queue

open Monitor

abbrev Msg := List UInt8

/-- `cond_write`, `cond_read` and `cond_empty`. -/
inductive Cond
  | write | read | empty
  deriving DecidableEq, Repr

/-- A call with its arguments; `p` gives the bytes of the caller's message. -/
inductive Call
  | send (p : ℕ → UInt8) (timeout : ℤ)
  | recv (timeout : ℤ)
  | isEmpty
  | isFull
  | spaceAvailable
  | emptyWait (timeout : ℤ)

/-- What the caller sees: the return value, the stored error number and, after a
successful receive, the bytes in its buffer. -/
structure Reply where
  ret : ℤ
  errno : Option Errno := none
  out : Option Msg := none
  deriving DecidableEq, Repr

/-- A call enters, takes effect on the queue, and returns. -/
inductive Event
  | invoke (c : Call)
  | commit (c : Call) (r : Reply)
  | ret (c : Call) (r : Reply)

/-- The wait loop: its test, told whether the last wait returned zero, and the wait. -/
inductive LoopStage
  | test (zero : Bool)
  | timedwait

inductive SendStage
  | lock | test | loop (w : LoopStage) | result | unlockFull | retFull
  | memcpy | advance | incAvail | broadcast | unlock | ret

inductive RecvStage
  | lock | test | loop (w : LoopStage) | result | broadcastEmpty | unlockEmpty | retEmpty
  | memcpy | advance (m : Msg) | decAvail (m : Msg) | broadcast (m : Msg) | unlock (m : Msg)
  | ret (m : Msg)

/-- The three observers. -/
inductive ReadStage
  | lock | read | unlock (ret : ℤ) | ret (ret : ℤ)

inductive EmptyWaitStage
  | loop (w : LoopStage) | unlock | result | ret (ret : ℤ)

/-- The next statement of a thread inside a call. -/
inductive Point
  | send (p : ℕ → UInt8) (timeout : ℤ) (stage : SendStage)
  | recv (timeout : ℤ) (stage : RecvStage)
  | isEmpty (stage : ReadStage)
  | isFull (stage : ReadStage)
  | spaceAvailable (stage : ReadStage)
  | emptyWait (timeout : ℤ) (stage : EmptyWaitStage)

/-- What the threads share: the handle and the memory of the message buffer. -/
structure Shared where
  q : QueueS
  mem : Mem

abbrev QueueAction := Action Shared Cond Point Event

/-- A statement that only reads the handle. -/
def readQueue (f : QueueS → Point × Option Event) : QueueAction := .access fun s => (s, f s.q)

/-- `while(pred(q) && ret == 0) ret = pthread_cond_timedwait(c, &q->lock, &ts);` -/
def timedWaitLoop (pred : QueueS → Bool) (c : Cond) (loop : LoopStage → Point) (done : Point) :
    LoopStage → QueueAction
  | .test zero => readQueue fun q => (if pred q && zero then loop .timedwait else done, none)
  | .timedwait => .wait c fun zero => loop (.test zero)

def sendOk : Reply := { ret := 0 }

def sendFull : Reply := { ret := -1, errno := some .ENOSPC }

def recvOk (m : Msg) : Reply := { ret := 0, out := some m }

def recvEmpty : Reply := { ret := -1, errno := some .EAGAIN }

/-- The loop of `queue_send_wait`. -/
def queueSendWait (p : ℕ → UInt8) (timeout : ℤ) : LoopStage → QueueAction :=
  timedWaitLoop queueIsFullLocked .write (fun w => .send p timeout (.loop w))
    (.send p timeout .result)

def queueSend (p : ℕ → UInt8) (timeout : ℤ) : SendStage → QueueAction
  | .lock => .lock (.send p timeout .test)
  | .test => readQueue fun q =>
      (.send p timeout (if queueIsFullLocked q then .loop (.test true) else .memcpy), none)
  | .loop w => queueSendWait p timeout w
  -- the value `queue_send_wait` returns
  | .result => readQueue fun q =>
      if queueIsFullLocked q then
        (.send p timeout .unlockFull, some (.commit (.send p timeout) sendFull))
      else (.send p timeout .memcpy, none)
  | .unlockFull => .unlock (.send p timeout .retFull)
  | .retFull => .ret (.ret (.send p timeout) sendFull)
  | .memcpy => .access fun s =>
      ({ s with mem := memcpy s.mem s.q.pWrite p s.q.size }, .send p timeout .advance, none)
  | .advance => .access fun s => ({ s with q := s.q.advanceWrite }, .send p timeout .incAvail, none)
  | .incAvail => .access fun s => ({ s with q := s.q.incAvail }, .send p timeout .broadcast,
      some (.commit (.send p timeout) sendOk))
  | .broadcast => .broadcast .read (.send p timeout .unlock)
  | .unlock => .unlock (.send p timeout .ret)
  | .ret => .ret (.ret (.send p timeout) sendOk)

/-- The loop of `queue_recv_wait`. -/
def queueRecvWait (timeout : ℤ) : LoopStage → QueueAction :=
  timedWaitLoop queueIsEmptyLocked .read (fun w => .recv timeout (.loop w)) (.recv timeout .result)

def queueRecv (timeout : ℤ) : RecvStage → QueueAction
  | .lock => .lock (.recv timeout .test)
  | .test => readQueue fun q =>
      (.recv timeout (if queueIsEmptyLocked q then .loop (.test true) else .memcpy), none)
  | .loop w => queueRecvWait timeout w
  -- the value `queue_recv_wait` returns
  | .result => readQueue fun q =>
      if queueIsEmptyLocked q then
        (.recv timeout .broadcastEmpty, some (.commit (.recv timeout) recvEmpty))
      else (.recv timeout .memcpy, none)
  | .broadcastEmpty => .broadcast .empty (.recv timeout .unlockEmpty)
  | .unlockEmpty => .unlock (.recv timeout .retEmpty)
  | .retEmpty => .ret (.ret (.recv timeout) recvEmpty)
  | .memcpy => .access fun s => (s, .recv timeout (.advance (bytes s.mem s.q.pRead s.q.size)), none)
  | .advance m => .access fun s =>
      ({ s with q := s.q.advanceRead }, .recv timeout (.decAvail m), none)
  | .decAvail m => .access fun s => ({ s with q := s.q.decAvail }, .recv timeout (.broadcast m),
      some (.commit (.recv timeout) (recvOk m)))
  | .broadcast m => .broadcast .write (.recv timeout (.unlock m))
  | .unlock m => .unlock (.recv timeout (.ret m))
  | .ret m => .ret (.ret (.recv timeout) (recvOk m))

/-- Lock, read one value, unlock, return it. -/
def observe (c : Call) (value : QueueS → ℤ) (point : ReadStage → Point) : ReadStage → QueueAction
  | .lock => .lock (point .read)
  | .read => readQueue fun q =>
      (point (.unlock (value q)), some (.commit c { ret := value q }))
  | .unlock r => .unlock (point (.ret r))
  | .ret r => .ret (.ret c { ret := r })

/-- A C truth value. -/
def truth (b : Bool) : ℤ := if b then 1 else 0

def queueIsEmpty : ReadStage → QueueAction :=
  observe .isEmpty (fun q => truth (queueIsEmptyLocked q)) .isEmpty

def queueIsFull : ReadStage → QueueAction :=
  observe .isFull (fun q => truth (queueIsFullLocked q)) .isFull

def queueSpaceAvailable : ReadStage → QueueAction :=
  observe .spaceAvailable queueSpaceAvailableLocked .spaceAvailable

/-- `queue_empty_wait` never takes the mutex, and reads the handle once more after
it unlocked. -/
def queueEmptyWait (timeout : ℤ) : EmptyWaitStage → QueueAction
  | .loop w => timedWaitLoop (fun q => !queueIsEmptyLocked q) .empty
      (fun w => .emptyWait timeout (.loop w)) (.emptyWait timeout .unlock) w
  | .unlock => .unlock (.emptyWait timeout .result)
  | .result => readQueue fun q =>
      let r := truth (!queueIsEmptyLocked q)
      (.emptyWait timeout (.ret r), some (.commit (.emptyWait timeout) { ret := r }))
  | .ret r => .ret (.ret (.emptyWait timeout) { ret := r })

def entry : Call → Point
  | .send p timeout => .send p timeout .lock
  | .recv timeout => .recv timeout .lock
  | .isEmpty => .isEmpty .lock
  | .isFull => .isFull .lock
  | .spaceAvailable => .spaceAvailable .lock
  | .emptyWait timeout => .emptyWait timeout (.loop (.test true))

def code : Point → QueueAction
  | .send p timeout stage => queueSend p timeout stage
  | .recv timeout stage => queueRecv timeout stage
  | .isEmpty stage => queueIsEmpty stage
  | .isFull stage => queueIsFull stage
  | .spaceAvailable stage => queueSpaceAvailable stage
  | .emptyWait timeout stage => queueEmptyWait timeout stage

/-- The queue API as one program. -/
def api : Program Shared Cond Point Call Event where
  entry := entry
  invoke := .invoke
  code := code

end Ohmylib.Queue
