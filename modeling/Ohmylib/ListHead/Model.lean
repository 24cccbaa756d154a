import Ohmylib.Linked.Ring
import Ohmylib.Linked.Walk

/-! `includes/list.h`: circular doubly linked lists through a `struct list_head` inside
the entries. An address outside the mapped ones cannot be read or written; an access to
it is a fault. The loops are the macros of the header, with their body a parameter that
may change the memory and a result of its own. -/

namespace Ohmylib.ListHead

open Linked Loop

abbrev Addr := BitVec 64

def listPoison1 : Addr := 0x00100100

def listPoison2 : Addr := 0x00200200

/-- The `struct list_head` at every address, and the addresses that can be accessed. -/
@[ext] structure Memory where
  mapped : Addr → Bool
  heads : Heap Addr

namespace Memory

variable (m : Memory) (p q : Addr)

def next : Option Addr := if m.mapped p then some (m.heads.next p) else none

def prev : Option Addr := if m.mapped p then some (m.heads.prev p) else none

def setNext : Option Memory :=
  if m.mapped p then some { m with heads := m.heads.setNext p q } else none

def setPrev : Option Memory :=
  if m.mapped p then some { m with heads := m.heads.setPrev p q } else none

end Memory

/-- `INIT_LIST_HEAD` -/
def initListHead (m : Memory) (ptr : Addr) : Option Memory := do
  let m ← m.setNext ptr ptr
  m.setPrev ptr ptr

/-- `__list_add` -/
def _listAdd (m : Memory) (entry prev next : Addr) : Option Memory := do
  let m ← m.setPrev next entry
  let m ← m.setNext entry next
  let m ← m.setPrev entry prev
  m.setNext prev entry

def listAdd (m : Memory) (entry head : Addr) : Option Memory := do
  _listAdd m entry head (← m.next head)

def listAddTail (m : Memory) (entry head : Addr) : Option Memory := do
  _listAdd m entry (← m.prev head) head

/-- `__list_del` -/
def _listDel (m : Memory) (prev next : Addr) : Option Memory := do
  let m ← m.setPrev next prev
  m.setNext prev next

def listDel (m : Memory) (entry : Addr) : Option Memory := do
  let m ← _listDel m (← m.prev entry) (← m.next entry)
  let m ← m.setNext entry listPoison1
  m.setPrev entry listPoison2

def listDelInit (m : Memory) (entry : Addr) : Option Memory := do
  let m ← _listDel m (← m.prev entry) (← m.next entry)
  initListHead m entry

def listMove (m : Memory) (list head : Addr) : Option Memory := do
  let m ← _listDel m (← m.prev list) (← m.next list)
  listAdd m list head

def listMoveTail (m : Memory) (list head : Addr) : Option Memory := do
  let m ← _listDel m (← m.prev list) (← m.next list)
  listAddTail m list head

def listEmpty (m : Memory) (head : Addr) : Option Bool := do
  return (← m.next head) == head

/-- `__list_splice` -/
def _listSplice (m : Memory) (list head : Addr) : Option Memory := do
  let first ← m.next list
  let last ← m.prev list
  let at' ← m.next head
  let m ← m.setPrev first head
  let m ← m.setNext head first
  let m ← m.setNext last at'
  m.setPrev at' last

def listSplice (m : Memory) (list head : Addr) : Option Memory := do
  if ← listEmpty m list then return m
  _listSplice m list head

def listSpliceInit (m : Memory) (list head : Addr) : Option Memory := do
  if ← listEmpty m list then return m
  let m ← _listSplice m list head
  initListHead m list

/-- `container_of`, with the offset of the member. `list_entry` is the same. -/
def containerOf (ptr offset : Addr) : Addr := ptr - offset

section Loops

variable {σ : Type} (head : Addr) (body : Addr → Memory × σ → Option (Memory × σ)) (fuel : ℕ)
  (s : Memory × σ)

/-- `list_for_each`, and `__list_for_each` -/
def listForEach : Outcome (Memory × σ) :=
  forEach (fun s => s.1.next head) (· == head) (fun s pos => s.1.next pos) body fuel s

def listForEachSafe : Outcome (Memory × σ) :=
  forEachSafe (fun s => s.1.next head) (· == head) (fun s pos => s.1.next pos) body fuel s

/-! The loops over the containers, with the member at `offset` in each. -/

variable (offset : Addr)

/-- `list_entry(pos->member.next)`, for an address `pos` of a container -/
def nextEntry (s : Memory × σ) (pos : Addr) : Option Addr :=
  (s.1.next (pos + offset)).map (containerOf · offset)

def prevEntry (s : Memory × σ) (pos : Addr) : Option Addr :=
  (s.1.prev (pos + offset)).map (containerOf · offset)

def listForEachEntry : Outcome (Memory × σ) :=
  forEach (fun s => (s.1.next head).map (containerOf · offset)) (· + offset == head)
    (nextEntry offset) body fuel s

def listForEachEntryReverse : Outcome (Memory × σ) :=
  forEach (fun s => (s.1.prev head).map (containerOf · offset)) (· + offset == head)
    (prevEntry offset) body fuel s

def listForEachEntryContinue (pos : Addr) : Outcome (Memory × σ) :=
  forEach (nextEntry offset · pos) (· + offset == head) (nextEntry offset) body fuel s

def listForEachEntrySafe : Outcome (Memory × σ) :=
  forEachSafe (fun s => (s.1.next head).map (containerOf · offset)) (· + offset == head)
    (nextEntry offset) body fuel s

def listForEachEntrySafeContinue (pos : Addr) : Outcome (Memory × σ) :=
  forEachSafe (nextEntry offset · pos) (· + offset == head) (nextEntry offset) body fuel s

def listForEachEntrySafeReverse : Outcome (Memory × σ) :=
  forEachSafe (fun s => (s.1.prev head).map (containerOf · offset)) (· + offset == head)
    (prevEntry offset) body fuel s

/-- `list_prepare_entry` -/
def listPrepareEntry (pos : Addr) : Addr := if pos ≠ 0 then pos else containerOf head offset

end Loops

/-- The calls on lists. -/
inductive Cmd
  | init (ptr : Addr)
  | add (entry head : Addr)
  | addTail (entry head : Addr)
  | del (entry : Addr)
  | delInit (entry : Addr)
  | move (list head : Addr)
  | moveTail (list head : Addr)
  | splice (list head : Addr)
  | spliceInit (list head : Addr)

def Cmd.exec (m : Memory) : Cmd → Option Memory
  | .init ptr => initListHead m ptr
  | .add entry head => listAdd m entry head
  | .addTail entry head => listAddTail m entry head
  | .del entry => listDel m entry
  | .delInit entry => listDelInit m entry
  | .move list head => listMove m list head
  | .moveTail list head => listMoveTail m list head
  | .splice list head => listSplice m list head
  | .spliceInit list head => listSpliceInit m list head

/-- One call after another. -/
def run (cs : List Cmd) (m : Memory) : Option Memory := cs.foldlM Cmd.exec m

end Ohmylib.ListHead
