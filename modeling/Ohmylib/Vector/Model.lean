import Ohmylib.Libc
import Ohmylib.Sentinel.Block

/-! The NULL-terminated vector of `lib/cvector.c`. A vector is a pointer to a block of
cells, or `NULL`; a cell is a pointer or `NULL`. A function that reads or writes a
cell outside the block, or follows the pointer `NULL`, has no result. `realloc` gives
exactly the requested cells and keeps the common prefix; what it leaves in the other
cells is arbitrary. -/

namespace Ohmylib.Vector

open Sentinel

variable {α : Type}

/-- The block a vector points to; `none` is the pointer `NULL`. -/
abbrev Ptrs (α : Type) := Option (List (Option α))

/-- What `realloc` does when it is called: it fails, or it leaves these cells behind
the old ones. -/
abbrev Realloc (α : Type) := Option (ℕ → Option α)

def realloc (mem : Realloc α) (ptrs : Ptrs α) (n : ℕ) : Ptrs α :=
  mem.map fun junk => (List.range n).map fun i => ((ptrs.getD [])[i]?).getD (junk i)

/-- A call of `free`. -/
inductive Freed (α : Type)
  | element (ptr : α)
  | block
  deriving DecidableEq

/-- The loop of `freev`. -/
def freeElements : List (Option α) → Option (List (Freed α))
  | [] => none
  | none :: _ => some []
  | some ptr :: cells => (freeElements cells).map (.element ptr :: ·)

/-- `freev` with the calls of `free` it makes. -/
def freev : Ptrs α → Option (List (Freed α))
  | none => some []
  | some cells => (freeElements cells).map (· ++ [.block])

variable [DecidableEq α]

/-- The number of pointers a loop over the cells finds in front of the first `NULL`. -/
def nptrs (ptrs : Ptrs α) : Option ℕ := ptrs.bind (scan none)

/-- The cells `pushv` asks for: one for the new pointer and one for the `NULL` behind
it, besides those in use. -/
def pushSize (ptrs : Ptrs α) : Option ℕ :=
  if ptrs.isSome then (nptrs ptrs).map (2 + ·) else some 2

/-- `pushv` with its return value, a vector or `NULL`. -/
def pushv (mem : Realloc α) (ptr : Option α) (ptrs : Ptrs α) : Option (Ptrs α) :=
  match ptr with
  | none => some none
  | some ptr => do
    let nptrs ← pushSize ptrs
    match realloc mem ptrs nptrs with
    | none => some none
    | some tmp =>
      let tmp ← writeCell tmp (nptrs - 2) (some ptr)
      let tmp ← writeCell tmp (nptrs - 1) none
      some (some tmp)

/-- `popv` with the pointer it returns and the block it leaves. -/
def popv (ptrs : Ptrs α) : Option (Option α × Ptrs α) := do
  let n ← nptrs ptrs
  if n = 0 then some (none, ptrs)
  else
    let tmp ← ptrs
    let ptr ← tmp[n - 1]?
    let tmp ← writeCell tmp (n - 1) none
    some (ptr, some tmp)

/-- `popv_front` with the pointer it returns and the block it leaves. -/
def popvFront (ptrs : Ptrs α) : Option (Option α × Ptrs α) := do
  let tmp ← ptrs
  let ptr ← tmp[0]?
  let tmp ← shift none tmp
  some (ptr, some tmp)

def countv (ptrs : Ptrs α) : Option ℕ := nptrs ptrs

/-- A call on a vector. A push comes with what its `realloc` does. -/
inductive Op (α : Type)
  | push (ptr : Option α) (mem : Realloc α)
  | pop
  | popFront
  | count

/-- What a call returns; of a push only whether it is `NULL`. -/
inductive Resp (α : Type)
  | vector (ok : Bool)
  | popped (ptr : Option α)
  | count (n : ℕ)
  deriving DecidableEq

/-- One call of a caller who replaces the vector by what `pushv` returns unless that is
`NULL`. -/
def Op.exec (ptrs : Ptrs α) : Op α → Option (Resp α × Ptrs α)
  | .push ptr mem => (pushv mem ptr ptrs).map fun v => (.vector v.isSome, v.or ptrs)
  | .pop => (popv ptrs).map fun p => (.popped p.1, p.2)
  | .popFront => (popvFront ptrs).map fun p => (.popped p.1, p.2)
  | .count => (countv ptrs).map fun n => (.count n, ptrs)

def run (ptrs : Ptrs α) : List (Op α) → Option (List (Resp α) × Ptrs α)
  | [] => some ([], ptrs)
  | op :: ops =>
    match op.exec ptrs with
    | none => none
    | some (r, ptrs') => (run ptrs' ops).map fun p => (r :: p.1, p.2)

end Ohmylib.Vector
