import Ohmylib.Alloc.Ledger
import Ohmylib.Dictionary.Model

/-! The dictionary with the blocks it owns. Every string of a slot, the block of slots
and the handle carry the id of their allocation, and the functions that allocate and
free pass the ledger of live blocks on; a `free` of a block that is not live has no
result. The searches allocate nothing: they are those of the dictionary without ids. -/

namespace Ohmylib.Dictionary.Blocks

open Alloc

/-- A string in a block of its own. -/
structure Str where
  block : ℕ
  str : CString
  deriving DecidableEq

/-- `struct dictionary_entry_s`. -/
structure DictionaryEntryS where
  hash : UInt32
  key : Option Str
  val : Option Str
  deriving DecidableEq

def zeroed : DictionaryEntryS := { hash := 0, key := none, val := none }

/-- `struct dictionary_s` in the block `handle`, with its slots in the block `block`. -/
structure DictionaryS where
  handle : ℕ
  block : ℕ
  count : ℕ
  size : ℕ
  entries : List DictionaryEntryS
  deriving DecidableEq

/-- Forget the ids. -/
def DictionaryEntryS.erase (e : DictionaryEntryS) : Dictionary.DictionaryEntryS where
  hash := e.hash
  key := e.key.map Str.str
  val := e.val.map Str.str

def DictionaryS.erase (d : DictionaryS) : Dictionary.DictionaryS where
  count := d.count
  size := d.size
  entries := d.entries.map DictionaryEntryS.erase

def DictionaryS.entry (d : DictionaryS) (idx : ℕ) : DictionaryEntryS := d.entries.getD idx zeroed

def DictionaryS.setEntry (d : DictionaryS) (idx : ℕ) (e : DictionaryEntryS) : DictionaryS :=
  { d with entries := d.entries.set idx e }

/-- `free` of a pointer that may be `NULL`. -/
def free (L : Ledger) : Option Str → Option Ledger
  | none => some L
  | some s => L.free s.block

/-- `strdup`; `none` where it is given `NULL`. -/
def strdup (ok : Bool) (L : Ledger) : Option CString → Option (Option Str × Ledger)
  | none => none
  | some s => some (if ok then (some { block := L.next, str := s }, L.alloc) else (none, L))

/-- `dictionary_resize`; the dictionary `none` is the return value `-1`. -/
def dictionaryResize (calloc : Bool) (d : DictionaryS) (L : Ledger) :
    Option (Option DictionaryS × Ledger) :=
  if d.count < d.size then some (some d, L)
  else if calloc then
    let newEntries := List.replicate (d.size + dictionaryMinSize) zeroed
    (L.alloc.free d.block).map fun L' => (some { d with
      block := L.next
      size := d.size + dictionaryMinSize
      entries := d.entries.take d.size ++ newEntries.drop d.size }, L')
  else some (none, L)

def dictionaryCreate (handle slots : Bool) (size : ℕ) (L : Ledger) :
    Option (Option DictionaryS × Ledger) :=
  let size := align (if size < dictionaryMinSize then dictionaryMinSize else size)
  if handle then
    if slots then
      some (some { handle := L.next, block := L.alloc.next, count := 0, size := size,
                   entries := List.replicate size zeroed }, L.alloc.alloc)
    else (L.alloc.free L.next).map fun L => (none, L)
  else some (none, L)

/-- One round of the loop of `dictionary_destroy`. -/
def destroyEntry (L : Ledger) (e : DictionaryEntryS) : Option Ledger := do
  let L ← free L e.key
  free L e.val

/-- `dictionary_destroy` frees the strings and the handle. -/
def dictionaryDestroy (d : DictionaryS) (L : Ledger) : Option Ledger := do
  let L ← (d.entries.take d.size).foldlM destroyEntry L
  L.free d.handle

/-- The refresh of the slot `idx` that holds the key. -/
def refreshEntry (a : Allocs) (d : DictionaryS) (L : Ledger) (idx : ℕ) (val : Option CString) :
    Option (ℤ × DictionaryS × Ledger) := do
  let L ← free L (d.entry idx).val
  let (v, L) ← strdup a.strdupVal L val
  some (if v.isNone then -1 else 0, d.setEntry idx { d.entry idx with val := v }, L)

/-- `(val == NULL) ? NULL : strdup(val)`. -/
def strdupOrNull (ok : Bool) (L : Ledger) (val : Option CString) : Option (Option Str × Ledger) :=
  if val = none then some (none, L) else strdup ok L val

/-- The insertion into the slot `idx`, which holds no key. -/
def insertEntry (hash : UInt32) (a : Allocs) (d : DictionaryS) (L : Ledger) (idx : ℕ)
    (key : CString) (val : Option CString) : Option (ℤ × DictionaryS × Ledger) := do
  let (k, L) ← strdup a.strdupKey L (some key)
  let (v, L) ← strdupOrNull a.strdupVal L val
  some (0, { d.setEntry idx { hash := hash, key := k, val := v } with count := d.count + 1 }, L)

def dictionaryAdd (signed : Bool) (a : Allocs) (d : DictionaryS) (key val : Option CString)
    (L : Ledger) : Option (ℤ × DictionaryS × Ledger) :=
  match key with
  | none => some (-1, d, L)
  | some key =>
    let hash := dictionaryHash signed (some key)
    match dictionaryFindIdxByKey d.erase key hash with
    | .ok idx => refreshEntry a d L idx val
    | .error _ =>
      match dictionaryResize a.calloc d L with
      | none => none
      | some (none, L) => some (-1, d, L)
      | some (some d, L) =>
        match dictionaryFindIdxByEmpty d.erase with
        | .ok idx => insertEntry hash a d L idx key val
        | .error _ => some (-1, d, L)

/-- The deletion of what the slot `idx` holds. -/
def deleteEntry (d : DictionaryS) (L : Ledger) (idx : ℕ) : Option (DictionaryS × Ledger) := do
  let L ← free L (d.entry idx).key
  let L ← free L (d.entry idx).val
  some ({ d.setEntry idx zeroed with count := if d.count = 0 then 2 ^ 64 - 1 else d.count - 1 }, L)

def dictionaryDel (signed : Bool) (d : DictionaryS) (key : Option CString) (L : Ledger) :
    Option (DictionaryS × Ledger) :=
  match key with
  | none => some (d, L)
  | some key =>
    match dictionaryFindIdxByKey d.erase key (dictionaryHash signed (some key)) with
    | .error _ => some (d, L)
    | .ok idx => deleteEntry d L idx

/-- An addition of a value, or a deletion; allocations succeed. -/
inductive Op
  | add (key : Option CString) (val : CString)
  | del (key : Option CString)
  deriving DecidableEq

def Op.exec (signed : Bool) (d : DictionaryS) (L : Ledger) : Op → Option (DictionaryS × Ledger)
  | .add key val => (dictionaryAdd signed .all d key (some val) L).map Prod.snd
  | .del key => dictionaryDel signed d key L

/-- A sequence of operations on a dictionary. -/
def run (signed : Bool) (d : DictionaryS) (L : Ledger) : List Op → Option (DictionaryS × Ledger)
  | [] => some (d, L)
  | op :: ops => (op.exec signed d L).bind fun p => run signed p.1 p.2 ops

end Ohmylib.Dictionary.Blocks
