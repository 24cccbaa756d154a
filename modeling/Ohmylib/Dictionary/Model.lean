import Ohmylib.Libc

/-! The dictionary of `lib/dictionary.c`. A string pointer is an optional string,
`NULL` being `none`; the slots hold the duplicates that `strdup` made. Every
allocation of a call may fail on its own. The dictionary handle and the output
stream are not `NULL`, and a size never reaches `2 ^ 64`, as `calloc` fails long
before. The sign of `char` is a parameter. -/

namespace Ohmylib.Dictionary

/-- `struct dictionary_entry_s`. -/
structure DictionaryEntryS where
  hash : UInt32
  key : Option CString
  val : Option CString
  deriving DecidableEq

/-- A slot as `calloc` leaves it. -/
def zeroed : DictionaryEntryS := { hash := 0, key := none, val := none }

/-- `struct dictionary_s`, with the block of slots `entries` points to. -/
structure DictionaryS where
  count : ℕ
  size : ℕ
  entries : List DictionaryEntryS
  deriving DecidableEq

def dictionaryMinSize : ℕ := 128

/-- `ALIGN(x, 0x7fu)`. The complement of the mask is a 32-bit value, so the result
keeps no bit above the lowest 32. -/
def align (x : ℕ) : ℕ := u64 (x + 0x7f) &&& (2 ^ 32 - 1 - 0x7f)

/-- `(unsigned)c`, which extends the sign where `char` has one. -/
def charToUnsigned (signed : Bool) (c : UInt8) : UInt32 :=
  if signed then c.toInt8.toInt32.toUInt32 else c.toUInt32

def hashStep (signed : Bool) (hash : UInt32) (c : UInt8) : UInt32 :=
  let hash := hash + charToUnsigned signed c
  let hash := hash + (hash <<< 10)
  hash ^^^ (hash >>> 6)

def hashFinish (hash : UInt32) : UInt32 :=
  let hash := hash + (hash <<< 3)
  let hash := hash ^^^ (hash >>> 11)
  hash + (hash <<< 15)

def dictionaryHash (signed : Bool) : Option CString → UInt32
  | none => 0
  | some key => hashFinish (key.bytes.foldl (hashStep signed) 0)

/-- `&d->entries[idx]`. -/
def DictionaryS.entry (d : DictionaryS) (idx : ℕ) : DictionaryEntryS := d.entries.getD idx zeroed

/-- Store a slot. -/
def DictionaryS.setEntry (d : DictionaryS) (idx : ℕ) (e : DictionaryEntryS) : DictionaryS :=
  { d with entries := d.entries.set idx e }

/-- The tests of the search loop: the slot holds a key, its hash is the one looked
for, and the strings compare equal. -/
def DictionaryEntryS.holds (e : DictionaryEntryS) (key : CString) (hash : UInt32) : Bool :=
  match e.key with
  | none => false
  | some k => hash == e.hash && key == k

def dictionaryFindIdxByKey (d : DictionaryS) (key : CString) (hash : UInt32) : Except Errno ℕ :=
  match (d.entries.take d.size).findIdx? fun e => e.holds key hash with
  | some i => .ok i
  | none => .error .ENOENT

def dictionaryFindIdxByEmpty (d : DictionaryS) : Except Errno ℕ :=
  match (d.entries.take d.size).findIdx? fun e => e.key.isNone with
  | some i => .ok i
  | none => .error .ENOENT

/-- `dictionary_resize`; `none` is the return value `-1`. The old slots are copied
over the front of a larger block of zeros. -/
def dictionaryResize (calloc : Bool) (d : DictionaryS) : Option DictionaryS :=
  if d.count < d.size then some d
  else if calloc then
    let newEntries := List.replicate (d.size + dictionaryMinSize) zeroed
    some { d with
      size := d.size + dictionaryMinSize
      entries := d.entries.take d.size ++ newEntries.drop d.size }
  else none

/-- `dictionary_create`; the arguments tell whether the two allocations succeed. -/
def dictionaryCreate (handle slots : Bool) (size : ℕ) : Option DictionaryS :=
  let size := align (if size < dictionaryMinSize then dictionaryMinSize else size)
  if handle then
    if slots then some { count := 0, size := size, entries := List.replicate size zeroed } else none
  else none

def dictionaryGet (signed : Bool) (d : DictionaryS) (key dflt : Option CString) : Option CString :=
  match key with
  | none => dflt
  | some key =>
    match dictionaryFindIdxByKey d key (dictionaryHash signed (some key)) with
    | .error _ => dflt
    | .ok idx => (d.entry idx).val

/-- Which allocations of one `dictionary_add` succeed when they are reached. -/
structure Allocs where
  calloc : Bool
  strdupKey : Bool
  strdupVal : Bool
  deriving DecidableEq

/-- Every allocation succeeds. -/
def Allocs.all : Allocs := { calloc := true, strdupKey := true, strdupVal := true }

/-- What `dictionary_add` stores into a free slot. -/
def newEntry (hash : UInt32) (a : Allocs) (key : CString) (val : Option CString) :
    DictionaryEntryS where
  hash := hash
  key := if a.strdupKey then some key else none
  val := if a.strdupVal then val else none

/-- `dictionary_add` with its return value; `none` where the behaviour is
undefined. The old value is freed before the new one is duplicated, and a new slot
is counted whatever its two duplications return. -/
def dictionaryAdd (signed : Bool) (a : Allocs) (d : DictionaryS) (key val : Option CString) :
    Option (ℤ × DictionaryS) :=
  match key with
  | none => some (-1, d)
  | some key =>
    let hash := dictionaryHash signed (some key)
    match dictionaryFindIdxByKey d key hash with
    | .ok idx =>
      match strdup a.strdupVal val with
      | none => none
      | some v => some (if v.isNone then -1 else 0, d.setEntry idx { d.entry idx with val := v })
    | .error _ =>
      match dictionaryResize a.calloc d with
      | none => some (-1, d)
      | some d =>
        match dictionaryFindIdxByEmpty d with
        | .ok idx =>
          some (0, { d.setEntry idx (newEntry hash a key val) with count := d.count + 1 })
        | .error _ => some (-1, d)

/-- `dictionary_del`; the count is a `size_t` and wraps below zero. -/
def dictionaryDel (signed : Bool) (d : DictionaryS) (key : Option CString) : DictionaryS :=
  match key with
  | none => d
  | some key =>
    match dictionaryFindIdxByKey d key (dictionaryHash signed (some key)) with
    | .error _ => d
    | .ok idx =>
      { d.setEntry idx zeroed with count := if d.count = 0 then 2 ^ 64 - 1 else d.count - 1 }

/-- The arguments of one `fprintf` of `dictionary_dump`. -/
structure Record where
  hash : UInt32
  key : CString
  val : Option CString
  deriving DecidableEq

def DictionaryEntryS.record (e : DictionaryEntryS) : Option Record :=
  e.key.map fun key => { hash := e.hash, key := key, val := e.val }

/-- A digit of `%X`. -/
def hexDigit (n : ℕ) : UInt8 := if n < 10 then UInt8.ofNat (0x30 + n) else UInt8.ofNat (0x37 + n)

/-- `%08X`. -/
def hex8 (h : UInt32) : List UInt8 :=
  (List.range 8).map fun i => hexDigit (h.toNat / 16 ^ (7 - i) % 16)

/-- The word `undefined`. -/
def undefinedText : List UInt8 := [0x75, 0x6e, 0x64, 0x65, 0x66, 0x69, 0x6e, 0x65, 0x64]

/-- One record, printed as `%08X;"%s";"%s"\n`. -/
def Record.text (r : Record) : List UInt8 :=
  hex8 r.hash ++ [0x3b, 0x22] ++ r.key.bytes ++ [0x22, 0x3b, 0x22] ++
    (r.val.map CString.bytes).getD undefinedText ++ [0x22, 0x0a]

/-- The records `dictionary_dump` prints, in order. -/
def dumpRecords (d : DictionaryS) : List Record :=
  if d.count = 0 then [] else (d.entries.take d.size).filterMap DictionaryEntryS.record

def dictionaryDump (d : DictionaryS) : List UInt8 := (dumpRecords d).flatMap Record.text

/-- A call of the interface on a dictionary. -/
inductive Call
  | add (a : Allocs) (key val : Option CString)
  | del (key : Option CString)
  | get (key dflt : Option CString)
  | dump
  deriving DecidableEq

/-- What a call gives back. -/
inductive Resp
  | code (r : ℤ)
  | done
  | value (v : Option CString)
  | text (t : List UInt8)
  deriving DecidableEq

/-- One call; `none` where its behaviour is undefined. -/
def Call.exec (signed : Bool) (d : DictionaryS) : Call → Option (Resp × DictionaryS)
  | .add a key val => (dictionaryAdd signed a d key val).map fun p => (.code p.1, p.2)
  | .del key => some (.done, dictionaryDel signed d key)
  | .get key dflt => some (.value (dictionaryGet signed d key dflt), d)
  | .dump => some (.text (dictionaryDump d), d)

/-- The responses to a sequence of calls and the dictionary it leaves. -/
def run (signed : Bool) (d : DictionaryS) : List Call → Option (List Resp × DictionaryS)
  | [] => some ([], d)
  | c :: cs =>
    match c.exec signed d with
    | none => none
    | some (r, d₁) => (run signed d₁ cs).map fun p => (r :: p.1, p.2)

end Ohmylib.Dictionary
