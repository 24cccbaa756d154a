import Ohmylib.Libc

/-! Splitting a string with `substr` and `iter_substr` of `lib/cstring.c`. The string
lies in an object of memory, given by its bytes; a pointer into the object is an
offset, and reading behind its end has no result. Whether `strndup` gets its memory is
decided for each call. -/

namespace Ohmylib.Substr

/-- The return value of `substr` and what it stored through `nxt`, if it stored. -/
structure Cut where
  str : Option CString
  nxt : Option (Option ℕ)
  deriving DecidableEq

def substr (mem : List UInt8) (ok : Bool) (haystack : Option ℕ) (nxt : Bool) (needle : UInt8) :
    Option Cut :=
  match haystack with
  | none => some { str := none, nxt := none }
  | some h =>
    match strchr (mem.drop h) needle with
    | none => none
    | some n => do
      let len ← n.elim (strlen (mem.drop h)) some
      let str ← strndup ok (mem.drop h) len
      some { str := str, nxt := if nxt then some (n.map fun i => h + i + 1) else none }

/-- How a run of the loop of `iter_substr` ends: with a read outside the object, not
within its fuel, or with the strings it gave to the body and the last cursor. -/
inductive Outcome
  | fault
  | running
  | ended (fields : List CString) (cursor : Option ℕ)
  deriving DecidableEq

def Outcome.cons (str : CString) : Outcome → Outcome
  | .ended fields cursor => .ended (str :: fields) cursor
  | o => o

/-- The loop of `iter_substr` from its call `i` on, with the variable `n` of its
cursor; `ok` tells which calls of `strndup` succeed. -/
def iterSubstr (mem : List UInt8) (ok : ℕ → Bool) (needle : UInt8) :
    ℕ → ℕ → Option ℕ → Option ℕ → Outcome
  | 0, _, _, _ => .running
  | fuel + 1, i, haystack, n =>
    match substr mem (ok i) haystack true needle with
    | none => .fault
    | some cut =>
      let n := cut.nxt.getD n
      match cut.str with
      | none => .ended [] n
      | some str => (iterSubstr mem ok needle fuel (i + 1) n n).cons str

end Ohmylib.Substr
