import Mathlib.Algebra.Order.Ring.Int
import Mathlib.Data.List.Basic

/-! Files that may not open or may not read, and reads that deliver fewer bytes than
there is room for. A read into a fixed number of cells overwrites them from the front
with what the file holds, and fills them exactly when the file is long enough. What is
opened and closed is kept in a log. -/

namespace Ohmylib.Files

/-- What happens to a file that is opened and read once. -/
inductive File
  | cannotOpen
  | cannotRead
  | holds (content : List UInt8)
  deriving DecidableEq

def File.opens : File → Bool
  | .cannotOpen => false
  | _ => true

variable {n : ℕ} {content : List UInt8} {file : File}

/-- The file has bytes for all of `n` cells. -/
def File.Delivers (file : File) (n : ℕ) : Prop :=
  ∃ content, file = .holds content ∧ n ≤ content.length

theorem File.Delivers.opens (h : file.Delivers n) : file.opens = true := by
  obtain ⟨content, rfl, -⟩ := h
  rfl

/-- The first cells take the bytes of the file, the cells behind its end keep theirs. -/
def overwrite (content : List UInt8) (old : Vector UInt8 n) : Vector UInt8 n :=
  Vector.ofFn fun k => content.getD k old[k]

/-- `fread(old, 1, n, file)`: how many bytes were read, and the cells. A failure is no
byte at all. -/
def fread (file : File) (old : Vector UInt8 n) : ℕ × Vector UInt8 n :=
  match file with
  | .holds content => (min n content.length, overwrite content old)
  | _ => (0, old)

/-- `read(file, old, n)`, where a failure is the value `-1`. -/
def read (file : File) (old : Vector UInt8 n) : ℤ × Vector UInt8 n :=
  match file with
  | .holds content => ((min n content.length : ℕ), overwrite content old)
  | _ => (-1, old)

/-- All cells hold bytes of the file, in order from its start. -/
def Filled (file : File) (cells : Vector UInt8 n) : Prop :=
  ∃ content, file = .holds content ∧ cells.toList = content.take n

theorem Filled.delivers {cells : Vector UInt8 n} (h : Filled file cells) : file.Delivers n := by
  obtain ⟨content, rfl, hc⟩ := h
  have hlen := congrArg List.length hc
  rw [Vector.length_toList, List.length_take] at hlen
  exact ⟨content, rfl, by omega⟩

theorem overwrite_eq_take (h : n ≤ content.length) (old : Vector UInt8 n) :
    (overwrite content old).toList = content.take n := by
  apply List.ext_getElem
  · rw [Vector.length_toList, List.length_take, min_eq_left h]
  · intro k hk _
    rw [Vector.length_toList] at hk
    have hin : k < content.length := Nat.lt_of_lt_of_le hk h
    simp [overwrite, List.getElem?_eq_getElem hin]

theorem fread_le (file : File) (old : Vector UInt8 n) : (fread file old).1 ≤ n := by
  cases file with
  | holds content => exact min_le_left n content.length
  | _ => exact Nat.zero_le n

/-- A read fills its cells exactly when the file delivers enough bytes. -/
theorem filled_fread_iff (file : File) (old : Vector UInt8 n) :
    Filled file (fread file old).2 ↔ file.Delivers n := by
  constructor
  · exact Filled.delivers
  · rintro ⟨content, rfl, h⟩
    exact ⟨content, rfl, overwrite_eq_take h old⟩

/-- What is done with the file at a path. -/
inductive Event (π : Type)
  | opened (path : π)
  | closed (path : π)
  deriving DecidableEq

variable {π : Type} {log : List (Event π)}

/-- Every file that was opened was closed, once, before the next one was opened. -/
def Bracketed (log : List (Event π)) : Prop :=
  ∃ paths : List π, log = paths.flatMap fun path => [.opened path, .closed path]

theorem bracketed_nil : Bracketed ([] : List (Event π)) := ⟨[], rfl⟩

theorem Bracketed.bracket (h : Bracketed log) (path : π) :
    Bracketed (.opened path :: .closed path :: log) := by
  obtain ⟨paths, rfl⟩ := h
  exact ⟨path :: paths, rfl⟩

end Ohmylib.Files
