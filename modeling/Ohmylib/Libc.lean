import Mathlib.Data.List.Basic
import Mathlib.Data.List.TakeWhile
import Mathlib.Data.Int.ModEq
import Ohmylib.Sentinel.Block

/-! What the modelled code uses of the C library and of the machine: error
numbers, the width of the integer types, strings, times, and byte memory. Addresses are
natural numbers; `memcpy` copies from the bytes at a source pointer. -/

namespace Ohmylib

/-- The error numbers the modelled functions store. -/
inductive Errno
  | EINVAL | ENOMEM | ENOSPC | EAGAIN | ENOENT
  deriving DecidableEq, Repr

/-- Conversion to `uint32_t`. -/
def u32 (n : ℕ) : ℕ := n % 2 ^ 32

/-- Conversion to a 64-bit `size_t`. -/
def u64 (n : ℕ) : ℕ := n % 2 ^ 64

/-- Conversion of an unsigned value to a 32-bit `int`. -/
def toInt (n : ℕ) : ℤ := (n : ℤ).bmod (2 ^ 32)

theorem u32_of_lt {n : ℕ} (h : n < 2 ^ 32) : u32 n = n := Nat.mod_eq_of_lt h

theorem u64_of_lt {n : ℕ} (h : n < 2 ^ 64) : u64 n = n := Nat.mod_eq_of_lt h

theorem toInt_lt (n : ℕ) : toInt n < 2 ^ 31 := Int.bmod_lt (by decide)

theorem toInt_of_lt {n : ℕ} (h : n < 2 ^ 31) : toInt n = n :=
  Int.bmod_eq_of_le (by omega) (by omega)

/-- The characters of a string in front of its terminator. -/
structure CString where
  bytes : List UInt8
  noNul : 0 ∉ bytes
  deriving DecidableEq

/-- `strdup`, whose allocation may fail. It reads its argument, so duplicating
`NULL` is undefined behaviour, given by `none`. -/
def strdup (ok : Bool) : Option CString → Option (Option CString)
  | none => none
  | some s => some (if ok then some s else none)

/-- `strlen`, given the bytes from the pointer to the end of its object. -/
def strlen (p : List UInt8) : Option ℕ := Sentinel.scan 0 p

/-- `strchr`, with the offset of the character found. -/
def strchr (p : List UInt8) (c : UInt8) : Option (Option ℕ) := Sentinel.search c 0 p

/-- The string in front of the first null byte. -/
def CString.ofBytes (p : List UInt8) : CString where
  bytes := p.takeWhile (· ≠ 0)
  noNul h := by simpa using List.mem_takeWhile_imp h

theorem CString.ofBytes_eq {p : List UInt8} (h : 0 ∉ p) : CString.ofBytes p = ⟨p, h⟩ := by
  rw [CString.mk.injEq, CString.ofBytes, List.takeWhile_eq_self_iff]
  intro x hx
  rw [decide_eq_true_eq]
  rintro rfl
  exact h hx

/-- One string behind another. -/
def CString.append (s t : CString) : CString where
  bytes := s.bytes ++ t.bytes
  noNul h := (List.mem_append.mp h).elim s.noNul t.noNul

/-- `strndup`, whose allocation may fail. -/
def strndup (ok : Bool) (p : List UInt8) (len : ℕ) : Option (Option CString) :=
  if p.length < len ∧ 0 ∉ p then none
  else some (if ok then some (.ofBytes (p.take len)) else none)

/-- `struct timespec`. -/
structure Timespec where
  tvSec : ℤ
  tvNsec : ℤ
  deriving DecidableEq, Repr

/-- The nanoseconds lie below one second. -/
structure Timespec.Normal (ts : Timespec) : Prop where
  nonneg : 0 ≤ ts.tvNsec
  lt : ts.tvNsec < 10 ^ 9

/-- The instant, in nanoseconds. -/
def Timespec.nanos (ts : Timespec) : ℤ := ts.tvSec * 10 ^ 9 + ts.tvNsec

/-- Of all normal forms only one denotes an instant. -/
theorem Timespec.Normal.eq_iff {ts ts' : Timespec} (h : ts.Normal) (h' : ts'.Normal) :
    ts = ts' ↔ ts.nanos = ts'.nanos := by
  refine ⟨fun he => by rw [he], fun he => ?_⟩
  obtain ⟨h₀, h₁⟩ := h
  obtain ⟨h₀', h₁'⟩ := h'
  unfold Timespec.nanos at he
  rw [Timespec.mk.injEq]
  omega

abbrev Mem := ℕ → UInt8

/-- The `n` bytes from address `a` on. -/
def bytes (mem : Mem) (a n : ℕ) : List UInt8 := (List.range n).map fun i => mem (a + i)

/-- `memcpy(dst, src, n)`, where `src` gives the bytes at the source pointer. -/
def memcpy (mem : Mem) (dst : ℕ) (src : ℕ → UInt8) (n : ℕ) : Mem := fun a =>
  if dst ≤ a ∧ a < dst + n then src (a - dst) else mem a

theorem memcpy_outside (mem : Mem) {dst a n : ℕ} (src : ℕ → UInt8)
    (h : ¬ (dst ≤ a ∧ a < dst + n)) : memcpy mem dst src n a = mem a := if_neg h

theorem bytes_memcpy_self (mem : Mem) (dst : ℕ) (src : ℕ → UInt8) (n : ℕ) :
    bytes (memcpy mem dst src n) dst n = (List.range n).map src := by
  refine List.map_congr_left fun i hi => ?_
  have hi' := List.mem_range.mp hi
  simp [memcpy, hi']

/-- Bytes outside the target of a copy are unchanged. -/
theorem bytes_memcpy_of_disjoint (mem : Mem) {dst a n m : ℕ} (src : ℕ → UInt8)
    (h : a + m ≤ dst ∨ dst + n ≤ a) : bytes (memcpy mem dst src n) a m = bytes mem a m := by
  refine List.map_congr_left fun i hi => ?_
  have hi' := List.mem_range.mp hi
  simp only [memcpy, ite_eq_right_iff]
  omega

end Ohmylib
