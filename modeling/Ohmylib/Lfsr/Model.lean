import Mathlib.Logic.Function.Iterate
import Ohmylib.Libc

/-! The shift register of `lib/lfsr.c`. Its operands are promoted to `int`, which has 32
bits, and the result is cut to 16 again. A promoted `uint16_t` is not negative, so its
right shift fills with zeros. -/

namespace Ohmylib.Lfsr

/-- `lfsr = ((lfsr >> 1) ^ (-(lfsr & 1) & poly))`. -/
def step (poly lfsr : BitVec 16) : BitVec 16 :=
  let lfsr := lfsr.setWidth 32
  let poly := poly.setWidth 32
  ((lfsr >>> 1) ^^^ (-(lfsr &&& 1) &&& poly)).setWidth 16

/-- `lfsr & 0xFF`, stored into a `uint8_t`. -/
def lowByte (lfsr : BitVec 16) : UInt8 := ⟨(lfsr.setWidth 32 &&& 0xFF).setWidth 8⟩

/-- `*p = b`. -/
def store (mem : Mem) (p : ℕ) (b : UInt8) : Mem := fun a => if a = p then b else mem a

/-- What a round of the loop changes. -/
structure State where
  mem : Mem
  p : ℕ
  lfsr : BitVec 16

/-- One round of the loop. -/
def round (poly : BitVec 16) (s : State) : State where
  mem := store s.mem s.p (lowByte s.lfsr)
  p := s.p + 1
  lfsr := step poly s.lfsr

/-- The loop variables before the first round. -/
def start (mem : Mem) (buf : ℕ) (init : BitVec 16) : State := { mem := mem, p := buf, lfsr := init }

/-- `lfsr`: the return value and the memory. With `p` starting at `buf`, the condition
`p < buf + count` holds for `count` rounds. -/
def lfsr (mem : Mem) (buf : Option ℕ) (count : ℕ) (init poly : BitVec 16) : ℕ × Mem :=
  match buf with
  | none => (0, mem)
  | some buf => (count, ((round poly)^[count] (start mem buf init)).mem)

end Ohmylib.Lfsr
