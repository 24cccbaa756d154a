import Ohmylib.CInt.Arith
import Ohmylib.Libc

/-! The elapsed time of `lib/timestamp.c`, in the two usual data models of C. Both
`time_t` and `tv_nsec` have the width of `long`. -/

namespace Ohmylib.Timestamp

open CInt

inductive DataModel
  | lp64
  | ilp32
  deriving DecidableEq

/-- `unsigned int`, the type of the constant `TIME_NS_IN_S`. -/
def unsignedInt : Ty := { rank := 1, signed := false, bits := 32 }

def DataModel.long : DataModel → Ty
  | .lp64 => { rank := 2, signed := true, bits := 64 }
  | .ilp32 => { rank := 2, signed := true, bits := 32 }

def DataModel.timeT (m : DataModel) : Ty := m.long

/-- `uint64_t`, an `unsigned long` or an `unsigned long long`. -/
def DataModel.uint64T : DataModel → Ty
  | .lp64 => { rank := 2, signed := false, bits := 64 }
  | .ilp32 => { rank := 3, signed := false, bits := 64 }

structure Itimerspec where
  itInterval : Timespec
  itValue : Timespec
  deriving DecidableEq

def timeNsInS : ℤ := 1000000000

def int32Max : ℤ := 2 ^ 31 - 1

/-- What `timestamp_reset` arms the timer with. -/
def timestampReset : Itimerspec where
  itInterval := { tvSec := int32Max, tvNsec := 0 }
  itValue := { tvSec := int32Max, tvNsec := 0 }

/-- The expression assigned to `nsec`, in the type of `nsec`. -/
def nsec (m : DataModel) (currValue : Itimerspec) : Option Value := do
  let interval ← arith (· * ·) (var m.timeT currValue.itInterval.tvSec) (var unsignedInt timeNsInS)
  let value ← arith (· * ·) (var m.timeT currValue.itValue.tvSec) (var unsignedInt timeNsInS)
  let value ← arith (· + ·) value (var m.long currValue.itValue.tvNsec)
  let diff ← arith (· - ·) interval value
  some (diff.convert m.uint64T)

/-- What a call of `timestamp_elapsed` leaves behind, and whether all its numbers were
exact. -/
structure Reading where
  ret : ℤ
  currValue : Option Itimerspec
  exact : Bool
  deriving DecidableEq

/-- `timestamp_elapsed`, given what `timer_gettime` stored if it succeeded, which it does
not for a `curr_value` that is `NULL`. The arguments of `ldiv` are of type `long`, and so
are the members of its result. -/
def timestampElapsed (m : DataModel) : Option Itimerspec → Option Reading
  | none => some { ret := -1, currValue := none, exact := true }
  | some currValue =>
    if 0 < currValue.itInterval.tvSec then do
      let num := (← nsec m currValue).convert m.long
      let denom := (var unsignedInt timeNsInS).convert m.long
      let quot := num.val.tdiv denom.val
      let rem := num.val.tmod denom.val
      some
        { ret := 0
          currValue := some { currValue with itValue := { tvSec := quot, tvNsec := rem } }
          exact := num.exact && denom.exact }
    else some { ret := 0, currValue := some currValue, exact := true }

end Ohmylib.Timestamp
