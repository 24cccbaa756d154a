import Ohmylib.Timestamp.Model

/-! The elapsed time is exact where `long` has 64 bits. Where it has 32, the products
are `unsigned long` and taken modulo `2 ^ 32` before they are widened, so the interval
itself is never exact, and what `ldiv` gets is the elapsed time only while that is below
`2 ^ 31` nanoseconds. -/

namespace Ohmylib.Timestamp

open CInt

variable {m : DataModel} {remaining : Timespec}

theorem nanos_eq (t : Timespec) : t.nanos = t.tvSec * timeNsInS + t.tvNsec := by
  simp [Timespec.nanos, timeNsInS]

/-- A time that is normal and not negative. -/
structure Span (t : Timespec) : Prop extends t.Normal where
  sec_nonneg : 0 ≤ t.tvSec

/-- A remaining time the kernel may report for a timer armed by `timestamp_reset`. -/
structure Reported (remaining : Timespec) : Prop extends Span remaining where
  le_interval : remaining.nanos ≤ timestampReset.itInterval.nanos

/-- What the timer then holds. -/
def report (remaining : Timespec) : Itimerspec := { timestampReset with itValue := remaining }

/-- The nanoseconds since the timer was armed. -/
def passed (remaining : Timespec) : ℤ := timestampReset.itInterval.nanos - remaining.nanos

/-- The argument of `ldiv` in each data model. -/
def measured (m : DataModel) (x : ℤ) : ℤ :=
  match m with
  | .lp64 => x
  | .ilp32 => x.bmod (2 ^ 32)

/-- Numbers that are not negative and below `2 ^ 63` are computed with exactly in a
`long` of 64 bits. -/
theorem arith_long {op : ℤ → ℤ → ℤ} {a b : Value} (ht : common a.ty b.ty = DataModel.lp64.long)
    (ha : 0 ≤ a.val ∧ a.val < 2 ^ 63) (hb : 0 ≤ b.val ∧ b.val < 2 ^ 63)
    (hr : 0 ≤ op a.val b.val ∧ op a.val b.val < 2 ^ 63) : arith op a b = some
      { ty := DataModel.lp64.long, val := op a.val b.val, exact := a.exact && b.exact } := by
  have hfits : ∀ x : ℤ, 0 ≤ x ∧ x < 2 ^ 63 → DataModel.lp64.long.Fits x := fun x hx =>
    ⟨le_trans (by decide) hx.1, hx.2⟩
  exact arith_of_fits ht (by decide) (hfits _ ha) (hfits _ hb) (hfits _ hr)

theorem passed_eq (remaining : Timespec) :
    passed remaining = int32Max * timeNsInS - remaining.nanos := by
  rw [passed, nanos_eq, timestampReset, Int.add_zero]

/-- No sub-expression leaves the range of a 64-bit `long`. -/
theorem nsec_lp64 (h : Reported remaining) : nsec .lp64 (report remaining) =
    some { ty := DataModel.lp64.uint64T, val := passed remaining, exact := true } := by
  obtain ⟨⟨⟨h₂, h₃⟩, h₁⟩, h₄⟩ := h
  simp only [Timespec.nanos, timestampReset, int32Max] at h₃ h₄
  have hinterval : arith (· * ·) (var DataModel.lp64.timeT int32Max) (var unsignedInt timeNsInS) =
      some { ty := DataModel.lp64.long, val := int32Max * timeNsInS, exact := true } :=
    arith_long rfl (by decide) (by decide) (by decide)
  have hsec : arith (· * ·) (var DataModel.lp64.timeT remaining.tvSec) (var unsignedInt timeNsInS) =
      some { ty := DataModel.lp64.long, val := remaining.tvSec * timeNsInS, exact := true } := by
    apply arith_long rfl ⟨h₁, ?_⟩ (by decide)
    · simp only [var, timeNsInS]
      omega
    · simp only [var]
      omega
  have hvalue : arith (· + ·)
      { ty := DataModel.lp64.long, val := remaining.tvSec * timeNsInS, exact := true }
      (var DataModel.lp64.long remaining.tvNsec) =
      some { ty := DataModel.lp64.long, val := remaining.nanos, exact := true } := by
    apply arith_long rfl
    · simp only [timeNsInS]
      omega
    · simp only [var]
      omega
    · simp only [var, timeNsInS]
      omega
  have hdiff : arith (· - ·)
      { ty := DataModel.lp64.long, val := int32Max * timeNsInS, exact := true }
      { ty := DataModel.lp64.long, val := remaining.nanos, exact := true } =
      some { ty := DataModel.lp64.long, val := passed remaining, exact := true } := by
    rw [passed_eq]
    apply arith_long rfl (by decide)
    · simp only [Timespec.nanos]
      omega
    · simp only [Timespec.nanos, timeNsInS, int32Max]
      omega
  have hrange : 0 ≤ passed remaining ∧ passed remaining < 2 ^ 64 := by
    rw [passed_eq]
    simp only [Timespec.nanos, timeNsInS, int32Max]
    omega
  have hfits : DataModel.lp64.uint64T.Fits (passed remaining) := hrange
  simp only [nsec, report, timestampReset, hinterval, hsec, hvalue, hdiff, Option.bind_eq_bind,
    Option.bind_some]
  exact congrArg some (Value.convert_of_fits (by decide) hfits)

/-- `unsigned long` with 32 bits, to which a `long` and an `unsigned int` are converted. -/
def unsignedLong32 : Ty := { rank := 2, signed := false, bits := 32 }

/-- The products wrap, and only the lowest 32 bits of the difference are kept. -/
theorem nsec_ilp32 (remaining : Timespec) : nsec .ilp32 (report remaining) =
    some { ty := DataModel.ilp32.uint64T, val := passed remaining % 2 ^ 32, exact := false } := by
  have hinterval : arith (· * ·) (var DataModel.ilp32.timeT int32Max) (var unsignedInt timeNsInS) =
      some { ty := unsignedLong32, val := int32Max * timeNsInS % 2 ^ 32, exact := false } := by
    decide
  obtain ⟨e₁, hsec, -⟩ : ∃ e, arith (· * ·) (var DataModel.ilp32.timeT remaining.tvSec)
      (var unsignedInt timeNsInS) = some
        { ty := unsignedLong32, val := remaining.tvSec * timeNsInS % 2 ^ 32, exact := e } ∧ _ :=
    arith_unsigned rfl rfl fun x y => (Int.mul_emod x y _).symm
  obtain ⟨e₂, hvalue, -⟩ : ∃ e, arith (· + ·)
      { ty := unsignedLong32, val := remaining.tvSec * timeNsInS % 2 ^ 32, exact := e₁ }
      (var DataModel.ilp32.long remaining.tvNsec) = some
        { ty := unsignedLong32
          val := (remaining.tvSec * timeNsInS % 2 ^ 32 + remaining.tvNsec) % 2 ^ 32
          exact := e } ∧ _ :=
    arith_unsigned rfl rfl fun x y => (Int.add_emod x y _).symm
  have hval : (int32Max * timeNsInS % 2 ^ 32 -
      (remaining.tvSec * timeNsInS % 2 ^ 32 + remaining.tvNsec) % 2 ^ 32) % 2 ^ 32 =
        passed remaining % 2 ^ 32 := by
    rw [passed_eq]
    simp only [Timespec.nanos, timeNsInS, int32Max]
    omega
  obtain ⟨e₃, hdiff, he₃⟩ : ∃ e, arith (· - ·)
      { ty := unsignedLong32, val := int32Max * timeNsInS % 2 ^ 32, exact := false }
      { ty := unsignedLong32
        val := (remaining.tvSec * timeNsInS % 2 ^ 32 + remaining.tvNsec) % 2 ^ 32
        exact := e₂ } = some
        { ty := unsignedLong32, val := passed remaining % 2 ^ 32, exact := e } ∧
      (e = true → false = true ∧ _) := by
    rw [← hval]
    exact arith_unsigned rfl rfl fun x y => (Int.sub_emod x y _).symm
  obtain rfl : e₃ = false := Bool.eq_false_iff.mpr fun he => Bool.noConfusion (he₃ he).1
  have hrange : 0 ≤ passed remaining % 2 ^ 32 ∧ passed remaining % 2 ^ 32 < 2 ^ 64 := by omega
  have hfits : DataModel.ilp32.uint64T.Fits (passed remaining % 2 ^ 32) := hrange
  simp only [nsec, report, timestampReset, hinterval, hsec, hvalue, hdiff, Option.bind_eq_bind,
    Option.bind_some]
  exact congrArg some (Value.convert_of_fits (by decide) hfits)

/-- The first argument of `ldiv`. -/
theorem nsec_measured (m : DataModel) (h : Reported remaining) :
    (nsec m (report remaining)).map (fun a => a.convert m.long) =
      some { ty := m.long, val := measured m (passed remaining), exact := decide (m = .lp64) } := by
  cases m with
  | lp64 =>
    have hrange : -2 ^ 63 ≤ passed remaining ∧ passed remaining < 2 ^ 63 := by
      obtain ⟨⟨⟨h₂, h₃⟩, h₁⟩, h₄⟩ := h
      rw [passed_eq]
      simp only [Timespec.nanos, timeNsInS, timestampReset, int32Max] at h₃ h₄ ⊢
      omega
    have hfits : DataModel.lp64.long.Fits (passed remaining) := hrange
    rw [nsec_lp64 h]
    exact congrArg some (Value.convert_of_fits (by decide) hfits)
  | ilp32 =>
    rw [nsec_ilp32]
    have hval : DataModel.ilp32.long.wrap (passed remaining % 2 ^ 32) =
      (passed remaining).bmod (2 ^ 32) := Int.emod_bmod _ _
    simp only [Option.map_some, Value.convert, hval, Bool.false_and]
    rfl

/-- What `timestamp_elapsed` makes of a reported time. -/
theorem timestampElapsed_report (m : DataModel) (h : Reported remaining) :
    timestampElapsed m (some (report remaining)) = some
      { ret := 0
        currValue := some
          { itInterval := timestampReset.itInterval
            itValue :=
              { tvSec := (measured m (passed remaining)).tdiv timeNsInS
                tvNsec := (measured m (passed remaining)).tmod timeNsInS } }
        exact := decide (m = .lp64) } := by
  obtain ⟨num, hnsec, hnum⟩ := Option.map_eq_some_iff.mp (nsec_measured m h)
  have hdenom : (var unsignedInt timeNsInS).convert m.long =
      { ty := m.long, val := timeNsInS, exact := true } := by
    cases m <;> decide
  have hpos : 0 < (report remaining).itInterval.tvSec := by
    show (0 : ℤ) < int32Max
    decide
  simp only [timestampElapsed, if_pos hpos, hnsec, hnum, hdenom, Option.bind_eq_bind,
    Option.bind_some, Bool.and_true]
  rfl

/-- The elapsed time is normal, not negative, and with the remaining one makes up the
interval. -/
structure MakesUp (remaining elapsed : Timespec) : Prop extends Span elapsed where
  total : elapsed.nanos + remaining.nanos = timestampReset.itInterval.nanos

/-- `timestamp_elapsed` succeeds and stores the elapsed time in place of the remaining
one; `exact` tells whether no number on the way to it wrapped. -/
def Measures (m : DataModel) (remaining : Timespec) (exact : Bool) : Prop :=
  ∃ elapsed, timestampElapsed m (some (report remaining)) = some
    { ret := 0, currValue := some (report elapsed), exact := exact } ∧ MakesUp remaining elapsed

/-- Quotient and remainder are the elapsed time exactly when `ldiv` got it. -/
theorem makesUp_iff {x : ℤ} (hp : 0 ≤ passed remaining) :
    MakesUp remaining { tvSec := x.tdiv timeNsInS, tvNsec := x.tmod timeNsInS } ↔
      x = passed remaining := by
  have hnanos : Timespec.nanos { tvSec := x.tdiv timeNsInS, tvNsec := x.tmod timeNsInS } = x := by
    rw [nanos_eq, Int.mul_comm]
    exact Int.mul_tdiv_add_tmod x timeNsInS
  constructor
  · rintro ⟨-, htotal⟩
    rw [hnanos] at htotal
    exact eq_sub_of_add_eq htotal
  · rintro rfl
    refine ⟨⟨⟨Int.tmod_nonneg _ hp, Int.tmod_lt_of_pos _ (by decide)⟩,
      Int.tdiv_nonneg hp (by decide)⟩, ?_⟩
    rw [hnanos]
    exact sub_add_cancel _ _

theorem Reported.passed_nonneg (h : Reported remaining) : 0 ≤ passed remaining :=
  sub_nonneg.mpr h.le_interval

theorem measured_eq_iff {x : ℤ} (hx : 0 ≤ x) : measured m x = x ↔ m = .lp64 ∨ x < 2 ^ 31 := by
  cases m with
  | lp64 => exact iff_of_true rfl (.inl rfl)
  | ilp32 =>
    have hne : ¬ DataModel.ilp32 = .lp64 := by decide
    rw [or_iff_right hne, measured]
    constructor
    · intro h
      rw [← h]
      exact Int.bmod_lt (by decide)
    · intro h
      exact Int.bmod_eq_of_le (by omega) (by omega)

theorem measures_iff (m : DataModel) (h : Reported remaining) (exact : Bool) :
    Measures m remaining exact ↔
      exact = decide (m = .lp64) ∧ (m = .lp64 ∨ passed remaining < 2 ^ 31) := by
  rw [← measured_eq_iff h.passed_nonneg, ← makesUp_iff h.passed_nonneg, Measures,
    timestampElapsed_report m h]
  constructor
  · rintro ⟨elapsed, heq, hup⟩
    cases heq
    exact ⟨rfl, hup⟩
  · rintro ⟨rfl, hup⟩
    exact ⟨_, rfl, hup⟩

/-- For every time the kernel may report, the elapsed time is computed without wrapping
exactly where `long` has 64 bits, and is right where in addition it is below `2 ^ 31`
nanoseconds. -/
theorem elapsed_exact_iff (m : DataModel) (h : Reported remaining) :
    (Measures m remaining true ↔ m = .lp64) ∧
      ((∃ exact, Measures m remaining exact) ↔ m = .lp64 ∨ passed remaining < 2 ^ 31) := by
  simp only [measures_iff m h]
  constructor
  · rw [eq_comm, decide_eq_true_eq]
    exact ⟨And.left, fun hm => ⟨hm, .inl hm⟩⟩
  · exact ⟨fun ⟨_, _, h⟩ => h, fun h => ⟨_, rfl, h⟩⟩

theorem elapsed_exact_half_second :
    Measures .lp64 { tvSec := int32Max - 1, tvNsec := 500000000 } true ↔
      DataModel.lp64 = .lp64 :=
  (elapsed_exact_iff .lp64 ⟨⟨⟨by decide, by decide⟩, by decide⟩, by decide⟩).1

/-- Three seconds after the timer was armed, with a `long` of 32 bits. -/
theorem elapsed_wraps : Reported { tvSec := int32Max - 3, tvNsec := 0 } ∧
    timestampElapsed .ilp32 (some (report { tvSec := int32Max - 3, tvNsec := 0 })) = some
      { ret := 0
        currValue := some (report { tvSec := -1, tvNsec := -294967296 })
        exact := false } ∧
    ∀ exact, ¬ Measures .ilp32 { tvSec := int32Max - 3, tvNsec := 0 } exact := by
  have hr : Reported { tvSec := int32Max - 3, tvNsec := 0 } :=
    ⟨⟨⟨by decide, by decide⟩, by decide⟩, by decide⟩
  refine ⟨hr, by decide, fun exact h => ?_⟩
  exact absurd ((measures_iff .ilp32 hr exact).mp h).2 (by decide)

end Ohmylib.Timestamp
