import Ohmylib.Libc

/-! The deadlines of the timed waits. A carry out of the nanoseconds subtracts
999999999 for the second it adds, so a deadline is one nanosecond late whenever it
carries, and two additions carry at other moments than one. All times are far from the
limits of `time_t`. -/

namespace Ohmylib.Queue

/-- `queue_ts_add`, whose `/` and `%` round toward zero. -/
def queueTsAdd (ts : Timespec) (timeout : ℤ) : Timespec :=
  let tvNsec := ts.tvNsec + timeout.tmod 1000 * 1000000
  if tvNsec > 999999999 then
    { tvSec := ts.tvSec + (timeout.tdiv 1000 + 1), tvNsec := tvNsec - 999999999 }
  else { tvSec := ts.tvSec + timeout.tdiv 1000, tvNsec := tvNsec }

/-- The deadline of `queue_send_wait`, `queue_recv_wait` and `queue_empty_wait`
for a call at time `now`. -/
def deadline (now : Timespec) (timeout : ℤ) : Timespec :=
  if timeout ≠ 0 then queueTsAdd now timeout else now

/-- The nanoseconds of the timeout carry into the seconds. -/
def Carries (ts : Timespec) (timeout : ℤ) : Prop :=
  10 ^ 9 ≤ ts.tvNsec + timeout % 1000 * 10 ^ 6

instance (ts : Timespec) (timeout : ℤ) : Decidable (Carries ts timeout) :=
  inferInstanceAs (Decidable (_ ≤ _))

/-- The addition is exact and keeps the form. -/
def Exact (ts : Timespec) (timeout : ℤ) (ts' : Timespec) : Prop :=
  ts'.Normal ∧ ts'.nanos = ts.nanos + timeout * 10 ^ 6

variable {ts : Timespec} {timeout a b : ℤ}

theorem queueTsAdd_carry (ht : 0 ≤ timeout) (hc : Carries ts timeout) :
    queueTsAdd ts timeout =
      ⟨ts.tvSec + (timeout / 1000 + 1), ts.tvNsec + timeout % 1000 * 1000000 - 999999999⟩ := by
  have hc' : ts.tvNsec + timeout % 1000 * 1000000 > 999999999 := by
    unfold Carries at hc
    omega
  simp only [queueTsAdd, Int.tmod_eq_emod_of_nonneg ht, Int.tdiv_eq_ediv_of_nonneg ht, if_pos hc']

theorem queueTsAdd_plain (ht : 0 ≤ timeout) (hc : ¬ Carries ts timeout) :
    queueTsAdd ts timeout =
      ⟨ts.tvSec + timeout / 1000, ts.tvNsec + timeout % 1000 * 1000000⟩ := by
  have hc' : ¬ ts.tvNsec + timeout % 1000 * 1000000 > 999999999 := by
    unfold Carries at hc
    omega
  simp only [queueTsAdd, Int.tmod_eq_emod_of_nonneg ht, Int.tdiv_eq_ediv_of_nonneg ht, if_neg hc']

/-- The nanoseconds stay below one second, on both branches. -/
theorem queueTsAdd_normal (hn : ts.Normal) (ht : 0 ≤ timeout) : (queueTsAdd ts timeout).Normal := by
  obtain ⟨hn₀, hn₁⟩ := hn
  by_cases hc : Carries ts timeout
  · rw [queueTsAdd_carry ht hc]
    unfold Carries at hc
    constructor <;> dsimp only <;> omega
  · rw [queueTsAdd_plain ht hc]
    unfold Carries at hc
    constructor <;> dsimp only <;> omega

/-- A carry makes the instant one nanosecond late. -/
theorem nanos_queueTsAdd (ht : 0 ≤ timeout) : (queueTsAdd ts timeout).nanos =
    ts.nanos + timeout * 10 ^ 6 + if Carries ts timeout then 1 else 0 := by
  by_cases hc : Carries ts timeout
  · rw [queueTsAdd_carry ht hc, if_pos hc]
    dsimp only [Timespec.nanos]
    omega
  · rw [queueTsAdd_plain ht hc, if_neg hc]
    dsimp only [Timespec.nanos]
    omega

theorem queueTsAdd_exact_iff (hn : ts.Normal) (ht : 0 ≤ timeout) :
    Exact ts timeout (queueTsAdd ts timeout) ↔ ¬ Carries ts timeout := by
  unfold Exact
  rw [nanos_queueTsAdd ht]
  by_cases hc : Carries ts timeout <;> simp [hc, queueTsAdd_normal hn ht]

/-- Both ways to add `a + b` milliseconds give the same instant exactly when the
milliseconds of `a` and `b` stay below one second: else one second is carried by
the timeouts in one addition and by the nanoseconds in two. -/
theorem queueTsAdd_add_iff (hn : ts.Normal) (ha : 0 ≤ a) (hb : 0 ≤ b) :
    queueTsAdd (queueTsAdd ts a) b = queueTsAdd ts (a + b) ↔ a % 1000 + b % 1000 < 1000 := by
  have hab : 0 ≤ a + b := by omega
  have hn₁ := queueTsAdd_normal hn ha
  rw [(queueTsAdd_normal hn₁ hb).eq_iff (queueTsAdd_normal hn hab), nanos_queueTsAdd hb,
    nanos_queueTsAdd ha, nanos_queueTsAdd hab]
  obtain ⟨h₀, h₁⟩ := hn
  by_cases hc : Carries ts a
  · rw [queueTsAdd_carry ha hc]
    unfold Carries at *
    dsimp only
    omega
  · rw [queueTsAdd_plain ha hc]
    unfold Carries at *
    dsimp only
    omega

/-- Without a timeout nothing is added, which adding nothing would do as well. -/
theorem deadline_eq (hn : ts.Normal) : deadline ts timeout = queueTsAdd ts timeout := by
  unfold deadline
  split_ifs with h
  · rfl
  · obtain rfl : timeout = 0 := by simpa using h
    have hc : ¬ Carries ts 0 := by
      have := hn.lt
      unfold Carries
      omega
    simp [queueTsAdd_plain le_rfl hc]

/-- Deadlines are normal; a deadline is exact exactly when it does not carry, and
two of them add up exactly when their milliseconds stay below one second. -/
theorem deadline_exact_iff (ts : Timespec) (a b : ℤ) (hn : ts.Normal) (ha : 0 ≤ a) (hb : 0 ≤ b) :
    (deadline ts a).Normal ∧
      (Exact ts a (deadline ts a) ↔ ts.tvNsec + a % 1000 * 10 ^ 6 < 10 ^ 9) ∧
      (deadline (deadline ts a) b = deadline ts (a + b) ↔ a % 1000 + b % 1000 < 1000) := by
  have hn₁ := queueTsAdd_normal hn ha
  rw [deadline_eq hn, deadline_eq hn₁, deadline_eq hn]
  refine ⟨hn₁, ?_, queueTsAdd_add_iff hn ha hb⟩
  rw [queueTsAdd_exact_iff hn ha, Carries, not_le]

theorem deadline_exact_half : (deadline ⟨5, 600000000⟩ 1300).Normal ∧
    (Exact ⟨5, 600000000⟩ 1300 (deadline ⟨5, 600000000⟩ 1300) ↔
      (600000000 : ℤ) + 1300 % 1000 * 10 ^ 6 < 10 ^ 9) ∧
    (deadline (deadline ⟨5, 600000000⟩ 1300) 800 = deadline ⟨5, 600000000⟩ (1300 + 800) ↔
      (1300 : ℤ) % 1000 + 800 % 1000 < 1000) :=
  deadline_exact_iff ⟨5, 600000000⟩ 1300 800 ⟨by decide, by decide⟩ (by decide) (by decide)

/-- One millisecond after the last nanosecond of a second, one nanosecond late. -/
theorem deadline_late : Timespec.Normal ⟨0, 999999999⟩ ∧
    queueTsAdd ⟨0, 999999999⟩ 1 = ⟨1, 1000000⟩ ∧
    ¬ Exact ⟨0, 999999999⟩ 1 (queueTsAdd ⟨0, 999999999⟩ 1) := by
  refine ⟨⟨by decide, by decide⟩, by decide, fun h => ?_⟩
  exact absurd h.2 (by decide)

end Ohmylib.Queue
