import Mathlib.Logic.Function.Basic
import Ohmylib.Timestamp.Elapsed

/-! Timers under `lib/timestamp.c` as stopwatches. The timers belong to the kernel, which
is given by what `timer_create`, `timer_settime`, `timer_gettime` and `timer_delete` do at
a time in nanoseconds and by what is documented of them: a timer runs down from the value
it was armed with and starts over from its interval, whatever is done to other timers. A
program that passes only timers that exist then reads the time since the last reset of
the timer, which starts over as well. -/

namespace Ohmylib.Timestamp

open Function

/-- A timer of the kernel. -/
inductive Timer
  | disarmed
  | armed (time : ℤ) (spec : Itimerspec)

/-- The timers of the kernel, whose state is of type `σ`; `none` is the return value `-1`. -/
structure Kernel (σ : Type) where
  timerCreate : ℤ → σ → Option (ℕ × σ)
  timerSettime : ℤ → ℕ → Itimerspec → σ → Option σ
  timerGettime : ℤ → ℕ → σ → Option Itimerspec
  timerDelete : ℕ → σ → σ

variable {σ : Type} (k : Kernel σ)

/-- `timestamp_reset`. -/
def Kernel.timestampReset (now : ℤ) (tid : ℕ) (s : σ) : ℤ × σ :=
  match k.timerSettime now tid Timestamp.timestampReset s with
  | none => (-1, s)
  | some s => (0, s)

/-- `timestamp_create`, with what it stores through its argument, if it stores. -/
def Kernel.timestampCreate (now : ℤ) (s : σ) : ℤ × Option ℕ × σ :=
  match k.timerCreate now s with
  | none => (-1, none, s)
  | some (tid, s) =>
    let (ret, s) := k.timestampReset now tid s
    (ret, some tid, s)

/-- `timestamp_elapsed`, for a `curr_value` that is not `NULL`. -/
def Kernel.timestampElapsed (m : DataModel) (now : ℤ) (tid : ℕ) (s : σ) : Option Reading :=
  Timestamp.timestampElapsed m (k.timerGettime now tid s)

/-- `timestamp_destory`. -/
def Kernel.timestampDestory (tid : ℕ) (s : σ) : σ := k.timerDelete tid s

inductive Call
  | create
  | reset (tid : ℕ)
  | elapsed (tid : ℕ)
  | destory (tid : ℕ)
  deriving DecidableEq

/-- The timer a call gets. -/
def Call.timer : Call → Option ℕ
  | .create => none
  | .reset tid | .elapsed tid | .destory tid => some tid

/-- What a call gives back. -/
inductive Resp
  | created (ret : ℤ) (tid : Option ℕ)
  | code (ret : ℤ)
  | reading (r : Reading)
  | done
  deriving DecidableEq

def Kernel.exec (m : DataModel) (now : ℤ) (s : σ) : Call → Option (Resp × σ)
  | .create =>
    let (ret, tid, s) := k.timestampCreate now s
    some (.created ret tid, s)
  | .reset tid =>
    let (ret, s) := k.timestampReset now tid s
    some (.code ret, s)
  | .elapsed tid => (k.timestampElapsed m now tid s).map fun r => (.reading r, s)
  | .destory tid => some (.done, k.timestampDestory tid s)

/-- The responses to calls made at the given times. -/
def Kernel.run (k : Kernel σ) (m : DataModel) (s : σ) : List (ℤ × Call) → Option (List Resp)
  | [] => some []
  | (now, c) :: cs =>
    match k.exec m now s c with
    | none => none
    | some (r, s) => (k.run m s cs).map (r :: ·)

/-! ### What is documented of the kernel -/

/-- What a periodic timer is armed with. -/
structure Itimerspec.Periodic (spec : Itimerspec) : Prop where
  interval : Span spec.itInterval
  interval_pos : 0 < spec.itInterval.nanos
  value : Span spec.itValue
  value_pos : 0 < spec.itValue.nanos

/-- The time to the next expiration, `d` nanoseconds after the timer was armed. -/
def Itimerspec.remaining (spec : Itimerspec) (d : ℤ) : ℤ :=
  if d < spec.itValue.nanos then spec.itValue.nanos - d
  else spec.itInterval.nanos - (d - spec.itValue.nanos) % spec.itInterval.nanos

/-- The functions of the kernel act on its timers as documented. -/
structure Documented (timers : σ → ℕ → Option Timer) : Prop where
  create : ∀ {now s tid s'}, k.timerCreate now s = some (tid, s') →
    timers s tid = none ∧ timers s' = update (timers s) tid (some .disarmed)
  settime : ∀ {now s tid spec}, (timers s tid).isSome = true → spec.Periodic →
    ∃ s', k.timerSettime now tid spec s = some s' ∧
      timers s' = update (timers s) tid (some (.armed now spec))
  gettime : ∀ {time now s tid spec}, timers s tid = some (.armed time spec) → spec.Periodic →
    time ≤ now → ∃ value : Timespec,
      k.timerGettime now tid s = some { spec with itValue := value } ∧ Span value ∧
        value.nanos = spec.remaining (now - time)
  delete : ∀ s tid, timers (k.timerDelete tid s) = update (timers s) tid none

/-- The calls get only timers that exist. -/
def Legal (timers : σ → ℕ → Option Timer) (m : DataModel) : σ → List (ℤ × Call) → Prop
  | _, [] => True
  | s, (now, c) :: cs => (∀ tid, c.timer = some tid → (timers s tid).isSome = true) ∧
      ∀ r s', k.exec m now s c = some (r, s') → Legal timers m s' cs

/-! ### A kernel that acts as documented -/

/-- Timers numbered as they are created. -/
structure Timers where
  next : ℕ
  timer : ℕ → Option Timer
  fresh : ∀ tid, next ≤ tid → timer tid = none

def Timers.set (T : Timers) {tid : ℕ} (h : tid < T.next) (t : Option Timer) : Timers where
  next := T.next
  timer := update T.timer tid t
  fresh i hi := by
    rw [update_of_ne (Nat.lt_of_lt_of_le h hi).ne']
    exact T.fresh i hi

def Timers.add (T : Timers) : Timers where
  next := T.next + 1
  timer := update T.timer T.next (some .disarmed)
  fresh i hi := by
    rw [update_of_ne (Nat.lt_of_succ_le hi).ne']
    exact T.fresh i (Nat.le_of_succ_le hi)

def ofNanos (x : ℤ) : Timespec := { tvSec := x / timeNsInS, tvNsec := x % timeNsInS }

def kernel : Kernel Timers where
  timerCreate _ T := some (T.next, T.add)
  timerSettime now tid spec T :=
    if h : tid < T.next then some (T.set h (some (.armed now spec))) else none
  timerGettime now tid T :=
    match T.timer tid with
    | none => none
    | some .disarmed => some { itInterval := ofNanos 0, itValue := ofNanos 0 }
    | some (.armed time spec) => some { spec with itValue := ofNanos (spec.remaining (now - time)) }
  timerDelete tid T := if h : tid < T.next then T.set h none else T

theorem span_ofNanos {x : ℤ} (hx : 0 ≤ x) : Span (ofNanos x) where
  nonneg := Int.emod_nonneg x (by decide)
  lt := Int.emod_lt_of_pos x (by decide)
  sec_nonneg := Int.ediv_nonneg hx (by decide)

theorem nanos_ofNanos (x : ℤ) : (ofNanos x).nanos = x := by
  rw [nanos_eq, Int.mul_comm]
  exact Int.mul_ediv_add_emod x timeNsInS

theorem remaining_nonneg {spec : Itimerspec} (h : spec.Periodic) (d : ℤ) :
    0 ≤ spec.remaining d := by
  unfold Itimerspec.remaining
  split_ifs with hlt
  · omega
  · have := Int.emod_lt_of_pos (d - spec.itValue.nanos) h.interval_pos
    omega

theorem Timers.lt_next {T : Timers} {tid : ℕ} (h : (T.timer tid).isSome = true) :
    tid < T.next := by
  by_contra hle
  rw [T.fresh tid (Nat.le_of_not_lt hle)] at h
  cases h

theorem kernel_documented : Documented kernel Timers.timer where
  create {now T tid T'} h := by
    cases h
    exact ⟨T.fresh _ (Nat.le_refl _), rfl⟩
  settime {now T tid spec} h _ := ⟨T.set (Timers.lt_next h) _, dif_pos (Timers.lt_next h), rfl⟩
  gettime {time now T tid spec} h hs hle := by
    refine ⟨ofNanos (spec.remaining (now - time)), ?_,
      span_ofNanos (remaining_nonneg hs _), nanos_ofNanos _⟩
    simp only [kernel, h]
  delete T tid := by
    by_cases h : tid < T.next
    · exact congrArg Timers.timer (dif_pos h)
    · have hnone : T.timer tid = none := T.fresh tid (Nat.le_of_not_lt h)
      have hd : kernel.timerDelete tid T = T := dif_neg h
      rw [hd, ← hnone, update_eq_self]

/-! ### Stopwatches -/

/-- A reading of `d` nanoseconds: as many where `long` has 64 bits, and its lowest 32 bits
where it has 32. -/
structure Shows (m : DataModel) (d : ℤ) (r : Reading) : Prop where
  ret : r.ret = 0
  elapsed : ∃ e, r.currValue = some (report e) ∧ e.nanos = measured m d ∧
    (0 ≤ measured m d → Span e)

/-- The answers of stopwatches, of which `w` tells when they were last reset. -/
inductive Stopwatches (m : DataModel) : (ℕ → Option ℤ) → List (ℤ × Call) → List Resp → Prop
  | nil (w : ℕ → Option ℤ) : Stopwatches m w [] []
  | noTimer {w now cs rs} (h : Stopwatches m w cs rs) :
      Stopwatches m w ((now, .create) :: cs) (.created (-1) none :: rs)
  | create {w now tid cs rs} (hw : w tid = none)
      (h : Stopwatches m (update w tid (some now)) cs rs) :
      Stopwatches m w ((now, .create) :: cs) (.created 0 (some tid) :: rs)
  | reset {w now tid cs rs} (h : Stopwatches m (update w tid (some now)) cs rs) :
      Stopwatches m w ((now, .reset tid) :: cs) (.code 0 :: rs)
  | elapsed {w now tid time r cs rs} (hw : w tid = some time)
      (hr : Shows m ((now - time) % timestampReset.itInterval.nanos) r)
      (h : Stopwatches m w cs rs) :
      Stopwatches m w ((now, .elapsed tid) :: cs) (.reading r :: rs)
  | destory {w now tid cs rs} (h : Stopwatches m (update w tid none) cs rs) :
      Stopwatches m w ((now, .destory tid) :: cs) (.done :: rs)

variable {k : Kernel σ} {timers : σ → ℕ → Option Timer} {m : DataModel}

theorem timestampReset_periodic : Itimerspec.Periodic timestampReset := by
  refine ⟨⟨⟨?_, ?_⟩, ?_⟩, ?_, ⟨⟨?_, ?_⟩, ?_⟩, ?_⟩ <;> decide

/-- The remaining time of a timer armed by `timestamp_reset`. -/
theorem remaining_reset {d : ℤ} (hd : 0 ≤ d) : timestampReset.remaining d =
    timestampReset.itInterval.nanos - d % timestampReset.itInterval.nanos := by
  have hpos : 0 < timestampReset.itInterval.nanos := timestampReset_periodic.interval_pos
  have hvalue : timestampReset.itValue = timestampReset.itInterval := rfl
  unfold Itimerspec.remaining
  rw [hvalue]
  split_ifs with hlt
  · rw [Int.emod_eq_of_lt hd hlt]
  · rw [Int.sub_emod_right]

theorem shows_reading {value : Timespec} {d : ℤ} (hn : Span value)
    (hv : value.nanos = timestampReset.itInterval.nanos - d % timestampReset.itInterval.nanos) :
    ∃ r, timestampElapsed m (some (report value)) = some r ∧
      Shows m (d % timestampReset.itInterval.nanos) r := by
  have hpos : 0 < timestampReset.itInterval.nanos := timestampReset_periodic.interval_pos
  have hpassed : passed value = d % timestampReset.itInterval.nanos := by
    rw [passed, hv, Int.sub_sub_self]
  have hle : value.nanos ≤ timestampReset.itInterval.nanos := by
    have := Int.emod_nonneg d hpos.ne'
    omega
  have hr : Reported value := ⟨hn, hle⟩
  refine ⟨_, timestampElapsed_report m hr, rfl, _, rfl, ?_, ?_⟩
  · rw [nanos_eq, Int.mul_comm, hpassed]
    exact Int.mul_tdiv_add_tmod _ timeNsInS
  · intro h0
    rw [hpassed]
    exact ⟨⟨Int.tmod_nonneg _ h0, Int.tmod_lt_of_pos _ (by decide)⟩,
      Int.tdiv_nonneg h0 (by decide)⟩

/-- The timers of the kernel are the stopwatches, all reset before `now`. -/
structure Agree (timers : σ → ℕ → Option Timer) (now : ℤ) (s : σ) (w : ℕ → Option ℤ) : Prop where
  timers_eq : ∀ tid, timers s tid = (w tid).map fun time => .armed time timestampReset
  le_now : ∀ tid time, w tid = some time → time ≤ now

variable {now now' : ℤ} {s s' : σ} {w : ℕ → Option ℤ} {tid : ℕ}

theorem Agree.later (h : Agree timers now s w) (hle : now ≤ now') : Agree timers now' s w :=
  ⟨h.timers_eq, fun tid time ht => Int.le_trans (h.le_now tid time ht) hle⟩

/-- One timer changes with its stopwatch. -/
theorem Agree.update (h : Agree timers now s w) (tid : ℕ) (time : Option ℤ)
    (hs : timers s' = update (timers s) tid (time.map fun time => .armed time timestampReset))
    (ht : ∀ t, time = some t → t ≤ now) : Agree timers now s' (update w tid time) where
  timers_eq i := by
    rw [hs]
    by_cases hi : i = tid
    · subst hi
      rw [update_self, update_self]
    · rw [update_of_ne hi, update_of_ne hi, h.timers_eq]
  le_now i t hw := by
    by_cases hi : i = tid
    · subst hi
      rw [update_self] at hw
      exact ht t hw
    · rw [update_of_ne hi] at hw
      exact h.le_now i t hw

theorem timestampReset_agrees (hk : Documented k timers) (h : Agree timers now s w)
    (ht : (timers s tid).isSome = true) : ∃ s', k.timestampReset now tid s = (0, s') ∧
      Agree timers now s' (update w tid (some now)) := by
  obtain ⟨s', hs, hv⟩ : ∃ s', k.timerSettime now tid timestampReset s = some s' ∧ _ :=
    hk.settime ht timestampReset_periodic
  refine ⟨s', by simp [Kernel.timestampReset, hs], h.update tid (some now) hv ?_⟩
  rintro t ⟨⟩
  exact Int.le_refl _

theorem timestampCreate_agrees (hk : Documented k timers) (h : Agree timers now s w) :
    k.timestampCreate now s = (-1, none, s) ∨
      ∃ tid s', k.timestampCreate now s = (0, some tid, s') ∧ w tid = none ∧
        Agree timers now s' (update w tid (some now)) := by
  cases hc : k.timerCreate now s with
  | none => exact .inl (by simp [Kernel.timestampCreate, hc])
  | some p =>
    obtain ⟨tid, s₁⟩ := p
    obtain ⟨hnone, hv₁⟩ := hk.create hc
    have hfree : w tid = none := by
      rwa [h.timers_eq, Option.map_eq_none_iff] at hnone
    have hsome : (timers s₁ tid).isSome = true := by
      rw [hv₁, update_self]
      rfl
    obtain ⟨s', hs, hv⟩ : ∃ s', k.timerSettime now tid timestampReset s₁ = some s' ∧ _ :=
      hk.settime hsome timestampReset_periodic
    rw [hv₁, update_idem] at hv
    refine .inr ⟨tid, s', by simp [Kernel.timestampCreate, Kernel.timestampReset, hc, hs], hfree,
      h.update tid (some now) hv ?_⟩
    rintro t ⟨⟩
    exact Int.le_refl _

theorem timestampElapsed_agrees (hk : Documented k timers) (m : DataModel)
    (h : Agree timers now s w) (ht : (timers s tid).isSome = true) : ∃ time r,
      w tid = some time ∧ k.timestampElapsed m now tid s = some r ∧
        Shows m ((now - time) % timestampReset.itInterval.nanos) r := by
  rw [h.timers_eq, Option.isSome_map] at ht
  obtain ⟨time, hw⟩ := Option.isSome_iff_exists.mp ht
  have harmed : timers s tid = some (.armed time timestampReset) := by
    rw [h.timers_eq, hw, Option.map_some]
  have hle : time ≤ now := h.le_now tid time hw
  obtain ⟨value, hget, hn, hv⟩ := hk.gettime harmed timestampReset_periodic hle
  rw [remaining_reset (Int.sub_nonneg_of_le hle)] at hv
  obtain ⟨r, hr, hshows⟩ := shows_reading (m := m) hn hv
  refine ⟨time, r, hw, ?_, hshows⟩
  rw [Kernel.timestampElapsed, hget]
  exact hr

/-- Reading a timer does nothing to the timers. -/
theorem exec_elapsed {r : Resp} (h : k.exec m now s (.elapsed tid) = some (r, s')) : s' = s := by
  obtain ⟨_, -, he⟩ := Option.map_eq_some_iff.mp h
  exact (Prod.mk.inj he).2.symm

/-- One call is answered as by the stopwatches. -/
theorem exec_agrees (hk : Documented k timers) (m : DataModel) (h : Agree timers now s w)
    {c : Call} (hc : ∀ tid, c.timer = some tid → (timers s tid).isSome = true) : ∃ r s' w',
      k.exec m now s c = some (r, s') ∧ Agree timers now s' w' ∧
        ∀ cs rs, Stopwatches m w' cs rs → Stopwatches m w ((now, c) :: cs) (r :: rs) := by
  cases c with
  | create =>
    rcases timestampCreate_agrees hk h with hx | ⟨tid, s', hx, hfree, h'⟩
    · exact ⟨.created (-1) none, s, w, by rw [Kernel.exec, hx], h, fun _ _ => .noTimer⟩
    · exact ⟨.created 0 (some tid), s', _, by rw [Kernel.exec, hx], h', fun _ _ => .create hfree⟩
  | reset tid =>
    obtain ⟨s', hx, h'⟩ := timestampReset_agrees hk h (hc tid rfl)
    exact ⟨.code 0, s', _, by rw [Kernel.exec, hx], h', fun _ _ => .reset⟩
  | elapsed tid =>
    obtain ⟨time, r, hw, hx, hr⟩ := timestampElapsed_agrees hk m h (hc tid rfl)
    exact ⟨.reading r, s, w, by rw [Kernel.exec, hx, Option.map_some], h,
      fun _ _ => .elapsed hw hr⟩
  | destory tid =>
    have h' := h.update tid none (hk.delete s tid) fun t ht => by cases ht
    exact ⟨.done, _, _, rfl, h', fun _ _ => .destory⟩

theorem run_agrees (hk : Documented k timers) (m : DataModel) (calls : List (ℤ × Call)) :
    ∀ {before : ℤ} {s : σ} {w : ℕ → Option ℤ}, Agree timers before s w →
      (before :: calls.map Prod.fst).Pairwise (· ≤ ·) → Legal k timers m s calls →
        ∃ rs, k.run m s calls = some rs ∧ Stopwatches m w calls rs := by
  induction calls with
  | nil => exact fun {_ _ w} _ _ _ => ⟨[], rfl, .nil w⟩
  | cons call calls ih =>
    obtain ⟨now, c⟩ := call
    intro before s w h hmono hlegal
    rw [List.map_cons, List.pairwise_cons] at hmono
    have hle : before ≤ now := hmono.1 now List.mem_cons_self
    obtain ⟨r, s', w', hx, h', hspec⟩ := exec_agrees hk m (h.later hle) hlegal.1
    obtain ⟨rs, hrun, hrs⟩ := ih h' hmono.2 (hlegal.2 r s' hx)
    exact ⟨r :: rs, by simp [Kernel.run, hx, hrun], hspec calls rs hrs⟩

/-- On a kernel that acts as documented, a program that starts without timers, whose calls
come in the order of time and get only timers that exist, sees stopwatches: every reading is
the time since the last reset of its own timer, which starts over after the interval. -/
theorem run_stopwatches (hk : Documented k timers) (m : DataModel) {s : σ}
    (h₀ : ∀ tid, timers s tid = none) (calls : List (ℤ × Call))
    (hmono : (calls.map Prod.fst).Pairwise (· ≤ ·)) (hlegal : Legal k timers m s calls) :
    ∃ rs, k.run m s calls = some rs ∧ Stopwatches m (fun _ => none) calls rs := by
  cases calls with
  | nil => exact ⟨[], rfl, .nil _⟩
  | cons call calls =>
    have h : Agree timers call.1 s fun _ => none := ⟨h₀, fun tid time hw => by cases hw⟩
    refine run_agrees hk m _ h (List.pairwise_cons.mpr ⟨fun t ht => ?_, hmono⟩) hlegal
    rcases List.mem_cons.mp ht with rfl | ht
    · exact Int.le_refl _
    · exact (List.pairwise_cons.mp hmono).1 t ht

/-- A stopwatch is read after a second and a half, reset and read again. -/
theorem run_stopwatches_reset : ∃ rs,
    kernel.run .lp64 { next := 0, timer := fun _ => none, fresh := fun _ _ => rfl }
      [(0, .create), (1500000000, .elapsed 0), (2000000000, .reset 0), (2000000007, .elapsed 0),
        (2000000007, .destory 0)] = some rs ∧
    Stopwatches .lp64 (fun _ => none)
      [(0, .create), (1500000000, .elapsed 0), (2000000000, .reset 0), (2000000007, .elapsed 0),
        (2000000007, .destory 0)] rs := by
  refine run_stopwatches kernel_documented .lp64 (fun _ => rfl) _ (by decide) ?_
  refine ⟨fun tid h => (by cases h), fun r T h => ?_⟩
  cases h
  refine ⟨fun tid h => (by cases h; rfl), fun r T h => ?_⟩
  obtain rfl := exec_elapsed h
  refine ⟨fun tid h => (by cases h; rfl), fun r T h => ?_⟩
  cases h
  refine ⟨fun tid h => (by cases h; rfl), fun r T h => ?_⟩
  obtain rfl := exec_elapsed h
  exact ⟨fun tid h => (by cases h; rfl), fun _ _ _ => trivial⟩

end Ohmylib.Timestamp
