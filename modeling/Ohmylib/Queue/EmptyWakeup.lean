import Ohmylib.Queue.Statements
import Ohmylib.Monitor.Steps

/-! Wakeups of the threads that wait for an empty queue. `queue_recv` broadcasts
`cond_empty` only where it finds no message, not where it takes the last one, and a
thread in `queue_empty_wait` may go to sleep after the queue became empty. Only in
the runs where neither happens nobody sleeps on `cond_empty` of an empty queue. -/

namespace Ohmylib.Queue

open Monitor

theorem QueueS.incAvail_eq_zero {q : QueueS} (h : q.avail < 2 ^ 64) :
    q.incAvail.avail = 0 ↔ q.avail = 2 ^ 64 - 1 := by
  simp only [QueueS.incAvail, u64]
  omega

theorem QueueS.decAvail_eq_zero {q : QueueS} (h : q.avail < 2 ^ 64) :
    q.decAvail.avail = 0 ↔ q.avail = 1 := by
  simp only [QueueS.decAvail, u64]
  omega

variable {T : Type*} [DecidableEq T] {s s' : State T Shared Point} {t : T} {m : Move Call}
  {e : Option Event}

/-- What a step does to the number of messages. -/
theorem step_avail (h : step api s t m = some (s', e)) :
    s'.shared.q.avail = s.shared.q.avail ∨
    (∃ p timeout, s.status t = .ready (.send p timeout .incAvail) ∧
      s'.shared.q = s.shared.q.incAvail) ∨
    ∃ timeout x, s.status t = .ready (.recv timeout (.decAvail x)) ∧
      s'.shared.q = s.shared.q.decAvail := by
  cases step_effect h with
  | @access l f hl hc =>
    have ha := access_effect hc s.shared
    dsimp only
    generalize (f s.shared).1 = v at ha
    cases ha with
    | @incAvail p timeout => exact .inr (.inl ⟨p, timeout, hl, rfl⟩)
    | @decAvail timeout x => exact .inr (.inr ⟨timeout, x, hl, rfl⟩)
    | _ => exact .inl rfl
  | _ => exact .inl rfl

/-- The number of messages stays a `size_t`. -/
theorem step_avail_lt (hlt : s.shared.q.avail < 2 ^ 64) (h : step api s t m = some (s', e)) :
    s'.shared.q.avail < 2 ^ 64 := by
  have hu : ∀ x, u64 x < 2 ^ 64 := fun x => Nat.mod_lt _ (by decide)
  rcases step_avail h with heq | ⟨p, timeout, -, heq⟩ | ⟨timeout, x, -, heq⟩
  · rwa [heq]
  · rw [heq]
    exact hu _
  · rw [heq]
    exact hu _

theorem exec_avail_lt {v : Shared} (hv : v.q.avail < 2 ^ 64) {moves : List (T × Move Call)}
    {tr : List (T × Event)} (hrun : exec api (.initial v) moves = some (s, tr)) :
    s.shared.q.avail < 2 ^ 64 := by
  have htrue : EachStep (T := T) api (fun _ _ _ => True) (.initial v) moves :=
    .of_forall fun _ _ => trivial
  exact htrue.exec (fun hlt _ h => step_avail_lt hlt h) hv hrun

/-- The next statement takes the last message, or its increment wraps around to zero. -/
def Point.Drains : Point → QueueS → Prop
  | .recv _ (.decAvail _), q => q.avail = 1
  | .send _ _ .incAvail, q => q.avail = 2 ^ 64 - 1
  | _, _ => False

/-- Whether the next statement counts a message, in or out. -/
def Point.counts : Point → Option Bool
  | .send _ _ .incAvail => some true
  | .recv _ (.decAvail _) => some false
  | _ => none

theorem drains_iff {l : Point} {q : QueueS} : l.Drains q ↔
    l.counts = some true ∧ q.avail = 2 ^ 64 - 1 ∨ l.counts = some false ∧ q.avail = 1 := by
  cases l with
  | send p timeout stage => cases stage <;> simp [Point.Drains, Point.counts]
  | recv timeout stage => cases stage <;> simp [Point.Drains, Point.counts]
  | _ => simp [Point.Drains, Point.counts]

instance (l : Point) (q : QueueS) : Decidable (l.Drains q) := decidable_of_iff _ drains_iff.symm

theorem step_drains (hlt : s.shared.q.avail < 2 ^ 64) (h : step api s t m = some (s', e))
    {l : Point} (hl : s.status t = .ready l) (hd : l.Drains s.shared.q) :
    s'.shared.q.avail = 0 ∧ (Waits api s .empty → Waits api s' .empty) := by
  unfold Point.Drains at hd
  split at hd
  · rw [step_access h hl rfl]
    exact ⟨(QueueS.decAvail_eq_zero hlt).mpr hd, waits_goto_ready hl⟩
  · rw [step_access h hl rfl]
    exact ⟨(QueueS.incAvail_eq_zero hlt).mpr hd, waits_goto_ready hl⟩
  · exact hd.elim

/-- A step that meets two conditions: it drains the queue only while nobody waits for
an empty queue, and its thread goes to sleep in `queue_empty_wait` only while the
queue holds a message. -/
structure Wakeful (s : State T Shared Point) (t : T) (m : Move Call) : Prop where
  drains : ∀ l, s.status t = .ready l → l.Drains s.shared.q → ¬ Waits api s .empty
  sleeps : ∀ timeout, m = .run → s.status t = .ready (.emptyWait timeout (.loop .timedwait)) →
    s.shared.q.avail ≠ 0

theorem cond_empty_iff {l : Point} :
    (api.code l).cond = some .empty ↔ ∃ timeout, l = .emptyWait timeout (.loop .timedwait) := by
  constructor
  · intro h
    cases hc : api.code l with
    | wait c next =>
      rw [hc] at h
      cases h
      exact wait_empty hc
    | _ => simp [hc, Action.cond] at h
  · rintro ⟨timeout, rfl⟩
    rfl

instance [Fintype T] (s : State T Shared Point) (t : T) (m : Move Call) :
    Decidable (Wakeful s t m) :=
  decidable_of_iff
    (∀ l, s.status t = .ready l → (l.Drains s.shared.q → ¬ Waits api s .empty) ∧
      ((api.code l).cond = some .empty → m = .run → s.shared.q.avail ≠ 0))
    ⟨fun h => ⟨fun l hl => (h l hl).1, fun timeout hm hl => (h _ hl).2 rfl hm⟩,
      fun h l hl => ⟨h.drains l hl, fun hc hm => by
        obtain ⟨timeout, rfl⟩ := cond_empty_iff.mp hc
        exact h.sleeps timeout hm hl⟩⟩

/-- Whoever waits for an empty queue waits on a queue that is not empty. -/
def EmptyAwaited (s : State T Shared Point) : Prop :=
  Waits api s .empty → s.shared.q.avail ≠ 0

/-- A step that meets the conditions leaves nobody waiting on an empty queue. -/
theorem Wakeful.step (hw : Wakeful s t m) (hlt : s.shared.q.avail < 2 ^ 64)
    (hs : EmptyAwaited s) (h : Monitor.step api s t m = some (s', e)) : EmptyAwaited s' := by
  intro hwait hzero
  -- the number of messages after the step, for whoever sleeps already
  have hdrain : ¬ Waits api s .empty := by
    intro hwait₀
    rcases step_avail h with heq | ⟨p, timeout, hl, heq⟩ | ⟨timeout, x, hl, heq⟩
    · exact hs hwait₀ (heq ▸ hzero)
    · rw [heq, QueueS.incAvail_eq_zero hlt] at hzero
      exact hw.drains _ hl hzero hwait₀
    · rw [heq, QueueS.decAvail_eq_zero hlt] at hzero
      exact hw.drains _ hl hzero hwait₀
  rcases step_waits h hwait with hwait₀ | ⟨rfl, l, next, hl, hc⟩
  · exact hdrain hwait₀
  · obtain ⟨timeout, rfl⟩ := wait_empty hc
    rcases step_avail h with heq | ⟨p, _, hl', -⟩ | ⟨_, x, hl', -⟩
    · exact hw.sleeps timeout rfl hl (heq ▸ hzero)
    · cases hl.symm.trans hl'
    · cases hl.symm.trans hl'

/-- A step that does not meet them does leave somebody. -/
theorem Wakeful.of_step (hlt : s.shared.q.avail < 2 ^ 64)
    (h : Monitor.step api s t m = some (s', e)) (hs' : EmptyAwaited s') : Wakeful s t m where
  drains l hl hd hwait := by
    obtain ⟨hzero, hwaits⟩ := step_drains hlt h hl hd
    exact hs' (hwaits hwait) hzero
  sleeps timeout hm hl hzero := by
    subst hm
    simp only [Monitor.step, hl, execute, api, code, queueEmptyWait, timedWaitLoop,
      Option.some.injEq, Prod.mk.injEq] at h
    obtain ⟨rfl, -⟩ := h
    exact hs' ⟨t, .emptyWait timeout (.loop .timedwait), by simp [State.goto], rfl⟩ hzero

/-- Nobody ever waits on an empty queue exactly when every step meets the conditions. -/
theorem wakeful_iff {v : Shared} (hv : v.q.avail < 2 ^ 64) {moves : List (T × Move Call)}
    {tr : List (T × Event)} (hrun : exec api (.initial v) moves = some (s, tr)) :
    EachStep api Wakeful (.initial v) moves ↔ Throughout v moves EmptyAwaited := by
  have hinit : EmptyAwaited (.initial (T := T) v) := by
    rintro ⟨t, l, hl, -⟩
    cases hl
  constructor
  · rintro h a b s₁ tr₁ rfl ha
    have hp := h.take.exec (p := fun s => s.shared.q.avail < 2 ^ 64 ∧ EmptyAwaited s)
      (fun hp hw h => ⟨step_avail_lt hp.1 h, hw.step hp.1 hp.2 h⟩) ⟨hv, hinit⟩ ha
    exact hp.2
  · intro h
    refine EachStep.of_states (p := fun s => s.shared.q.avail < 2 ^ 64 ∧ EmptyAwaited s)
      (fun hp hp' hs => .of_step hp.1 hs hp'.2) (fun a b s₁ tr₁ hab ha => ?_) hrun
    exact ⟨exec_avail_lt hv ha, h a b s₁ tr₁ hab ha⟩

/-- In a run whose steps meet the conditions, whenever the mutex is free only a queue
that holds a message has threads that wait for it to become empty. -/
theorem no_lost_empty_wakeup {v : Shared} (hv : v.q.avail < 2 ^ 64) {moves : List (T × Move Call)}
    {tr : List (T × Event)} (hrun : exec api (.initial v) moves = some (s, tr))
    (hsteps : EachStep api Wakeful (.initial v) moves) :
    Throughout v moves fun s => s.owner = none → Waits api s .empty → s.shared.q.avail ≠ 0 :=
  fun a b s₁ tr₁ hab ha _ => (wakeful_iff hv hrun).mp hsteps a b s₁ tr₁ hab ha

/-- Thread 0 sends a message and thread 2 receives it before thread 1 waits, on a queue with a
message again; then thread 2 sends and thread 0 receives. -/
theorem no_lost_empty_wakeup_one : ∃ (s : State (Fin 3) Shared Point) (tr : List (Fin 3 × Event)),
    exec api (.initial ⟨⟨false, 2, 1, 0, 0, 1, 0, 0⟩, fun _ => 0⟩)
      (List.flatten [turn 0 (.send (fun _ => 7) 0) 8, turn 2 (.recv 0) 8,
        turn 0 (.send (fun _ => 8) 0) 8, turn 1 (.emptyWait 0) 2,
        turn 2 (.send (fun _ => 9) 0) 8, turn 0 (.recv 0) 8]) =
      some (s, tr) ∧
    s.owner = none ∧ Waits api s .empty ∧ s.shared.q.avail ≠ 0 := by
  refine (exists_exec (p := fun s => s.owner = none ∧ Waits api s .empty) ?_).imp fun s =>
    Exists.imp fun tr ⟨hrun, hfree, hw⟩ => ⟨hrun, hfree, hw, ?_⟩
  · decide +kernel
  · exact no_lost_empty_wakeup (by decide) hrun (by decide +kernel) _ [] s tr
      (List.append_nil _).symm hrun hfree hw

/-- Thread 0 sends a message and thread 1 waits for the queue to become empty; then
thread 0 receives the message and leaves, and thread 1 still sleeps. -/
theorem empty_wakeup_lost : ∃ q, Created 1 1 q ∧ ∃ (moves : List (ℕ × Move Call))
    (s : State ℕ Shared Point) (tr : List (ℕ × Event)),
    exec api (.initial ⟨q, fun _ => 0⟩) moves = some (s, tr) ∧
    s.owner = none ∧ Waits api s .empty ∧ s.shared.q.avail = 0 :=
  ⟨⟨false, 1, 1, 0, 0, 0, 0, 0⟩, .inl ⟨fun _ => some 0, rfl⟩,
    (0, .call (.send (fun _ => 7) 0)) :: List.replicate 8 (0, .run) ++
      (1, .call (.emptyWait 0)) :: List.replicate 2 (1, .run) ++
      (0, .call (.recv 0)) :: List.replicate 8 (0, .run), _, _, rfl, rfl,
    ⟨1, .emptyWait 0 (.loop .timedwait), rfl, rfl⟩, rfl⟩

end Ohmylib.Queue
