import Ohmylib.Monitor.Discipline

/-! A thread that runs alone. It makes only moves of its own and never sleeps, so
from each state it goes on in one way at most: to its return, to a wait, to a mutex
that another thread owns, or on forever. Rules for the single actions take a solo
run apart statement by statement. -/

namespace Ohmylib.Monitor

variable {T σ κ L C E : Type*} [DecidableEq T]

/-- The state with thread `t` at a control point. -/
def State.put (s : State T σ L) (t : T) (l : L) (o : Option T) (v : σ) : State T σ L :=
  { s.goto t (.ready l) with owner := o, shared := v }

@[simp] theorem State.put_owner (s : State T σ L) (t : T) (l : L) (o : Option T) (v : σ) :
    (s.put t l o v).owner = o := rfl

@[simp] theorem State.put_shared (s : State T σ L) (t : T) (l : L) (o : Option T) (v : σ) :
    (s.put t l o v).shared = v := rfl

@[simp] theorem State.put_status (s : State T σ L) (t : T) (l : L) (o : Option T) (v : σ) :
    (s.put t l o v).status t = .ready l := by
  simp [State.put, State.goto]

@[simp] theorem State.put_put (s : State T σ L) (t : T) (l l' : L) (o o' : Option T) (v v' : σ) :
    (s.put t l o v).put t l' o' v' = s.put t l' o' v' := by
  simp [State.put, State.goto]

variable [DecidableEq κ] (P : Program σ κ L C E)

/-- Thread `t`, moving alone and never asleep, comes to its return, with event `e`. -/
inductive Returns (t : T) : State T σ L → E → Prop
  | last {s s' : State T σ L} {e : E} (h : step P s t .run = some (s', some e))
      (hi : s'.status t = .idle) : Returns t s e
  | next {s s' : State T σ L} {e : E} {x : Option E} (h : step P s t .run = some (s', x))
      (hn : s'.status t ≠ .idle) (hr : Returns t s' e) : Returns t s e

variable {P} {s : State T σ L} {t : T} {l l' : L} {o : Option T} {v : σ} {e : E}

/-- A solo run is a run, whose last event is the return. -/
theorem Returns.exec (h : Returns P t s e) : ∃ n s' tr,
    exec P s (List.replicate n (t, .run)) = some (s', tr ++ [(t, e)]) ∧ s'.status t = .idle := by
  induction h with
  | @last s s' e h hi => exact ⟨1, s', [], by simp [Monitor.exec, h], hi⟩
  | @next s s₁ e x h hn hr ih =>
    obtain ⟨n, s', tr, hx, hi⟩ := ih
    refine ⟨n + 1, s', (x.toList.map fun y => (t, y)) ++ tr, ?_, hi⟩
    simp [List.replicate_succ, Monitor.exec, h, hx]

/-- Moves are deterministic, so a solo run goes on from the next state. -/
theorem returns_step {s' : State T σ L} {x : Option E} (h : step P s t .run = some (s', x))
    (hn : s'.status t ≠ .idle) : Returns P t s e ↔ Returns P t s' e := by
  refine ⟨fun hr => ?_, .next h hn⟩
  cases hr with
  | last h' hi =>
    simp only [h, Option.some.injEq, Prod.mk.injEq] at h'
    exact absurd (h'.1 ▸ hi) hn
  | next h' _ hr =>
    simp only [h, Option.some.injEq, Prod.mk.injEq] at h'
    exact h'.1 ▸ hr

theorem step_put : step P (s.put t l o v) t .run = execute P (s.put t l o v) t l := by
  simp [step]

theorem returns_lock (hc : P.code l = .lock l') :
    Returns P t (s.put t l none v) e ↔ Returns P t (s.put t l' (some t) v) e := by
  have h : step P (s.put t l none v) t .run = some (s.put t l' (some t) v, none) := by
    rw [step_put]
    simp [execute, hc, State.put, State.goto]
  exact returns_step h (by simp)

theorem returns_unlock (hc : P.code l = .unlock l') :
    Returns P t (s.put t l o v) e ↔ Returns P t (s.put t l' none v) e := by
  have h : step P (s.put t l o v) t .run = some (s.put t l' none v, none) := by
    rw [step_put]
    simp [execute, hc, State.put, State.goto]
  exact returns_step h (by simp)

theorem returns_access {f : σ → σ × L × Option E} (hc : P.code l = .access f) :
    Returns P t (s.put t l o v) e ↔ Returns P t (s.put t (f v).2.1 o (f v).1) e := by
  have h : step P (s.put t l o v) t .run = some (s.put t (f v).2.1 o (f v).1, (f v).2.2) := by
    rw [step_put]
    simp [execute, hc, State.put, State.goto]
  exact returns_step h (by simp)

theorem wakeAll_put (c : κ) :
    (wakeAll P c (s.put t l o v)).put t l' o v = (wakeAll P c s).put t l' o v := by
  simp only [State.put, State.goto, wakeAll, State.mk.injEq, true_and]
  funext u
  by_cases hu : u = t
  · simp [hu]
  · simp [Function.update_of_ne hu]

theorem returns_broadcast {c : κ} (hc : P.code l = .broadcast c l') :
    Returns P t (s.put t l o v) e ↔ Returns P t ((wakeAll P c s).put t l' o v) e := by
  have h : step P (s.put t l o v) t .run = some ((wakeAll P c s).put t l' o v, none) := by
    rw [step_put, ← wakeAll_put (l := l)]
    simp [execute, hc]
    rfl
  exact returns_step h (by simp)

theorem returns_ret {x : E} (hc : P.code l = .ret x) :
    Returns P t (s.put t l o v) e ↔ e = x := by
  have h : step P (s.put t l o v) t .run = some ((s.put t l o v).goto t .idle, some x) := by
    rw [step_put]
    simp [execute, hc]
  have hi : ((s.put t l o v).goto t .idle).status t = .idle := by simp [State.goto]
  constructor
  · intro hr
    cases hr with
    | last h' _ =>
      simp only [h, Option.some.injEq, Prod.mk.injEq] at h'
      exact h'.2.symm
    | next h' hn _ =>
      simp only [h, Option.some.injEq, Prod.mk.injEq] at h'
      exact absurd (h'.1 ▸ hi) hn
  · rintro rfl
    exact .last h hi

/-- A thread about to sleep does not come to its return alone. -/
theorem not_returns_wait {c : κ} {next : Bool → L} (hc : P.code l = .wait c next) :
    ¬ Returns P t (s.put t l o v) e := by
  obtain ⟨s', h, hw⟩ : ∃ s', step P (s.put t l o v) t .run = some (s', none) ∧
      s'.status t = .waiting l := by
    refine ⟨{ (s.put t l o v).goto t (.waiting l) with owner := none }, ?_, by simp [State.goto]⟩
    rw [step_put]
    simp [execute, hc]
  have hstop : step P s' t .run = none := by simp [step, hw]
  rw [returns_step h (by simp [hw])]
  intro hr
  cases hr with
  | last h' _ | next h' _ _ => simp [hstop] at h'

end Ohmylib.Monitor
