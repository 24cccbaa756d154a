import Mathlib.Logic.Function.Basic
import Mathlib.Data.List.Basic

/-! Threads that share one mutex and its condition variables. Every thread runs
the same program, a table from control points to actions; a run is a schedule of
moves of single threads. Unlocking and waiting release the mutex whoever owns it,
so a program that breaks the locking protocol has runs as well. A timed wait may
end by a broadcast, by a spurious wakeup, by a timeout, or at once by an error. -/

namespace Ohmylib.Monitor

variable {T σ κ L C E : Type*}

/-- The action at a control point: `σ` is the shared state, `κ` the condition
variables, `L` the control points and `E` the events. The continuation of `wait`
is told whether the wait returned zero. -/
inductive Action (σ κ L E : Type*)
  | lock (next : L)
  | unlock (next : L)
  | access (f : σ → σ × L × Option E)
  | wait (c : κ) (next : Bool → L)
  | broadcast (c : κ) (next : L)
  | ret (e : E)

/-- A program: the control point and the event of each call, and the action at
each control point. -/
structure Program (σ κ L C E : Type*) where
  entry : C → L
  invoke : C → E
  code : L → Action σ κ L E

/-- A thread is outside every call, at a control point, in the wait set of the
condition at a control point, or woken and about to take the mutex again. -/
inductive Status (L : Type*)
  | idle
  | ready (l : L)
  | waiting (l : L)
  | woken (l : L)

instance Status.decidableIdle : ∀ x : Status L, Decidable (x = .idle)
  | .idle => isTrue rfl
  | .ready _ | .waiting _ | .woken _ => isFalse (by simp)

structure State (T σ L : Type*) where
  shared : σ
  owner : Option T
  status : T → Status L

/-- All threads idle and the mutex free. -/
def State.initial (v : σ) : State T σ L := ⟨v, none, fun _ => .idle⟩

/-- `run` executes the next statement or takes the mutex again after a wait;
`fail` lets a wait return an error without sleeping; `wake` ends a sleep, with
result zero or not. -/
inductive Move (C : Type*)
  | call (c : C)
  | run
  | fail
  | wake (zero : Bool)

/-- The condition a thread sleeps on at a control point. -/
def Action.cond : Action σ κ L E → Option κ
  | .wait c _ => some c
  | _ => none

/-- The control point after a wait that returned. -/
def Action.resume (zero : Bool) : Action σ κ L E → Option L
  | .wait _ next => some (next zero)
  | _ => none

variable [DecidableEq T] [DecidableEq κ] (P : Program σ κ L C E)

def State.goto (s : State T σ L) (t : T) (x : Status L) : State T σ L :=
  { s with status := Function.update s.status t x }

@[simp] theorem State.goto_owner (s : State T σ L) (t : T) (x : Status L) :
    (s.goto t x).owner = s.owner := rfl

@[simp] theorem State.goto_shared (s : State T σ L) (t : T) (x : Status L) :
    (s.goto t x).shared = s.shared := rfl

/-- A broadcast moves every thread of one wait set to the mutex. -/
def wakeAll (c : κ) (s : State T σ L) : State T σ L :=
  { s with status := fun t => match s.status t with
      | .waiting l => if (P.code l).cond = some c then
          ((P.code l).resume true).elim (.waiting l) .woken else .waiting l
      | x => x }

omit [DecidableEq T] in
@[simp] theorem wakeAll_owner (c : κ) (s : State T σ L) : (wakeAll P c s).owner = s.owner := rfl

omit [DecidableEq T] in
@[simp] theorem wakeAll_shared (c : κ) (s : State T σ L) : (wakeAll P c s).shared = s.shared := rfl

omit [DecidableEq T] in
/-- A broadcast wakes a thread that sleeps on its condition and leaves any other. -/
theorem wakeAll_status (c : κ) (s : State T σ L) (t : T) :
    (∃ l next, s.status t = .waiting l ∧ P.code l = .wait c next ∧
        (wakeAll P c s).status t = .woken (next true)) ∨
      ((wakeAll P c s).status t = s.status t ∧
        ∀ l, s.status t = .waiting l → (P.code l).cond ≠ some c) := by
  cases hst : s.status t with
  | waiting l =>
    cases hc : P.code l with
    | wait c' next =>
      by_cases hcc : c' = c
      · subst hcc
        exact .inl ⟨l, next, rfl, hc, by simp [wakeAll, hst, hc, Action.cond, Action.resume]⟩
      · refine .inr ⟨by simp [wakeAll, hst, hc, Action.cond, hcc], fun l' hl' => ?_⟩
        cases hl'
        simpa [hc, Action.cond] using hcc
    | _ =>
      refine .inr ⟨by simp [wakeAll, hst, hc, Action.cond], fun l' hl' => ?_⟩
      cases hl'
      simp [hc, Action.cond]
  | _ => exact .inr ⟨by simp [wakeAll, hst], fun l' hl' => nomatch hl'⟩

def execute (s : State T σ L) (t : T) (l : L) : Option (State T σ L × Option E) :=
  match P.code l with
  | .lock l' => match s.owner with
    | none => some ({ s.goto t (.ready l') with owner := some t }, none)
    | some _ => none
  | .unlock l' => some ({ s.goto t (.ready l') with owner := none }, none)
  | .access f => match f s.shared with
    | (v, l', e) => some ({ s.goto t (.ready l') with shared := v }, e)
  | .wait _ _ => some ({ s.goto t (.waiting l) with owner := none }, none)
  | .broadcast c l' => some ((wakeAll P c s).goto t (.ready l'), none)
  | .ret e => some (s.goto t .idle, some e)

def step (s : State T σ L) (t : T) : Move C → Option (State T σ L × Option E)
  | .call c => match s.status t with
    | .idle => some (s.goto t (.ready (P.entry c)), some (P.invoke c))
    | _ => none
  | .run => match s.status t with
    | .ready l => execute P s t l
    | .woken l => match s.owner with
      | none => some ({ s.goto t (.ready l) with owner := some t }, none)
      | some _ => none
    | _ => none
  | .fail => match s.status t with
    | .ready l => ((P.code l).resume false).map fun l' => (s.goto t (.ready l'), none)
    | _ => none
  | .wake zero => match s.status t with
    | .waiting l => ((P.code l).resume zero).map fun l' => (s.goto t (.woken l'), none)
    | _ => none

/-- The state and the events of a whole schedule, when all its moves are enabled. -/
def exec (s : State T σ L) : List (T × Move C) → Option (State T σ L × List (T × E))
  | [] => some (s, [])
  | (t, m) :: rest => (step P s t m).bind fun r =>
      (exec r.1 rest).map fun r' => (r'.1, (r.2.toList.map fun e => (t, e)) ++ r'.2)

theorem exec_cons {s s' : State T σ L} {t : T} {m : Move C} {rest : List (T × Move C)}
    {tr : List (T × E)} (h : exec P s ((t, m) :: rest) = some (s', tr)) :
    ∃ s₁ e tr', step P s t m = some (s₁, e) ∧ exec P s₁ rest = some (s', tr') ∧
      tr = (e.toList.map fun x => (t, x)) ++ tr' := by
  simp only [exec, Option.bind_eq_some_iff, Option.map_eq_some_iff, Prod.mk.injEq] at h
  obtain ⟨⟨s₁, e⟩, hs, ⟨s₂, tr'⟩, hr, hs', ht⟩ := h
  exact ⟨s₁, e, tr', hs, by rw [hr, ← hs'], ht.symm⟩

theorem exec_append (s : State T σ L) (a b : List (T × Move C)) :
    exec P s (a ++ b) = (exec P s a).bind fun r =>
      (exec P r.1 b).map fun r' => (r'.1, r.2 ++ r'.2) := by
  induction a generalizing s with
  | nil => simp [exec]
  | cons x a ih =>
    obtain ⟨t, m⟩ := x
    simp only [List.cons_append, exec]
    cases hs : step P s t m with
    | none => rfl
    | some r =>
      simp only [Option.bind_some, ih]
      cases ha : exec P r.1 a with
      | none => rfl
      | some q => cases hb : exec P q.1 b <;> simp [hb]

variable {P}

theorem exec_split {s s' : State T σ L} {a b : List (T × Move C)} {tr : List (T × E)}
    (h : exec P s (a ++ b) = some (s', tr)) : ∃ s₁ tr₁ tr₂,
    exec P s a = some (s₁, tr₁) ∧ exec P s₁ b = some (s', tr₂) := by
  rw [exec_append] at h
  obtain ⟨⟨s₁, tr₁⟩, ha, hb⟩ := Option.bind_eq_some_iff.mp h
  obtain ⟨⟨s₂, tr₂⟩, hb₂, hs⟩ := Option.map_eq_some_iff.mp hb
  cases hs
  exact ⟨s₁, tr₁, tr₂, ha, hb₂⟩

theorem exec_trans {s s₁ s₂ : State T σ L} {a b : List (T × Move C)} {tr₁ tr₂ : List (T × E)}
    (ha : exec P s a = some (s₁, tr₁)) (hb : exec P s₁ b = some (s₂, tr₂)) :
    exec P s (a ++ b) = some (s₂, tr₁ ++ tr₂) := by
  rw [exec_append, ha, Option.bind_some, hb, Option.map_some]

theorem exec_one {s s₁ : State T σ L} {t : T} {m : Move C} {e : Option E}
    (h : step P s t m = some (s₁, e)) :
    exec P s [(t, m)] = some (s₁, e.toList.map fun x => (t, x)) := by
  simp [exec, h]

/-- Thread `t` makes a call and the next `n` moves. -/
def turn (t : T) (c : C) (n : ℕ) : List (T × Move C) := (t, .call c) :: List.replicate n (t, .run)

/-- A check of the state a schedule ends in. -/
theorem exists_exec {p : State T σ L → Prop} [DecidablePred p] {s : State T σ L}
    {moves : List (T × Move C)} (h : (exec P s moves).any (fun r => p r.1) = true) :
    ∃ s' tr, exec P s moves = some (s', tr) ∧ p s' := by
  obtain ⟨⟨s', tr⟩, hr, hp⟩ := (Option.any_eq_true _ _).mp h
  exact ⟨s', tr, hr, of_decide_eq_true hp⟩

variable (P)

/-- Some thread is in the wait set of the condition. -/
def Waits (s : State T σ L) (c : κ) : Prop :=
  ∃ t l, s.status t = .waiting l ∧ (P.code l).cond = some c

end Ohmylib.Monitor
