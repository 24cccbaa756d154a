import Ohmylib.Monitor.Machine

/-! Locking discipline by annotation. An annotation says at which control points
a thread holds the mutex. When it is closed under the program, every reachable
state agrees with it, whatever the schedule: the mutex is only released and waited
on by its owner, the shared state is only accessed by its owner, and a thread that
returned does not own the mutex. -/

namespace Ohmylib.Monitor

variable {T σ κ L C E : Type*} [DecidableEq T] [DecidableEq κ] {P : Program σ κ L C E}

/-- What the step of one thread may be, with its guard. -/
inductive Effect (P : Program σ κ L C E) (s : State T σ L) (t : T) :
    Move C → State T σ L → Option E → Prop
  | call (c : C) (h : s.status t = .idle) :
      Effect P s t (.call c) (s.goto t (.ready (P.entry c))) (some (P.invoke c))
  | lock {l l' : L} (h : s.status t = .ready l) (hc : P.code l = .lock l') (ho : s.owner = none) :
      Effect P s t .run { s.goto t (.ready l') with owner := some t } none
  | unlock {l l' : L} (h : s.status t = .ready l) (hc : P.code l = .unlock l') :
      Effect P s t .run { s.goto t (.ready l') with owner := none } none
  | access {l : L} {f : σ → σ × L × Option E} (h : s.status t = .ready l)
      (hc : P.code l = .access f) :
      Effect P s t .run { s.goto t (.ready (f s.shared).2.1) with shared := (f s.shared).1 }
        (f s.shared).2.2
  | sleep {l : L} {c : κ} {next : Bool → L} (h : s.status t = .ready l)
      (hc : P.code l = .wait c next) :
      Effect P s t .run { s.goto t (.waiting l) with owner := none } none
  | broadcast {l l' : L} {c : κ} (h : s.status t = .ready l) (hc : P.code l = .broadcast c l') :
      Effect P s t .run ((wakeAll P c s).goto t (.ready l')) none
  | ret {l : L} {e : E} (h : s.status t = .ready l) (hc : P.code l = .ret e) :
      Effect P s t .run (s.goto t .idle) (some e)
  | relock {l : L} (h : s.status t = .woken l) (ho : s.owner = none) :
      Effect P s t .run { s.goto t (.ready l) with owner := some t } none
  | fail {l : L} {c : κ} {next : Bool → L} (h : s.status t = .ready l)
      (hc : P.code l = .wait c next) :
      Effect P s t .fail (s.goto t (.ready (next false))) none
  | wake {l : L} {c : κ} {next : Bool → L} (zero : Bool) (h : s.status t = .waiting l)
      (hc : P.code l = .wait c next) :
      Effect P s t (.wake zero) (s.goto t (.woken (next zero))) none

theorem execute_effect {s s' : State T σ L} {t : T} {l : L} {e : Option E}
    (hl : s.status t = .ready l) (h : execute P s t l = some (s', e)) :
    Effect P s t .run s' e := by
  unfold execute at h
  cases hc : P.code l with
  | lock l' =>
    cases ho : s.owner with
    | none =>
      simp only [hc, ho, Option.some.injEq, Prod.mk.injEq] at h
      obtain ⟨rfl, rfl⟩ := h
      exact .lock hl hc ho
    | some u => simp [hc, ho] at h
  | unlock l' =>
    simp only [hc, Option.some.injEq, Prod.mk.injEq] at h
    obtain ⟨rfl, rfl⟩ := h
    exact .unlock hl hc
  | access f =>
    simp only [hc, Option.some.injEq, Prod.mk.injEq] at h
    obtain ⟨rfl, rfl⟩ := h
    exact .access hl hc
  | wait c next =>
    simp only [hc, Option.some.injEq, Prod.mk.injEq] at h
    obtain ⟨rfl, rfl⟩ := h
    exact .sleep hl hc
  | broadcast c l' =>
    simp only [hc, Option.some.injEq, Prod.mk.injEq] at h
    obtain ⟨rfl, rfl⟩ := h
    exact .broadcast hl hc
  | ret x =>
    simp only [hc, Option.some.injEq, Prod.mk.injEq] at h
    obtain ⟨rfl, rfl⟩ := h
    exact .ret hl hc

/-- Every enabled move is one of the listed effects. -/
theorem step_effect {s s' : State T σ L} {t : T} {m : Move C} {e : Option E}
    (h : step P s t m = some (s', e)) : Effect P s t m s' e := by
  cases hst : s.status t with
  | idle =>
    cases m with
    | call c =>
      simp only [step, hst, Option.some.injEq, Prod.mk.injEq] at h
      obtain ⟨rfl, rfl⟩ := h
      exact .call c hst
    | run => simp [step, hst] at h
    | fail => simp [step, hst] at h
    | wake zero => simp [step, hst] at h
  | ready l =>
    cases m with
    | call c => simp [step, hst] at h
    | run =>
      simp only [step, hst] at h
      exact execute_effect hst h
    | fail =>
      cases hc : P.code l with
      | wait c next =>
        simp only [step, hst, hc, Action.resume, Option.map_some, Option.some.injEq,
          Prod.mk.injEq] at h
        obtain ⟨rfl, rfl⟩ := h
        exact .fail hst hc
      | _ => simp [step, hst, hc, Action.resume] at h
    | wake zero => simp [step, hst] at h
  | waiting l =>
    cases m with
    | call c => simp [step, hst] at h
    | run => simp [step, hst] at h
    | fail => simp [step, hst] at h
    | wake zero =>
      cases hc : P.code l with
      | wait c next =>
        simp only [step, hst, hc, Action.resume, Option.map_some, Option.some.injEq,
          Prod.mk.injEq] at h
        obtain ⟨rfl, rfl⟩ := h
        exact .wake zero hst hc
      | _ => simp [step, hst, hc, Action.resume] at h
  | woken l =>
    cases m with
    | call c => simp [step, hst] at h
    | run =>
      cases ho : s.owner with
      | none =>
        simp only [step, hst, ho, Option.some.injEq, Prod.mk.injEq] at h
        obtain ⟨rfl, rfl⟩ := h
        exact .relock hst ho
      | some u => simp [step, hst, ho] at h
    | fail => simp [step, hst] at h
    | wake zero => simp [step, hst] at h

/-- What no access changes is the same in the whole run. -/
theorem exec_shared {β : Type*} (g : σ → β)
    (hg : ∀ l f, P.code l = .access f → ∀ v, g (f v).1 = g v) {s s' : State T σ L}
    {moves : List (T × Move C)} {tr : List (T × E)} (h : exec P s moves = some (s', tr)) :
    g s'.shared = g s.shared := by
  induction moves generalizing s tr with
  | nil =>
    simp only [exec, Option.some.injEq, Prod.mk.injEq] at h
    rw [h.1]
  | cons x rest ih =>
    obtain ⟨t, m⟩ := x
    obtain ⟨s₁, e, tr', h₁, h₂, -⟩ := exec_cons P h
    rw [ih h₂]
    cases step_effect h₁ with
    | access hl hc => exact hg _ _ hc _
    | _ => rfl

/-- The action at a control point respects the annotation. -/
def Closed (covered held : L → Prop) (l : L) : Action σ κ L E → Prop
  | .lock l' => ¬ held l ∧ covered l' ∧ held l'
  | .unlock l' => held l ∧ covered l' ∧ ¬ held l'
  | .access f => held l ∧ ∀ v, covered (f v).2.1 ∧ held (f v).2.1
  | .wait _ next => held l ∧ ∀ zero, covered (next zero) ∧ held (next zero)
  | .broadcast _ l' => held l ∧ covered l' ∧ held l'
  | .ret _ => ¬ held l

/-- The actions that only the owner of the mutex may take. -/
def Action.Guarded : Action σ κ L E → Prop
  | .unlock _ | .access _ | .wait _ _ => True
  | _ => False

/-- The calls a family of runs makes, the control points they reach, and where
among these the mutex is held. -/
structure Annotation (P : Program σ κ L C E) where
  calls : C → Prop
  covered : L → Prop
  held : L → Prop
  entry : ∀ c, calls c → covered (P.entry c) ∧ ¬ held (P.entry c)
  closed : ∀ l, covered l → Closed covered held l (P.code l)

/-- The moves of the family: any move but a foreign call. -/
def Annotation.Allows (A : Annotation P) : Move C → Prop
  | .call c => A.calls c
  | _ => True

namespace Annotation

variable (A : Annotation P)

/-- A thread's status agrees with whether it owns the mutex. -/
def Agrees (mine : Prop) : Status L → Prop
  | .idle => ¬ mine
  | .ready l => A.covered l ∧ (A.held l ↔ mine)
  | .waiting l => ¬ mine ∧ A.covered l
  | .woken l => ¬ mine ∧ A.covered l ∧ A.held l

def Disciplined (s : State T σ L) : Prop := ∀ t, A.Agrees (s.owner = some t) (s.status t)

omit [DecidableEq T] [DecidableEq κ] in
theorem disciplined_initial (v : σ) : A.Disciplined (.initial (T := T) v) := by
  intro t
  simp [State.initial, Agrees]

variable {A}

omit [DecidableEq T] [DecidableEq κ] in
theorem Disciplined.ready {s : State T σ L} (h : A.Disciplined s) {t : T} {l : L}
    (hl : s.status t = .ready l) : A.covered l ∧ (A.held l ↔ s.owner = some t) := by
  simpa [hl, Agrees] using h t

omit [DecidableEq T] [DecidableEq κ] in
/-- A thread at a point where the mutex is held owns it. -/
theorem Disciplined.owns {s : State T σ L} (h : A.Disciplined s) {t : T} {l : L}
    (hl : s.status t = .ready l) (hh : A.held l) : s.owner = some t :=
  (h.ready hl).2.mp hh

omit [DecidableEq T] [DecidableEq κ] in
theorem Disciplined.idle {s : State T σ L} (h : A.Disciplined s) {t : T}
    (hl : s.status t = .idle) : s.owner ≠ some t := by
  simpa [hl, Agrees] using h t

omit [DecidableEq T] [DecidableEq κ] in
theorem Disciplined.waiting {s : State T σ L} (h : A.Disciplined s) {t : T} {l : L}
    (hl : s.status t = .waiting l) : s.owner ≠ some t ∧ A.covered l := by
  simpa [hl, Agrees] using h t

omit [DecidableEq T] [DecidableEq κ] in
theorem Disciplined.woken {s : State T σ L} (h : A.Disciplined s) {t : T} {l : L}
    (hl : s.status t = .woken l) : s.owner ≠ some t ∧ A.covered l ∧ A.held l := by
  simpa [hl, Agrees] using h t

omit [DecidableEq T] [DecidableEq κ] in
/-- The owner of the mutex is at a control point. -/
theorem Disciplined.owner_ready {s : State T σ L} (h : A.Disciplined s) {t : T}
    (ho : s.owner = some t) : ∃ l, s.status t = .ready l := by
  cases hst : s.status t with
  | idle => exact absurd ho (h.idle hst)
  | ready l => exact ⟨l, rfl⟩
  | waiting l => exact absurd ho (h.waiting hst).1
  | woken l => exact absurd ho (h.woken hst).1

omit [DecidableEq T] [DecidableEq κ] in
theorem Disciplined.closed {s : State T σ L} (h : A.Disciplined s) {t : T} {l : L}
    {a : Action σ κ L E} (hl : s.status t = .ready l) (hc : P.code l = a) :
    Closed A.covered A.held l a :=
  hc ▸ A.closed l (h.ready hl).1

omit [DecidableEq T] [DecidableEq κ] in
/-- A thread about to unlock, to access the shared state or to wait owns the mutex. -/
theorem Disciplined.guarded {s : State T σ L} (h : A.Disciplined s) {t : T} {l : L}
    (hl : s.status t = .ready l) (hg : (P.code l).Guarded) : s.owner = some t := by
  refine h.owns hl ?_
  have hcl := h.closed hl rfl
  cases hc : P.code l <;> simp_all [Closed, Action.Guarded]

omit [DecidableEq κ] in
/-- A thread that changes neither its own right to the mutex nor that of the
others may move to any status that agrees. -/
theorem Disciplined.goto {s : State T σ L} (h : A.Disciplined s) {t : T} {x : Status L}
    {o : Option T} {v : σ} (ht : A.Agrees (o = some t) x)
    (ho : ∀ u, u ≠ t → (o = some u ↔ s.owner = some u)) :
    A.Disciplined { s.goto t x with owner := o, shared := v } := by
  intro u
  by_cases hu : u = t
  · subst hu
    simpa [State.goto] using ht
  · simp only [State.goto, Function.update_of_ne hu, ho u hu]
    exact h u

omit [DecidableEq T] in
theorem Disciplined.wakeAll {s : State T σ L} (h : A.Disciplined s) (c : κ) :
    A.Disciplined (wakeAll P c s) := by
  intro t
  obtain ⟨l, next, hst, hc, hw⟩ | ⟨hw, -⟩ := wakeAll_status P c s t
  · obtain ⟨hne, hcov⟩ := h.waiting hst
    have hcl := A.closed l hcov
    rw [hc] at hcl
    rw [hw]
    exact ⟨hne, hcl.2 true⟩
  · rw [hw]
    exact h t

omit [DecidableEq T] [DecidableEq κ] in
/-- The owner that releases the mutex changes nothing for the other threads. -/
private theorem release {s : State T σ L} {t : T} (h : s.owner = some t) (u : T) (hu : u ≠ t) :
    (none : Option T) = some u ↔ s.owner = some u := by
  simp [h, Ne.symm hu]

omit [DecidableEq T] [DecidableEq κ] in
private theorem acquire {s : State T σ L} {t : T} (h : s.owner = none) (u : T) (hu : u ≠ t) :
    some t = some u ↔ s.owner = some u := by
  simp [h, Ne.symm hu]

/-- One move keeps the discipline. -/
theorem Disciplined.step {s s' : State T σ L} (h : A.Disciplined s) {t : T} {m : Move C}
    {e : Option E} (hm : A.Allows m) (hs : Monitor.step P s t m = some (s', e)) :
    A.Disciplined s' := by
  cases step_effect hs with
  | call c hl =>
    obtain ⟨hc, hh⟩ := A.entry c hm
    exact h.goto ⟨hc, by simp [hh, h.idle hl]⟩ (fun _ _ => Iff.rfl)
  | lock hl hc ho =>
    have hcl := h.closed hl hc
    exact h.goto ⟨hcl.2.1, by simp [hcl.2.2]⟩ (acquire ho)
  | unlock hl hc =>
    have hcl := h.closed hl hc
    exact h.goto ⟨hcl.2.1, by simp [hcl.2.2]⟩ (release (h.owns hl hcl.1))
  | access hl hc =>
    have hcl := h.closed hl hc
    have ho := h.owns hl hcl.1
    exact h.goto ⟨(hcl.2 _).1, by simp [(hcl.2 _).2, ho]⟩ (fun _ _ => Iff.rfl)
  | sleep hl hc =>
    have hcl := h.closed hl hc
    exact h.goto ⟨by simp, (h.ready hl).1⟩ (release (h.owns hl hcl.1))
  | broadcast hl hc =>
    have hcl := h.closed hl hc
    have ho := h.owns hl hcl.1
    exact (h.wakeAll _).goto ⟨hcl.2.1, by simp [hcl.2.2, ho]⟩
      (fun _ _ => Iff.rfl)
  | ret hl hc =>
    have hcl := h.closed hl hc
    exact h.goto (fun ho => hcl ((h.ready hl).2.mpr ho)) (fun _ _ => Iff.rfl)
  | relock hl ho =>
    obtain ⟨-, hcov, hheld⟩ := h.woken hl
    exact h.goto ⟨hcov, by simp [hheld]⟩ (acquire ho)
  | fail hl hc =>
    have hcl := h.closed hl hc
    have ho := h.owns hl hcl.1
    exact h.goto ⟨(hcl.2 false).1, by simp [(hcl.2 false).2, ho]⟩ (fun _ _ => Iff.rfl)
  | wake zero hl hc =>
    obtain ⟨hne, hcov⟩ := h.waiting hl
    have hcl := A.closed _ hcov
    rw [hc] at hcl
    exact h.goto ⟨hne, hcl.2 zero⟩ (fun _ _ => Iff.rfl)

/-- Every run of the family keeps the discipline. -/
theorem Disciplined.exec {s s' : State T σ L} (h : A.Disciplined s) {moves : List (T × Move C)}
    {tr : List (T × E)} (hm : ∀ x ∈ moves, A.Allows x.2)
    (hs : Monitor.exec P s moves = some (s', tr)) : A.Disciplined s' := by
  induction moves generalizing s tr with
  | nil =>
    simp only [Monitor.exec, Option.some.injEq, Prod.mk.injEq] at hs
    exact hs.1 ▸ h
  | cons x rest ih =>
    obtain ⟨s₁, e, tr', h₁, h₂, -⟩ := exec_cons P hs
    exact ih (h.step (hm x (by simp)) h₁) (fun y hy => hm y (by simp [hy])) h₂

end Annotation

end Ohmylib.Monitor
