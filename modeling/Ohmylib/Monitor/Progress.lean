import Ohmylib.Monitor.Discipline

/-! Calls can be completed. A ranking gives every control point a number that falls
with each statement, if a wait is taken to end without success. Then from every
disciplined state the owner of the mutex can release it, and after that any thread can
come to its return, with no more moves than the ranks allow and without a new call. So
no reachable state is a deadlock, and none makes a call wait for a call not yet made. -/

namespace Ohmylib.Monitor

variable {T σ κ L C E : Type*} [DecidableEq T] [DecidableEq κ] {P : Program σ κ L C E}

/-- The statement leads below `n`; a wait does so when it fails. -/
def Descends (rank : L → ℕ) (n : ℕ) : Action σ κ L E → Prop
  | .lock l' | .unlock l' | .broadcast _ l' => rank l' < n
  | .access f => ∀ v, rank (f v).2.1 < n
  | .wait _ next => rank (next false) < n
  | .ret _ => True

structure Ranking (A : Annotation P) where
  rank : L → ℕ
  bound : ℕ
  le_bound : ∀ l, rank l ≤ bound
  descends : ∀ l, A.covered l → Descends rank (rank l) (P.code l)

/-- Moves of one thread inside a call. -/
def Inside (t : T) (moves : List (T × Move C)) : Prop :=
  ∀ x ∈ moves, x.1 = t ∧ ∀ c, x.2 ≠ .call c

/-- Whoever sleeps is at a wait. -/
def Sleepers (P : Program σ κ L C E) (s : State T σ L) : Prop :=
  ∀ t l, s.status t = .waiting l → ∃ c next, P.code l = .wait c next

omit [DecidableEq κ] in
theorem Sleepers.goto {s : State T σ L} (h : Sleepers P s) {t : T} {x : Status L}
    (hx : ∀ l, x = .waiting l → ∃ c next, P.code l = .wait c next) (o : Option T) (v : σ) :
    Sleepers P { s.goto t x with owner := o, shared := v } := by
  intro u l hl
  by_cases hu : u = t
  · subst hu
    exact hx l (by simpa [State.goto] using hl)
  · exact h u l (by simpa [State.goto, Function.update_of_ne hu] using hl)

theorem Sleepers.step {s s' : State T σ L} (h : Sleepers P s) {t : T} {m : Move C} {e : Option E}
    (hs : Monitor.step P s t m = some (s', e)) : Sleepers P s' := by
  cases step_effect hs with
  | sleep hl hc =>
    refine h.goto (fun l hl' => ?_) _ _
    cases hl'
    exact ⟨_, _, hc⟩
  | @broadcast l l' c hl hc =>
    have hw : Sleepers P (wakeAll P c s) := by
      intro u l hu
      obtain ⟨k, next, -, -, hwk⟩ | ⟨hsame, -⟩ := wakeAll_status P c s u
      · cases hwk.symm.trans hu
      · exact h u l (hsame ▸ hu)
    exact hw.goto (fun _ hx => by cases hx) _ _
  | _ => exact h.goto (fun _ hx => by cases hx) _ _

/-- In a run that starts with nobody asleep, whoever sleeps is at a wait. -/
theorem Sleepers.exec {s s' : State T σ L} (h : Sleepers P s) {moves : List (T × Move C)}
    {tr : List (T × E)} (hs : Monitor.exec P s moves = some (s', tr)) : Sleepers P s' := by
  induction moves generalizing s tr with
  | nil =>
    cases hs
    exact h
  | cons x rest ih =>
    obtain ⟨s₁, e, tr', h₁, h₂, -⟩ := exec_cons P hs
    exact ih (h.step h₁) h₂

omit [DecidableEq T] [DecidableEq κ] in
theorem inside_nil (t : T) : Inside t ([] : List (T × Move C)) := fun x hx => by cases hx

omit [DecidableEq T] [DecidableEq κ] in
theorem inside_cons {t : T} {m : Move C} {moves : List (T × Move C)} (hm : ∀ c, m ≠ .call c)
    (h : Inside t moves) : Inside t ((t, m) :: moves) := by
  intro x hx
  rcases List.mem_cons.mp hx with rfl | hx
  · exact ⟨rfl, hm⟩
  · exact h x hx

/-- A run in front of which one more move is made. -/
theorem exec_next {s s₁ s' : State T σ L} {t : T} {m : Move C} {e : Option E}
    {moves : List (T × Move C)} {tr : List (T × E)} (h : step P s t m = some (s₁, e))
    (hr : exec P s₁ moves = some (s', tr)) :
    exec P s ((t, m) :: moves) = some (s', (e.toList.map fun x => (t, x)) ++ tr) := by
  simp [exec, h, hr]

/-- A thread that moves leaves the others outside or inside their calls. -/
theorem step_idle {s s' : State T σ L} {t u : T} {m : Move C} {e : Option E} (hu : u ≠ t)
    (h : step P s t m = some (s', e)) : s'.status u = .idle ↔ s.status u = .idle := by
  cases step_effect h with
  | @broadcast l l' c hl hc =>
    simp only [State.goto, Function.update_of_ne hu]
    obtain ⟨k, next, hst, -, hw⟩ | ⟨hsame, -⟩ := wakeAll_status P c s u
    · simp [hst, hw]
    · rw [hsame]
  | _ => simp [State.goto, Function.update_of_ne hu]

theorem inside_idle {s s' : State T σ L} {t u : T} {moves : List (T × Move C)}
    {tr : List (T × E)} (hu : u ≠ t) (hi : Inside t moves)
    (h : exec P s moves = some (s', tr)) : s'.status u = .idle ↔ s.status u = .idle := by
  induction moves generalizing s tr with
  | nil =>
    cases h
    rfl
  | cons x rest ih =>
    obtain ⟨s₁, e, tr', h₁, h₂, -⟩ := exec_cons P h
    obtain rfl := (hi x List.mem_cons_self).1
    rw [ih (fun y hy => hi y (List.mem_cons_of_mem _ hy)) h₂, step_idle hu h₁]

variable {A : Annotation P}

omit [DecidableEq T] [DecidableEq κ] in
theorem Inside.allows {t : T} {moves : List (T × Move C)} (hi : Inside t moves) :
    ∀ x ∈ moves, A.Allows x.2 := by
  intro x hx
  have hx := (hi x hx).2
  cases hm : x.2 with
  | call c => exact absurd hm (hx c)
  | _ => trivial

theorem Annotation.Disciplined.inside {s s' : State T σ L} (h : A.Disciplined s) {t : T}
    {moves : List (T × Move C)} {tr : List (T × E)} (hi : Inside t moves)
    (hs : Monitor.exec P s moves = some (s', tr)) : A.Disciplined s' :=
  h.exec hi.allows hs

variable (R : Ranking A)

/-- A thread in a call that shares the mutex with nobody can go on: it returns and leaves the
mutex free, or it comes to a control point below. -/
theorem Ranking.advance {s : State T σ L} (h : A.Disciplined s) {t : T} {l : L}
    (hl : s.status t = .ready l) (ho : s.owner = none ∨ s.owner = some t) :
    ∃ m s₁ e, (∀ c, m ≠ .call c) ∧ step P s t m = some (s₁, e) ∧
      (s₁.owner = none ∨ s₁.owner = some t) ∧
      (s₁.status t = .idle ∧ s₁.owner = none ∨
        ∃ l', s₁.status t = .ready l' ∧ R.rank l' < R.rank l) := by
  obtain ⟨hcov, hheld⟩ := h.ready hl
  have hdesc := R.descends l hcov
  have hcl := h.closed hl rfl
  have hfree : ¬ A.held l → s.owner = none := fun hn =>
    ho.resolve_right fun hs => hn (hheld.mpr hs)
  cases hc : P.code l with
  | lock l' =>
    rw [hc] at hdesc hcl
    refine ⟨.run, { s.goto t (.ready l') with owner := some t }, none, by simp, ?_, .inr rfl,
      .inr ⟨l', by simp [State.goto], hdesc⟩⟩
    simp [step, hl, execute, hc, hfree hcl.1]
  | unlock l' =>
    rw [hc] at hdesc
    refine ⟨.run, { s.goto t (.ready l') with owner := none }, none, by simp, ?_, .inl rfl,
      .inr ⟨l', by simp [State.goto], hdesc⟩⟩
    simp [step, hl, execute, hc]
  | access f =>
    rw [hc] at hdesc
    refine ⟨.run, { s.goto t (.ready (f s.shared).2.1) with shared := (f s.shared).1 },
      (f s.shared).2.2, by simp, ?_, ho, .inr ⟨(f s.shared).2.1, by simp [State.goto], hdesc _⟩⟩
    simp [step, hl, execute, hc]
  | wait c next =>
    -- a wait that fails keeps the mutex and does not depend on the other threads
    rw [hc] at hdesc
    refine ⟨.fail, s.goto t (.ready (next false)), none, by simp, ?_, ho,
      .inr ⟨next false, by simp [State.goto], hdesc⟩⟩
    simp [step, hl, hc, Action.resume]
  | broadcast c l' =>
    rw [hc] at hdesc
    refine ⟨.run, (wakeAll P c s).goto t (.ready l'), none, by simp, ?_, ho,
      .inr ⟨l', by simp [State.goto], hdesc⟩⟩
    simp [step, hl, execute, hc]
  | ret e =>
    rw [hc] at hcl
    refine ⟨.run, s.goto t .idle, some e, by simp, ?_, ho, .inl ⟨by simp [State.goto], hfree hcl⟩⟩
    simp [step, hl, execute, hc]

/-- From a control point to the return, in as many moves as the rank says. -/
theorem Ranking.finish {s : State T σ L} (h : A.Disciplined s) {t : T} {l : L}
    (hl : s.status t = .ready l) (ho : s.owner = none ∨ s.owner = some t) :
    ∃ moves s' tr, Inside t moves ∧ moves.length ≤ R.rank l + 1 ∧
      exec P s moves = some (s', tr) ∧ s'.status t = .idle ∧ s'.owner = none := by
  induction hn : R.rank l using Nat.strongRecOn generalizing s l with
  | ind n ih =>
    obtain ⟨m, s₁, e, hm, hs, ho₁, ⟨hidle, hnone⟩ | ⟨l', hl', hlt⟩⟩ := R.advance h hl ho
    · exact ⟨[(t, m)], s₁, _, inside_cons hm (inside_nil t), by simp, exec_one hs, hidle, hnone⟩
    · have h₁ := h.inside (inside_cons hm (inside_nil t)) (exec_one hs)
      obtain ⟨moves, s', tr, hi, hlen, hx, hend⟩ := ih _ (hn ▸ hlt) h₁ hl' ho₁ rfl
      exact ⟨_, s', _, inside_cons hm hi, by simp; omega, exec_next hs hx, hend⟩

/-- From anywhere in a call to its return: a sleeper is woken without success and takes the
mutex first. -/
theorem Ranking.complete {s : State T σ L} (h : A.Disciplined s) (hsl : Sleepers P s) (t : T)
    (ho : s.owner = none ∨ s.owner = some t) :
    ∃ moves s' tr, Inside t moves ∧ moves.length ≤ R.bound + 3 ∧
      exec P s moves = some (s', tr) ∧ s'.status t = .idle ∧ s'.owner = none := by
  have relock {s : State T σ L} (h : A.Disciplined s) (ho : s.owner = none ∨ s.owner = some t)
      {l : L} (hl : s.status t = .woken l) : ∃ moves s' tr, Inside t moves ∧
        moves.length ≤ R.bound + 2 ∧ exec P s moves = some (s', tr) ∧
        s'.status t = .idle ∧ s'.owner = none := by
    have hnone := ho.resolve_right (h.woken hl).1
    have hs : step P s t .run = some ({ s.goto t (.ready l) with owner := some t }, none) := by
      simp [step, hl, hnone]
    have h₁ := h.inside (inside_cons (by simp) (inside_nil t)) (exec_one hs)
    obtain ⟨moves, s', tr, hi, hlen, hx, hend⟩ :=
      R.finish (l := l) h₁ (by simp [State.goto]) (.inr rfl)
    have := R.le_bound l
    exact ⟨_, s', _, inside_cons (by simp) hi, by simp; omega, exec_next hs hx, hend⟩
  cases hst : s.status t with
  | idle => exact ⟨[], s, [], inside_nil t, by simp, rfl, hst, ho.resolve_right (h.idle hst)⟩
  | ready l =>
    obtain ⟨moves, s', tr, hi, hlen, hx, hend⟩ := R.finish h hst ho
    have := R.le_bound l
    exact ⟨moves, s', tr, hi, by omega, hx, hend⟩
  | woken l =>
    obtain ⟨moves, s', tr, hi, hlen, hx, hend⟩ := relock h ho hst
    exact ⟨moves, s', tr, hi, by omega, hx, hend⟩
  | waiting l =>
    obtain ⟨c, next, hc⟩ := hsl t l hst
    have hs : step P s t (.wake false) = some (s.goto t (.woken (next false)), none) := by
      simp [step, hst, hc, Action.resume]
    have h₁ := h.inside (inside_cons (by simp) (inside_nil t)) (exec_one hs)
    obtain ⟨moves, s', tr, hi, hlen, hx, hend⟩ :=
      relock h₁ ho (l := next false) (by simp [State.goto])
    exact ⟨_, s', _, inside_cons (by simp) hi, by simp; omega, exec_next hs hx, hend⟩

/-- Every thread can come out of its call: first the owner of the mutex comes out of its own,
then the thread does. -/
theorem Ranking.completes {s : State T σ L} (h : A.Disciplined s) (hsl : Sleepers P s) (u : T) :
    ∃ moves s' tr, (∀ x ∈ moves, (x.1 = u ∨ s.owner = some x.1) ∧ ∀ c, x.2 ≠ .call c) ∧
      moves.length ≤ 2 * (R.bound + 3) ∧
      exec P s moves = some (s', tr) ∧ s'.status u = .idle ∧ s'.owner = none := by
  cases ho : s.owner with
  | none =>
    obtain ⟨moves, s', tr, hi, hlen, hx, hend⟩ := R.complete h hsl u (.inl ho)
    exact ⟨moves, s', tr, fun x hx => ⟨.inl (hi x hx).1, (hi x hx).2⟩, by omega, hx, hend⟩
  | some t =>
    obtain ⟨a, s₁, tr₁, ha, hla, hxa, -, hnone⟩ := R.complete h hsl t (.inr ho)
    obtain ⟨b, s', tr₂, hb, hlb, hxb, hend⟩ :=
      R.complete (h.inside ha hxa) (hsl.exec hxa) u (.inl hnone)
    refine ⟨a ++ b, s', _, fun x hx => ?_, by simp; omega, exec_trans hxa hxb, hend⟩
    rcases List.mem_append.mp hx with hx | hx
    · exact ⟨.inr (by rw [(ha x hx).1]), (ha x hx).2⟩
    · exact ⟨.inl (hb x hx).1, (hb x hx).2⟩

end Ohmylib.Monitor
