import Ohmylib.Queue.EmptyWakeup

/-! The answer of `queue_empty_wait`. Its wait loop ends under one view of the queue, but
the value it returns is computed from the queue once more, after the mutex is given
up. The two agree as long as no other thread fills or drains the queue in between. -/

namespace Ohmylib.Queue

open Monitor

/-- The next statement changes whether the queue is empty. -/
def Point.Flips : Point → QueueS → Prop
  | .send _ _ .incAvail, q => q.avail = 0 ∨ q.avail = 2 ^ 64 - 1
  | .recv _ (.decAvail _), q => q.avail = 1 ∨ q.avail = 0
  | _, _ => False

theorem flips_iff {l : Point} {q : QueueS} : l.Flips q ↔
    l.counts = some true ∧ (q.avail = 0 ∨ q.avail = 2 ^ 64 - 1) ∨
      l.counts = some false ∧ (q.avail = 1 ∨ q.avail = 0) := by
  cases l with
  | send p timeout stage => cases stage <;> simp [Point.Flips, Point.counts]
  | recv timeout stage => cases stage <;> simp [Point.Flips, Point.counts]
  | _ => simp [Point.Flips, Point.counts]

instance (l : Point) (q : QueueS) : Decidable (l.Flips q) := decidable_of_iff _ flips_iff.symm

variable {T : Type*} [DecidableEq T] {s s' s₁ s₂ : State T Shared Point} {t u : T} {m : Move Call}
  {e : Option Event}

omit [DecidableEq T] in
/-- The thread's `queue_empty_wait` has left its wait loop and not yet read the queue
for its answer. -/
def Undecided (s : State T Shared Point) (t : T) : Prop :=
  ∃ timeout, s.status t = .ready (.emptyWait timeout .unlock) ∨
    s.status t = .ready (.emptyWait timeout .result)

/-- The points of an undecided call. -/
def Point.undecided : Point → Bool
  | .emptyWait _ .unlock | .emptyWait _ .result => true
  | _ => false

omit [DecidableEq T] in
theorem undecided_iff : Undecided s t ↔ ∃ l, s.status t = .ready l ∧ l.undecided = true := by
  constructor
  · rintro ⟨timeout, hl | hl⟩ <;> exact ⟨_, hl, rfl⟩
  · rintro ⟨l, hl, h⟩
    unfold Point.undecided at h
    split at h
    · exact ⟨_, .inl hl⟩
    · exact ⟨_, .inr hl⟩
    · cases h

/-- While some call is undecided the step does not change whether the queue is empty. -/
def Undisturbed (s : State T Shared Point) (u : T) (_ : Move Call) : Prop :=
  ∀ t l, Undecided s t → s.status u = .ready l → ¬ l.Flips s.shared.q

instance [Fintype T] (s : State T Shared Point) (u : T) (m : Move Call) :
    Decidable (Undisturbed s u m) :=
  have : DecidablePred fun t => Undecided s t := fun _ => decidable_of_iff _ undecided_iff.symm
  decidable_of_iff
    ((∃ t, Undecided s t) → ∀ l, s.status u = .ready l → ¬ l.Flips s.shared.q)
    ⟨fun h t l ht => h ⟨t, ht⟩ l, fun h ⟨t, ht⟩ l => h t l ht⟩

/-- The wait loop of the thread's `queue_empty_wait` ends in the state `s` by a step to
`s₁`, and the moves `b` lead the same call to a state `s₂` where it returns `r`. -/
structure Answered (s s₁ s₂ : State T Shared Point) (t : T) (b : List (T × Move Call))
    (timeout r : ℤ) : Prop where
  looping : ∃ zero, s.status t = .ready (.emptyWait timeout (.loop (.test zero)))
  ends : ∃ e, step api s t .run = some (s₁, e) ∧
    s₁.status t = .ready (.emptyWait timeout .unlock)
  same : ∀ c, (t, .call c) ∉ b
  runs : ∃ tr, exec api s₁ b = some (s₂, tr)
  returns : ∃ s₃, step api s₂ t .run = some (s₃, some (.ret (.emptyWait timeout) { ret := r }))

/-- Every answer of `queue_empty_wait` in the run is 0 exactly when the queue was empty
as the wait loop ended. -/
def AnswersKept (v : Shared) (moves : List (T × Move Call)) : Prop :=
  ∀ a b c s s₁ s₂ tr t timeout r, moves = a ++ (t, .run) :: (b ++ (t, .run) :: c) →
    exec api (.initial v) a = some (s, tr) → Answered s s₁ s₂ t b timeout r →
    (r = 0 ↔ s.shared.q.avail = 0)

/-- The phases of a call behind its wait loop, which ended on an empty queue or not. -/
inductive Kept (empty : Prop) (q : QueueS) : Status Point → Prop
  | unlock {timeout : ℤ} (h : q.avail = 0 ↔ empty) :
      Kept empty q (.ready (.emptyWait timeout .unlock))
  | result {timeout : ℤ} (h : q.avail = 0 ↔ empty) :
      Kept empty q (.ready (.emptyWait timeout .result))
  | ret {timeout r : ℤ} (h : r = 0 ↔ empty) : Kept empty q (.ready (.emptyWait timeout (.ret r)))
  | idle : Kept empty q .idle

theorem step_flips (hlt : s.shared.q.avail < 2 ^ 64) (h : step api s u m = some (s', e))
    (hf : ∀ l, s.status u = .ready l → ¬ l.Flips s.shared.q) :
    s'.shared.q.avail = 0 ↔ s.shared.q.avail = 0 := by
  rcases step_avail h with heq | ⟨p, timeout, hl, heq⟩ | ⟨timeout, x, hl, heq⟩
  · rw [heq]
  · have hne := not_or.mp (hf _ hl)
    rw [heq, QueueS.incAvail_eq_zero hlt]
    exact ⟨fun h => absurd h hne.2, fun h => absurd h hne.1⟩
  · have hne := not_or.mp (hf _ hl)
    rw [heq, QueueS.decAvail_eq_zero hlt]
    exact ⟨fun h => absurd h hne.1, fun h => absurd h hne.2⟩

theorem truth_not_eq_zero (q : QueueS) : truth (!queueIsEmptyLocked q) = 0 ↔ q.avail = 0 := by
  by_cases h : q.avail = 0 <;> simp [truth, h]

/-- The call itself takes its answer from the queue and keeps it. -/
theorem Kept.self {empty : Prop} (h : Kept empty s.shared.q (s.status t)) (hm : ∀ c, m ≠ .call c)
    (hs : step api s t m = some (s', e)) : Kept empty s'.shared.q (s'.status t) := by
  generalize hst : s.status t = x at h
  cases h with
  | unlock h =>
    cases Option.some.inj (step_ready hs hst rfl)
    simpa [State.goto] using Kept.result h
  | result h =>
    cases Option.some.inj (step_ready hs hst rfl)
    simpa [State.goto] using Kept.ret ((truth_not_eq_zero s.shared.q).trans h)
  | ret h =>
    cases Option.some.inj (step_ready hs hst rfl)
    simpa [State.goto] using Kept.idle
  | idle =>
    cases m with
    | call c => exact absurd rfl (hm c)
    | _ => simp [step, hst] at hs

/-- The other threads leave it alone. -/
theorem Kept.other {empty : Prop} (h : Kept empty s.shared.q (s.status t)) (hne : t ≠ u)
    (hlt : s.shared.q.avail < 2 ^ 64) (hu : Undisturbed s u m)
    (hs : step api s u m = some (s', e)) : Kept empty s'.shared.q (s'.status t) := by
  have hflips : Undecided s t → (s'.shared.q.avail = 0 ↔ s.shared.q.avail = 0) :=
    fun hd => step_flips hlt hs fun l hl => hu t l hd hl
  have hstatus : s'.status t = s.status t := by
    refine step_other hs hne fun l hl => ?_
    rw [hl] at h
    cases h
  rw [hstatus]
  generalize hst : s.status t = x at h
  cases h with
  | @unlock timeout h => exact .unlock ((hflips ⟨timeout, .inl hst⟩).trans h)
  | @result timeout h => exact .result ((hflips ⟨timeout, .inr hst⟩).trans h)
  | ret h => exact .ret h
  | idle => exact .idle

/-- What the call returns is the answer it kept. -/
theorem Kept.returns {empty : Prop} {c : Call} {r : ℤ}
    (h : Kept empty s.shared.q (s.status t))
    (hs : step api s t .run = some (s', some (.ret c { ret := r }))) : r = 0 ↔ empty := by
  generalize hst : s.status t = x at h
  cases h with
  | unlock h | result h => cases Option.some.inj (step_ready hs hst rfl)
  | ret h =>
    cases Option.some.inj (step_ready hs hst rfl)
    exact h
  | idle => simp [step, hst] at hs

/-- The test that ends the loop does not change the queue. -/
theorem Answered.kept {b : List (T × Move Call)} {timeout r : ℤ}
    (h : Answered s s₁ s₂ t b timeout r) :
    s₁.shared = s.shared ∧ Kept (s.shared.q.avail = 0) s₁.shared.q (s₁.status t) := by
  obtain ⟨zero, hl⟩ := h.looping
  obtain ⟨e, hs, hst⟩ := h.ends
  have heq : s₁.shared = s.shared := by rw [step_access hs hl rfl]
  rw [hst, heq]
  exact ⟨rfl, .unlock Iff.rfl⟩

/-- In a run that disturbs no undecided call, every answer is the one the call waited for. -/
theorem answers_kept {v : Shared} (hv : v.q.avail < 2 ^ 64) {moves : List (T × Move Call)}
    (hsteps : EachStep api Undisturbed (.initial v) moves) : AnswersKept v moves := by
  rintro a b c s s₁ s₂ tr t timeout r rfl ha h
  obtain ⟨heq, hkept⟩ := h.kept
  obtain ⟨e, hs, -⟩ := h.ends
  obtain ⟨tr₁, hb⟩ := h.runs
  obtain ⟨s₃, hr⟩ := h.returns
  have hlt : s₁.shared.q.avail < 2 ^ 64 := heq ▸ exec_avail_lt hv ha
  have hsame : EachStep api (fun _ u m => u = t → ∀ c, m ≠ .call c) s₁ b := by
    refine .of_forall fun x hx hxt c hm => h.same c ?_
    rwa [← hxt, ← hm]
  have hquiet : EachStep api Undisturbed s₁ b := ((hsteps.drop ha).2 _ hs).take
  -- the invariant of the call along the moves up to its return
  have hk := (hquiet.and hsame).exec
    (p := fun s' => s'.shared.q.avail < 2 ^ 64 ∧
      Kept (s.shared.q.avail = 0) s'.shared.q (s'.status t))
    (fun {s' s'' u m e} hp hc hs' => by
      refine ⟨step_avail_lt hp.1 hs', ?_⟩
      by_cases hu : u = t
      · subst hu
        exact hp.2.self (hc.2 rfl) hs'
      · exact hp.2.other (Ne.symm hu) hp.1 hc.1 hs') ⟨hlt, hkept⟩ hb
  exact hk.2.returns hr

/-- Thread 1 waits while thread 2 receives the message of thread 0, and leaves its loop on an empty
queue after a spurious wakeup. The next message comes in as soon as it has read its answer. -/
theorem answers_kept_empty : ∃ moves : List (Fin 3 × Move Call),
    moves = List.flatten [turn 0 (.send (fun _ => 7) 0) 8, turn 1 (.emptyWait 0) 2,
      turn 2 (.recv 0) 8, [(1, .wake true), (1, .run), (1, .run), (1, .run)],
      turn 0 (.send (fun _ => 8) 0) 4, [(1, .run)], List.replicate 4 (0, .run), [(1, .run)]] ∧
    (∃ s tr, exec api (.initial ⟨⟨false, 2, 1, 0, 0, 1, 0, 0⟩, fun _ => 0⟩) moves = some (s, tr) ∧
      s.shared.q.avail = 1) ∧
    AnswersKept ⟨⟨false, 2, 1, 0, 0, 1, 0, 0⟩, fun _ => 0⟩ moves :=
  ⟨_, rfl, exists_exec (by decide +kernel), answers_kept (by decide) (by decide +kernel)⟩

/-- The wait loop of thread 1 ends on an empty queue; then thread 0 sends a message, and
thread 1 returns that the queue is not empty. -/
theorem answer_changed : ∃ q, Created 1 1 q ∧ ∃ (moves : List (ℕ × Move Call))
    (s : State ℕ Shared Point) (tr : List (ℕ × Event)),
    exec api (.initial ⟨q, fun _ => 0⟩) moves = some (s, tr) ∧
    ¬ AnswersKept ⟨q, fun _ => 0⟩ moves := by
  let send : List (ℕ × Move Call) := (0, .call (.send (fun _ => 7) 0)) :: List.replicate 8 (0, .run)
  refine ⟨⟨false, 1, 1, 0, 0, 0, 0, 0⟩, .inl ⟨fun _ => some 0, rfl⟩,
    [(1, .call (.emptyWait 0))] ++ (1, .run) :: ((1, .run) :: send ++ [(1, .run)] ++ [(1, .run)]),
    _, _, rfl, fun h => ?_⟩
  have hanswer := h [(1, .call (.emptyWait 0))] ((1, .run) :: send ++ [(1, .run)]) [] _ _ _ _ 1 0 1
    rfl rfl
    { looping := ⟨true, rfl⟩
      ends := ⟨_, rfl, rfl⟩
      same := by simp [send]
      runs := ⟨_, rfl⟩
      returns := ⟨_, rfl⟩ }
  exact absurd (hanswer.mpr rfl) (by decide)

end Ohmylib.Queue
