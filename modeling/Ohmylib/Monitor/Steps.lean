import Mathlib.Data.Fintype.Basic
import Ohmylib.Monitor.Outline

/-! Conditions on the steps of a run. A condition looks at the state before a step, the
thread and its move; when every step of a run satisfies it, an invariant only has to
be kept by steps that do. A run of finitely many threads can be checked for it. -/

namespace Ohmylib.Monitor

variable {T σ κ L C E : Type*} [DecidableEq T] [DecidableEq κ] {P : Program σ κ L C E}

/-- Every move of the schedule is taken in a state that satisfies the condition. -/
def EachStep (P : Program σ κ L C E) (c : State T σ L → T → Move C → Prop) :
    State T σ L → List (T × Move C) → Prop
  | _, [] => True
  | s, (t, m) :: rest => c s t m ∧ ∀ r, step P s t m = some r → EachStep P c r.1 rest

/-- Who waits behind a step waited in front of it, or is the thread that went to sleep. -/
theorem step_waits {s s' : State T σ L} {t : T} {m : Move C} {e : Option E} {d : κ}
    (h : step P s t m = some (s', e)) (hw : Waits P s' d) :
    Waits P s d ∨ m = .run ∧ ∃ l next, s.status t = .ready l ∧ P.code l = .wait d next := by
  cases step_effect h with
  | @sleep l c next hl hc =>
    rcases waits_goto hw with ⟨k, hk, hd⟩ | hw
    · cases hk
      simp only [hc, Action.cond, Option.some.injEq] at hd
      exact .inr ⟨rfl, l, next, hl, hd ▸ hc⟩
    · exact .inl hw
  | broadcast hl hc => exact .inl (waits_wakeAll (waits_goto_awake (by simp) hw)).2
  | _ => exact .inl (waits_goto_awake (by simp) hw)

omit [DecidableEq κ] in
/-- A thread that leaves a control point leaves no wait set. -/
theorem waits_goto_ready {s : State T σ L} {t : T} {l : L} {x : Status L} {o : Option T} {v : σ}
    {d : κ} (hl : s.status t = .ready l) (hw : Waits P s d) :
    Waits P { s.goto t x with owner := o, shared := v } d := by
  obtain ⟨u, k, hu, hd⟩ := hw
  have hne : u ≠ t := by
    rintro rfl
    cases hl.symm.trans hu
  exact ⟨u, k, by simpa [State.goto, Function.update_of_ne hne] using hu, hd⟩

/-- A thread at a control point without a wait can only execute it. -/
theorem step_ready {s s' : State T σ L} {t : T} {m : Move C} {e : Option E} {l : L}
    (h : step P s t m = some (s', e)) (hl : s.status t = .ready l) (hc : (P.code l).cond = none) :
    execute P s t l = some (s', e) := by
  cases m with
  | run => simpa [step, hl] using h
  | fail => cases hcl : P.code l <;> simp [step, hl, hcl, Action.resume, Action.cond] at h hc
  | call c => simp [step, hl] at h
  | wake zero => simp [step, hl] at h

theorem step_access {s s' : State T σ L} {t : T} {m : Move C} {e : Option E} {l : L}
    {f : σ → σ × L × Option E} (h : step P s t m = some (s', e)) (hl : s.status t = .ready l)
    (hc : P.code l = .access f) :
    s' = { s.goto t (.ready (f s.shared).2.1) with shared := (f s.shared).1 } := by
  have hx := step_ready h hl (by simp [hc, Action.cond])
  simp only [execute, hc, Option.some.injEq, Prod.mk.injEq] at hx
  exact hx.1.symm

/-- A step of another thread only moves the threads that sleep. -/
theorem step_other {s s' : State T σ L} {t u : T} {m : Move C} {e : Option E}
    (h : step P s u m = some (s', e)) (hne : t ≠ u) (hw : ∀ l, s.status t ≠ .waiting l) :
    s'.status t = s.status t := by
  cases step_effect h with
  | @broadcast l l' c hl hc =>
    obtain ⟨k, -, hst, -⟩ | ⟨hsame, -⟩ := wakeAll_status P c s t
    · exact absurd hst (hw k)
    · exact (Function.update_of_ne hne _ _).trans hsame
  | _ => simp [State.goto, Function.update_of_ne hne]

/-- What is not the same behind a run, one of its steps has changed. -/
theorem exec_changes {β : Type*} (g : State T σ L → β) {s s' : State T σ L}
    {moves : List (T × Move C)} {tr : List (T × E)} (h : exec P s moves = some (s', tr))
    (hne : g s' ≠ g s) : ∃ a t m b s₁ tr₁ s₂ e, moves = a ++ (t, m) :: b ∧
      exec P s a = some (s₁, tr₁) ∧ step P s₁ t m = some (s₂, e) ∧ g s₂ ≠ g s₁ := by
  induction moves generalizing s tr with
  | nil =>
    cases h
    exact absurd rfl hne
  | cons x rest ih =>
    obtain ⟨t, m⟩ := x
    obtain ⟨s₀, e₀, tr₀, h₀, hrest, -⟩ := exec_cons P h
    by_cases hg : g s₀ = g s
    · obtain ⟨a, u, n, b, s₁, tr₁, s₂, e, rfl, ha, hs, hg'⟩ := ih hrest (hg ▸ hne)
      exact ⟨(t, m) :: a, u, n, b, s₁, _, s₂, e, rfl, exec_trans (exec_one h₀) ha, hs, hg'⟩
    · exact ⟨[], t, m, rest, s, [], s₀, e₀, rfl, rfl, h₀, hg⟩

namespace EachStep

variable {c c' : State T σ L → T → Move C → Prop} {s s' : State T σ L}
  {moves a b : List (T × Move C)} {tr : List (T × E)}

theorem and (h : EachStep P c s moves) (h' : EachStep P c' s moves) :
    EachStep P (fun s t m => c s t m ∧ c' s t m) s moves := by
  induction moves generalizing s with
  | nil => trivial
  | cons x rest ih => exact ⟨⟨h.1, h'.1⟩, fun r hr => ih (h.2 r hr) (h'.2 r hr)⟩

theorem take (h : EachStep P c s (a ++ b)) : EachStep P c s a := by
  induction a generalizing s with
  | nil => trivial
  | cons x rest ih => exact ⟨h.1, fun r hr => ih (h.2 r hr)⟩

theorem drop (h : EachStep P c s (a ++ b)) (ha : Monitor.exec P s a = some (s', tr)) :
    EachStep P c s' b := by
  induction a generalizing s tr with
  | nil =>
    cases ha
    exact h
  | cons x rest ih =>
    obtain ⟨s₁, e, tr', h₁, h₂, -⟩ := exec_cons P ha
    exact ih (h.2 _ h₁) h₂

/-- An invariant that the steps with the condition keep holds after the run. -/
theorem exec {p : State T σ L → Prop}
    (hstep : ∀ {s s' t m e}, p s → c s t m → step P s t m = some (s', e) → p s')
    (h : EachStep P c s moves) (hs : p s) (hrun : Monitor.exec P s moves = some (s', tr)) :
    p s' := by
  induction moves generalizing s tr with
  | nil =>
    cases hrun
    exact hs
  | cons x rest ih =>
    obtain ⟨s₁, e, tr', h₁, h₂, -⟩ := exec_cons P hrun
    exact ih (h.2 _ h₁) (hstep hs h.1 h₁) h₂

/-- A condition on the moves alone. -/
theorem of_forall {q : T → Move C → Prop} (h : ∀ x ∈ moves, q x.1 x.2) :
    EachStep P (fun _ => q) s moves := by
  induction moves generalizing s with
  | nil => trivial
  | cons x rest ih =>
    exact ⟨h x (by simp), fun r _ => ih fun y hy => h y (by simp [hy])⟩

/-- When the states around each step force the condition, every step satisfies it. -/
theorem of_states {p : State T σ L → Prop}
    (hstep : ∀ {s s' t m e}, p s → p s' → step P s t m = some (s', e) → c s t m)
    (hall : ∀ a b s' tr, moves = a ++ b → Monitor.exec P s a = some (s', tr) → p s')
    (hrun : Monitor.exec P s moves = some (s', tr)) : EachStep P c s moves := by
  induction moves generalizing s tr with
  | nil => trivial
  | cons x rest ih =>
    obtain ⟨t, m⟩ := x
    obtain ⟨s₁, e, tr', h₁, h₂, -⟩ := exec_cons P hrun
    have hs : p s := hall [] _ s [] rfl rfl
    have hs₁ : p s₁ := hall [(t, m)] rest s₁ _ rfl (exec_one h₁)
    refine ⟨hstep hs hs₁ h₁, fun r hr => ?_⟩
    cases h₁.symm.trans hr
    refine ih (fun a b s₂ tr₂ hab ha => ?_) h₂
    exact hall ((t, m) :: a) b s₂ _ (by rw [hab]; rfl) (exec_trans (exec_one h₁) ha)

instance decidable [∀ s t m, Decidable (c s t m)] : ∀ (s : State T σ L) (moves : List (T × Move C)),
    Decidable (EachStep P c s moves)
  | _, [] => isTrue trivial
  | s, (t, m) :: rest =>
    have : DecidablePred fun r : State T σ L × Option E => EachStep P c r.1 rest :=
      fun r => decidable r.1 rest
    inferInstanceAs (Decidable (c s t m ∧ ∀ r ∈ step P s t m, EachStep P c r.1 rest))

end EachStep

/-! ### Checks -/

instance Move.decidableRun : ∀ m : Move C, Decidable (m = .run)
  | .run => isTrue rfl
  | .call _ | .fail | .wake _ => isFalse (by simp)

instance Status.decidableReady {p : L → Prop} [DecidablePred p] :
    ∀ x : Status L, Decidable (∀ l, x = .ready l → p l)
  | .ready l => decidable_of_iff (p l) ⟨fun h _ hl => Status.ready.inj hl ▸ h, fun h => h l rfl⟩
  | .idle | .waiting _ | .woken _ => isTrue (by simp)

instance Status.decidableAt {p : L → Prop} [DecidablePred p] :
    ∀ x : Status L, Decidable (∃ l, x = .ready l ∧ p l)
  | .ready l => decidable_of_iff (p l) (by simp)
  | .idle | .waiting _ | .woken _ => isFalse (by simp)

instance Status.decidableWaiting {p : L → Prop} [DecidablePred p] :
    ∀ x : Status L, Decidable (∃ l, x = .waiting l ∧ p l)
  | .waiting l => decidable_of_iff (p l) (by simp)
  | .idle | .ready _ | .woken _ => isFalse (by simp)

instance Waits.decidable [Fintype T] (s : State T σ L) (d : κ) : Decidable (Waits P s d) :=
  inferInstanceAs (Decidable (∃ t, ∃ l, s.status t = .waiting l ∧ (P.code l).cond = some d))

end Ohmylib.Monitor
