import Mathlib.Data.List.Induction
import Ohmylib.Loop.While

/-! For loops along a structure that their body may change. A cursor starts where the
state says, is moved by a step that reads the state, and stops at a marked place. The
plain loop reads the next place after the body, the safe one before it. If the places
read are those of a list, the body runs once for each of them and in this order. -/

namespace Ohmylib.Linked

open Loop

variable {σ α β : Type} {init : σ → Option α} {stop : α → Bool} {step : σ → α → Option α}
  {body : α → σ → Option σ} {s : σ} {fuel : ℕ}

/-- `for(pos = init; !stop(pos); pos = step(pos)) body` -/
def forEach (init : σ → Option α) (stop : α → Bool) (step : σ → α → Option α)
    (body : α → σ → Option σ) (fuel : ℕ) (s : σ) : Outcome σ :=
  match init s with
  | none => .fault
  | some pos =>
    (whileLoop (fun c : α × σ => !stop c.1) (fun c => do
      let s ← body c.1 c.2
      let pos ← step s c.1
      return (pos, s)) fuel (pos, s)).map Prod.snd

/-- `for(pos = init, n = step(pos); !stop(pos); pos = n, n = step(n)) body` -/
def forEachSafe (init : σ → Option α) (stop : α → Bool) (step : σ → α → Option α)
    (body : α → σ → Option σ) (fuel : ℕ) (s : σ) : Outcome σ :=
  match (do let pos ← init s; let n ← step s pos; return (pos, n, s)) with
  | none => .fault
  | some c =>
    (whileLoop (fun c : α × α × σ => !stop c.1) (fun c => do
      let s ← body c.1 c.2.2
      let n ← step s c.2.1
      return (c.2.1, n, s)) fuel c).map fun c => c.2.2

section Rules

variable {xs l r : List α} {x last : α} {I : List α → σ → Prop}
  (hx : ∀ x ∈ xs, stop x = false)
  (hbody : ∀ l x r s, l ++ x :: r = xs → I l s → ∃ s', body x s = some s' ∧ I (l ++ [x]) s')

section Plain

variable (hstep : ∀ l x r s, l ++ x :: r = xs → I (l ++ [x]) s → step s x = some (r.headD last))
include hx hbody hstep

/-- The loop comes to every place of the list, with the invariant for those before it. -/
theorem forEach_reaches (h0 : I [] s) (hi : init s = some (xs.headD last)) (hl : l ++ r = xs) :
    ∃ s', I l s' ∧ ∀ k, forEach init stop step body (l.length + k) s =
      forEach (fun _ => some (r.headD last)) stop step body k s' := by
  induction l using List.reverseRecOn generalizing r with
  | nil =>
    cases hl
    exact ⟨s, h0, fun k => by simp [forEach, hi]⟩
  | append_singleton l x ih =>
    rw [List.append_assoc, List.singleton_append] at hl
    obtain ⟨s₁, hs₁, hr⟩ := ih hl
    obtain ⟨s', hb, hs'⟩ := hbody l x r s₁ hl hs₁
    have ht : stop x = false := hx x (hl ▸ by simp)
    refine ⟨s', hs', fun k => ?_⟩
    rw [List.length_append, List.length_singleton, Nat.add_assoc, Nat.add_comm 1, hr]
    simp [forEach, whileLoop, ht, hb, hstep l x r s' hl hs']

theorem forEach_done (h0 : I [] s) (hi : init s = some (xs.headD last))
    (hlast : stop last = true) (hf : xs.length < fuel) :
    ∃ s', forEach init stop step body fuel s = .done s' ∧ I xs s' := by
  obtain ⟨s', hs', hr⟩ := forEach_reaches hx hbody hstep h0 hi (List.append_nil xs)
  obtain ⟨k, rfl⟩ := Nat.exists_eq_add_of_lt hf
  refine ⟨s', ?_, hs'⟩
  rw [Nat.add_assoc, hr]
  simp [forEach, whileLoop, hlast, Outcome.map]

omit hbody hstep in
/-- A loop that only notes where it is notes the list. -/
theorem forEach_collect {μ : Type} {m : μ} (init : μ → Option α) (step : μ → α → Option α)
    (f : α → β) (hstep : ∀ l x r, l ++ x :: r = xs → step m x = some (r.headD last))
    (hi : init m = some (xs.headD last)) (hlast : stop last = true) (hf : xs.length < fuel) :
    forEach (fun s : μ × List β => init s.1) stop (fun s x => step s.1 x)
      (fun x s => some (s.1, s.2 ++ [f x])) fuel (m, []) = .done (m, xs.map f) := by
  have hd : ∃ s', forEach (fun s : μ × List β => init s.1) stop (fun s x => step s.1 x)
      (fun x s => some (s.1, s.2 ++ [f x])) fuel (m, []) = .done s' ∧ s' = (m, xs.map f) := by
    refine forEach_done (I := fun l s => s = (m, l.map f)) hx ?_ ?_ rfl hi hlast hf
    · rintro l x r _ - rfl
      exact ⟨_, rfl, by simp⟩
    · rintro l x r _ hl rfl
      exact hstep l x r hl
  obtain ⟨_, hr, rfl⟩ := hd
  exact hr

end Plain

section Safe

variable (hstep : ∀ l r s, l ++ r = xs → I l s →
  ∃ n, step s (r.headD last) = some n ∧ ∀ x r', r = x :: r' → n = r'.headD last)
include hx hbody hstep

theorem forEachSafe_reaches (h0 : I [] s) (hi : init s = some (xs.headD last))
    (hl : l ++ r = xs) :
    ∃ s', I l s' ∧ ∀ k, forEachSafe init stop step body (l.length + k) s =
      forEachSafe (fun _ => some (r.headD last)) stop step body k s' := by
  induction l using List.reverseRecOn generalizing r with
  | nil =>
    cases hl
    exact ⟨s, h0, fun k => by simp [forEachSafe, hi]⟩
  | append_singleton l x ih =>
    have hl' : l ++ x :: r = xs := by simpa using hl
    obtain ⟨s₁, hs₁, hr⟩ := ih hl'
    obtain ⟨s', hb, hs'⟩ := hbody l x r s₁ hl' hs₁
    obtain ⟨n, hn, hnr⟩ := hstep l (x :: r) s₁ hl' hs₁
    obtain ⟨n', hn', -⟩ := hstep (l ++ [x]) r s' hl hs'
    have ht : stop x = false := hx x (hl' ▸ by simp)
    refine ⟨s', hs', fun k => ?_⟩
    rw [List.length_append, List.length_singleton, Nat.add_assoc, Nat.add_comm 1, hr]
    rw [List.headD_cons] at hn
    rw [hnr x r rfl, List.headD_eq_head?_getD] at hn
    rw [List.headD_eq_head?_getD] at hn'
    simp [forEachSafe, whileLoop, ht, hn, hb, hn']

theorem forEachSafe_done (h0 : I [] s) (hi : init s = some (xs.headD last))
    (hlast : stop last = true) (hf : xs.length < fuel) :
    ∃ s', forEachSafe init stop step body fuel s = .done s' ∧ I xs s' := by
  obtain ⟨s', hs', hr⟩ := forEachSafe_reaches hx hbody hstep h0 hi (List.append_nil xs)
  obtain ⟨n, hn, -⟩ := hstep xs [] s' (List.append_nil xs) hs'
  obtain ⟨k, rfl⟩ := Nat.exists_eq_add_of_lt hf
  refine ⟨s', ?_, hs'⟩
  rw [List.headD_nil] at hn
  rw [Nat.add_assoc, hr]
  simp [forEachSafe, whileLoop, hlast, hn, Outcome.map]

end Safe

end Rules

section Shift

variable (init stop step) {f : α → β} {g : β → α} (hfg : ∀ x, g (f x) = x)
  (body' : β → σ → Option σ)
include hfg

/-- A cursor that stands for a place, at `f` of it, runs through the same places. -/
theorem forEach_shift (fuel : ℕ) (s : σ) :
    forEach (fun s => (init s).map f) (fun p => stop (g p)) (fun s p => (step s (g p)).map f)
      body' fuel s = forEach init stop step (fun x => body' (f x)) fuel s := by
  cases hi : init s with
  | none => simp [forEach, hi]
  | some x =>
    simp only [forEach, hi, Option.map_some]
    refine (congrArg (Outcome.map Prod.snd) (whileLoop_map (f := fun c : α × σ => (f c.1, c.2))
      (fun c => ?_) (fun c => ?_) fuel (x, s))).trans (Outcome.map_map ..)
    · simp [hfg]
    · cases hb : body' (f c.1) c.2 with
      | none => simp
      | some s' => cases hs : step s' c.1 <;> simp [hfg, hs]

theorem forEachSafe_shift (fuel : ℕ) (s : σ) :
    forEachSafe (fun s => (init s).map f) (fun p => stop (g p)) (fun s p => (step s (g p)).map f)
      body' fuel s = forEachSafe init stop step (fun x => body' (f x)) fuel s := by
  cases hi : init s with
  | none => simp [forEachSafe, hi]
  | some x =>
    cases hn : step s x with
    | none => simp [forEachSafe, hi, hfg, hn]
    | some n =>
      simp only [forEachSafe, hi, hfg, hn, Option.map_some, Option.bind_eq_bind, Option.bind_some]
      refine (congrArg (Outcome.map fun c => c.2.2) (whileLoop_map
        (f := fun c : α × α × σ => (f c.1, f c.2.1, c.2.2)) (fun c => ?_) (fun c => ?_) fuel
        (x, n, s))).trans (Outcome.map_map ..)
      · simp [hfg]
      · cases hb : body' (f c.1) c.2.2 with
        | none => simp
        | some s' => cases hs : step s' c.2.1 <;> simp [hfg, hs]

end Shift

end Ohmylib.Linked
