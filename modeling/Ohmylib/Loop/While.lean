import Mathlib.Data.List.Basic

/-! Loops whose body may fault. A while loop runs on fuel, a for loop a fixed number
of times. A body consumes `n` of a resource when it takes `n` of what is left or
faults for want of it: the rule is closed under repetition, and a while loop until
nothing is left faults exactly when the resource is not a multiple of `n`. -/

namespace Ohmylib.Loop

/-- How a loop ends: with a fault of its body, not within its fuel, or with a result. -/
inductive Outcome (α : Type)
  | fault
  | running
  | done (a : α)
  deriving DecidableEq

def Outcome.map {α β : Type} (f : α → β) : Outcome α → Outcome β
  | .fault => .fault
  | .running => .running
  | .done a => .done (f a)

theorem Outcome.map_map {α β γ : Type} (f : α → β) (g : β → γ) (o : Outcome α) :
    (o.map f).map g = o.map fun a => g (f a) := by
  cases o <;> rfl

theorem Outcome.map_eq_fault_iff {α β : Type} {f : α → β} {o : Outcome α} :
    o.map f = .fault ↔ o = .fault := by
  cases o <;> simp [Outcome.map]

variable {σ : Type} {test : σ → Bool} {body : σ → Option σ} {s s' : σ} {n : ℕ}

/-- `while(test) body`. -/
def whileLoop (test : σ → Bool) (body : σ → Option σ) : ℕ → σ → Outcome σ
  | 0, _ => .running
  | fuel + 1, s =>
    if test s then
      match body s with
      | none => .fault
      | some s => whileLoop test body fuel s
    else .done s

/-- The body `n` times. -/
def forLoop (body : σ → Option σ) : ℕ → σ → Option σ
  | 0, s => some s
  | n + 1, s => (body s).bind (forLoop body n)

theorem whileLoop_exit (h : test s = false) (fuel : ℕ) :
    whileLoop test body (fuel + 1) s = .done s := by
  simp [whileLoop, h]

theorem whileLoop_next (h : test s = true) (hb : body s = some s') (fuel : ℕ) :
    whileLoop test body (fuel + 1) s = whileLoop test body fuel s' := by
  simp [whileLoop, h, hb]

theorem whileLoop_fault (h : test s = true) (hb : body s = none) (fuel : ℕ) :
    whileLoop test body (fuel + 1) s = .fault := by
  simp [whileLoop, h, hb]

/-- The body takes `n` of what is left, and faults if there is less. -/
structure Consumes (I : σ → Prop) (left : σ → ℕ) (n : ℕ) (body : σ → Option σ) : Prop where
  stuck : ∀ {s}, I s → left s < n → body s = none
  next : ∀ {s}, I s → n ≤ left s → ∃ s', body s = some s' ∧ I s' ∧ left s' + n = left s

namespace Consumes

variable {I : σ → Prop} {left : σ → ℕ}

/-- A body that reads the element at a cursor consumes one element of a list, when the
cursor and what is left make up its length. -/
theorem of_read {β : Type} {p : List β} {cursor : σ → ℕ} {f : σ → β → σ}
    (hc : ∀ s, I s → cursor s + left s = p.length)
    (hf : ∀ s b, I s → 0 < left s → I (f s b) ∧ left (f s b) + 1 = left s) :
    Consumes I left 1 fun s => (p[cursor s]?).map (f s) where
  stuck {s} hs hl := by
    have hout : p.length ≤ cursor s := by
      have := hc s hs
      omega
    rw [List.getElem?_eq_none hout, Option.map_none]
  next {s} hs hl := by
    have hin : cursor s < p.length := by
      have := hc s hs
      omega
    refine ⟨f s p[cursor s], ?_, hf s _ hs hl⟩
    rw [List.getElem?_eq_getElem hin, Option.map_some]

theorem forLoop (h : Consumes I left 1 body) (n : ℕ) :
    Consumes I left n (Loop.forLoop body n) := by
  induction n with
  | zero => exact ⟨fun _ hl => absurd hl (Nat.not_lt_zero _), fun {s} hs _ => ⟨s, rfl, hs, rfl⟩⟩
  | succ n ih =>
    constructor
    · intro s hs hl
      rw [Loop.forLoop]
      by_cases h0 : left s < 1
      · rw [h.stuck hs h0, Option.bind_none]
      · obtain ⟨s', hb, hs', hl'⟩ := h.next hs (Nat.le_of_not_lt h0)
        rw [hb, Option.bind_some, ih.stuck hs' (by omega)]
    · intro s hs hl
      obtain ⟨s₁, hb, hs₁, hl₁⟩ := h.next hs (by omega)
      obtain ⟨s', hn, hs', hl'⟩ := ih.next hs₁ (by omega)
      exact ⟨s', by rw [Loop.forLoop, hb, Option.bind_some, hn], hs', by omega⟩

variable (h : Consumes I left n body) (hn : 0 < n) (ht : ∀ s, test s = true ↔ left s ≠ 0)
include h hn ht

/-- With a multiple of `n` the loop uses up what there is. -/
theorem whileLoop_done : ∀ {fuel : ℕ} {s : σ}, I s → n ∣ left s → left s < fuel →
    ∃ s', whileLoop test body fuel s = .done s' ∧ I s' ∧ left s' = 0 := by
  intro fuel
  induction fuel with
  | zero => exact fun _ _ hf => absurd hf (Nat.not_lt_zero _)
  | succ fuel ih =>
    intro s hs hd hf
    by_cases h0 : left s = 0
    · have hx : test s = false := by
        rw [Bool.eq_false_iff, Ne, ht]
        exact not_not.mpr h0
      exact ⟨s, whileLoop_exit hx fuel, hs, h0⟩
    · obtain ⟨s₁, hb, hs₁, hl⟩ := h.next hs (Nat.le_of_dvd (Nat.pos_of_ne_zero h0) hd)
      have hd₁ : n ∣ left s₁ := (Nat.dvd_add_left (Nat.dvd_refl n)).mp (hl ▸ hd)
      obtain ⟨s', hr, hs', hl'⟩ := ih hs₁ hd₁ (by omega)
      exact ⟨s', (whileLoop_next ((ht s).mpr h0) hb fuel).trans hr, hs', hl'⟩

/-- Otherwise the last run of the body faults. -/
theorem whileLoop_stuck : ∀ {fuel : ℕ} {s : σ}, I s → ¬ n ∣ left s → left s < fuel →
    whileLoop test body fuel s = .fault := by
  intro fuel
  induction fuel with
  | zero => exact fun _ _ hf => absurd hf (Nat.not_lt_zero _)
  | succ fuel ih =>
    intro s hs hd hf
    have h0 : left s ≠ 0 := fun h0 => hd (h0 ▸ Nat.dvd_zero n)
    by_cases hlt : left s < n
    · exact whileLoop_fault ((ht s).mpr h0) (h.stuck hs hlt) fuel
    · obtain ⟨s₁, hb, hs₁, hl⟩ := h.next hs (Nat.le_of_not_lt hlt)
      have hd₁ : ¬ n ∣ left s₁ := fun hd₁ => hd (hl ▸ Nat.dvd_add hd₁ (Nat.dvd_refl n))
      rw [whileLoop_next ((ht s).mpr h0) hb]
      exact ih hs₁ hd₁ (by omega)

end Consumes

/-- More fuel does not change how a loop ended. -/
theorem whileLoop_mono {fuel : ℕ} : ∀ {s : σ}, whileLoop test body fuel s = .fault →
    ∀ k, whileLoop test body (fuel + k) s = .fault := by
  induction fuel with
  | zero => exact fun hf => nomatch hf
  | succ fuel ih =>
    intro s hf k
    rw [Nat.add_right_comm]
    cases ht : test s with
    | false =>
      rw [whileLoop_exit ht] at hf
      cases hf
    | true =>
      cases hb : body s with
      | none => exact whileLoop_fault ht hb _
      | some s' =>
        rw [whileLoop_next ht hb] at hf ⊢
        exact ih hf k

/-- A loop that consumes never faults, whatever its fuel, exactly when the resource is
a multiple of what its body takes. -/
theorem Consumes.never_faults_iff {I : σ → Prop} {left : σ → ℕ} (h : Consumes I left n body)
    (hn : 0 < n) (ht : ∀ s, test s = true ↔ left s ≠ 0) (hs : I s) :
    (∀ fuel, whileLoop test body fuel s ≠ .fault) ↔ n ∣ left s := by
  constructor
  · intro hne
    by_contra hd
    exact hne _ (h.whileLoop_stuck hn ht hs hd (Nat.lt_succ_self _))
  · intro hd fuel hf
    have hlt : left s < fuel + (left s + 1) := by omega
    obtain ⟨s', hr, -, -⟩ := h.whileLoop_done hn ht hs hd hlt
    rw [whileLoop_mono hf] at hr
    cases hr

/-- Two loops in step with each other end alike. -/
theorem whileLoop_map {τ : Type} {test' : τ → Bool} {body' : τ → Option τ} {f : σ → τ}
    (ht : ∀ s, test' (f s) = test s) (hb : ∀ s, body' (f s) = (body s).map f) (fuel : ℕ) (s : σ) :
    whileLoop test' body' fuel (f s) = (whileLoop test body fuel s).map f := by
  induction fuel generalizing s with
  | zero => rfl
  | succ fuel ih =>
    cases h : test s with
    | false => rw [whileLoop_exit h, whileLoop_exit ((ht s).trans h), Outcome.map]
    | true =>
      have h' := (ht s).trans h
      have hb' := hb s
      cases hs : body s with
      | none =>
        rw [hs, Option.map_none] at hb'
        rw [whileLoop_fault h hs, whileLoop_fault h' hb', Outcome.map]
      | some s₁ =>
        rw [hs, Option.map_some] at hb'
        rw [whileLoop_next h hs, whileLoop_next h' hb', ih]

/-! ### Loops that write a text -/

section Append

variable {β : Type} (state : ℕ → List β → σ) {text : ℕ → List β}

/-- A body that appends `text k` in round `k`, whatever was written before. -/
theorem forLoop_append (h : ∀ k out, body (state k out) = some (state (k + 1) (out ++ text k)))
    (n : ℕ) : ∀ k out, forLoop body n (state k out) =
      some (state (k + n) (out ++ (List.range' k n).flatMap text)) := by
  induction n with
  | zero => simp [forLoop]
  | succ n ih =>
    intro k out
    rw [forLoop, h, Option.bind_some, ih, List.range'_succ, List.flatMap_cons, List.append_assoc,
      Nat.add_right_comm, Nat.add_assoc]

/-- The same of a while loop that stops in front of round `m`. -/
theorem whileLoop_append {m : ℕ} (ht : ∀ k out, k ≤ m → test (state k out) = decide (k < m))
    (h : ∀ k out, k < m → body (state k out) = some (state (k + 1) (out ++ text k))) (n : ℕ) :
    ∀ k out fuel, k + n = m → n < fuel → whileLoop test body fuel (state k out) =
      .done (state m (out ++ (List.range' k n).flatMap text)) := by
  induction n with
  | zero =>
    rintro k out (_ | fuel) rfl hf
    · exact absurd hf (Nat.not_lt_zero 0)
    · have hx : test (state k out) = false := by simpa using ht k out (Nat.le_add_right k 0)
      rw [whileLoop_exit hx]
      simp
  | succ n ih =>
    rintro k out (_ | fuel) hk hf
    · exact absurd hf (Nat.not_lt_zero _)
    · have hlt : k < m := by omega
      have hx : test (state k out) = true := by
        simpa [hlt] using ht k out (Nat.le_of_lt hlt)
      rw [whileLoop_next hx (h k out hlt), ih (k + 1) _ fuel (by omega) (by omega),
        List.range'_succ, List.flatMap_cons, List.append_assoc]

end Append

end Ohmylib.Loop
