import Mathlib.Dynamics.PeriodicPts.Lemmas

/-! Orbits of a map that is injective and stays inside a finite set. Such an orbit comes
back to its start, so it is periodic from its first point on, and its period is at most
the size of the set. -/

namespace Ohmylib.Orbit

open Function

variable {α : Type} {f : α → α} {s : Set α} {x : α}

/-- `n` steps and a period lead where `n` steps lead. -/
structure Period (f : α → α) (x : α) (p : ℕ) : Prop where
  pos : 0 < p
  iterate_add : ∀ n, f^[n + p] x = f^[n] x

theorem Period.of_isPeriodicPt {p : ℕ} (hp : 0 < p) (h : IsPeriodicPt f p x) : Period f x p where
  pos := hp
  iterate_add n := by
    rw [iterate_add_apply, h]

theorem iterate_mem (hs : Set.MapsTo f s s) (hx : x ∈ s) (n : ℕ) : f^[n] x ∈ s :=
  hs.iterate n hx

/-- The orbit of a point of `s` is periodic, with a period no larger than `s`. -/
theorem exists_period [Fintype s] (hs : Set.MapsTo f s s) (hf : Set.InjOn f s) (hx : x ∈ s) :
    ∃ p, p ≤ Fintype.card s ∧ Period f x p := by
  -- the map on the points of `s` alone is an injective map of a finite type
  let g : s → s := hs.restrict f s s
  have hg : Injective g := hs.restrict_inj.mpr hf
  have hp : 0 < minimalPeriod g ⟨x, hx⟩ :=
    minimalPeriod_pos_of_mem_periodicPts (hg.mem_periodicPts _)
  have hret : g^[minimalPeriod g ⟨x, hx⟩] ⟨x, hx⟩ = ⟨x, hx⟩ := iterate_minimalPeriod
  have hval : ∀ n, ((g^[n] ⟨x, hx⟩ : s) : α) = f^[n] x := fun n =>
    congrArg Subtype.val (congrFun (Set.MapsTo.iterate_restrict hs n) _)
  refine ⟨minimalPeriod g ⟨x, hx⟩, minimalPeriod_le_card, .of_isPeriodicPt hp ?_⟩
  rw [IsPeriodicPt, IsFixedPt, ← hval, hret]

/-- A period none of whose quotients by a prime is one is the least. -/
theorem minimalPeriod_eq {n : ℕ} (h : IsPeriodicPt f n x)
    (hp : ∀ p, p.Prime → p ∣ n → ¬ IsPeriodicPt f (n / p) x) : minimalPeriod f x = n := by
  obtain ⟨a, ha⟩ := h.minimalPeriod_dvd
  by_cases h1 : a = 1
  · rw [ha, h1, Nat.mul_one]
  · have hdvd : a.minFac ∣ n := ha ▸ (Nat.minFac_dvd a).mul_left _
    refine absurd ?_ (hp a.minFac (Nat.minFac_prime h1) hdvd)
    rw [isPeriodicPt_iff_minimalPeriod_dvd, ha, Nat.mul_div_assoc _ (Nat.minFac_dvd a)]
    exact Nat.dvd_mul_right ..

/-- An orbit as long as the set comes by every point of it. -/
theorem exists_iterate_eq [Fintype s] (hs : Set.MapsTo f s s) (hx : x ∈ s)
    (hc : minimalPeriod f x = Fintype.card s) {y : α} (hy : y ∈ s) :
    ∃ n, n < Fintype.card s ∧ f^[n] x = y := by
  let g : Fin (Fintype.card s) → s := fun n => ⟨f^[n] x, iterate_mem hs hx n⟩
  have hg : Injective g := by
    intro m n hmn
    have hm : (m : ℕ) < minimalPeriod f x := by omega
    have hn : (n : ℕ) < minimalPeriod f x := by omega
    exact Fin.ext (iterate_injOn_Iio_minimalPeriod hm hn (congrArg Subtype.val hmn))
  have hsurj := ((Fintype.bijective_iff_injective_and_card g).mpr ⟨hg, Fintype.card_fin _⟩).2
  obtain ⟨n, hn⟩ := hsurj ⟨y, hy⟩
  exact ⟨n, n.isLt, congrArg Subtype.val hn⟩

/-- Iterates are equal exactly when their numbers are, up to the period. -/
theorem iterate_eq_iff (hx : x ∈ periodicPts f) (m n : ℕ) :
    f^[m] x = f^[n] x ↔ m % minimalPeriod f x = n % minimalPeriod f x := by
  have hpos := minimalPeriod_pos_of_mem_periodicPts hx
  rw [← iterate_mod_minimalPeriod_eq (n := m), ← iterate_mod_minimalPeriod_eq (n := n)]
  exact iterate_eq_iterate_iff_of_lt_minimalPeriod (Nat.mod_lt m hpos) (Nat.mod_lt n hpos)

end Ohmylib.Orbit
