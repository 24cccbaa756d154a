import Mathlib.Data.List.GetD
import Mathlib.Data.List.Basic

/-! Tables of different lengths that agree slot by slot, where a slot behind the end
of a table counts as unused. Searching, writing and collecting do not tell such
tables apart. -/

namespace Ohmylib.Slots

variable {σ β : Type*} {e : σ} {l l₁ l₂ : List σ} {p : σ → Bool} {i j : ℕ}

/-- Agreement in every slot, the slots behind the end reading as `e`. -/
def Agree (e : σ) (l₁ l₂ : List σ) : Prop := ∀ i, l₁.getD i e = l₂.getD i e

theorem Agree.symm (h : Agree e l₁ l₂) : Agree e l₂ l₁ := fun i => (h i).symm

theorem Agree.trans {l₃ : List σ} (h : Agree e l₁ l₂) (h' : Agree e l₂ l₃) : Agree e l₁ l₃ :=
  fun i => (h i).trans (h' i)

theorem agree_append_replicate (l : List σ) (n : ℕ) : Agree e (l ++ List.replicate n e) l := by
  intro i
  by_cases hi : i < l.length
  · rw [List.getD_append _ _ _ _ hi]
  · rw [List.getD_append_right _ _ _ _ (Nat.le_of_not_lt hi),
      List.getD_eq_default _ _ (Nat.le_of_not_lt hi)]
    rw [List.getD_eq_getElem?_getD, List.getElem?_replicate]
    split_ifs <;> rfl

theorem findIdx?_getD (h : l.findIdx? p = some i) :
    i < l.length ∧ p (l.getD i e) ∧ ∀ j < i, ¬p (l.getD j e) := by
  obtain ⟨hi, hp, hlt⟩ := List.findIdx?_eq_some_iff_getElem.mp h
  refine ⟨hi, by rwa [List.getD_eq_getElem _ _ hi], fun j hj => ?_⟩
  rw [List.getD_eq_getElem _ _ (Nat.lt_trans hj hi)]
  exact hlt j hj

/-- Both tables have a slot that passes a test: the first one is the same. -/
theorem Agree.first (h : Agree e l₁ l₂) (h₁ : l₁.findIdx? p = some i)
    (h₂ : l₂.findIdx? p = some j) : i = j := by
  obtain ⟨-, hi, hi'⟩ := findIdx?_getD (e := e) h₁
  obtain ⟨-, hj, hj'⟩ := findIdx?_getD (e := e) h₂
  rcases Nat.lt_trichotomy i j with hij | hij | hij
  · rw [h i] at hi
    exact absurd hi (hj' i hij)
  · exact hij
  · rw [← h j] at hj
    exact absurd hj (hi' j hij)

theorem Agree.findIdx?_some (h : Agree e l₁ l₂) (hp : p e = false) (h₁ : l₁.findIdx? p = some i) :
    l₂.findIdx? p = some i := by
  obtain ⟨-, hi, hi'⟩ := findIdx?_getD (e := e) h₁
  rw [h i] at hi
  have hlt : i < l₂.length := by
    by_contra hge
    rw [List.getD_eq_default _ _ (Nat.le_of_not_lt hge), hp] at hi
    cases hi
  refine List.findIdx?_eq_some_iff_getElem.mpr ⟨hlt, ?_, fun j hj => ?_⟩
  · rwa [List.getD_eq_getElem _ _ hlt] at hi
  · have := hi' j hj
    rwa [h j, List.getD_eq_getElem _ _ (Nat.lt_trans hj hlt)] at this

/-- A test that unused slots fail finds the same slot in both tables. -/
theorem Agree.findIdx? (h : Agree e l₁ l₂) (hp : p e = false) : l₁.findIdx? p = l₂.findIdx? p := by
  apply Option.ext
  intro i
  exact ⟨h.findIdx?_some hp, h.symm.findIdx?_some hp⟩

theorem Agree.set (h : Agree e l₁ l₂) (h₁ : i < l₁.length) (h₂ : i < l₂.length) (s : σ) :
    Agree e (l₁.set i s) (l₂.set i s) := by
  intro j
  simp only [List.getD_eq_getElem?_getD, List.getElem?_set, h₁, h₂]
  split_ifs
  · rfl
  · simpa only [List.getD_eq_getElem?_getD] using h j

/-- Padded to one length, the tables are equal. -/
theorem Agree.padded (h : Agree e l₁ l₂) :
    l₁ ++ List.replicate l₂.length e = l₂ ++ List.replicate l₁.length e := by
  apply List.ext_getElem
  · simp [Nat.add_comm]
  · intro i hi₁ hi₂
    rw [← List.getD_eq_getElem _ e hi₁, ← List.getD_eq_getElem _ e hi₂,
      agree_append_replicate l₁ _ i, agree_append_replicate l₂ _ i, h i]

theorem Agree.filterMap (h : Agree e l₁ l₂) {f : σ → Option β} (hf : f e = none) :
    l₁.filterMap f = l₂.filterMap f := by
  have hp := congrArg (List.filterMap f) h.padded
  simpa [List.filterMap_append, List.filterMap_replicate_of_none hf] using hp

end Ohmylib.Slots
