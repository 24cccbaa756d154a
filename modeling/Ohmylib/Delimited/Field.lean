import Mathlib.Algebra.Group.Nat.Defs
import Mathlib.Data.List.Basic
import Mathlib.Data.Nat.Init

/-! Texts made of records, and records made of fields. A numeral of fixed width is known
by its digits. A field in front of a delimiter is known unless the delimiter comes early
in the longer of two candidates. Where each record is known from every text that starts
with it, a list of records is known from its text. -/

namespace Ohmylib.Delimited

variable {β : Type} {d x y t t' : List β}

/-! ### Fields of fixed width -/

/-- Two numbers of `n` digits with the same digits are the same. -/
theorem eq_of_digits {b : ℕ} (n : ℕ) : ∀ {x y : ℕ}, x < b ^ n → y < b ^ n →
    (∀ i < n, x / b ^ i % b = y / b ^ i % b) → x = y := by
  induction n with
  | zero =>
    intro x y hx hy _
    rw [Nat.pow_zero, Nat.lt_one_iff] at hx hy
    rw [hx, hy]
  | succ n ih =>
    intro x y hx hy h
    have hlast : x % b = y % b := by simpa using h 0 (Nat.succ_pos n)
    have hrest : x / b = y / b := by
      apply ih
      · exact Nat.div_lt_of_lt_mul (by rwa [← Nat.pow_succ'])
      · exact Nat.div_lt_of_lt_mul (by rwa [← Nat.pow_succ'])
      · intro i hi
        have hdigit := h (i + 1) (Nat.succ_lt_succ hi)
        rwa [Nat.pow_succ', ← Nat.div_div_eq_div_mul, ← Nat.div_div_eq_div_mul] at hdigit
    rw [← Nat.div_add_mod x b, ← Nat.div_add_mod y b, hrest, hlast]

/-! ### Fields with a delimiter -/

/-- With its delimiter, `y` starts like the shorter `x` with its own. -/
def Early (d x y : List β) : Prop := x.length < y.length ∧ x ++ d <+: y ++ d

instance [DecidableEq β] (d x y : List β) : Decidable (Early d x y) := by
  unfold Early
  infer_instance

/-- A text starts with one field and its delimiter, or the delimiter comes early. -/
theorem field_unique (h : x ++ d ++ t = y ++ d ++ t') :
    (x = y ∧ t = t') ∨ Early d x y ∨ Early d y x := by
  rcases Nat.lt_trichotomy x.length y.length with hlt | heq | hlt
  · have hp : x ++ d <+: y ++ d := List.prefix_of_prefix_length_le
      (h ▸ List.prefix_append _ t) (List.prefix_append _ t') (by simp; omega)
    exact .inr (.inl ⟨hlt, hp⟩)
  · left
    rw [List.append_assoc, List.append_assoc] at h
    obtain ⟨hxy, hrest⟩ := List.append_inj h heq
    exact ⟨hxy, List.append_cancel_left hrest⟩
  · have hp : y ++ d <+: x ++ d := List.prefix_of_prefix_length_le
      (h ▸ List.prefix_append _ t') (List.prefix_append _ t) (by simp; omega)
    exact .inr (.inr ⟨hlt, hp⟩)

/-- No end of the delimiter is also a start of it. -/
def Unbordered (d : List β) : Prop := ∀ r, r ≠ [] → d <+: r ++ d → d <+: r

/-- A delimiter that comes early and does not overlap itself is a part of the field. -/
theorem early_split (hd : Unbordered d) (h : x ++ d ++ t = y ++ d ++ t') (he : Early d x y) :
    ∃ r, y = x ++ d ++ r ∧ t = r ++ d ++ t' := by
  obtain ⟨hlt, hp⟩ := he
  have hx : x <+: y := List.prefix_of_prefix_length_le ((List.prefix_append x d).trans hp)
    (List.prefix_append y d) (Nat.le_of_lt hlt)
  obtain ⟨r, rfl⟩ := hx
  have hr : r ≠ [] := by
    rintro rfl
    simp at hlt
  rw [List.append_assoc, List.prefix_append_right_inj] at hp
  obtain ⟨r, rfl⟩ := hd r hr hp
  refine ⟨r, (List.append_assoc x d r).symm, ?_⟩
  simpa only [List.append_assoc, List.append_cancel_left_eq] using h

/-- A part without `c` ends in front of the first `c`. -/
theorem append_of_notMem {c : β} {p u r s : List β} (hc : c ∉ p) (h : p ++ u = r ++ c :: s) :
    ∃ b, r = p ++ b := by
  rcases List.append_eq_append_iff.mp h with ⟨b, hr, -⟩ | ⟨b, rfl, hu⟩
  · exact ⟨b, hr⟩
  · cases b with
    | nil => exact ⟨[], by simp⟩
    | cons c' b =>
      obtain ⟨rfl, -⟩ := List.cons.inj hu
      exact absurd (List.mem_append_right r List.mem_cons_self) hc

/-! ### Records -/

/-- Where the text behind any record is known with what the record shows, a list of
records is known by its text. -/
theorem map_eq_of_flatMap_eq {α γ : Type} {enc : α → List β} {val : α → γ}
    (hne : ∀ a, enc a ≠ []) {l l' : List α}
    (hu : ∀ a ∈ l, ∀ b ∈ l', ∀ m m' : List α,
      enc a ++ m.flatMap enc = enc b ++ m'.flatMap enc →
        val a = val b ∧ m.flatMap enc = m'.flatMap enc)
    (h : l.flatMap enc = l'.flatMap enc) : l.map val = l'.map val := by
  induction l generalizing l' with
  | nil =>
    cases l' with
    | nil => rfl
    | cons b l' =>
      rw [List.flatMap_nil, List.flatMap_cons, eq_comm, List.append_eq_nil_iff] at h
      exact absurd h.1 (hne b)
  | cons a l ih =>
    cases l' with
    | nil =>
      rw [List.flatMap_nil, List.flatMap_cons, List.append_eq_nil_iff] at h
      exact absurd h.1 (hne a)
    | cons b l' =>
      rw [List.flatMap_cons, List.flatMap_cons] at h
      obtain ⟨hval, htail⟩ := hu a List.mem_cons_self b List.mem_cons_self l l' h
      have hrest : l.map val = l'.map val := ih (fun a ha b hb =>
        hu a (List.mem_cons_of_mem _ ha) b (List.mem_cons_of_mem _ hb)) htail
      rw [List.map_cons, List.map_cons, hval, hrest]

end Ohmylib.Delimited
