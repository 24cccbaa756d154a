import Mathlib.Data.List.Basic
import Mathlib.Data.Nat.ModEq

/-! Windows of a ring of `cap` slots. A window of `n` slots starts at slot `r` and
wraps around. Appending writes the slot behind the window, removing drops its
first slot; neither touches another slot of the window. -/

namespace Ohmylib.Cyclic

variable {α : Type*} {cap r n : ℕ}

/-- The slot after `i`, with the wrap decided by equality with the last slot. -/
def next (cap i : ℕ) : ℕ := if i + 1 = cap then 0 else i + 1

theorem next_lt (h : r < cap) : next cap r < cap := by
  unfold next
  split_ifs <;> omega

theorem next_eq_mod (h : r < cap) : next cap r = (r + 1) % cap := by
  unfold next
  split_ifs with hr
  · rw [hr, Nat.mod_self]
  · rw [Nat.mod_eq_of_lt (by omega)]

theorem next_mod (h : 0 < cap) : next cap ((r + n) % cap) = (r + (n + 1)) % cap := by
  rw [next_eq_mod (Nat.mod_lt _ h), Nat.mod_add_mod, Nat.add_assoc]

theorem next_add_mod (h : r < cap) : (next cap r + n) % cap = (r + (n + 1)) % cap := by
  rw [next_eq_mod h, Nat.mod_add_mod]
  congr 1
  omega

/-- Different positions of one window are different slots. -/
theorem slot_injective {j k : ℕ} (hj : j < cap) (hk : k < cap)
    (h : (r + j) % cap = (r + k) % cap) : j = k := by
  have hm : j ≡ k [MOD cap] := Nat.ModEq.add_left_cancel' r h
  rwa [Nat.ModEq, Nat.mod_eq_of_lt hj, Nat.mod_eq_of_lt hk] at hm

/-- The contents of the window of `n` slots from slot `r` on. -/
def window (cap r : ℕ) (slot : ℕ → α) (n : ℕ) : List α :=
  (List.range n).map fun k => slot ((r + k) % cap)

theorem window_congr {slot slot' : ℕ → α}
    (h : ∀ k < n, slot' ((r + k) % cap) = slot ((r + k) % cap)) :
    window cap r slot' n = window cap r slot n :=
  List.map_congr_left fun k hk => h k (List.mem_range.mp hk)

/-- Writing the slot behind the window leaves the window as it is. -/
theorem window_frame {slot slot' : ℕ → α} (hn : n < cap)
    (h : ∀ i < cap, i ≠ (r + n) % cap → slot' i = slot i) :
    window cap r slot' n = window cap r slot n := by
  refine window_congr fun k hk => h _ (Nat.mod_lt _ (by omega)) fun hkn => ?_
  have := slot_injective (by omega) hn hkn
  omega

theorem window_succ (slot : ℕ → α) :
    window cap r slot (n + 1) = window cap r slot n ++ [slot ((r + n) % cap)] := by
  simp [window, List.range_succ]

theorem window_cons (slot : ℕ → α) (h : r < cap) :
    window cap r slot (n + 1) = slot r :: window cap (next cap r) slot n := by
  simp only [window, List.range_succ_eq_map, List.map_cons, List.map_map, Nat.add_zero,
    Nat.mod_eq_of_lt h, List.cons.injEq, true_and]
  refine List.map_congr_left fun k _ => ?_
  simp only [Function.comp_apply, next_add_mod h]

end Ohmylib.Cyclic
