import Mathlib.Data.List.Basic

/-! Lists as fields between separators. -/

namespace Ohmylib.Sentinel

variable {β : Type*} [DecidableEq β] {c : β}

omit [DecidableEq β] in
/-- What is in no field and no separator. -/
theorem notMem_field {d : β} {f t : List β} (h : d ∉ f ++ c :: t) : d ∉ f ∧ d ∉ t :=
  ⟨fun hf => h (List.mem_append_left _ hf),
    fun ht => h (List.mem_append_right f (List.mem_cons_of_mem c ht))⟩

/-- The separators of a field and the rest behind its separator. -/
theorem count_field {f : List β} (hf : c ∉ f) (t : List β) :
    (f ++ c :: t).count c = t.count c + 1 := by
  rw [List.count_append, List.count_eq_zero.mpr hf, List.count_cons_self, Nat.zero_add]

omit [DecidableEq β] in
/-- Induction over the fields of a list: it has no separator, or a first field and a
rest behind its first separator. -/
theorem fields_induction {P : List β → Prop} (last : ∀ f, c ∉ f → P f)
    (sep : ∀ f t, c ∉ f → P t → P (f ++ c :: t)) (l : List β) : P l := by
  induction hn : l.length using Nat.strongRecOn generalizing l with
  | ind n ih =>
    by_cases hc : c ∈ l
    · obtain ⟨f, t, rfl, hf⟩ := List.eq_append_cons_of_mem hc
      apply sep f t hf
      apply ih t.length _ t rfl
      rw [← hn, List.length_append, List.length_cons]
      omega
    · exact last l hc

/-- There is one field more than there are separators. -/
theorem length_splitOn (c : β) (l : List β) : (l.splitOn c).length = l.count c + 1 := by
  induction l using fields_induction (c := c) with
  | last f hf => simp [List.splitOn_eq_singleton hf, List.count_eq_zero.mpr hf]
  | sep f t hf ih =>
    rw [List.splitOn_append_cons_self_of_not_mem hf, List.length_cons, ih, count_field hf]

theorem notMem_of_mem_splitOn {l f : List β} (h : f ∈ l.splitOn c) : c ∉ f := by
  induction l using fields_induction (c := c) with
  | last f' hf =>
    rw [List.splitOn_eq_singleton hf, List.mem_singleton] at h
    rwa [h]
  | sep f' t hf ih =>
    rw [List.splitOn_append_cons_self_of_not_mem hf, List.mem_cons] at h
    rcases h with rfl | h
    · exact hf
    · exact ih h

/-- Lines without a separator, each with one behind it, are read back. -/
theorem splitOn_lines (l : List β) (ls : List (List β)) (hl : c ∉ l) (hls : ∀ l ∈ ls, c ∉ l) :
    (l ++ ls.flatMap (c :: ·) ++ [c]).splitOn c = l :: ls ++ [[]] := by
  induction ls generalizing l with
  | nil =>
    rw [List.flatMap_nil, List.append_nil, List.splitOn_append_cons_self_of_not_mem hl]
    rfl
  | cons l' ls ih =>
    have hrest := ih l' (hls l' List.mem_cons_self) fun l hl => hls l (List.mem_cons_of_mem _ hl)
    rw [List.flatMap_cons, List.append_assoc, List.append_assoc, List.cons_append,
      List.splitOn_append_cons_self_of_not_mem hl, ← List.append_assoc, hrest]
    rfl

/-- The fields with `d` behind each are the list with `d` for its separators and behind it. -/
theorem flatMap_splitOn (c d : β) (l : List β) :
    (l.splitOn c).flatMap (· ++ [d]) = l.map (fun b => if b = c then d else b) ++ [d] := by
  have hkeep : ∀ f : List β, c ∉ f → f.map (fun b => if b = c then d else b) = f := by
    intro f hf
    rw [List.map_congr_left fun b hb => if_neg fun h : b = c => hf (h ▸ hb), List.map_id']
  induction l using fields_induction (c := c) with
  | last f hf =>
    rw [List.splitOn_eq_singleton hf, hkeep f hf, List.flatMap_singleton]
  | sep f t hf ih =>
    rw [List.splitOn_append_cons_self_of_not_mem hf, List.flatMap_cons, ih, List.map_append,
      List.map_cons, if_pos rfl, hkeep f hf]
    simp

end Ohmylib.Sentinel
