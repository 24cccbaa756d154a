import Ohmylib.Sentinel.Fields
import Ohmylib.Substr.Model

/-! The loop of `iter_substr` gives the fields of its string. A call of `substr` cuts
the string at its first separator; the last field has none, so its call stores `NULL`
and the next one ends the loop. A separator at the end of the string leaves the cursor
at the terminator, which is one more field, an empty one. -/

namespace Ohmylib.Substr

open Sentinel

variable {mem : List UInt8} {ok : Bool} {p : ℕ} {needle : UInt8} {s f t rest : List UInt8}

theorem strndup_prefix (ok : Bool) (hf : 0 ∉ f) (hm : mem.drop p = f ++ t) :
    strndup ok (mem.drop p) f.length = some (if ok then some ⟨f, hf⟩ else none) := by
  rw [hm, strndup, if_neg (by simp), List.take_left, CString.ofBytes_eq hf]

/-- The last field runs to the terminator. -/
theorem substr_last (hm : mem.drop p = f ++ 0 :: rest) (hf : 0 ∉ f) (hc : needle ∉ f)
    (hn : needle ≠ 0) : substr mem ok (some p) true needle =
      some { str := if ok then some ⟨f, hf⟩ else none, nxt := some none } := by
  have hs : strchr (mem.drop p) needle = some none := by
    rw [hm]
    exact search_of_notMem hf hc hn rest
  have hl : strlen (mem.drop p) = some f.length := by
    rw [hm]
    exact scan_append hf rest
  simp [substr, hs, hl, strndup_prefix ok hf hm]

/-- A field in front of a separator leaves the cursor behind the separator. -/
theorem substr_field (hm : mem.drop p = f ++ needle :: t) (hf : 0 ∉ f) (hc : needle ∉ f) :
    substr mem ok (some p) true needle = some
      { str := if ok then some ⟨f, hf⟩ else none, nxt := some (some (p + f.length + 1)) } := by
  have hs : strchr (mem.drop p) needle = some (some f.length) := by
    rw [hm]
    exact search_of_mem hf hc t
  simp [substr, hs, strndup_prefix ok hf hm]

/-- The object from behind the separator on. -/
theorem drop_field (hm : mem.drop p = f ++ needle :: t) : mem.drop (p + f.length + 1) = t := by
  rw [Nat.add_assoc, ← List.drop_drop, hm, ← List.drop_drop, List.drop_left]
  rfl

section Loop

variable {ok : ℕ → Bool} {i : ℕ} {n : Option ℕ}

/-- A cursor `NULL` ends the loop. -/
theorem iterSubstr_null (ok : ℕ → Bool) (fuel i : ℕ) :
    iterSubstr mem ok needle (fuel + 1) i none none = .ended [] none := rfl

/-- The round for the last field, which a second one follows to find the cursor `NULL`. -/
theorem iterSubstr_last (hm : mem.drop p = f ++ 0 :: rest) (hf : 0 ∉ f) (hc : needle ∉ f)
    (hn : needle ≠ 0) (hi : ok i = true) (fuel : ℕ) :
    iterSubstr mem ok needle (fuel + 2) i (some p) n = .ended [⟨f, hf⟩] none := by
  rw [iterSubstr, substr_last hm hf hc hn, hi]
  exact congrArg (Outcome.cons ⟨f, hf⟩) (iterSubstr_null ok fuel (i + 1))

/-- The round for a field in front of a separator. -/
theorem iterSubstr_field (hm : mem.drop p = f ++ needle :: t) (hf : 0 ∉ f) (hc : needle ∉ f)
    (hi : ok i = true) (fuel : ℕ) : iterSubstr mem ok needle (fuel + 1) i (some p) n =
      (iterSubstr mem ok needle fuel (i + 1) (some (p + f.length + 1))
        (some (p + f.length + 1))).cons ⟨f, hf⟩ := by
  rw [iterSubstr, substr_field hm hf hc, hi]
  rfl

/-- From any cursor into the string, the loop gives the fields of the rest, while the
allocations of its calls succeed. -/
theorem iterSubstr_fields (hn : needle ≠ 0) (ok : ℕ → Bool) (s : List UInt8) :
    ∀ {p i : ℕ}, 0 ∉ s → mem.drop p = s ++ 0 :: rest →
      (∀ j ≤ s.count needle, ok (i + j) = true) → ∃ fields : List CString,
        fields.map CString.bytes = s.splitOn needle ∧ ∀ fuel, s.count needle + 2 ≤ fuel →
          ∀ n, iterSubstr mem ok needle fuel i (some p) n = .ended fields none := by
  induction s using fields_induction (c := needle) with
  | last f hc =>
    intro p i hf hm hok
    refine ⟨[⟨f, hf⟩], (List.splitOn_eq_singleton hc).symm, fun fuel hfuel n => ?_⟩
    obtain ⟨fuel, rfl⟩ := Nat.exists_eq_add_of_le' (Nat.le_of_add_left_le hfuel)
    exact iterSubstr_last hm hf hc hn (hok 0 (Nat.zero_le _)) fuel
  | sep f t hc ih =>
    intro p i hs hm hok
    obtain ⟨hf, ht⟩ := notMem_field hs
    rw [List.append_assoc] at hm
    rw [count_field hc] at hok ⊢
    obtain ⟨fields, hfields, hrun⟩ := ih (i := i + 1) ht (drop_field hm) fun j hj => by
      rw [Nat.add_right_comm]
      exact hok (j + 1) (Nat.succ_le_succ hj)
    refine ⟨⟨f, hf⟩ :: fields, ?_, fun fuel hfuel n => ?_⟩
    · rw [List.map_cons, hfields, List.splitOn_append_cons_self_of_not_mem hc]
    · obtain ⟨fuel, rfl⟩ := Nat.exists_eq_add_of_le' (by omega : 1 ≤ fuel)
      have hi : ok i = true := hok 0 (Nat.zero_le _)
      rw [iterSubstr_field hm hf hc hi, hrun fuel (by omega)]
      rfl

end Loop

/-- Joining inverts splitting. For a separator other than the terminator the loop ends
and gives the fields of the string: at least one, one more than there are separators,
none with a separator in it, and joined by the separator they are the string. -/
theorem iter_substr_join (mem rest : List UInt8) (p : ℕ) (s : CString)
    (hm : mem.drop p = s.bytes ++ 0 :: rest) (needle : UInt8) (hn : needle ≠ 0) (n : Option ℕ) :
    ∃ fields : List CString,
      (∀ fuel, s.bytes.count needle + 2 ≤ fuel →
        iterSubstr mem (fun _ => true) needle fuel 0 (some p) n = .ended fields none) ∧
      fields ≠ [] ∧ (∀ f ∈ fields, needle ∉ f.bytes) ∧
      fields.length = s.bytes.count needle + 1 ∧
      [needle].intercalate (fields.map CString.bytes) = s.bytes := by
  obtain ⟨fields, hfields, hrun⟩ :=
    iterSubstr_fields hn (fun _ => true) s.bytes (i := 0) s.noNul hm fun _ _ => rfl
  refine ⟨fields, fun fuel hfuel => hrun fuel hfuel n, ?_, fun f hf => ?_, ?_, ?_⟩
  · rintro rfl
    exact List.splitOn_ne_nil needle s.bytes hfields.symm
  · apply notMem_of_mem_splitOn (l := s.bytes)
    rw [← hfields]
    exact List.mem_map_of_mem hf
  · rw [← length_splitOn, ← hfields, List.length_map]
  · rw [hfields, List.intercalate_splitOn]

/-- The string `,a,` has an empty field at either end. -/
theorem iter_substr_join_empty_fields : ∃ fields : List CString,
    iterSubstr [0x2c, 0x61, 0x2c, 0] (fun _ => true) 0x2c 4 0 (some 0) none = .ended fields none ∧
      fields.length = 3 ∧ [0x2c].intercalate (fields.map CString.bytes) = [0x2c, 0x61, 0x2c] := by
  obtain ⟨fields, hrun, -, -, hlen, hjoin⟩ :=
    iter_substr_join [0x2c, 0x61, 0x2c, 0] [] 0 (.ofBytes [0x2c, 0x61, 0x2c]) rfl 0x2c
      (by decide) none
  exact ⟨fields, hrun 4 (by decide), hlen, hjoin⟩

end Ohmylib.Substr
