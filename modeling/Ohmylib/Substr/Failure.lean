import Mathlib.Data.Nat.Find
import Ohmylib.Substr.Split

/-! The loop of `iter_substr` when memory runs out. `substr` moves the cursor before it
duplicates the field, so a call that fails has already passed its field: the loop ends
with the fields in front of it, and the cursor is at the field behind it, or `NULL`
where there is none. -/

namespace Ohmylib.Substr

open Sentinel

variable {mem : List UInt8} {ok : ℕ → Bool} {p i j : ℕ} {needle : UInt8} {f rest : List UInt8}
  {fs : List (List UInt8)}

/-- Where field `j` starts, for the fields `fs` of a string at `p`. -/
def fieldStart (p : ℕ) (fs : List (List UInt8)) (j : ℕ) : ℕ :=
  p + ((fs.take j).map fun f => f.length + 1).sum

/-- The cursor behind field `j`: the start of the next one, if there is one. -/
def cursorBehind (p : ℕ) (fs : List (List UInt8)) (j : ℕ) : Option ℕ :=
  if j + 1 < fs.length then some (fieldStart p fs (j + 1)) else none

theorem fieldStart_cons_succ (p : ℕ) (f : List UInt8) (fs : List (List UInt8)) (j : ℕ) :
    fieldStart p (f :: fs) (j + 1) = fieldStart (p + f.length + 1) fs j := by
  rw [fieldStart, fieldStart, List.take_succ_cons, List.map_cons, List.sum_cons]
  omega

theorem fieldStart_lt (hj : j < fs.length) : fieldStart p fs j < fieldStart p fs (j + 1) := by
  unfold fieldStart
  rw [List.take_succ_eq_append_getElem hj, List.map_append, List.sum_append]
  simp

theorem cursorBehind_first (hfs : fs ≠ []) :
    cursorBehind p (f :: fs) 0 = some (p + f.length + 1) := by
  have hlen : 0 + 1 < (f :: fs).length := Nat.succ_lt_succ (List.length_pos_iff.mpr hfs)
  rw [cursorBehind, if_pos hlen, fieldStart_cons_succ]
  rfl

theorem cursorBehind_cons_succ (p : ℕ) (f : List UInt8) (fs : List (List UInt8)) (j : ℕ) :
    cursorBehind p (f :: fs) (j + 1) = cursorBehind (p + f.length + 1) fs j := by
  simp only [cursorBehind, List.length_cons, Nat.add_lt_add_iff_right, fieldStart_cons_succ]

/-- A call that fails has moved the cursor all the same. -/
theorem iterSubstr_fails {cursor : Option ℕ}
    (hc : substr mem (ok i) (some p) true needle = some { str := none, nxt := some cursor })
    (fuel : ℕ) (n : Option ℕ) :
    iterSubstr mem ok needle (fuel + 1) i (some p) n = .ended [] cursor := by
  rw [iterSubstr, hc]
  rfl

/-- When the allocation for field `j` is the first to fail, the loop gives the fields
in front of it and leaves the cursor behind it. -/
theorem iterSubstr_failing (hn : needle ≠ 0) (ok : ℕ → Bool) (s : List UInt8) :
    ∀ {p i j : ℕ}, 0 ∉ s → mem.drop p = s ++ 0 :: rest → j ≤ s.count needle →
      (∀ k < j, ok (i + k) = true) → ok (i + j) = false → ∃ fields : List CString,
        fields.map CString.bytes = (s.splitOn needle).take j ∧
          ∀ fuel, s.count needle + 2 ≤ fuel → ∀ n, iterSubstr mem ok needle fuel i (some p) n =
            .ended fields (cursorBehind p (s.splitOn needle) j) := by
  induction s using fields_induction (c := needle) with
  | last f hc =>
    intro p i j hf hm hj hok hfail
    obtain rfl : j = 0 := by
      rw [List.count_eq_zero.mpr hc] at hj
      exact Nat.le_zero.mp hj
    rw [List.splitOn_eq_singleton hc]
    refine ⟨[], rfl, fun fuel hfuel n => ?_⟩
    obtain ⟨fuel, rfl⟩ := Nat.exists_eq_add_of_le' (Nat.le_of_add_left_le hfuel)
    have hi : ok i = false := hfail
    apply iterSubstr_fails
    rw [substr_last hm hf hc hn, hi]
    rfl
  | sep f t hc ih =>
    intro p i j hs hm hj hok hfail
    obtain ⟨hf, ht⟩ := notMem_field hs
    rw [List.append_assoc] at hm
    rw [count_field hc] at hj ⊢
    rw [List.splitOn_append_cons_self_of_not_mem hc]
    cases j with
    | zero =>
      refine ⟨[], rfl, fun fuel hfuel n => ?_⟩
      obtain ⟨fuel, rfl⟩ := Nat.exists_eq_add_of_le' (by omega : 1 ≤ fuel)
      have hi : ok i = false := hfail
      apply iterSubstr_fails
      rw [substr_field hm hf hc, cursorBehind_first (List.splitOn_ne_nil needle t), hi]
      rfl
    | succ j =>
      have hshift : ∀ k, ok (i + 1 + k) = ok (i + (k + 1)) := fun k => by
        rw [Nat.add_right_comm, Nat.add_assoc]
      obtain ⟨fields, hfields, hrun⟩ := ih (i := i + 1) ht (drop_field hm)
        (Nat.le_of_succ_le_succ hj)
        (fun k hk => (hshift k).trans (hok (k + 1) (Nat.succ_lt_succ hk)))
        ((hshift j).trans hfail)
      refine ⟨⟨f, hf⟩ :: fields, ?_, fun fuel hfuel n => ?_⟩
      · rw [List.map_cons, hfields, List.take_succ_cons]
      · obtain ⟨fuel, rfl⟩ := Nat.exists_eq_add_of_le' (by omega : 1 ≤ fuel)
        have hi : ok i = true := hok 0 (Nat.succ_pos j)
        rw [iterSubstr_field hm hf hc hi, hrun fuel (by omega), cursorBehind_cons_succ]
        rfl

/-- The first of the allocations that fail. -/
theorem exists_first_failure {m : ℕ} (h : ¬ ∀ j ≤ m, ok (i + j) = true) :
    ∃ j ≤ m, (∀ k < j, ok (i + k) = true) ∧ ok (i + j) = false := by
  push Not at h
  obtain ⟨hle, hfail⟩ := Nat.find_spec h
  refine ⟨Nat.find h, hle, fun k hk => ?_, Bool.eq_false_iff.mpr hfail⟩
  by_contra hk'
  exact Nat.find_min h hk ⟨(hk.trans_le hle).le, hk'⟩

/-- No field is dropped silently. The loop ends with all fields of the string `s` at
`p` and the cursor `NULL`, or an allocation has failed and the cursor is at the first
field that is missing; and the loop started again from the cursor gives the missing
fields. -/
def Resumable (mem : List UInt8) (ok : ℕ → Bool) (needle : UInt8) (p : ℕ) (s : CString) : Prop :=
  ∃ (fields missing : List CString) (cursor : Option ℕ),
    (∀ fuel, s.bytes.count needle + 2 ≤ fuel →
      (∀ n, iterSubstr mem ok needle fuel 0 (some p) n = .ended fields cursor) ∧
      iterSubstr mem (fun _ => true) needle fuel 0 cursor cursor = .ended missing none) ∧
    (fields ++ missing).map CString.bytes = s.bytes.splitOn needle ∧
    (missing = [] ∧ cursor = none ∨
      ∃ j < (s.bytes.splitOn needle).length, ok j = false ∧ fields.length = j ∧
        cursor = some (fieldStart p (s.bytes.splitOn needle) j))

theorem cursorBehind_ne (hj : j < fs.length) :
    cursorBehind p fs j ≠ some (fieldStart p fs j) := by
  unfold cursorBehind
  split_ifs with hlt
  · intro h
    exact (fieldStart_lt hj).ne (Option.some.inj h).symm
  · exact (Option.some_ne_none _).symm

/-- The loop drops no field silently exactly when no allocation for a field fails. -/
theorem resumable_iff (mem rest : List UInt8) (p : ℕ) (s : CString)
    (hm : mem.drop p = s.bytes ++ 0 :: rest) (ok : ℕ → Bool) (needle : UInt8)
    (hn : needle ≠ 0) :
    Resumable mem ok needle p s ↔ ∀ j ≤ s.bytes.count needle, ok j = true := by
  have hfrom : (∀ j ≤ s.bytes.count needle, ok j = true) ↔
      ∀ j ≤ s.bytes.count needle, ok (0 + j) = true := by
    simp only [Nat.zero_add]
  rw [hfrom]
  constructor
  · rintro ⟨fields, missing, cursor, hrun, hall, hend⟩
    by_contra hfail
    obtain ⟨j, hj, hok, hokj⟩ := exists_first_failure hfail
    have hlen : j < (s.bytes.splitOn needle).length := by
      rw [length_splitOn]
      exact Nat.lt_succ_of_le hj
    obtain ⟨fields', hfields', hrun'⟩ := iterSubstr_failing hn ok s.bytes s.noNul hm hj hok hokj
    have hboth := ((hrun _ le_rfl).1 none).symm.trans (hrun' _ le_rfl none)
    obtain ⟨rfl, rfl⟩ := Outcome.ended.inj hboth
    have hlen' : fields.length = j := by
      rw [← List.length_map (f := CString.bytes), hfields', List.length_take]
      exact min_eq_left hlen.le
    rcases hend with ⟨rfl, -⟩ | ⟨j', -, -, hj', hcursor⟩
    · rw [List.append_nil] at hall
      have := congrArg List.length hall
      rw [List.length_map] at this
      omega
    · obtain rfl : j = j' := hlen'.symm.trans hj'
      exact cursorBehind_ne hlen hcursor
  · intro hok
    obtain ⟨fields, hfields, hrun⟩ := iterSubstr_fields hn ok s.bytes s.noNul hm hok
    refine ⟨fields, [], none, fun fuel hfuel => ⟨hrun fuel hfuel, ?_⟩, ?_, .inl ⟨rfl, rfl⟩⟩
    · obtain ⟨fuel, rfl⟩ := Nat.exists_eq_add_of_le' (by omega : 1 ≤ fuel)
      exact iterSubstr_null _ fuel 0
    · rw [List.append_nil, hfields]

/-- In `a,b` no field is dropped when the third allocation would fail, and one is when the second
fails. -/
theorem resumable_iff_comma :
    Resumable [0x61, 0x2c, 0x62, 0] (fun j => j != 2) 0x2c 0 (.ofBytes [0x61, 0x2c, 0x62]) ∧
      ¬ Resumable [0x61, 0x2c, 0x62, 0] (fun j => j != 1) 0x2c 0
        (.ofBytes [0x61, 0x2c, 0x62]) := by
  constructor
  · exact (resumable_iff [0x61, 0x2c, 0x62, 0] [] 0 (.ofBytes [0x61, 0x2c, 0x62]) rfl
      (fun j => j != 2) 0x2c (by decide)).mpr (by decide)
  · rw [resumable_iff [0x61, 0x2c, 0x62, 0] [] 0 (.ofBytes [0x61, 0x2c, 0x62]) rfl
      (fun j => j != 1) 0x2c (by decide)]
    decide

/-- In `a,b` the field `b` is lost without a trace when its allocation fails, and when
the allocation for `a` fails the cursor has passed it. -/
theorem field_dropped :
    iterSubstr [0x61, 0x2c, 0x62, 0] (fun j => j != 1) 0x2c 3 0 (some 0) none =
      .ended [.ofBytes [0x61]] none ∧
    iterSubstr [0x61, 0x2c, 0x62, 0] (fun j => j != 0) 0x2c 3 0 (some 0) none =
      .ended [] (some 2) ∧
    ¬ Resumable [0x61, 0x2c, 0x62, 0] (fun j => j != 1) 0x2c 0 (.ofBytes [0x61, 0x2c, 0x62]) ∧
    ¬ Resumable [0x61, 0x2c, 0x62, 0] (fun j => j != 0) 0x2c 0 (.ofBytes [0x61, 0x2c, 0x62]) := by
  have hlast : iterSubstr [0x61, 0x2c, 0x62, 0] (fun j => j != 1) 0x2c 3 0 (some 0) none =
      .ended [.ofBytes [0x61]] none := by decide
  have hfirst : iterSubstr [0x61, 0x2c, 0x62, 0] (fun j => j != 0) 0x2c 3 0 (some 0) none =
      .ended [] (some 2) := by decide
  refine ⟨hlast, hfirst, ?_, ?_⟩
  · rintro ⟨fields, missing, cursor, hrun, hall, hend⟩
    obtain ⟨rfl, rfl⟩ := Outcome.ended.inj (hlast.symm.trans ((hrun 3 (by decide)).1 none))
    rcases hend with ⟨rfl, -⟩ | ⟨j, -, -, -, hcursor⟩
    · exact absurd hall (by decide)
    · cases hcursor
  · rintro ⟨fields, missing, cursor, hrun, hall, hend⟩
    obtain ⟨rfl, rfl⟩ := Outcome.ended.inj (hfirst.symm.trans ((hrun 3 (by decide)).1 none))
    rcases hend with ⟨-, hcursor⟩ | ⟨j, -, -, rfl, hcursor⟩
    · cases hcursor
    · exact absurd hcursor (by decide)

end Ohmylib.Substr
