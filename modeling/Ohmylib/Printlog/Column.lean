import Ohmylib.Printlog.Rows

/-! The character column of `hexdump`. A gap is due in front of a byte whose offset is a
multiple of 8. The loop goes on behind the last byte and tests the same offset in every
further round: if it is a multiple of 8 there, but not of 16, the rest of the row gets a
gap in each round. -/

namespace Ohmylib.Printlog

open Loop

variable {mem : Mem} {size j k n : ℕ}

/-- The glyphs of `n` bytes from byte `k` on. -/
def glyphs (mem : Mem) (k n : ℕ) : Text := (List.range' k n).map fun i => glyph (mem i)

/-- The character column as it should be: a gap in front of the 1st glyph and, in a row
of more than 8 bytes, in front of the 9th. -/
def column (mem : Mem) (size k : ℕ) : Text :=
  [' '] ++ glyphs mem k (min (min 16 (size - k)) 8) ++
    if 8 < min 16 (size - k) then [' '] ++ glyphs mem (k + 8) (min 16 (size - k) - 8) else []

/-- A group of at most 8 bytes: one gap, then its glyphs. -/
theorem charText_group (mem : Mem) (hk : 8 ∣ k) (hn : n < 8) (hle : k + n < size) :
    (List.range' k (n + 1)).flatMap (charText mem size) = [' '] ++ glyphs mem k (n + 1) := by
  have hfirst : charText mem size k = [' ', glyph (mem k)] := by
    have hlt : k < size := by omega
    rw [charText, if_pos hlt, min_eq_left hlt.le, if_pos (Nat.mod_eq_zero_of_dvd hk)]
    rfl
  have hrest : ∀ i ∈ List.range' (k + 1) n, charText mem size i = [glyph (mem i)] := by
    intro i hi
    have hi' := List.mem_range'_1.mp hi
    have hlt : i < size := by omega
    have hmod : i % 8 ≠ 0 := by omega
    rw [charText, if_pos hlt, min_eq_left hlt.le, if_neg hmod]
    rfl
  rw [glyphs, List.range'_succ, List.flatMap_cons, List.flatMap_congr hrest, hfirst,
    List.map_cons, List.map_eq_flatMap]
  rfl

/-- What the rounds behind the last byte print. -/
theorem charText_behind (mem : Mem) (hk : size ≤ k) (n : ℕ) :
    (List.range' k n).flatMap (charText mem size) =
      List.replicate (if size % 8 = 0 then n else 0) ' ' := by
  have htext : ∀ i ∈ List.range' k n,
      charText mem size i = if size % 8 = 0 then [' '] else [] := by
    intro i hi
    have hle : size ≤ i := hk.trans (List.mem_range'_1.mp hi).1
    rw [charText, min_eq_right hle, if_neg (Nat.not_lt.mpr hle), List.append_nil]
  rw [List.flatMap_congr htext]
  by_cases h8 : size % 8 = 0
  · simp only [h8, ↓reduceIte]
    rw [← List.map_eq_flatMap, List.map_const', List.length_range']
  · simp [h8]

/-- The bytes of a row give the column as it should be. -/
theorem charText_column (mem : Mem) (hk : 8 ∣ k) (hlt : k < size) :
    (List.range' k (min 16 (size - k))).flatMap (charText mem size) = column mem size k := by
  obtain ⟨n, hn⟩ : ∃ n, min 16 (size - k) = n := ⟨_, rfl⟩
  rw [column, hn]
  by_cases h8 : 8 < n
  · obtain ⟨r, rfl⟩ := Nat.exists_eq_add_of_lt h8
    have hk' : 8 ∣ k + 8 := Nat.dvd_add hk (Nat.dvd_refl 8)
    rw [if_pos h8, min_eq_right h8.le, Nat.add_assoc, ← List.range'_append_1, List.flatMap_append,
      charText_group mem hk (n := 7) (by omega) (by omega),
      charText_group mem hk' (n := r) (by omega) (by omega), Nat.add_sub_cancel_left]
  · obtain ⟨r, rfl⟩ := Nat.exists_eq_add_of_lt (by omega : 0 < n)
    rw [if_neg h8, min_eq_left (Nat.le_of_not_lt h8), Nat.zero_add, List.append_nil,
      charText_group mem hk (by omega) (by omega)]

/-- What a row prints as its character column: the bytes, and gaps behind them. -/
theorem charText_row (mem : Mem) (hk : 8 ∣ k) (hlt : k < size) :
    (List.range' k 16).flatMap (charText mem size) = column mem size k ++
      List.replicate (if size % 8 = 0 then 16 - (size - k) else 0) ' ' := by
  have hsplit : List.range' k 16 = List.range' k (min 16 (size - k)) ++
      List.range' (k + min 16 (size - k)) (16 - (size - k)) := by
    rw [List.range'_append_1]
    congr 1
    omega
  rw [hsplit, List.flatMap_append, charText_column mem hk hlt]
  congr 1
  by_cases hfull : size - k < 16
  · exact charText_behind mem (by omega) _
  · have h0 : 16 - (size - k) = 0 := by omega
    rw [h0]
    simp

/-- Every row of the text of a call has two spaces behind its cells, then the column as
it should be, and nothing behind it. -/
def ColumnsRight (call : ℕ → Outcome (Stream × Text)) (title : Option Text) (mem : Mem)
    (size : ℕ) : Prop :=
  ∀ fuel, rowCount size < fuel → ∃ stream t, call fuel = .done (stream, heading title ++ t) ∧
    ∀ j < rowCount size, (bodyLines t)[j]? =
      some (rowHead mem size (16 * j) ++ column mem size (16 * j))

/-- No gaps follow the last glyph of row `j`. -/
def NoGaps (size j : ℕ) : Prop := size % 8 = 0 → 16 ≤ size - 16 * j

theorem row_eq_iff (mem : Mem) (hj : 16 * j < size) :
    row mem size (16 * j) = rowHead mem size (16 * j) ++ column mem size (16 * j) ↔
      NoGaps size j := by
  have h8 : 8 ∣ 16 * j := (by decide : 8 ∣ 16).mul_right j
  rw [row, List.append_cancel_left_eq, charText_row mem h8 hj, List.append_right_eq_self,
    List.replicate_eq_nil_iff, NoGaps]
  split_ifs with h
  · rw [Nat.sub_eq_zero_iff_le]
    exact ⟨fun hle _ => hle, fun hle => hle h⟩
  · exact iff_of_true rfl fun h' => absurd h' h

theorem noGaps_iff (size : ℕ) : (∀ j < rowCount size, NoGaps size j) ↔ size % 16 ≠ 8 := by
  unfold NoGaps rowCount
  constructor
  · intro h hmod
    have hlast := h (size / 16) (by omega) (by omega)
    omega
  · intro hmod j hj h8
    omega

theorem columnsRight_iff {call : ℕ → Outcome (Stream × Text)} {stream : Stream}
    (title : Option Text) (mem : Mem) (size : ℕ)
    (hcall : ∀ fuel, rowCount size < fuel →
      call fuel = .done (stream, heading title ++ bodyText mem size)) :
    ColumnsRight call title mem size ↔ size % 16 ≠ 8 := by
  have hlt : ∀ j, j < rowCount size → 16 * j < size := fun j hj => by
    unfold rowCount at hj
    omega
  rw [← noGaps_iff]
  constructor
  · intro h j hj
    obtain ⟨stream', t, hdone, hlines⟩ := h (rowCount size + 1) (Nat.lt_succ_self _)
    rw [hcall _ (Nat.lt_succ_self _)] at hdone
    have htext : bodyText mem size = t :=
      List.append_cancel_left (Prod.ext_iff.mp (Outcome.done.inj hdone)).2
    have hline := hlines j hj
    rw [← htext, getElem?_bodyLines mem hj] at hline
    exact (row_eq_iff mem (hlt j hj)).mp (Option.some.inj hline)
  · intro h fuel hf
    refine ⟨stream, bodyText mem size, hcall fuel hf, fun j hj => ?_⟩
    rw [getElem?_bodyLines mem hj, (row_eq_iff mem (hlt j hj)).mpr (h j hj)]

/-- The character column is laid out right in every row exactly when the size is not 8
modulo 16. -/
theorem columns_right_iff (title : Option Text) (f : ℕ) (mem : Mem) (size : ℕ) :
    (ColumnsRight (hexdump title (memory mem) size) title mem size ↔ size % 16 ≠ 8) ∧
      (ColumnsRight (fhexdump f title (memory mem) size) title mem size ↔ size % 16 ≠ 8) :=
  ⟨columnsRight_iff title mem size fun _ hf => (hexdump_done title f mem hf).1,
    columnsRight_iff title mem size fun _ hf => (hexdump_done title f mem hf).2⟩

/-- Eight bytes `A`: eight spaces follow the last glyph. -/
theorem column_gaps : (List.range' 0 16).flatMap (charText (fun _ => 0x41) 8) =
      " AAAAAAAA        ".toList ∧
    column (fun _ => 0x41) 8 0 = " AAAAAAAA".toList ∧
    ¬ ColumnsRight (hexdump none (memory fun _ => 0x41) 8) none (fun _ => 0x41) 8 ∧
    ¬ ColumnsRight (fhexdump 2 none (memory fun _ => 0x41) 8) none (fun _ => 0x41) 8 := by
  refine ⟨by decide, by decide, ?_, ?_⟩
  · rw [columnsRight_iff none _ 8 fun _ hf => (hexdump_done none 2 _ hf).1]
    decide
  · rw [columnsRight_iff none _ 8 fun _ hf => (hexdump_done none 2 _ hf).2]
    decide

end Ohmylib.Printlog
