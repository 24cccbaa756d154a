import Ohmylib.Printlog.Rows

/-! The text of `hexdump` determines the bytes. The hexadecimal column stands at a fixed
place behind the label, its cells are three characters wide and blank behind the data,
so the bytes can be read back row by row. -/

namespace Ohmylib.Printlog

open Loop

variable {mem : Mem} {size k n : ℕ} {t : Text}

/-- The value of a digit of `%x`. -/
def hexVal (c : Char) : ℕ := if c.isDigit then c.toNat - 48 else c.toNat - 87

/-- The byte in a cell, unless it is blank. -/
def readCell : Text → List UInt8
  | a :: b :: _ => if a = ' ' then [] else [UInt8.ofNat (16 * hexVal a + hexVal b)]
  | _ => []

def readCells : ℕ → Text → List UInt8
  | 0, _ => []
  | n + 1, t => readCell (t.take 3) ++ readCells n (t.drop 3)

/-- The bytes in a row: the cells behind its label and a space. -/
def readRow (t : Text) : List UInt8 := readCells 16 ((t.dropWhile (· ≠ ' ')).drop 1)

/-- The bytes in the text behind the heading. -/
def readBody (t : Text) : List UInt8 := (bodyLines t).flatMap readRow

/-- A byte is printed with two digits, from which it can be read. -/
theorem readCell_hex (val : UInt8) :
    (hex 2 val.toNat).length = 2 ∧ readCell (hex 2 val.toNat ++ [' ']) = [val] := by
  have hall : ∀ n < 256, (hex 2 n).length = 2 ∧
      readCell (hex 2 n ++ [' ']) = [UInt8.ofNat n] := by decide +kernel
  have := hall val.toNat val.toNat_lt
  rwa [UInt8.ofNat_toNat] at this

theorem length_hexText (mem : Mem) (size k : ℕ) : (hexText mem size k).length = 3 := by
  unfold hexText
  split_ifs
  · rw [List.length_append, (readCell_hex _).1]
    rfl
  · rfl

theorem readCell_hexText (mem : Mem) (size k : ℕ) :
    readCell (hexText mem size k) = if k < size then [mem k] else [] := by
  unfold hexText
  split_ifs
  · exact (readCell_hex _).2
  · rfl

/-- Reading the hexadecimal column of a row. -/
theorem readCells_hexText (mem : Mem) (size n : ℕ) (rest : Text) : ∀ k,
    readCells n ((List.range' k n).flatMap (hexText mem size) ++ rest) =
      ((List.range' k n).filter (· < size)).map mem := by
  induction n with
  | zero => exact fun _ => rfl
  | succ n ih =>
    intro k
    rw [List.range'_succ, List.flatMap_cons, List.append_assoc, readCells,
      List.take_left' (length_hexText mem size k), List.drop_left' (length_hexText mem size k), ih,
      readCell_hexText, List.filter_cons]
    by_cases hk : k < size
    · simp [hk]
    · simp [hk]

theorem readRow_row (mem : Mem) (size k : ℕ) :
    readRow (row mem size k) = ((List.range' k 16).filter (· < size)).map mem := by
  have hlabel : ∀ c ∈ hex 4 (u32 k), (decide (c ≠ ' ')) = true := fun c hc =>
    decide_eq_true (hex_ne (by decide) hc)
  rw [readRow, row, rowHead]
  simp only [List.append_assoc]
  rw [List.dropWhile_append_of_pos hlabel]
  exact readCells_hexText mem size 16 _ k

theorem flatMap_range_rows (m : ℕ) :
    (List.range m).flatMap (fun j => List.range' (16 * j) 16) = List.range (16 * m) := by
  induction m with
  | zero => rfl
  | succ m ih =>
    rw [List.range_succ, List.flatMap_append, ih, List.flatMap_singleton, Nat.mul_succ,
      List.range_add, List.range'_eq_map_range]

theorem filter_range_lt (h : size ≤ n) : (List.range n).filter (· < size) = List.range size := by
  obtain ⟨r, rfl⟩ := Nat.exists_eq_add_of_le h
  rw [List.range_add, List.filter_append, List.filter_eq_self.mpr, List.filter_eq_nil_iff.mpr,
    List.append_nil]
  · intro i hi
    obtain ⟨i', -, rfl⟩ := List.mem_map.mp hi
    simp
  · intro i hi
    exact decide_eq_true (List.mem_range.mp hi)

/-- Reading all rows gives back the buffer. -/
theorem readBody_bodyText (mem : Mem) (size : ℕ) :
    readBody (bodyText mem size) = (List.range size).map mem := by
  obtain ⟨blank, hblank, hlines⟩ := bodyLines_bodyText mem size
  have hempty : blank.flatMap readRow = [] :=
    List.flatMap_eq_nil_iff.mpr fun l hl => by rw [hblank l hl]; rfl
  have hle : size ≤ 16 * rowCount size := by
    unfold rowCount
    omega
  rw [readBody, hlines, List.flatMap_append, hempty, List.append_nil, rows, List.flatMap_map,
    ← filter_range_lt hle, ← flatMap_range_rows, List.filter_flatMap, List.map_flatMap]
  exact List.flatMap_congr fun j _ => readRow_row mem size (16 * j)

/-- Row `k` of a dump: its label, 16 cells of three characters, of which the first ones
hold the digits of its bytes and the others are blank, and a character column at a fixed
offset behind the label. -/
structure IsRow (mem : Mem) (size k : ℕ) (t : Text) (cells : List Text) (chars : Text) : Prop where
  text_eq : t = hex 4 (16 * k) ++ [' '] ++ cells.flatten ++ [' ', ' '] ++ chars
  length_cells : cells.length = 16
  length_cell : ∀ c ∈ cells, c.length = 3
  filled : ∀ i < min 16 (size - 16 * k),
    cells[i]? = some (hex 2 (mem (16 * k + i)).toNat ++ [' '])
  blank : ∀ i, min 16 (size - 16 * k) ≤ i → i < 16 → cells[i]? = some [' ', ' ', ' ']
  column : t.drop ((hex 4 (16 * k)).length + 51) = chars

theorem isRow_row (mem : Mem) (h : 16 * k < size) (hs : size < 2 ^ 31) :
    IsRow mem size k (row mem size (16 * k)) ((List.range' (16 * k) 16).map (hexText mem size))
      ((List.range' (16 * k) 16).flatMap (charText mem size)) := by
  have hlabel : u32 (16 * k) = 16 * k := u32_of_lt (by omega)
  have hcell : ∀ i < 16, ((List.range' (16 * k) 16).map (hexText mem size))[i]? =
      some (hexText mem size (16 * k + i)) := fun i hi => by
    rw [List.getElem?_map, List.getElem?_range' hi, Option.map_some, Nat.one_mul]
  have htext : row mem size (16 * k) = hex 4 (16 * k) ++ [' '] ++
      ((List.range' (16 * k) 16).map (hexText mem size)).flatten ++ [' ', ' '] ++
        (List.range' (16 * k) 16).flatMap (charText mem size) := by
    rw [row, rowHead, hlabel, ← List.flatMap_def]
  refine ⟨htext, by simp, fun c hc => ?_, fun i hi => ?_, fun i hi hi' => ?_, ?_⟩
  · obtain ⟨i, -, rfl⟩ := List.mem_map.mp hc
    exact length_hexText mem size i
  · have hin : 16 * k + i < size := by omega
    rw [hcell i (by omega), hexText, if_pos hin]
  · have hout : ¬ 16 * k + i < size := by omega
    rw [hcell i hi', hexText, if_neg hout]
  · rw [htext]
    apply List.drop_left'
    have hsum : ∀ k n, ((List.range' k n).flatMap (hexText mem size)).length = 3 * n := by
      intro k n
      rw [List.length_flatMap]
      simp [length_hexText, Nat.mul_comm]
    simp only [List.length_append, List.length_cons, List.length_nil, ← List.flatMap_def, hsum]

/-- Two memories with the same text behind the heading agree on the buffer. -/
theorem buffer_eq_of_bodyText {mem' : Mem} {size' : ℕ}
    (h : bodyText mem size = bodyText mem' size') :
    (List.range size).map mem = (List.range size').map mem' := by
  rw [← readBody_bodyText, ← readBody_bodyText, h]

/-- Below `2 ^ 31` bytes the text of `hexdump` and `fhexdump` behind the heading consists
of the rows of the buffer, the buffer can be read back from it, and different buffers
are never printed alike. -/
theorem hexdump_determines (title : Option Text) (f : ℕ) (mem : Mem) {size : ℕ}
    (hs : size < 2 ^ 31) : ∃ t : Text,
      (∀ fuel, rowCount size < fuel →
        hexdump title (memory mem) size fuel = .done (.stdout, heading title ++ t) ∧
        fhexdump f title (memory mem) size fuel = .done (.file f, heading title ++ t)) ∧
      (∃ rs blank : List Text, bodyLines t = rs ++ blank ∧ (∀ l ∈ blank, l = []) ∧
        rs.length = rowCount size ∧
        ∀ k r, rs[k]? = some r → ∃ cells chars, IsRow mem size k r cells chars) ∧
      readBody t = (List.range size).map mem ∧
      ∀ mem' size' fuel, rowCount size < fuel → rowCount size' < fuel →
        (hexdump title (memory mem) size fuel = hexdump title (memory mem') size' fuel ∨
          fhexdump f title (memory mem) size fuel = fhexdump f title (memory mem') size' fuel) →
            (List.range size).map mem = (List.range size').map mem' := by
  obtain ⟨blank, hblank, hlines⟩ := bodyLines_bodyText mem size
  refine ⟨bodyText mem size, fun _ => hexdump_done title f mem,
    ⟨rows mem size, blank, hlines, hblank, length_rows mem size, fun k r hr => ?_⟩,
    readBody_bodyText mem size, ?_⟩
  · obtain ⟨hk, -⟩ := List.getElem?_eq_some_iff.mp hr
    rw [length_rows] at hk
    have hlt : 16 * k < size := by
      unfold rowCount at hk
      omega
    rw [rows, List.getElem?_map, List.getElem?_range hk] at hr
    cases hr
    exact ⟨_, _, isRow_row mem hlt hs⟩
  · intro mem' size' fuel hf hf' h
    apply buffer_eq_of_bodyText
    obtain ⟨h₁, h₂⟩ := hexdump_done title f mem hf
    obtain ⟨h₁', h₂'⟩ := hexdump_done title f mem' hf'
    rcases h with h | h
    · rw [h₁, h₁'] at h
      exact List.append_cancel_left (Prod.ext_iff.mp (Outcome.done.inj h)).2
    · rw [h₂, h₂'] at h
      exact List.append_cancel_left (Prod.ext_iff.mp (Outcome.done.inj h)).2

/-- Eighteen bytes from `@` on take two rows, and the first seventeen of them are printed
differently. -/
theorem hexdump_determines_two : ∃ t : Text,
    hexdump none (memory fun k => UInt8.ofNat (0x40 + k)) 18 3 =
      .done (.stdout, heading none ++ t) ∧
    fhexdump 1 none (memory fun k => UInt8.ofNat (0x40 + k)) 18 3 =
      .done (.file 1, heading none ++ t) ∧
    (∃ rs blank : List Text, bodyLines t = rs ++ blank ∧ rs.length = 2) ∧
    readBody t = [0x40, 0x41, 0x42, 0x43, 0x44, 0x45, 0x46, 0x47, 0x48, 0x49, 0x4a, 0x4b, 0x4c,
      0x4d, 0x4e, 0x4f, 0x50, 0x51] ∧
    hexdump none (memory fun k => UInt8.ofNat (0x40 + k)) 18 3 ≠
      hexdump none (memory fun k => UInt8.ofNat (0x40 + k)) 17 3 := by
  obtain ⟨t, hrun, ⟨rs, blank, hlines, -, hlen, -⟩, hread, hdiff⟩ :=
    hexdump_determines none 1 (fun k => UInt8.ofNat (0x40 + k)) (by decide : 18 < 2 ^ 31)
  obtain ⟨hout, hfile⟩ := hrun 3 (by decide)
  refine ⟨t, hout, hfile, ⟨rs, blank, hlines, hlen⟩, hread, fun heq => ?_⟩
  have hsame := hdiff (fun k => UInt8.ofNat (0x40 + k)) 17 3 (by decide) (by decide) (.inl heq)
  exact absurd (congrArg List.length hsame) (by decide)

end Ohmylib.Printlog
