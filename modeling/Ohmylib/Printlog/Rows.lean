import Ohmylib.Printlog.Model
import Ohmylib.Sentinel.Fields

/-! The text of `hexdump`, row by row. In cell `k` both cursors are at byte `k` or, with
the data used up, at the end, and the counts are what is left; the text of a cell is
therefore a function of `k`. A row is 16 cells of either column, the text is the rows
between line feeds. The bytes behind the buffer are read, but nothing of them is
printed. -/

namespace Ohmylib.Printlog

open Loop Sentinel

variable {mem : Mem} {size k : ℕ} {out : Text}

/-- All of memory, seen from a pointer: what lies behind the buffer may be read. -/
def memory (mem : Mem) : Buffer := fun k => some (mem k)

/-- Cell `k` of the hexadecimal column. -/
def hexText (mem : Mem) (size k : ℕ) : Text :=
  if k < size then hex 2 (mem k).toNat ++ [' '] else [' ', ' ', ' ']

/-- Cell `k` of the character column. -/
def charText (mem : Mem) (size k : ℕ) : Text :=
  (if min k size % 8 = 0 then [' '] else []) ++ if k < size then [glyph (mem k)] else []

/-- What a row shows in front of its character column, from byte `k` on. -/
def rowHead (mem : Mem) (size k : ℕ) : Text :=
  hex 4 (u32 k) ++ [' '] ++ (List.range' k 16).flatMap (hexText mem size) ++ [' ', ' ']

def row (mem : Mem) (size k : ℕ) : Text :=
  rowHead mem size k ++ (List.range' k 16).flatMap (charText mem size)

/-- A cursor in the data. -/
theorem cursor_inside (h : k < size) :
    min k size = k ∧ min (k + 1) size = k + 1 ∧ size - k > 0 :=
  ⟨min_eq_left h.le, min_eq_left h, Nat.sub_pos_of_lt h⟩

/-- A cursor that has reached the end stays there. -/
theorem cursor_behind (h : ¬ k < size) :
    min k size = size ∧ min (k + 1) size = size ∧ size - k = 0 ∧ size - (k + 1) = 0 := by
  have hle : size ≤ k := Nat.le_of_not_lt h
  have hle' : size ≤ k + 1 := Nat.le_succ_of_le hle
  exact ⟨min_eq_right hle, min_eq_right hle', Nat.sub_eq_zero_of_le hle,
    Nat.sub_eq_zero_of_le hle'⟩

theorem hexCell_text (mem : Mem) (size k c t : ℕ) (out : Text) :
    hexCell (memory mem) ⟨min k size, c, size - k, t, out⟩ =
      some ⟨min (k + 1) size, c, size - (k + 1), t, out ++ hexText mem size k⟩ := by
  by_cases hk : k < size
  · obtain ⟨hmin, hmin', hpos⟩ := cursor_inside hk
    rw [hmin, hmin']
    simp [hexCell, memory, hexText, hpos, hk, Nat.sub_sub]
  · obtain ⟨hmin, hmin', hleft, hleft'⟩ := cursor_behind hk
    rw [hmin, hmin', hleft, hleft']
    simp [hexCell, memory, hexText, hk]

theorem charCell_text (mem : Mem) (size k b l : ℕ) (out : Text) :
    charCell (memory mem) size ⟨b, min k size, l, size - k, out⟩ =
      some ⟨b, min (k + 1) size, l, size - (k + 1), out ++ charText mem size k⟩ := by
  have hoff : size - (size - k) = min k size := by omega
  by_cases hk : k < size
  · obtain ⟨hmin, hmin', hpos⟩ := cursor_inside hk
    rw [hmin] at hoff
    rw [hmin, hmin']
    simp [charCell, memory, charText, hoff, hmin, hpos, hk, Nat.sub_sub]
  · obtain ⟨hmin, hmin', hleft, hleft'⟩ := cursor_behind hk
    rw [hmin, hmin', hleft, hleft']
    simp [charCell, memory, charText, hmin, hk]

/-- Between two rows both columns are at the same byte. -/
def rowStart (size j : ℕ) (out : Text) : HexdumpS :=
  ⟨min (16 * j) size, min (16 * j) size, size - 16 * j, size - 16 * j, out⟩

/-- Row `j`, on a new line but for the first one. -/
def line (mem : Mem) (size j : ℕ) : Text := (if j = 0 then [] else ['\n']) ++ row mem size (16 * j)

theorem hexdumpRow_text (mem : Mem) {size j : ℕ} (out : Text) (hj : 16 * j < size) :
    hexdumpRow (memory mem) size (rowStart size j out) =
      some (rowStart size (j + 1) (out ++ line mem size j)) := by
  have hoff : size - (size - 16 * j) = 16 * j := by omega
  have hmod : 16 * j % 16 = 0 := Nat.mul_mod_right 16 j
  have hhex := forLoop_append
    (fun k out => (⟨min k size, min (16 * j) size, size - k, size - 16 * j, out⟩ : HexdumpS))
    (fun k out => hexCell_text mem size k _ _ out) 16 (16 * j)
  have hchar := forLoop_append
    (fun k out => (⟨min (16 * j + 16) size, min k size, size - (16 * j + 16), size - k, out⟩ :
      HexdumpS))
    (fun k out => charCell_text mem size k _ _ out) 16 (16 * j)
  simp only [hexdumpRow, rowStart, hoff, hmod, ↓reduceIte]
  rw [hhex, Option.bind_some, hchar, Nat.mul_succ]
  simp only [line, row, rowHead, label, Nat.mul_eq_zero, List.append_assoc, OfNat.ofNat_ne_zero,
    false_or]

def rowCount (size : ℕ) : ℕ := (size + 15) / 16

/-- What is printed before the rows. -/
def heading (title : Option Text) : Text := titleText title ++ header 5

/-- The rows and the last line feed. -/
def bodyText (mem : Mem) (size : ℕ) : Text :=
  (List.range (rowCount size)).flatMap (line mem size) ++ ['\n']

theorem hexdumpText_eq (title : Option Text) (mem : Mem) (size : ℕ) {fuel : ℕ}
    (hf : rowCount size < fuel) :
    hexdumpText title (memory mem) size fuel = .done (heading title ++ bodyText mem size) := by
  have hstart : (⟨0, 0, size, size, heading title⟩ : HexdumpS) =
      rowStart size 0 (heading title) := by
    simp [rowStart]
  have hend : ∀ j, j < rowCount size ↔ 16 * j < size := fun j => by
    unfold rowCount
    omega
  have htest : ∀ j out, j ≤ rowCount size →
      decide ((rowStart size j out).tlen ≠ 0) = decide (j < rowCount size) := by
    intro j out _
    rw [decide_eq_decide, hend]
    exact Nat.sub_ne_zero_iff_lt
  have hloop : whileLoop (fun s => s.tlen ≠ 0) (hexdumpRow (memory mem) size) fuel
      (rowStart size 0 (heading title)) = .done (rowStart size (rowCount size)
        (heading title ++ (List.range' 0 (rowCount size)).flatMap (line mem size))) :=
    whileLoop_append (rowStart size) htest
      (fun j out hj => hexdumpRow_text mem out ((hend j).mp hj)) (rowCount size) 0 (heading title)
      fuel (Nat.zero_add _) hf
  simp only [hexdumpText]
  rw [show titleText title ++ header 5 = heading title from rfl, hstart, hloop, Outcome.map,
    ← List.range_eq_range']
  exact congrArg Outcome.done (List.append_assoc _ _ _)

/-- Both functions print the same text. -/
theorem hexdump_done (title : Option Text) (f : ℕ) (mem : Mem) {size fuel : ℕ}
    (hf : rowCount size < fuel) :
    hexdump title (memory mem) size fuel = .done (.stdout, heading title ++ bodyText mem size) ∧
      fhexdump f title (memory mem) size fuel =
        .done (.file f, heading title ++ bodyText mem size) := by
  rw [hexdump, fhexdump, hexdumpText_eq title mem size hf]
  exact ⟨rfl, rfl⟩

/-! ### Reading the rows -/

/-- The characters of a hexadecimal number. -/
theorem mem_hex {c : Char} {width n : ℕ} (h : c ∈ hex width n) : ∃ d < 16, c = Nat.digitChar d := by
  have hdigits : ∀ n, ∀ c ∈ Nat.toDigits 16 n, ∃ d < 16, c = Nat.digitChar d := by
    intro n
    induction n using Nat.strongRecOn with
    | ind n ih =>
      intro c hc
      by_cases hn : n < 16
      · rw [Nat.toDigits_of_lt_base hn, List.mem_singleton] at hc
        exact ⟨n, hn, hc⟩
      · rw [Nat.toDigits_of_base_le (by decide) (Nat.le_of_not_lt hn), List.mem_append,
          List.mem_singleton] at hc
        rcases hc with hc | hc
        · exact ih (n / 16) (Nat.div_lt_self (by omega) (by decide)) c hc
        · exact ⟨n % 16, Nat.mod_lt n (by decide), hc⟩
  rw [hex, List.leftpad, List.mem_append] at h
  rcases h with h | h
  · exact ⟨0, by decide, (List.mem_replicate.mp h).2⟩
  · exact hdigits n c h

theorem hex_ne {c c' : Char} {width n : ℕ} (hc : ∀ d < 16, Nat.digitChar d ≠ c')
    (h : c ∈ hex width n) : c ≠ c' := by
  obtain ⟨d, hd, rfl⟩ := mem_hex h
  exact hc d hd

theorem glyph_ne_newline (val : UInt8) : glyph val ≠ '\n' := by
  have hall : ∀ n < 256, glyph (UInt8.ofNat n) ≠ '\n' := by decide +kernel
  have := hall val.toNat val.toNat_lt
  rwa [UInt8.ofNat_toNat] at this

theorem newline_notMem_row (mem : Mem) (size k : ℕ) : '\n' ∉ row mem size k := by
  have hhex : ∀ w n, '\n' ∉ hex w n := fun w n h => hex_ne (by decide) h rfl
  have hcell : ∀ i, '\n' ∉ hexText mem size i := by
    intro i
    unfold hexText
    split_ifs <;> simp [hhex]
  have hchar : ∀ i, '\n' ∉ charText mem size i := by
    intro i
    unfold charText
    split_ifs <;> simp [(glyph_ne_newline _).symm]
  simp [row, rowHead, hhex, hcell, hchar]

/-- All rows, without the line feeds. -/
def rows (mem : Mem) (size : ℕ) : List Text :=
  (List.range (rowCount size)).map fun j => row mem size (16 * j)

/-- The lines of the printed text, of which the last is empty. -/
def bodyLines (t : Text) : List Text := t.splitOn '\n'

/-- Rows between line feeds are the first lines of their text; what is behind is empty. -/
theorem splitOn_rows (row : ℕ → Text) (hrow : ∀ j, '\n' ∉ row j) (n : ℕ) :
    ∃ blank : List Text, (∀ l ∈ blank, l = []) ∧
      ((List.range n).flatMap (fun j => (if j = 0 then [] else ['\n']) ++ row j) ++
        ['\n']).splitOn '\n' = (List.range n).map row ++ blank := by
  cases n with
  | zero => exact ⟨[[], []], by simp, rfl⟩
  | succ n =>
    refine ⟨[[]], by simp, ?_⟩
    have hlines : (List.range' 1 n).flatMap (fun j => (if j = 0 then [] else ['\n']) ++ row j) =
        ((List.range' 1 n).map row).flatMap ('\n' :: ·) := by
      rw [List.flatMap_map]
      refine List.flatMap_congr fun j hj => ?_
      have hpos : j ≠ 0 := by
        have := (List.mem_range'_1.mp hj).1
        omega
      rw [if_neg hpos]
      rfl
    rw [List.range_eq_range', List.range'_succ, List.flatMap_cons, hlines, List.map_cons]
    refine splitOn_lines _ _ (hrow 0) fun l hl => ?_
    obtain ⟨j, -, rfl⟩ := List.mem_map.mp hl
    exact hrow j

theorem bodyLines_bodyText (mem : Mem) (size : ℕ) : ∃ blank : List Text, (∀ l ∈ blank, l = []) ∧
    bodyLines (bodyText mem size) = rows mem size ++ blank :=
  splitOn_rows (fun j => row mem size (16 * j)) (fun _ => newline_notMem_row mem size _)
    (rowCount size)

theorem length_rows (mem : Mem) (size : ℕ) : (rows mem size).length = rowCount size := by
  rw [rows, List.length_map, List.length_range]

/-- Line `j` of the text is row `j`. -/
theorem getElem?_bodyLines (mem : Mem) {size j : ℕ} (hj : j < rowCount size) :
    (bodyLines (bodyText mem size))[j]? = some (row mem size (16 * j)) := by
  obtain ⟨blank, -, hlines⟩ := bodyLines_bodyText mem size
  rw [hlines, List.getElem?_append_left (by rwa [length_rows]), rows, List.getElem?_map,
    List.getElem?_range hj]
  rfl

end Ohmylib.Printlog
