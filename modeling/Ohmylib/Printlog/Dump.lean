import Ohmylib.Printlog.Decode

/-! The text of `dump`. Its rows have no padding and its labels only show the low byte of
the offset, so that they repeat after sixteen rows; yet the bytes can be read back,
whatever their number, and are those that `hexdump` shows. -/

namespace Ohmylib.Printlog

open Loop Sentinel

variable {mem : Mem} {size k : ℕ} {t : Text}

/-- The cell of byte `k`, empty behind the data. -/
def dumpCell (mem : Mem) (size k : ℕ) : Text :=
  if k < size then hex 2 (mem k).toNat ++ [' '] else []

/-- The row of `dump` from byte `k` on. -/
def dumpRowText (mem : Mem) (size k : ℕ) : Text :=
  hex 2 (k % 0x100) ++ [' '] ++ (List.range' k 16).flatMap (dumpCell mem size)

def dumpLine (mem : Mem) (size j : ℕ) : Text :=
  (if j = 0 then [] else ['\n']) ++ dumpRowText mem size (16 * j)

def dumpHeading (title : Option Text) : Text := titleText title ++ header 3

def dumpBody (mem : Mem) (size : ℕ) : Text :=
  (List.range (rowCount size)).flatMap (dumpLine mem size) ++ ['\n']

/-! ### The loops -/

theorem dumpByte_text (mem : Mem) (size k : ℕ) (out : Text) :
    dumpByte (memory mem) ⟨min k size, size - k, out⟩ =
      some ⟨min (k + 1) size, size - (k + 1), out ++ dumpCell mem size k⟩ := by
  by_cases hk : k < size
  · obtain ⟨hmin, hmin', hpos⟩ := cursor_inside hk
    rw [hmin, hmin']
    simp [dumpByte, memory, dumpCell, hpos, hk, Nat.sub_sub]
  · obtain ⟨hmin, hmin', hleft, hleft'⟩ := cursor_behind hk
    rw [hmin, hmin', hleft, hleft']
    simp [dumpByte, memory, dumpCell, hk]

/-- Between two rows. -/
def dumpStart (size j : ℕ) (out : Text) : DumpS := ⟨min (16 * j) size, size - 16 * j, out⟩

theorem dumpRow_text (mem : Mem) {size j : ℕ} (out : Text) (hj : 16 * j < size) :
    dumpRow (memory mem) size (dumpStart size j out) =
      some (dumpStart size (j + 1) (out ++ dumpLine mem size j)) := by
  have hoff : size - (size - 16 * j) = 16 * j := by omega
  have hmod : 16 * j % 16 = 0 := Nat.mul_mod_right 16 j
  have hbytes := forLoop_append (fun k out => (⟨min k size, size - k, out⟩ : DumpS))
    (fun k out => dumpByte_text mem size k out) 16 (16 * j)
  simp only [dumpRow, dumpStart, hoff, hmod, ↓reduceIte]
  rw [hbytes, Nat.mul_succ]
  simp only [dumpLine, dumpRowText, label, Nat.mul_eq_zero, List.append_assoc,
    OfNat.ofNat_ne_zero, false_or]

theorem dumpText_eq (title : Option Text) (mem : Mem) (size : ℕ) {fuel : ℕ}
    (hf : rowCount size < fuel) :
    dumpText title (memory mem) size fuel = .done (dumpHeading title ++ dumpBody mem size) := by
  have hstart : (⟨0, size, dumpHeading title⟩ : DumpS) = dumpStart size 0 (dumpHeading title) := by
    simp [dumpStart]
  have hend : ∀ j, j < rowCount size ↔ 16 * j < size := fun j => by
    unfold rowCount
    omega
  have htest : ∀ j out, j ≤ rowCount size →
      decide ((dumpStart size j out).len ≠ 0) = decide (j < rowCount size) := by
    intro j out _
    rw [decide_eq_decide, hend]
    exact Nat.sub_ne_zero_iff_lt
  have hloop : whileLoop (fun s => s.len ≠ 0) (dumpRow (memory mem) size) fuel
      (dumpStart size 0 (dumpHeading title)) = .done (dumpStart size (rowCount size)
        (dumpHeading title ++ (List.range' 0 (rowCount size)).flatMap (dumpLine mem size))) :=
    whileLoop_append (dumpStart size) htest
      (fun j out hj => dumpRow_text mem out ((hend j).mp hj)) (rowCount size) 0
      (dumpHeading title) fuel (Nat.zero_add _) hf
  simp only [dumpText]
  rw [show titleText title ++ header 3 = dumpHeading title from rfl, hstart, hloop, Outcome.map,
    ← List.range_eq_range']
  exact congrArg Outcome.done (List.append_assoc _ _ _)

theorem dump_done (title : Option Text) (f : ℕ) (mem : Mem) {size fuel : ℕ}
    (hf : rowCount size < fuel) :
    dump title (memory mem) size fuel = .done (.stdout, dumpHeading title ++ dumpBody mem size) ∧
      fdump f title (memory mem) size fuel =
        .done (.file f, dumpHeading title ++ dumpBody mem size) := by
  rw [dump, fdump, dumpText_eq title mem size hf]
  exact ⟨rfl, rfl⟩

/-! ### Reading the rows -/

theorem newline_notMem_dumpRow (mem : Mem) (size k : ℕ) : '\n' ∉ dumpRowText mem size k := by
  have hhex : ∀ w n, '\n' ∉ hex w n := fun w n h => hex_ne (by decide) h rfl
  have hcell : ∀ i, '\n' ∉ dumpCell mem size i := by
    intro i
    unfold dumpCell
    split_ifs <;> simp [hhex]
  simp [dumpRowText, hhex, hcell]

/-- The lines of the body are the rows of the buffer. -/
theorem splitOn_dumpBody (mem : Mem) (size : ℕ) : ∃ blank : List Text, (∀ l ∈ blank, l = []) ∧
    (dumpBody mem size).splitOn '\n' =
      ((List.range (rowCount size)).map fun j => dumpRowText mem size (16 * j)) ++ blank :=
  splitOn_rows (fun j => dumpRowText mem size (16 * j)) (fun _ => newline_notMem_dumpRow mem size _)
    (rowCount size)

/-- A short row is read like a full one: where the text ends there is no byte. -/
theorem readCells_dumpCell (mem : Mem) (size n : ℕ) : ∀ k,
    readCells n ((List.range' k n).flatMap (dumpCell mem size)) =
      ((List.range' k n).filter (· < size)).map mem := by
  have hnil : ∀ n, readCells n [] = [] := by
    intro n
    induction n with
    | zero => rfl
    | succ n ih =>
      rw [readCells, List.drop_nil, ih]
      rfl
  induction n with
  | zero => exact fun _ => rfl
  | succ n ih =>
    intro k
    rw [List.range'_succ, List.flatMap_cons, List.filter_cons]
    by_cases hk : k < size
    · have hlen : (dumpCell mem size k).length = 3 := by
        rw [dumpCell, if_pos hk, List.length_append, (readCell_hex _).1]
        rfl
      have hread : readCell (dumpCell mem size k) = [mem k] := by
        rw [dumpCell, if_pos hk]
        exact (readCell_hex _).2
      rw [readCells, List.take_left' hlen, List.drop_left' hlen, ih, hread]
      simp [hk]
    · -- nothing follows the last byte
      have hrest : (List.range' (k + 1) n).flatMap (dumpCell mem size) = [] := by
        refine List.flatMap_eq_nil_iff.mpr fun i hi => if_neg ?_
        have := (List.mem_range'_1.mp hi).1
        omega
      have hback : (List.range' (k + 1) n).filter (· < size) = [] := by
        refine List.filter_eq_nil_iff.mpr fun i hi => ?_
        have := (List.mem_range'_1.mp hi).1
        simp only [decide_eq_true_eq]
        omega
      rw [hrest, dumpCell, if_neg hk, List.nil_append, hnil]
      simp [hk, hback]

theorem readRow_dumpRow (mem : Mem) (size k : ℕ) :
    readRow (dumpRowText mem size k) = ((List.range' k 16).filter (· < size)).map mem := by
  have hlabel : ∀ c ∈ hex 2 (k % 0x100), (decide (c ≠ ' ')) = true := fun c hc =>
    decide_eq_true (hex_ne (by decide) hc)
  rw [readRow, dumpRowText]
  simp only [List.append_assoc]
  rw [List.dropWhile_append_of_pos hlabel]
  exact readCells_dumpCell mem size 16 k

/-- A row shows the bytes that are left, 16 at most. -/
theorem flatMap_dumpCell (mem : Mem) (size k : ℕ) :
    (List.range' k 16).flatMap (dumpCell mem size) =
      (List.range' k (min 16 (size - k))).flatMap fun i => hex 2 (mem i).toNat ++ [' '] := by
  have hsplit : List.range' k 16 = List.range' k (min 16 (size - k)) ++
      List.range' (k + min 16 (size - k)) (16 - min 16 (size - k)) := by
    rw [List.range'_append_1]
    congr 1
    omega
  have hbehind : (List.range' (k + min 16 (size - k)) (16 - min 16 (size - k))).flatMap
      (dumpCell mem size) = [] := by
    refine List.flatMap_eq_nil_iff.mpr fun i hi => if_neg ?_
    have := List.mem_range'_1.mp hi
    omega
  rw [hsplit, List.flatMap_append, hbehind, List.append_nil]
  refine List.flatMap_congr fun i hi => if_pos ?_
  have := List.mem_range'_1.mp hi
  omega

/-- The reader for the text of `hexdump` reads that of `dump` as well. -/
theorem readBody_dumpBody (mem : Mem) (size : ℕ) :
    readBody (dumpBody mem size) = (List.range size).map mem := by
  obtain ⟨blank, hblank, hlines⟩ := splitOn_dumpBody mem size
  have hempty : blank.flatMap readRow = [] :=
    List.flatMap_eq_nil_iff.mpr fun l hl => by rw [hblank l hl]; rfl
  have hle : size ≤ 16 * rowCount size := by
    unfold rowCount
    omega
  rw [readBody, bodyLines, hlines, List.flatMap_append, hempty, List.append_nil, List.flatMap_map,
    ← filter_range_lt hle, ← flatMap_range_rows, List.filter_flatMap, List.map_flatMap]
  exact List.flatMap_congr fun j _ => readRow_dumpRow mem size (16 * j)

/-- For every buffer the text of `dump` and `fdump` behind the heading consists of rows whose
labels are the low bytes of the offsets; the buffer can be read back from it, by the reader
for `hexdump`; and different buffers are never printed alike. -/
theorem dump_determines (title : Option Text) (f : ℕ) (mem : Mem) (size : ℕ) : ∃ t : Text,
    (∀ fuel, rowCount size < fuel →
      dump title (memory mem) size fuel = .done (.stdout, dumpHeading title ++ t) ∧
      fdump f title (memory mem) size fuel = .done (.file f, dumpHeading title ++ t)) ∧
    (∃ blank : List Text, (∀ l ∈ blank, l = []) ∧ bodyLines t =
      ((List.range (rowCount size)).map fun j => hex 2 (16 * j % 0x100) ++ [' '] ++
        (List.range' (16 * j) (min 16 (size - 16 * j))).flatMap fun k =>
          hex 2 (mem k).toNat ++ [' ']) ++ blank) ∧
    readBody t = (List.range size).map mem ∧
    ∀ mem' size' fuel, rowCount size < fuel → rowCount size' < fuel →
      (dump title (memory mem) size fuel = dump title (memory mem') size' fuel ∨
        fdump f title (memory mem) size fuel = fdump f title (memory mem') size' fuel) →
          (List.range size).map mem = (List.range size').map mem' := by
  refine ⟨dumpBody mem size, fun _ => dump_done title f mem, ?_, readBody_dumpBody mem size, ?_⟩
  · obtain ⟨blank, hblank, hlines⟩ := splitOn_dumpBody mem size
    refine ⟨blank, hblank, hlines.trans ?_⟩
    simp only [dumpRowText, flatMap_dumpCell]
  · intro mem' size' fuel hf hf' h
    rw [← readBody_dumpBody, ← readBody_dumpBody]
    obtain ⟨h₁, h₂⟩ := dump_done title f mem hf
    obtain ⟨h₁', h₂'⟩ := dump_done title f mem' hf'
    rcases h with h | h
    · rw [h₁, h₁'] at h
      rw [List.append_cancel_left (Prod.ext_iff.mp (Outcome.done.inj h)).2]
    · rw [h₂, h₂'] at h
      rw [List.append_cancel_left (Prod.ext_iff.mp (Outcome.done.inj h)).2]

end Ohmylib.Printlog
