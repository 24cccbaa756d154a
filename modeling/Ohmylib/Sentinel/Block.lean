import Mathlib.Data.List.Basic

/-! Blocks of cells whose contents end at a sentinel. The length of the contents is
not stored: it is found by a scan. Reading or writing outside the block has no
result. Cells behind the first sentinel are stale. -/

namespace Ohmylib.Sentinel

variable {β : Type*} {z : β} {xs ys stale cells : List β}

/-- The cells up to the first sentinel are `xs`. -/
structure Terminated (z : β) (xs cells : List β) : Prop where
  notMem : z ∉ xs
  split : ∃ stale, cells = xs ++ z :: stale

theorem terminated_append (h : z ∉ xs) (stale : List β) : Terminated z xs (xs ++ z :: stale) :=
  ⟨h, stale, rfl⟩

/-- Store into a cell of the block. -/
def writeCell (cells : List β) (i : ℕ) (b : β) : Option (List β) :=
  if i < cells.length then some (cells.set i b) else none

theorem writeCell_append (xs : List β) (a b : β) (ys : List β) :
    writeCell (xs ++ a :: ys) xs.length b = some (xs ++ b :: ys) := by
  simp [writeCell]

variable [DecidableEq β]

/-- The number of cells in front of the first sentinel. -/
def scan (z : β) : List β → Option ℕ
  | [] => none
  | b :: cells => if b = z then some 0 else (scan z cells).map (· + 1)

theorem scan_append (h : z ∉ xs) (stale : List β) :
    scan z (xs ++ z :: stale) = some xs.length := by
  induction xs with
  | nil => simp [scan]
  | cons x xs ih =>
    obtain ⟨hx, hxs⟩ := not_or.mp (mt List.mem_cons.mpr h)
    rw [List.cons_append, scan, if_neg (Ne.symm hx), ih hxs]
    rfl

theorem Terminated.scan (h : Terminated z xs cells) : scan z cells = some xs.length := by
  obtain ⟨stale, rfl⟩ := h.split
  exact scan_append h.notMem stale

/-- The first cell that holds `c`, searched up to the first sentinel. A search for the
sentinel finds it. -/
def search (c z : β) : List β → Option (Option ℕ)
  | [] => none
  | b :: cells =>
    if b = c then some (some 0)
    else if b = z then some none else (search c z cells).map fun i => i.map (· + 1)

/-- A search passes cells that hold neither `c` nor the sentinel. -/
theorem search_append {c : β} (h : z ∉ xs) (hc : c ∉ xs) (cells : List β) :
    search c z (xs ++ cells) = (search c z cells).map fun i => i.map (· + xs.length) := by
  induction xs with
  | nil => simp
  | cons x xs ih =>
    obtain ⟨hz, hzs⟩ := not_or.mp (mt List.mem_cons.mpr h)
    obtain ⟨hx, hxs⟩ := not_or.mp (mt List.mem_cons.mpr hc)
    rw [List.cons_append, search, if_neg (Ne.symm hx), if_neg (Ne.symm hz), ih hzs hxs]
    simp [Function.comp_def, Nat.add_assoc]

theorem search_of_mem {c : β} (h : z ∉ xs) (hc : c ∉ xs) (rest : List β) :
    search c z (xs ++ c :: rest) = some (some xs.length) := by
  rw [search_append h hc, search, if_pos rfl]
  simp

theorem search_of_notMem {c : β} (h : z ∉ xs) (hc : c ∉ xs) (hcz : c ≠ z) (stale : List β) :
    search c z (xs ++ z :: stale) = some none := by
  rw [search_append h hc, search, if_neg hcz.symm, if_pos rfl]
  rfl

/-- Move every cell in front of the sentinel one place to the front: a cell that is
not the sentinel takes what its successor holds. -/
def shift (z : β) : List β → Option (List β)
  | [] => none
  | [b] => if b = z then some [b] else none
  | b :: b' :: cells =>
    if b = z then some (b :: b' :: cells) else (shift z (b' :: cells)).map (b' :: ·)

theorem shift_sentinel (z : β) (stale : List β) : shift z (z :: stale) = some (z :: stale) := by
  cases stale <;> simp [shift]

/-- The first element is dropped; the old sentinel stays behind the new one. -/
theorem shift_append {x : β} (h : z ∉ x :: xs) (stale : List β) :
    shift z (x :: xs ++ z :: stale) = some (xs ++ z :: z :: stale) := by
  induction xs generalizing x with
  | nil =>
    have hx : x ≠ z := fun hx => h (hx ▸ List.mem_cons_self)
    rw [List.cons_append, List.nil_append, shift, if_neg hx, shift_sentinel]
    rfl
  | cons y xs ih =>
    have hx : x ≠ z := fun hx => h (hx ▸ List.mem_cons_self)
    have hy := ih fun hy => h (List.mem_cons_of_mem _ hy)
    rw [List.cons_append] at hy
    rw [List.cons_append, List.cons_append, shift, if_neg hx, hy]
    rfl

end Ohmylib.Sentinel
