import Mathlib.Data.List.Induction
import Mathlib.Data.List.Perm.Basic
import Ohmylib.Vector.Model

/-! The vector as a double-ended list. Its elements are the cells up to the first
`NULL`; every operation finds the end again, so a push may shrink the block and the
cells behind the end are never seen. No sequence of calls leaves the block, and every
pushed pointer is popped once or freed once at the end. -/

namespace Ohmylib.Vector

open Sentinel

variable {α : Type}

/-- The elements of a vector. The pointer `NULL` is an empty vector. -/
def Holds : Ptrs α → List α → Prop
  | none, l => l = []
  | some cells, l => Terminated none (l.map some) cells

variable {ptrs ptrs' : Ptrs α} {cells : List (Option α)} {l : List α}

theorem null_notMem (l : List α) : none ∉ l.map some := by
  simp

theorem holds_append (l : List α) (stale : List (Option α)) :
    Holds (some (l.map some ++ none :: stale)) l :=
  terminated_append (null_notMem l) stale

/-- Growing or shrinking to two cells more than there are elements keeps the elements. -/
theorem realloc_holds (h : Holds ptrs l) (junk : ℕ → Option α) :
    ∃ a b, realloc (some junk) ptrs (2 + l.length) = some (l.map some ++ [a, b]) := by
  obtain ⟨rest, hrest⟩ : ∃ rest, ptrs.getD [] = l.map some ++ rest := by
    cases ptrs with
    | none => exact ⟨[], by rw [show l = [] from h]; rfl⟩
    | some cells =>
      obtain ⟨stale, hs⟩ := Terminated.split h
      exact ⟨none :: stale, hs⟩
  let cell : ℕ → Option α := fun i => ((ptrs.getD [])[i]?).getD (junk i)
  refine ⟨cell l.length, cell (l.length + 1), ?_⟩
  have hpre : (List.range l.length).map cell = l.map some := by
    apply List.ext_getElem
    · simp
    · intro i hi hi'
      rw [List.length_map] at hi'
      simp [cell, hrest, List.getElem?_append_left, hi']
  rw [realloc, Option.map_some, Nat.add_comm, List.range_succ, List.range_succ, List.map_append,
    List.map_append, List.append_assoc]
  rw [show ((List.range l.length).map fun i => ((ptrs.getD [])[i]?).getD (junk i)) = l.map some
    from hpre]
  rfl

variable [DecidableEq α]

theorem nptrs_holds (h : Holds (some cells) l) : nptrs (some cells) = some l.length := by
  have hs := Terminated.scan h
  rw [List.length_map] at hs
  exact hs

theorem pushv_holds (h : Holds ptrs l) (junk : ℕ → Option α) (ptr : α) : ∃ cells,
    pushv (some junk) (some ptr) ptrs = some (some cells) ∧ Holds (some cells) (l ++ [ptr]) := by
  obtain ⟨a, b, hr⟩ := realloc_holds h junk
  have hn : pushSize ptrs = some (2 + l.length) := by
    cases ptrs with
    | none =>
      rw [show l = [] from h]
      rfl
    | some cells =>
      rw [pushSize, nptrs_holds h]
      rfl
  have hw : writeCell (l.map some ++ [a, b]) l.length (some ptr) =
      some (l.map some ++ [some ptr, b]) := by
    have := writeCell_append (l.map some) a (some ptr) [b]
    rwa [List.length_map] at this
  have hw' : writeCell (l.map some ++ [some ptr, b]) (l.length + 1) none =
      some ((l ++ [ptr]).map some ++ none :: []) := by
    have := writeCell_append ((l ++ [ptr]).map some) b none []
    simpa using this
  refine ⟨(l ++ [ptr]).map some ++ none :: [], ?_, holds_append _ _⟩
  simp only [pushv, hn, hr, Option.bind_eq_bind, Option.bind_some, Nat.add_sub_cancel_left,
    show 2 + l.length - 1 = l.length + 1 by omega, hw, hw']

theorem popv_holds (h : Holds (some cells) l) : ∃ cells',
    popv (some cells) = some (l.getLast?, some cells') ∧ Holds (some cells') l.dropLast := by
  have hn := nptrs_holds h
  cases l using List.reverseRecOn with
  | nil => exact ⟨cells, by simp [popv, hn], h⟩
  | append_singleton xs x =>
    obtain ⟨stale, rfl⟩ := Terminated.split h
    have hcells : (xs ++ [x]).map some ++ none :: stale =
        xs.map some ++ some x :: none :: stale := by
      simp
    have hw := writeCell_append (xs.map some) (some x) none (none :: stale)
    rw [List.length_map] at hw
    refine ⟨xs.map some ++ none :: none :: stale, ?_, ?_⟩
    · rw [hcells] at hn ⊢
      simp [popv, hn, hw]
    · rw [List.dropLast_concat]
      exact holds_append xs _

theorem popvFront_holds (h : Holds (some cells) l) : ∃ cells',
    popvFront (some cells) = some (l.head?, some cells') ∧ Holds (some cells') l.tail := by
  obtain ⟨stale, rfl⟩ := Terminated.split h
  cases l with
  | nil =>
    refine ⟨none :: stale, ?_, h⟩
    simp [popvFront, shift_sentinel]
  | cons x xs =>
    have hs := shift_append (null_notMem (x :: xs)) stale
    refine ⟨xs.map some ++ none :: none :: stale, ?_, holds_append xs _⟩
    rw [List.map_cons]
    simp only [popvFront, Option.bind_eq_bind, Option.bind_some, hs]
    rfl

theorem countv_holds (h : Holds (some cells) l) : countv (some cells) = some l.length :=
  nptrs_holds h

omit [DecidableEq α] in
theorem freeElements_holds (l : List α) (stale : List (Option α)) :
    freeElements (l.map some ++ none :: stale) = some (l.map .element) := by
  induction l with
  | nil => rfl
  | cons x l ih =>
    rw [List.map_cons, List.cons_append, freeElements, ih]
    rfl

omit [DecidableEq α] in
/-- `freev` frees the elements and then the block, if there is one. -/
theorem freev_holds (h : Holds ptrs l) :
    freev ptrs = some (l.map .element ++ if ptrs.isSome then [.block] else []) := by
  cases ptrs with
  | none =>
    rw [show l = [] from h]
    rfl
  | some cells =>
    obtain ⟨stale, rfl⟩ := Terminated.split h
    rw [freev, freeElements_holds]
    rfl

omit [DecidableEq α]

/-- A call on a double-ended list. -/
def Op.spec (l : List α) : Op α → Resp α × List α
  | .push (some ptr) (some _) => (.vector true, l ++ [ptr])
  | .push _ _ => (.vector false, l)
  | .pop => (.popped l.getLast?, l.dropLast)
  | .popFront => (.popped l.head?, l.tail)
  | .count => (.count l.length, l)

def specRun (l : List α) : List (Op α) → List (Resp α) × List α
  | [] => ([], l)
  | op :: ops => ((op.spec l).1 :: (specRun (op.spec l).2 ops).1, (specRun (op.spec l).2 ops).2)

/-- The call makes a block where there is none. -/
def Op.allocates : Op α → Bool
  | .push ptr mem => ptr.isSome && mem.isSome
  | _ => false

/-- The call needs a vector that is not `NULL`. -/
def Op.needsBlock : Op α → Bool
  | .push _ _ => false
  | _ => true

/-- Only pushes are called before one of them has made a block. -/
def Legal (block : Bool) : List (Op α) → Prop
  | [] => True
  | op :: ops => (op.needsBlock = true → block = true) ∧ Legal (block || op.allocates) ops

/-- The pointers a call adds to the vector. -/
def Op.added : Op α → List α
  | .push (some ptr) (some _) => [ptr]
  | _ => []

/-- The pointers a call hands back. -/
def Resp.taken : Resp α → List α
  | .popped ptr => ptr.toList
  | _ => []

theorem spec_perm (l : List α) (op : Op α) :
    (l ++ op.added).Perm ((op.spec l).1.taken ++ (op.spec l).2) := by
  cases op with
  | push ptr mem =>
    cases ptr with
    | none => simp [Op.added, Op.spec, Resp.taken]
    | some ptr => cases mem <;> simp [Op.added, Op.spec, Resp.taken]
  | pop =>
    cases l using List.reverseRecOn with
    | nil => simp [Op.added, Op.spec, Resp.taken]
    | append_singleton xs x => simp [Op.added, Op.spec, Resp.taken]
  | popFront => cases l <;> simp [Op.added, Op.spec, Resp.taken]
  | count => simp [Op.added, Op.spec, Resp.taken]

/-- No pointer is lost and none is handed back twice. -/
theorem specRun_perm (ops : List (Op α)) (l : List α) :
    (l ++ ops.flatMap Op.added).Perm
      ((specRun l ops).1.flatMap Resp.taken ++ (specRun l ops).2) := by
  induction ops generalizing l with
  | nil => simp [specRun]
  | cons op ops ih =>
    have hs := (spec_perm l op).append_right (ops.flatMap Op.added)
    have hr := (ih (op.spec l).2).append_left (op.spec l).1.taken
    simp only [List.append_assoc] at hs hr
    simpa only [specRun, List.flatMap_cons, List.append_assoc] using hs.trans hr

variable [DecidableEq α]

/-- A push that fails, for a pointer `NULL` or for want of memory. -/
theorem push_fails (h : Holds ptrs l) {ptr : Option α} {mem : Realloc α}
    (hf : ptr = none ∨ mem = none) : (Op.push ptr mem).exec ptrs = some (.vector false, ptrs) := by
  cases ptr with
  | none => rfl
  | some ptr =>
    have hm : mem = none := hf.resolve_left (Option.some_ne_none ptr)
    subst hm
    have hn : ∃ n, pushSize ptrs = some n := by
      cases ptrs with
      | none => exact ⟨2, rfl⟩
      | some cells =>
        rw [pushSize, nptrs_holds h]
        exact ⟨_, rfl⟩
    obtain ⟨n, hn⟩ := hn
    simp [Op.exec, pushv, hn, realloc]

/-- One call stays inside the block and acts as on the list. -/
theorem exec_holds (h : Holds ptrs l) (op : Op α) (hb : op.needsBlock = true → ptrs.isSome = true) :
    ∃ ptrs', op.exec ptrs = some ((op.spec l).1, ptrs') ∧ Holds ptrs' (op.spec l).2 ∧
      ptrs'.isSome = (ptrs.isSome || op.allocates) := by
  cases op with
  | push ptr mem =>
    cases ptr with
    | none => exact ⟨ptrs, push_fails h (.inl rfl), h, by simp [Op.allocates]⟩
    | some ptr =>
      cases mem with
      | none => exact ⟨ptrs, push_fails h (.inr rfl), h, by simp [Op.allocates]⟩
      | some junk =>
        obtain ⟨cells, hp, hl⟩ := pushv_holds h junk ptr
        exact ⟨some cells, by simp [Op.exec, hp, Op.spec], hl, by simp [Op.allocates]⟩
  | pop =>
    obtain ⟨cells, rfl⟩ := Option.isSome_iff_exists.mp (hb rfl)
    obtain ⟨cells', hp, hl⟩ := popv_holds h
    exact ⟨some cells', by simp [Op.exec, hp, Op.spec], hl, rfl⟩
  | popFront =>
    obtain ⟨cells, rfl⟩ := Option.isSome_iff_exists.mp (hb rfl)
    obtain ⟨cells', hp, hl⟩ := popvFront_holds h
    exact ⟨some cells', by simp [Op.exec, hp, Op.spec], hl, rfl⟩
  | count =>
    obtain ⟨cells, rfl⟩ := Option.isSome_iff_exists.mp (hb rfl)
    exact ⟨some cells, by simp [Op.exec, countv_holds h, Op.spec], h, rfl⟩

theorem run_holds (ops : List (Op α)) : ∀ {ptrs : Ptrs α} {l : List α}, Holds ptrs l →
    Legal ptrs.isSome ops → ∃ ptrs', run ptrs ops = some ((specRun l ops).1, ptrs') ∧
      Holds ptrs' (specRun l ops).2 ∧ ptrs'.isSome = (ptrs.isSome || ops.any Op.allocates) := by
  induction ops with
  | nil =>
    intro ptrs l h _
    exact ⟨ptrs, rfl, h, by simp⟩
  | cons op ops ih =>
    intro ptrs l h hl
    obtain ⟨ptrs₁, he, h₁, hs⟩ := exec_holds h op hl.1
    have hl₁ := hl.2
    rw [← hs] at hl₁
    obtain ⟨ptrs', hr, h', hs'⟩ := ih h₁ hl₁
    refine ⟨ptrs', by simp [run, he, hr, specRun], h', ?_⟩
    rw [hs', hs, List.any_cons, Bool.or_assoc]

/-- The vector refines a double-ended list. A run that pops and counts only once the
vector is not `NULL` never leaves a block and answers as the list does; the cells up to
the first `NULL` are the list; `freev` frees what is still in it; every pushed pointer
was popped once or is still in the list; a failing push changes nothing. -/
theorem vector_refines_deque (ops : List (Op α)) (hl : Legal false ops) : ∃ rs ptrs,
    run none ops = some (rs, ptrs) ∧ rs = (specRun [] ops).1 ∧ Holds ptrs (specRun [] ops).2 ∧
    freev ptrs = some ((specRun [] ops).2.map .element ++
      if ops.any Op.allocates then [.block] else []) ∧
    (ops.flatMap Op.added).Perm (rs.flatMap Resp.taken ++ (specRun [] ops).2) ∧
    ∀ ptr mem, ptr = none ∨ mem = none →
      (Op.push ptr mem).exec ptrs = some (.vector false, ptrs) := by
  have h₀ : Holds (none : Ptrs α) [] := rfl
  obtain ⟨ptrs, hr, h, hs⟩ := run_holds ops h₀ hl
  have hf := freev_holds h
  rw [hs, Option.isSome_none, Bool.false_or] at hf
  exact ⟨_, ptrs, hr, rfl, h, hf, specRun_perm ops [], fun ptr mem hf => push_fails h hf⟩

/-- Draining a vector and filling it again. -/
theorem vector_refines_deque_drained : ∃ rs ptrs,
    run (none : Ptrs ℕ) [.push (some 1) (some fun _ => some 7), .popFront, .pop,
      .push (some 2) (some fun _ => some 7), .push (some 3) none, .count] = some (rs, ptrs) ∧
    rs = [.vector true, .popped (some 1), .popped none, .vector true, .vector false, .count 1] ∧
    freev ptrs = some [.element 2, .block] := by
  obtain ⟨rs, ptrs, hr, hrs, -, hf, -⟩ := vector_refines_deque
    [.push (some 1) (some fun _ => some 7), .popFront, .pop,
      .push (some 2) (some fun _ => some 7), .push (some 3) none, .count]
    (by simp [Legal, Op.needsBlock, Op.allocates])
  exact ⟨rs, ptrs, hr, hrs, hf⟩

end Ohmylib.Vector
