import Ohmylib.Vector.Deque

/-! The two empty vectors, `NULL` and a block whose first cell is `NULL`, under all
five functions. A program starts with one of them and starts over with it after a
`freev`. From a block every sequence of calls is answered as by a list. From `NULL`
only `pushv` and `freev` are: the others follow the pointer. -/

namespace Ohmylib.Vector

variable {α : Type}

/-- A call of one of the five functions. -/
inductive Call (α : Type)
  | op (o : Op α)
  | free

/-- What a call gives back; of a `freev` the elements it frees, in order. -/
inductive Answer (α : Type)
  | resp (r : Resp α)
  | freed (elements : List α)
  deriving DecidableEq

/-- The element a call of `free` gets. -/
def Freed.ptr : Freed α → Option α
  | .element ptr => some ptr
  | .block => none

theorem filterMap_freed (l : List α) (b : Bool) :
    (l.map Freed.element ++ if b then [Freed.block] else []).filterMap Freed.ptr = l := by
  cases b <;> simp [Function.comp_def, Freed.ptr]

variable [DecidableEq α]

/-- One call of a program that starts with the vector `empty`. -/
def Call.exec (empty ptrs : Ptrs α) : Call α → Option (Answer α × Ptrs α)
  | .op o => (o.exec ptrs).map fun p => (.resp p.1, p.2)
  | .free => (freev ptrs).map fun fs => (.freed (fs.filterMap Freed.ptr), empty)

def runCalls (empty ptrs : Ptrs α) : List (Call α) → Option (List (Answer α) × Ptrs α)
  | [] => some ([], ptrs)
  | c :: cs =>
    match c.exec empty ptrs with
    | none => none
    | some (r, ptrs') => (runCalls empty ptrs' cs).map fun p => (r :: p.1, p.2)

omit [DecidableEq α] in
/-- A call on a list, which `freev` empties. -/
def Call.spec (l : List α) : Call α → Answer α × List α
  | .op o => (.resp (o.spec l).1, (o.spec l).2)
  | .free => (.freed l, [])

/-- The answers of a list. -/
def specCalls (l : List α) : List (Call α) → List (Answer α)
  | [] => []
  | c :: cs => (c.spec l).1 :: specCalls (c.spec l).2 cs

/-- Since the start or the last `freev`, only pushes are called before one of them has
made a block; `reset` and `block` tell whether the program starts with a block and
whether it has one. -/
def LegalCalls (reset block : Bool) : List (Call α) → Prop
  | [] => True
  | .op o :: cs => (o.needsBlock = true → block = true) ∧ LegalCalls reset (block || o.allocates) cs
  | .free :: cs => LegalCalls reset reset cs

/-- From `NULL` and from a block with `NULL` in front, every call is defined, with the
answer of the empty list. -/
def AgreeOnEmpty (stale : List (Option α)) (cs : List (Call α)) : Prop :=
  (∃ ptrs, runCalls none none cs = some (specCalls [] cs, ptrs)) ∧
    ∃ ptrs, runCalls (some (none :: stale)) (some (none :: stale)) cs =
      some (specCalls [] cs, ptrs)

variable {empty ptrs : Ptrs α} {l : List α}

/-- One call acts as on the list. -/
theorem call_holds (he : Holds empty []) (h : Holds ptrs l) (c : Call α)
    (hb : ∀ o, c = .op o → o.needsBlock = true → ptrs.isSome = true) :
    ∃ ptrs', c.exec empty ptrs = some ((c.spec l).1, ptrs') ∧ Holds ptrs' (c.spec l).2 ∧
      ptrs'.isSome = match c with
        | .op o => ptrs.isSome || o.allocates
        | .free => empty.isSome := by
  cases c with
  | op o =>
    obtain ⟨ptrs', hx, hl, hs⟩ := exec_holds h o (hb o rfl)
    exact ⟨ptrs', by simp [Call.exec, hx, Call.spec], hl, hs⟩
  | free =>
    refine ⟨empty, ?_, he, rfl⟩
    rw [Call.exec, freev_holds h, Option.map_some, filterMap_freed]
    rfl

/-- A legal sequence of calls acts as on the list. -/
theorem runCalls_holds (he : Holds empty []) (cs : List (Call α)) : ∀ {ptrs : Ptrs α} {l : List α},
    Holds ptrs l → LegalCalls empty.isSome ptrs.isSome cs →
    ∃ ptrs', runCalls empty ptrs cs = some (specCalls l cs, ptrs') := by
  induction cs with
  | nil =>
    intro ptrs l _ _
    exact ⟨ptrs, rfl⟩
  | cons c cs ih =>
    intro ptrs l h hl
    obtain ⟨ptrs₁, hx, h₁, hs⟩ := call_holds he h c (by rintro o rfl; exact hl.1)
    have hl₁ : LegalCalls empty.isSome ptrs₁.isSome cs := by
      rw [hs]
      cases c with
      | op o => exact hl.2
      | free => exact hl
    obtain ⟨ptrs', hr⟩ := ih h₁ hl₁
    exact ⟨ptrs', by simp [runCalls, hx, hr, specCalls]⟩

omit [DecidableEq α] in
/-- A program that starts with a block always has one. -/
theorem legalCalls_block (cs : List (Call α)) : LegalCalls true true cs := by
  induction cs with
  | nil => trivial
  | cons c cs ih =>
    cases c with
    | op o => exact ⟨fun _ => rfl, ih⟩
    | free => exact ih

/-- `popv`, `popv_front` and `countv` follow the pointer they are given. -/
theorem exec_null {o : Op α} (h : o.needsBlock = true) : o.exec none = none := by
  cases o with
  | push ptr mem => cases h
  | _ => rfl

/-- A sequence of calls from `NULL` is only defined if it is legal. -/
theorem legalCalls_of_run (cs : List (Call α)) : ∀ {ptrs ptrs' : Ptrs α} {l : List α}
    {rs : List (Answer α)}, Holds ptrs l → runCalls none ptrs cs = some (rs, ptrs') →
    LegalCalls false ptrs.isSome cs := by
  induction cs with
  | nil =>
    intro ptrs ptrs' l rs _ _
    trivial
  | cons c cs ih =>
    intro ptrs ptrs' l rs h hr
    have hb : ∀ o, c = .op o → o.needsBlock = true → ptrs.isSome = true := by
      rintro o rfl ho
      cases ptrs with
      | none => simp [runCalls, Call.exec, exec_null ho] at hr
      | some cells => rfl
    have he : Holds (none : Ptrs α) [] := rfl
    obtain ⟨ptrs₁, hx, h₁, hs⟩ := call_holds he h c hb
    simp only [runCalls, hx, Option.map_eq_some_iff] at hr
    obtain ⟨⟨rs', v⟩, hr, -⟩ := hr
    have hl := ih h₁ hr
    rw [hs] at hl
    cases c with
    | op o => exact ⟨hb o rfl, hl⟩
    | free => exact hl

/-- The functions agree on the two empty vectors exactly as long as nothing is popped
or counted before something was pushed. -/
theorem agree_on_empty_iff (stale : List (Option α)) (cs : List (Call α)) :
    AgreeOnEmpty stale cs ↔ LegalCalls false false cs := by
  have hnull : Holds (none : Ptrs α) [] := rfl
  have hblock : Holds (some (none :: stale)) ([] : List α) := holds_append [] stale
  constructor
  · rintro ⟨⟨ptrs, hr⟩, -⟩
    exact legalCalls_of_run cs hnull hr
  · intro hl
    exact ⟨runCalls_holds hnull cs hnull hl, runCalls_holds hblock cs hblock (legalCalls_block cs)⟩

/-- Counting the vector nothing was pushed to: 0 for the block, no result for `NULL`. -/
theorem disagree_on_empty :
    runCalls (some [none]) (some [none]) ([.op .count] : List (Call ℕ)) =
      some ([.resp (.count 0)], some [none]) ∧
    runCalls (none : Ptrs ℕ) none [.op .count] = none ∧
    ¬ AgreeOnEmpty ([] : List (Option ℕ)) [.op .count] := by
  refine ⟨rfl, rfl, ?_⟩
  rintro ⟨⟨ptrs, hr⟩, -⟩
  cases hr

end Ohmylib.Vector
