import Mathlib.Logic.Function.Basic
import Ohmylib.Alloc.Ledger
import Ohmylib.Loop.While
import Ohmylib.Vector.Deque

/-! The program `examples/vector/vector.c` on the vector it uses. It fills a vector with
structures in blocks of their own, pops them from the front and from the back in turn,
prints and frees them. A pointer is the id of its block; a block that is not live cannot
be read or freed. Which calls of `calloc` and `realloc` succeed is decided for each round
of the filling loop. -/

namespace Ohmylib.Vector.Blocks

open Alloc Loop

/-- A vector that is not `NULL`: its block, and the cells in it. -/
structure Vec where
  block : ℕ
  cells : List (Option ℕ)

/-- What a vector points to. -/
def ptrs (v : Option Vec) (L : Ledger) : Option (Ptrs ℕ) :=
  match v with
  | none => some none
  | some v => if v.block ∈ L.live then some (some v.cells) else none

/-- `pushv`. Its `realloc` gives a new block and frees the old one, if there is one. -/
def pushv (mem : Realloc ℕ) (ptr : Option ℕ) (v : Option Vec) (L : Ledger) :
    Option (Option Vec × Ledger) := do
  match ← Vector.pushv mem ptr (← ptrs v L) with
  | none => some (none, L)
  | some tmp =>
    let L' ← v.elim (some L.alloc) fun v => L.alloc.free v.block
    some (some { block := L.next, cells := tmp }, L')

/-- A call of `free` in `freev`. -/
def freed (v : Option Vec) (L : Ledger) : Freed ℕ → Option Ledger
  | .element ptr => L.free ptr
  | .block => v.bind fun v => L.free v.block

def freev (v : Option Vec) (L : Ledger) : Option Ledger := do
  let frees ← Vector.freev (← ptrs v L)
  frees.foldlM (freed v) L

/-- What `main` prints: its messages, the count, and the value of a structure. -/
inductive Message
  | failedToCalloc
  | failedToPushv
  | elements (n : ℕ)
  | val (val : ℤ)
  deriving DecidableEq

/-- The live blocks, the `val` of each structure and what was printed. -/
structure State where
  ledger : Ledger
  val : ℕ → ℤ
  printed : List Message

/-- What is left at the end, and whether `main` returned 0. -/
structure Exit where
  success : Bool
  ledger : Ledger
  printed : List Message

/-- The filling loop from round `i` on, with `k` rounds to go. An error frees what there
is and exits. -/
def fill (calloc : ℕ → Bool) (mem : ℕ → Realloc ℕ) :
    ℕ → ℕ → Option Vec → State → Option (Except Exit (Option Vec × State))
  | 0, _, v, st => some (.ok (v, st))
  | k + 1, i, v, st =>
    if calloc i then do
      let s := st.ledger.next
      let val := Function.update st.val s (i + 1 : ℕ)
      match ← pushv (mem i) (some s) v st.ledger.alloc with
      | (none, L) =>
        let L ← L.free s
        let L ← freev v L
        some (.error { success := false, ledger := L, printed := st.printed ++ [.failedToPushv] })
      | (some tmp, L) => fill calloc mem k (i + 1) (some tmp) { st with ledger := L, val := val }
    else do
      let L ← freev v st.ledger
      some (.error { success := false, ledger := L, printed := st.printed ++ [.failedToCalloc] })

/-- The variables of the second loop. -/
structure Drain where
  flipflop : Bool
  s : Option ℕ
  v : Option Vec
  st : State

/-- The test `s != NULL`. -/
def Drain.goesOn (d : Drain) : Bool := d.s.isSome

/-- The two branches of the loop differ in the end they pop from. -/
def pop (flipflop : Bool) (p : Ptrs ℕ) : Option (Option ℕ × Ptrs ℕ) :=
  if flipflop then popv p else popvFront p

/-- The body of the second loop. Its `continue` goes on with the test of `s`. -/
def drainBody (d : Drain) : Option Drain := do
  let (s, p) ← pop d.flipflop (← ptrs d.v d.st.ledger)
  let v := d.v.bind fun v => p.map fun cells => { v with cells := cells }
  match s with
  | none => some { d with s := none, v := v }
  | some x =>
    if x ∈ d.st.ledger.live then
      let L ← d.st.ledger.free x
      some {
        flipflop := !d.flipflop
        s := some x
        v := v
        st := { d.st with ledger := L, printed := d.st.printed ++ [.val (d.st.val x)] } }
    else none

/-- `do … while(s != NULL)`. -/
def drain (fuel : ℕ) (d : Drain) : Outcome Drain :=
  match drainBody d with
  | none => .fault
  | some d => whileLoop Drain.goesOn drainBody fuel d

/-- `main`, for any number of elements. -/
def program (n : ℕ) (calloc : ℕ → Bool) (mem : ℕ → Realloc ℕ) (fuel : ℕ) : Outcome Exit :=
  match fill calloc mem n 0 none { ledger := .empty, val := fun _ => 0, printed := [] } with
  | none => .fault
  | some (.error e) => .done e
  | some (.ok (v, st)) =>
    match (ptrs v st.ledger).bind countv with
    | none => .fault
    | some count =>
      let st := { st with printed := st.printed ++ [.elements count] }
      match drain fuel { flipflop := false, s := none, v := v, st := st } with
      | .fault => .fault
      | .running => .running
      | .done d =>
        match freev d.v d.st.ledger with
        | none => .fault
        | some L => .done { success := true, ledger := L, printed := d.st.printed }

def main : (ℕ → Bool) → (ℕ → Realloc ℕ) → ℕ → Outcome Exit := program 0x100

/-! ### The vector and its blocks -/

/-- The vector holds `l`, and the live blocks are its own, those of `l` and `rest`. -/
structure Keeps (v : Option Vec) (l : List ℕ) (L : Ledger) (rest : List ℕ) : Prop where
  holds : Holds (v.map Vec.cells) l
  owns : Owns L (v.toList.map Vec.block ++ (l ++ rest))

variable {v : Option Vec} {w : Vec} {l rest : List ℕ} {L : Ledger} {ptr : ℕ}

theorem Keeps.ptrs (h : Keeps v l L rest) : ptrs v L = some (v.map Vec.cells) := by
  cases v with
  | none => rfl
  | some v =>
    have hm : v.block ∈ L.live := (List.Perm.mem_iff h.owns).mpr (by simp)
    exact if_pos hm

theorem pushv_keeps (h : Keeps v l L (ptr :: rest)) (junk : ℕ → Option ℕ) : ∃ tmp L',
    pushv (some junk) (some ptr) v L = some (some tmp, L') ∧
      Keeps (some tmp) (l ++ [ptr]) L' rest := by
  obtain ⟨cells, hp, hc⟩ := pushv_holds h.holds junk ptr
  have hl : l ++ ptr :: rest = (l ++ [ptr]) ++ rest := by simp
  cases v with
  | none =>
    have hp : Vector.pushv (some junk) (some ptr) none = some (some cells) := hp
    refine ⟨{ block := L.next, cells := cells }, L.alloc, by simp [pushv, h.ptrs, hp], hc, ?_⟩
    have ho := h.owns.alloc
    rwa [hl] at ho
  | some v =>
    have ho : Owns L.alloc (v.block :: L.next :: ((l ++ [ptr]) ++ rest)) := by
      have ho := h.owns.alloc
      rw [hl] at ho
      exact ho.perm (List.Perm.swap _ _ _)
    obtain ⟨L', hf, ho'⟩ := Owns.free ho
    have hp : Vector.pushv (some junk) (some ptr) (some v.cells) = some (some cells) := hp
    exact ⟨{ block := L.next, cells := cells }, L', by simp [pushv, h.ptrs, hp, hf], hc, ho'⟩

/-- Without memory `pushv` leaves the vector as it is. -/
theorem pushv_fails (h : Keeps v l L rest) (ptr : ℕ) :
    pushv none (some ptr) v L = some (none, L) := by
  have hp := push_fails h.holds (.inr rfl : some ptr = none ∨ (none : Realloc ℕ) = none)
  obtain ⟨u, hu, hr⟩ := Option.map_eq_some_iff.mp hp
  have hu' : u = none := by
    rw [Prod.mk.injEq, Resp.vector.injEq] at hr
    exact Option.isSome_eq_false_iff.mp hr.1 |> Option.isNone_iff_eq_none.mp
  rw [hu'] at hu
  simp [pushv, h.ptrs, hu]

/-- `freev` frees the elements and the vector. -/
theorem freev_keeps (h : Keeps v l L rest) : ∃ L', freev v L = some L' ∧ Owns L' rest := by
  have ho : Owns L (l ++ (v.toList.map Vec.block ++ rest)) := h.owns.swap
  obtain ⟨L₁, hl, ho₁⟩ := Owns.freeAll l ho
  have helems : (l.map Freed.element).foldlM (freed v) L = some L₁ := by
    rw [List.foldlM_map]
    exact hl
  have hf := freev_holds h.holds
  cases v with
  | none =>
    have hf : Vector.freev none = some (l.map .element ++ []) := hf
    exact ⟨L₁, by simpa [freev, h.ptrs, hf] using helems, ho₁⟩
  | some v =>
    obtain ⟨L', hb, ho'⟩ := Owns.free ho₁
    refine ⟨L', ?_, ho'⟩
    have hf : Vector.freev (some v.cells) = some (l.map .element ++ [.block]) := hf
    have hlast : [Freed.block].foldlM (freed (some v)) L₁ = some L' := by
      simp [freed, hb]
    simp only [freev, h.ptrs, Option.map_some, Option.bind_eq_bind, Option.bind_some, hf,
      List.foldlM_append, helems, hlast]

/-! ### Filling -/

/-- The allocations of round `i` succeed. -/
def Succeeds (calloc : ℕ → Bool) (mem : ℕ → Realloc ℕ) (i : ℕ) : Prop :=
  calloc i = true ∧ (mem i).isSome = true

/-- The vector holds structures with the values `1`, …, `i`, and nothing else is live. -/
structure Filled (i : ℕ) (v : Option Vec) (st : State) (l : List ℕ) : Prop where
  keeps : Keeps v l st.ledger []
  vals : l.map st.val = (List.range' 1 i).map Nat.cast

/-- The program has freed everything and reports the allocation of round `i`. -/
structure GaveUp (calloc : ℕ → Bool) (i : ℕ) (e : Exit) : Prop where
  failed : e.success = false
  owns : Owns e.ledger []
  printed : e.printed = [if calloc i then .failedToPushv else .failedToCalloc]

variable {calloc : ℕ → Bool} {mem : ℕ → Realloc ℕ} {i k : ℕ} {st : State}

/-- The structure of round `i`, before it is pushed. -/
theorem Filled.fresh (h : Filled i v st l) :
    Keeps v l st.ledger.alloc [st.ledger.next] ∧
      (l ++ [st.ledger.next]).map (Function.update st.val st.ledger.next (i + 1 : ℕ)) =
        (List.range' 1 (i + 1)).map Nat.cast := by
  have hfresh : ∀ x ∈ l, x ≠ st.ledger.next := by
    rintro x hx rfl
    have hlive : st.ledger.next ∈ st.ledger.live :=
      (List.Perm.mem_iff h.keeps.owns).mpr (by simp [hx])
    exact Nat.lt_irrefl _ (st.ledger.fresh _ hlive)
  constructor
  · refine ⟨h.keeps.holds, h.keeps.owns.alloc.perm ?_⟩
    rw [List.append_nil, ← List.append_assoc]
    exact (List.perm_append_singleton _ _).symm
  · have hold : l.map (Function.update st.val st.ledger.next (i + 1 : ℕ)) = l.map st.val :=
      List.map_congr_left fun x hx => Function.update_of_ne (hfresh x hx) _ _
    rw [List.map_append, hold, h.vals, List.range'_1_concat, List.map_append]
    simp [Nat.add_comm]

/-- A round whose allocations succeed. -/
theorem fill_next (h : Filled i v st l) (hs : Succeeds calloc mem i) (k : ℕ) : ∃ tmp st' l',
    fill calloc mem (k + 1) i v st = fill calloc mem k (i + 1) (some tmp) st' ∧
      Filled (i + 1) (some tmp) st' l' ∧ st'.printed = st.printed := by
  obtain ⟨hc, hm⟩ := hs
  obtain ⟨junk, hj⟩ := Option.isSome_iff_exists.mp hm
  obtain ⟨hk, hv⟩ := h.fresh
  obtain ⟨tmp, L', hp, hk'⟩ := pushv_keeps hk junk
  have hfill : Filled (i + 1) (some tmp) { st with
      ledger := L'
      val := Function.update st.val st.ledger.next (i + 1 : ℕ) } (l ++ [st.ledger.next]) :=
    ⟨hk', hv⟩
  refine ⟨tmp, _, _, ?_, hfill, rfl⟩
  simp only [fill, hc, ↓reduceIte, hj, hp, Option.bind_eq_bind, Option.bind_some]

/-- A round whose allocations do not succeed is the last. -/
theorem fill_stops (h : Filled i v st l) (hp : st.printed = []) (hs : ¬ Succeeds calloc mem i)
    (k : ℕ) : ∃ e, fill calloc mem (k + 1) i v st = some (.error e) ∧ GaveUp calloc i e := by
  cases hc : calloc i with
  | false =>
    obtain ⟨L', hf, ho⟩ := freev_keeps h.keeps
    refine ⟨{ success := false, ledger := L', printed := [.failedToCalloc] }, ?_, rfl, ho, ?_⟩
    · simp [fill, hc, hf, hp]
    · simp [hc]
  | true =>
    have hm : mem i = none := by
      rw [← Option.not_isSome_iff_eq_none]
      exact fun hm => hs ⟨hc, hm⟩
    obtain ⟨hk, -⟩ := h.fresh
    have hpush := pushv_fails hk st.ledger.next
    have ho : Owns st.ledger.alloc (st.ledger.next :: (v.toList.map Vec.block ++ (l ++ []))) :=
      h.keeps.owns.alloc
    obtain ⟨L₁, hf₁, ho₁⟩ := Owns.free ho
    obtain ⟨L', hf, ho'⟩ := freev_keeps ⟨h.keeps.holds, ho₁⟩
    refine ⟨{ success := false, ledger := L', printed := [.failedToPushv] }, ?_, rfl, ho', ?_⟩
    · simp [fill, hc, hm, hpush, hf₁, hf, hp]
    · simp [hc]

/-- The loop fills the vector, or gives up in the first round that does not succeed. -/
theorem fill_ends (calloc : ℕ → Bool) (mem : ℕ → Realloc ℕ) (k : ℕ) :
    ∀ {i : ℕ} {v : Option Vec} {st : State} {l : List ℕ}, Filled i v st l → st.printed = [] →
      ((∀ j, i ≤ j → j < i + k → Succeeds calloc mem j) ∧ ∃ v' st' l',
        fill calloc mem k i v st = some (.ok (v', st')) ∧ Filled (i + k) v' st' l' ∧
          st'.printed = []) ∨
      ∃ j, i ≤ j ∧ j < i + k ∧ (∀ m, i ≤ m → m < j → Succeeds calloc mem m) ∧
        ¬ Succeeds calloc mem j ∧
        ∃ e, fill calloc mem k i v st = some (.error e) ∧ GaveUp calloc j e := by
  induction k with
  | zero =>
    intro i v st l h hp
    exact .inl ⟨fun j hij hj => absurd hj (Nat.not_lt.mpr hij), v, st, l, rfl, h, hp⟩
  | succ k ih =>
    intro i v st l h hp
    by_cases hs : Succeeds calloc mem i
    · obtain ⟨tmp, st₁, l₁, he, h₁, hp₁⟩ := fill_next h hs k
      have hfirst : ∀ m, i ≤ m → (i + 1 ≤ m → Succeeds calloc mem m) → Succeeds calloc mem m :=
        fun m hm hrest => hm.eq_or_lt.elim (fun hi => hi ▸ hs) hrest
      rw [he]
      rcases ih h₁ (hp₁.trans hp) with ⟨hall, v', st', l', hf, h', hp'⟩ |
        ⟨j, hij, hj, hbefore, hfail, e, hf, hg⟩
      · refine .inl ⟨fun j hij hj => hfirst j hij fun hlt => hall j hlt (by omega), v', st', l', hf,
          ?_, hp'⟩
        rwa [Nat.add_right_comm] at h'
      · exact .inr ⟨j, by omega, by omega,
          fun m him hm => hfirst m him fun hlt => hbefore m hlt hm, hfail, e, hf, hg⟩
    · obtain ⟨e, he, hg⟩ := fill_stops h hp hs k
      exact .inr ⟨i, le_rfl, by omega, fun m him hm => absurd hm (Nat.not_lt.mpr him), hs, e, he,
        hg⟩

/-! ### Draining -/

/-- Taking elements from the front and from the back of a list in turn, until there is none.
The flag tells whether the back has its turn. -/
inductive Turns {α : Type} : Bool → List α → List α → Prop
  | done (back : Bool) : Turns back [] []
  | front {x : α} {l out : List α} (h : Turns true l out) : Turns false (x :: l) (x :: out)
  | back {x : α} {l out : List α} (h : Turns false l out) : Turns true (l ++ [x]) (x :: out)

variable {d : Drain} {out : List ℕ} {p' : List (Option ℕ)} {x : ℕ}

/-- A round that pops the element `x` and leaves `out`. -/
theorem drainBody_pop (hv : d.v = some w) (h : Keeps d.v l d.st.ledger [])
    (hp : pop d.flipflop (some w.cells) = some (some x, some p')) (hc : Holds (some p') out)
    (hl : l.Perm (x :: out)) : ∃ L', Keeps (some { w with cells := p' }) out L' [] ∧
      drainBody d = some {
        flipflop := !d.flipflop
        s := some x
        v := some { w with cells := p' }
        st := { d.st with ledger := L', printed := d.st.printed ++ [.val (d.st.val x)] } } := by
  obtain ⟨flipflop, s, v, st⟩ := d
  subst hv
  have hswap : (w.block :: l).Perm (x :: w.block :: out) :=
    (hl.cons w.block).trans (List.Perm.swap x w.block out)
  have ho : Owns st.ledger (x :: w.block :: (out ++ [])) := h.owns.perm (by simpa using hswap)
  have hx : x ∈ st.ledger.live := (List.Perm.mem_iff ho).mpr List.mem_cons_self
  obtain ⟨L', hf, ho'⟩ := Owns.free ho
  refine ⟨L', ⟨hc, ho'⟩, ?_⟩
  simp only at hp
  simp [drainBody, h.ptrs, hp, hx, hf]

/-- A round that finds the vector empty. -/
theorem drainBody_nil (hv : d.v = some w) (h : Keeps d.v [] d.st.ledger []) : ∃ p',
    Keeps (some { w with cells := p' }) [] d.st.ledger [] ∧
      drainBody d = some { d with s := none, v := some { w with cells := p' } } := by
  obtain ⟨flipflop, s, v, st⟩ := d
  subst hv
  obtain ⟨p', hp, hc⟩ : ∃ p', pop flipflop (some w.cells) = some (none, some p') ∧
      Holds (some p') [] := by
    cases flipflop with
    | false => exact popvFront_holds h.holds
    | true => exact popv_holds h.holds
  refine ⟨p', ⟨hc, h.owns⟩, ?_⟩
  simp [drainBody, h.ptrs, hp]

/-- From `d` on, which holds `l`, the loop ends with an empty vector and has printed the
structures `out` in between. -/
def Drains (l out : List ℕ) (d : Drain) : Prop :=
  ∃ d', Keeps d'.v [] d'.st.ledger [] ∧
    d'.st.printed = d.st.printed ++ out.map (fun x => .val (d.st.val x)) ∧
      ∀ fuel, l.length + 2 ≤ fuel → whileLoop Drain.goesOn drainBody fuel d = .done d'

theorem drains_nil (hs : d.goesOn = true) (hv : d.v = some w)
    (h : Keeps d.v [] d.st.ledger []) : Drains [] [] d := by
  obtain ⟨p', h', hb⟩ := drainBody_nil hv h
  refine ⟨{ d with s := none, v := some { w with cells := p' } }, h', by simp, fun fuel hf => ?_⟩
  obtain ⟨fuel, rfl⟩ := Nat.exists_eq_add_of_le' hf
  rw [List.length_nil, Nat.zero_add, whileLoop_next hs hb]
  exact whileLoop_exit rfl fuel

/-- One more round in front. -/
theorem drains_cons {l' : List ℕ} (hs : d.goesOn = true) (hv : d.v = some w)
    (h : Keeps d.v l d.st.ledger [])
    (hp : ∃ p', pop d.flipflop (some w.cells) = some (some x, some p') ∧ Holds (some p') l')
    (hl : l.Perm (x :: l')) (hrest : ∀ d₁ : Drain, d₁.flipflop = (!d.flipflop) →
      d₁.goesOn = true → d₁.v.isSome = true → Keeps d₁.v l' d₁.st.ledger [] → Drains l' out d₁) :
    Drains l (x :: out) d := by
  obtain ⟨p', hp, hc⟩ := hp
  obtain ⟨L', h', hb⟩ := drainBody_pop hv h hp hc hl
  obtain ⟨d', hd', hprinted, hrun⟩ := hrest ⟨_, some x, some _, { d.st with
    ledger := L'
    printed := d.st.printed ++ [.val (d.st.val x)] }⟩ rfl rfl rfl h'
  refine ⟨d', hd', by simpa using hprinted, fun fuel hf => ?_⟩
  rw [hl.length_eq, List.length_cons] at hf
  obtain ⟨fuel, rfl⟩ := Nat.exists_eq_add_of_le' (by omega : 1 ≤ fuel)
  rw [whileLoop_next hs hb]
  exact hrun fuel (by omega)

/-- The loop pops the elements in turns. -/
theorem drains_turns {back : Bool} {l out : List ℕ} (ht : Turns back l out) :
    ∀ {d : Drain}, d.flipflop = back → d.goesOn = true → d.v.isSome = true →
      Keeps d.v l d.st.ledger [] → Drains l out d := by
  induction ht with
  | done back =>
    intro d hb hs hv h
    obtain ⟨w, hv⟩ := Option.isSome_iff_exists.mp hv
    exact drains_nil hs hv h
  | @front x l out ht ih =>
    intro d hb hs hv h
    obtain ⟨w, hv⟩ := Option.isSome_iff_exists.mp hv
    have hh : Holds (some w.cells) (x :: l) := by simpa [hv] using h.holds
    refine drains_cons hs hv h ?_ (List.Perm.refl _) fun d₁ hb₁ => ih (by rw [hb₁, hb]; rfl)
    rw [hb]
    exact popvFront_holds hh
  | @back x l out ht ih =>
    intro d hb hs hv h
    obtain ⟨w, hv⟩ := Option.isSome_iff_exists.mp hv
    have hh : Holds (some w.cells) (l ++ [x]) := by simpa [hv] using h.holds
    refine drains_cons hs hv h ?_ (List.perm_append_singleton x l) fun d₁ hb₁ =>
      ih (by rw [hb₁, hb]; rfl)
    have hp := popv_holds hh
    rw [List.getLast?_concat, List.dropLast_concat] at hp
    rwa [hb]

/-- The body does not read `s`, so `do … while` is a while loop that is entered. -/
theorem drain_eq (fuel : ℕ) (d : Drain) : drain fuel d =
    whileLoop Drain.goesOn drainBody (fuel + 1) { d with s := some 0 } := by
  have hb : drainBody { d with s := some 0 } = drainBody d := rfl
  unfold drain
  cases h : drainBody d with
  | none => exact (whileLoop_fault rfl (hb.trans h) fuel).symm
  | some d' => exact (whileLoop_next rfl (hb.trans h) fuel).symm

/-- What the turns give of `2 * m` values from `a` on: the smallest, the largest, the second
smallest and so on. -/
def inTurns (a m : ℕ) : List ℤ :=
  (List.range m).flatMap fun k => [((a + k : ℕ) : ℤ), ((a + 2 * m - 1 - k : ℕ) : ℤ)]

theorem inTurns_succ (a m : ℕ) :
    inTurns a (m + 1) = (a : ℤ) :: ((a + 2 * m + 1 : ℕ) : ℤ) :: inTurns (a + 1) m := by
  have hrest : ((List.range m).flatMap fun k =>
      [((a + k.succ : ℕ) : ℤ), ((a + 2 * (m + 1) - 1 - k.succ : ℕ) : ℤ)]) = inTurns (a + 1) m := by
    apply List.flatMap_congr
    intro k _
    rw [show a + k.succ = a + 1 + k by omega,
      show a + 2 * (m + 1) - 1 - k.succ = a + 1 + 2 * m - 1 - k by omega]
  rw [inTurns, List.range_succ_eq_map, List.flatMap_cons, List.flatMap_map, hrest]
  rfl

theorem turns_range (val : ℕ → ℤ) (m : ℕ) : ∀ {a : ℕ} {l : List ℕ},
    l.map val = (List.range' a (2 * m)).map Nat.cast →
      ∃ out, Turns false l out ∧ out.map val = inTurns a m := by
  induction m with
  | zero =>
    intro a l hl
    obtain rfl : l = [] := List.map_eq_nil_iff.mp hl
    exact ⟨[], .done false, rfl⟩
  | succ m ih =>
    intro a l hl
    rw [Nat.mul_succ, List.range'_succ, List.map_cons, List.range'_1_concat, List.map_append] at hl
    obtain ⟨x, l, rfl, hx, hl⟩ := List.map_eq_cons_iff.mp hl
    obtain ⟨l, last, rfl, hmid, hlast⟩ := List.map_eq_append_iff.mp hl
    obtain ⟨y, rfl, hy⟩ := List.map_eq_singleton_iff.mp hlast
    obtain ⟨out, ht, hout⟩ := ih hmid
    refine ⟨x :: y :: out, ht.back.front, ?_⟩
    rw [List.map_cons, List.map_cons, hx, hy, hout, inTurns_succ, Nat.add_right_comm]

/-! ### The program -/

/-- Without a failure the program frees all it allocated and prints the values in turns. -/
theorem program_drains {m : ℕ} (hm : 0 < m) {st : State} (hf : Filled (2 * m) v st l)
    (hp : st.printed = [])
    (hfill : fill calloc mem (2 * m) 0 none
      { ledger := .empty, val := fun _ => 0, printed := [] } = some (.ok (v, st))) :
    ∃ L, Owns L [] ∧ ∀ fuel, 2 * m < fuel → program (2 * m) calloc mem fuel = .done {
      success := true
      ledger := L
      printed := .elements (2 * m) :: (inTurns 1 m).map .val } := by
  have hlen : l.length = 2 * m := by simpa using congrArg List.length hf.vals
  obtain ⟨w, rfl⟩ : ∃ w, v = some w := by
    cases v with
    | some w => exact ⟨w, rfl⟩
    | none =>
      obtain rfl : l = [] := hf.keeps.holds
      exact absurd hlen (by simpa using hm.ne')
  have hcount : (ptrs (some w) st.ledger).bind countv = some (2 * m) := by
    rw [hf.keeps.ptrs, ← hlen]
    exact countv_holds hf.keeps.holds
  obtain ⟨out, ht, hout⟩ := turns_range st.val m hf.vals
  obtain ⟨d', hd', hprinted, hrun⟩ := drains_turns ht (d := {
    flipflop := false, s := some 0, v := some w,
    st := { st with printed := st.printed ++ [.elements (2 * m)] } }) rfl rfl rfl hf.keeps
  obtain ⟨L, hfree, ho⟩ := freev_keeps hd'
  have hshown : d'.st.printed = .elements (2 * m) :: (inTurns 1 m).map .val := by
    rw [hprinted, hp, ← hout, List.map_map]
    rfl
  refine ⟨L, ho, fun fuel hfuel => ?_⟩
  simp only [program, hfill, hcount, drain_eq, hrun (fuel + 1) (by omega), hfree, hshown]

/-- `main` frees every block it allocated, once, whatever allocations fail. If none does it
prints the values from both ends in turn and succeeds; otherwise it reports the first that
fails and nothing else. -/
theorem main_frees_all (calloc : ℕ → Bool) (mem : ℕ → Realloc ℕ) : ∃ e,
    (∀ fuel, 0x100 < fuel → main calloc mem fuel = .done e) ∧ e.ledger.live = [] ∧
      (((∀ i < 0x100, Succeeds calloc mem i) ∧ e.success = true ∧
          e.printed = .elements 0x100 ::
            ((List.range 0x80).flatMap fun k => [.val (1 + k : ℕ), .val (0x100 - k : ℕ)])) ∨
        ∃ i < 0x100, (∀ j < i, Succeeds calloc mem j) ∧ ¬ Succeeds calloc mem i ∧
          e.success = false ∧
            e.printed = [if calloc i then .failedToPushv else .failedToCalloc]) := by
  let st₀ : State := { ledger := .empty, val := fun _ => 0, printed := [] }
  have h₀ : Filled 0 none st₀ [] := ⟨⟨rfl, owns_empty⟩, rfl⟩
  rcases fill_ends calloc mem 0x100 h₀ rfl with ⟨hall, v, st, l, hfill, hf, hp⟩ |
    ⟨i, -, hi, hbefore, hfail, e, hfill, hg⟩
  · obtain ⟨L, ho, hrun⟩ := program_drains (m := 0x80) (by decide) hf hp hfill
    refine ⟨_, hrun, List.Perm.eq_nil ho, .inl ⟨fun i hi => hall i (Nat.zero_le i) (by omega), rfl,
      ?_⟩⟩
    simp [inTurns, List.map_flatMap]
  · refine ⟨e, fun fuel _ => ?_, List.Perm.eq_nil hg.owns, .inr ⟨i, by omega,
      fun j hj => hbefore j (Nat.zero_le j) hj, hfail, hg.failed, hg.printed⟩⟩
    simp only [main, program]
    rw [hfill]

end Ohmylib.Vector.Blocks
