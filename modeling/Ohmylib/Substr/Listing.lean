import Ohmylib.Alloc.Ledger
import Ohmylib.Loop.While
import Ohmylib.Substr.Failure

/-! The program `examples/comma_separated_list/main.c`. It prints the fields of its
argument, one a line, and frees each when it is printed. Its exit code does not tell
whether an allocation failed: then the lines from that field on are missing. -/

namespace Ohmylib.Substr.Listing

open Alloc Loop Sentinel

/-- The comma. -/
def comma : UInt8 := 0x2c

def newline : UInt8 := 0x0a

/-- What a run leaves: the return value of `main`, what it printed and the live blocks. -/
structure Exit where
  ret : ℤ
  out : List UInt8
  ledger : Ledger
  deriving DecidableEq

/-- The loop of `main` from its call `i` of `substr` on. The string a call returns is in the
next block of the ledger. -/
def listing (mem : List UInt8) (ok : ℕ → Bool) :
    ℕ → ℕ → Option ℕ → Option ℕ → List UInt8 → Ledger → Loop.Outcome (List UInt8 × Ledger)
  | 0, _, _, _, _, _ => .running
  | fuel + 1, i, haystack, nxt, out, L =>
    match substr mem (ok i) haystack true comma with
    | none => .fault
    | some cut =>
      let nxt := cut.nxt.getD nxt
      match cut.str with
      | none => .done (out, L)
      | some str =>
        match L.alloc.free L.next with
        | none => .fault
        | some L => listing mem ok fuel (i + 1) nxt nxt (out ++ str.bytes ++ [newline]) L

def usage (name : CString) : List UInt8 :=
  "usage: ".toUTF8.toList ++ name.bytes ++ " comma,separated,list\n".toUTF8.toList

/-- `main`. The variable `nxt` has no value at first; `none` stands for any. -/
def main (argv : List CString) (ok : ℕ → Bool) (fuel : ℕ) : Loop.Outcome Exit :=
  match argv with
  | [] => .fault
  | [name] => .done { ret := -1, out := usage name, ledger := .empty }
  | _ :: str :: _ =>
    (listing (str.bytes ++ [0]) ok fuel 0 (some 0) none [] .empty).map fun p =>
      { ret := 0, out := p.1, ledger := p.2 }

variable {mem : List UInt8} {ok : ℕ → Bool} {fuel i : ℕ} {h n cursor : Option ℕ}
  {fields : List CString}

/-- The lines for some fields. -/
def lines (fields : List (List UInt8)) : List UInt8 := fields.flatMap (· ++ [newline])

/-- The body prints and frees what the loop of `iter_substr` gives it. -/
theorem listing_ended (he : iterSubstr mem ok comma fuel i h n = .ended fields cursor)
    (out : List UInt8) (L : Ledger) : ∃ L', L'.next = L.next + fields.length ∧ L'.live = L.live ∧
      listing mem ok fuel i h n out L = .done (out ++ lines (fields.map CString.bytes), L') := by
  induction fuel generalizing i h n fields L out with
  | zero => cases he
  | succ fuel ih =>
    rw [iterSubstr] at he
    cases hc : substr mem (ok i) h true comma with
    | none => simp [hc] at he
    | some cut =>
      cases hs : cut.str with
      | none =>
        simp only [hc, hs] at he
        cases he
        exact ⟨L, rfl, rfl, by simp [listing, hc, hs, lines]⟩
      | some str =>
        simp only [hc, hs] at he
        cases hr : iterSubstr mem ok comma fuel (i + 1) (cut.nxt.getD n) (cut.nxt.getD n) with
        | ended rest cursor' =>
          rw [hr] at he
          cases he
          obtain ⟨L₁, hf, hnext, hlive⟩ := free_alloc L
          obtain ⟨L', hnext', hlive', hrun⟩ := ih hr (out ++ str.bytes ++ [newline]) L₁
          refine ⟨L', ?_, hlive'.trans hlive, ?_⟩
          · rw [hnext', hnext, List.length_cons]
            omega
          · simp only [listing, hc, hs, hf, hrun]
            simp [lines]
        | _ => simp [hr, Outcome.cons] at he

/-- The run of `main` on a loop that ends with `fields`. -/
theorem main_ended (name : CString) {str : CString} (more : List CString)
    (he : ∀ fuel, str.bytes.count comma + 2 ≤ fuel → ∀ n,
      iterSubstr (str.bytes ++ [0]) ok comma fuel 0 (some 0) n = .ended fields cursor) :
    ∃ L, L.live = [] ∧ ∀ fuel, str.bytes.count comma + 2 ≤ fuel →
      main (name :: str :: more) ok fuel =
        .done { ret := 0, out := lines (fields.map CString.bytes), ledger := L } := by
  let L : Ledger := { next := fields.length, live := [], nodup := List.nodup_nil, fresh := by simp }
  refine ⟨L, rfl, fun fuel hfuel => ?_⟩
  obtain ⟨L', hnext, hlive, hrun⟩ := listing_ended (he fuel hfuel none) [] .empty
  have hL : L' = L := by
    obtain ⟨next, live, _, _⟩ := L'
    have hnext : next = fields.length := hnext.trans (Nat.zero_add _)
    have hlive : live = [] := hlive
    subst hnext hlive
    rfl
  rw [main, hrun, hL]
  rfl

/-- `main` frees every string it gets and returns 0. If memory suffices it prints its argument
with line breaks for the commas; otherwise it prints the fields in front of the first one that
has no memory, and nothing tells that there are more. -/
theorem main_lists (name str : CString) (more : List CString) (ok : ℕ → Bool) : ∃ e,
    (∀ fuel, str.bytes.count comma + 2 ≤ fuel → main (name :: str :: more) ok fuel = .done e) ∧
      e.ret = 0 ∧ e.ledger.live = [] ∧
        (((∀ j ≤ str.bytes.count comma, ok j = true) ∧
            e.out = str.bytes.map (fun b => if b = comma then newline else b) ++ [newline]) ∨
          ∃ j ≤ str.bytes.count comma, (∀ k < j, ok k = true) ∧ ok j = false ∧
            e.out = lines ((str.bytes.splitOn comma).take j)) := by
  have hm : (str.bytes ++ [0]).drop 0 = str.bytes ++ 0 :: [] := rfl
  have hn : comma ≠ 0 := by decide
  by_cases hok : ∀ j ≤ str.bytes.count comma, ok (0 + j) = true
  · obtain ⟨fields, hfields, hrun⟩ := iterSubstr_fields hn ok str.bytes str.noNul hm hok
    obtain ⟨L, hL, hmain⟩ := main_ended name more hrun
    refine ⟨_, hmain, rfl, hL, .inl ⟨by simpa using hok, ?_⟩⟩
    rw [hfields]
    exact flatMap_splitOn comma newline str.bytes
  · obtain ⟨j, hj, hbefore, hfail⟩ := exists_first_failure hok
    obtain ⟨fields, hfields, hrun⟩ :=
      iterSubstr_failing hn ok str.bytes str.noNul hm hj hbefore hfail
    obtain ⟨L, hL, hmain⟩ := main_ended name more hrun
    refine ⟨_, hmain, rfl, hL, .inr ⟨j, hj, by simpa using hbefore, by simpa using hfail, ?_⟩⟩
    rw [hfields]

end Ohmylib.Substr.Listing
