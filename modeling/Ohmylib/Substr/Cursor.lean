import Ohmylib.Substr.Failure

/-! The cursors of `iter_substr`. A separator lies in front of the terminator, so the
cursor behind it is at most the terminator and the next call reads the rest of the
string. The terminator as separator is found by `strchr` as well, and the cursor
behind it has left the string. Allocations fail in any pattern. -/

namespace Ohmylib.Substr

open Sentinel

variable {mem : List UInt8} {ok : ℕ → Bool} {p q i : ℕ} {needle : UInt8} {t rest : List UInt8}
  {h : Option ℕ}

/-- The calls of `substr` that the loop makes for the string at `p`: call `i` gets `h`. -/
inductive Reached (mem : List UInt8) (ok : ℕ → Bool) (needle : UInt8) (p : ℕ) :
    ℕ → Option ℕ → Prop
  | first : Reached mem ok needle p 0 (some p)
  | next {i : ℕ} {h n : Option ℕ} {cut : Cut} {str : CString} (hr : Reached mem ok needle p i h)
      (hc : substr mem (ok i) h true needle = some cut) (hs : cut.str = some str)
      (hn : cut.nxt = some n) : Reached mem ok needle p (i + 1) n

/-- The loop stays inside the string of `len` characters at `p`: its cursors point into
the string, its calls read nothing behind the terminator, and it ends. -/
structure StaysInside (mem : List UInt8) (ok : ℕ → Bool) (needle : UInt8) (p len : ℕ) : Prop where
  cursors : ∀ i h cut c, Reached mem ok needle p i h →
    substr mem (ok i) h true needle = some cut → cut.nxt = some (some c) → p ≤ c ∧ c ≤ p + len
  reads : ∀ i h, Reached mem ok needle p i h →
    substr (mem.take (p + len + 1)) (ok i) h true needle ≠ none
  ends : ∀ n, ∃ fields cursor, fields.length ≤ len + 1 ∧
    ∀ fuel, len + 2 ≤ fuel → iterSubstr mem ok needle fuel 0 (some p) n = .ended fields cursor

/-- One call inside the string: there is no cursor, or one behind a separator. -/
theorem substr_inside (ok : Bool) (hn : needle ≠ 0) (ht : 0 ∉ t)
    (hm : mem.drop q = t ++ 0 :: rest) : ∃ cut, substr mem ok (some q) true needle = some cut ∧
      (cut.nxt = some none ∨ ∃ f t', t = f ++ needle :: t' ∧
        cut.nxt = some (some (q + f.length + 1)) ∧
        mem.drop (q + f.length + 1) = t' ++ 0 :: rest) := by
  by_cases hc : needle ∈ t
  · obtain ⟨f, t', rfl, hf⟩ := List.eq_append_cons_of_mem hc
    have hf0 : 0 ∉ f := fun h => ht (List.mem_append_left _ h)
    rw [List.append_assoc] at hm
    exact ⟨_, substr_field hm hf0 hf, .inr ⟨f, t', rfl, rfl, drop_field hm⟩⟩
  · exact ⟨_, substr_last hm ht hc hn, .inl rfl⟩

/-- The cursor is `NULL` or has the rest of the string, up to its end `e`, before it. -/
def Inside (mem rest : List UInt8) (p e : ℕ) (h : Option ℕ) : Prop :=
  ∀ q, h = some q → ∃ t, 0 ∉ t ∧ mem.drop q = t ++ 0 :: rest ∧ p ≤ q ∧ q + t.length = e

/-- A call that gets a cursor inside the string stores one. -/
theorem Inside.next {ok : Bool} {e : ℕ} {cut : Cut} {n : Option ℕ} (hi : Inside mem rest p e h)
    (hn : needle ≠ 0) (hc : substr mem ok h true needle = some cut) (hx : cut.nxt = some n) :
    Inside mem rest p e n := by
  rintro q' rfl
  cases h with
  | none =>
    cases hc
    cases hx
  | some q =>
    obtain ⟨t, ht, hm, hpq, he⟩ := hi q rfl
    obtain ⟨cut', hc', hcut⟩ := substr_inside ok hn ht hm
    obtain rfl : cut' = cut := Option.some.inj (hc'.symm.trans hc)
    rcases hcut with hcut | ⟨f, t', rfl, hcut, hm'⟩
    · rw [hx] at hcut
      cases hcut
    · rw [hx] at hcut
      cases hcut
      rw [List.length_append, List.length_cons] at he
      exact ⟨t', fun h => ht (List.mem_append_right f (List.mem_cons_of_mem _ h)), hm', by omega,
        by omega⟩

/-- All cursors of the loop are inside the string. -/
theorem Reached.inside {s : List UInt8} (hr : Reached mem ok needle p i h) (hn : needle ≠ 0)
    (hs : 0 ∉ s) (hm : mem.drop p = s ++ 0 :: rest) : Inside mem rest p (p + s.length) h := by
  induction hr with
  | first =>
    rintro q ⟨⟩
    exact ⟨s, hs, hm, le_rfl, rfl⟩
  | next hr hc hs' hx ih => exact ih.next hn hc hx

/-- A call on a cursor inside the string reads nothing behind the terminator. -/
theorem Inside.reads {e : ℕ} (hi : Inside mem rest p e h) (hn : needle ≠ 0) (ok : Bool) :
    substr (mem.take (e + 1)) ok h true needle ≠ none := by
  cases h with
  | none => simp [substr]
  | some q =>
    obtain ⟨t, ht, hm, -, he⟩ := hi q rfl
    have hm' : (mem.take (e + 1)).drop q = t ++ 0 :: [] := by
      rw [List.drop_take, hm, ← he, show q + t.length + 1 - q = t.length + 1 by omega,
        List.take_length_add_append]
      rfl
    obtain ⟨cut, hc, -⟩ := substr_inside ok hn ht hm'
    rw [hc]
    exact Option.some_ne_none cut

/-- From any cursor into the string, the loop ends, whatever allocations fail. -/
theorem iterSubstr_ends (hn : needle ≠ 0) (ok : ℕ → Bool) {n : Option ℕ} (ht : 0 ∉ t)
    (hm : mem.drop q = t ++ 0 :: rest) : ∃ fields cursor, fields.length ≤ t.length + 1 ∧
      ∀ fuel, t.length + 2 ≤ fuel →
        iterSubstr mem ok needle fuel i (some q) n = .ended fields cursor := by
  have hcount : t.count needle ≤ t.length := List.count_le_length
  by_cases hok : ∀ j ≤ t.count needle, ok (i + j) = true
  · obtain ⟨fields, hfields, hrun⟩ := iterSubstr_fields hn ok t ht hm hok
    refine ⟨fields, none, ?_, fun fuel hfuel => hrun fuel (by omega) n⟩
    rw [← List.length_map (f := CString.bytes), hfields, length_splitOn]
    omega
  · obtain ⟨j, hj, hbefore, hfail⟩ := exists_first_failure hok
    obtain ⟨fields, hfields, hrun⟩ := iterSubstr_failing hn ok t ht hm hj hbefore hfail
    refine ⟨fields, _, ?_, fun fuel hfuel => hrun fuel (by omega) n⟩
    rw [← List.length_map (f := CString.bytes), hfields, List.length_take]
    omega

/-- The loop stays inside its string exactly when the separator is not the
terminator. -/
theorem stays_inside_iff (mem rest : List UInt8) (p : ℕ) (s : CString)
    (hm : mem.drop p = s.bytes ++ 0 :: rest) (ok : ℕ → Bool) (needle : UInt8) :
    StaysInside mem ok needle p s.bytes.length ↔ needle ≠ 0 := by
  constructor
  · rintro h rfl
    have hcall : substr mem (ok 0) (some p) true 0 = some
        { str := if ok 0 then some s else none, nxt := some (some (p + s.bytes.length + 1)) } :=
      substr_field hm s.noNul s.noNul
    have := (h.cursors 0 _ _ _ .first hcall rfl).2
    omega
  · intro hn
    refine ⟨fun i h cut c hr hc hx => ?_, fun i h hr => ?_, fun n => ?_⟩
    · obtain ⟨t, -, -, hle, he⟩ := ((hr.inside hn s.noNul hm).next hn hc hx) c rfl
      omega
    · exact (hr.inside hn s.noNul hm).reads hn (ok i)
    · exact iterSubstr_ends hn ok s.noNul hm

theorem stays_inside_comma :
    StaysInside [0x61, 0x2c, 0x62, 0, 0x7f] (fun _ => true) 0x2c 0 3 ↔ (0x2c : UInt8) ≠ 0 :=
  stays_inside_iff [0x61, 0x2c, 0x62, 0, 0x7f] [0x7f] 0 (.ofBytes [0x61, 0x2c, 0x62]) rfl _ _

/-- With the terminator as separator the loop goes on behind the string `a`, and there
out of its object. -/
theorem leaves_string : iterSubstr [0x61, 0] (fun _ => true) 0 5 0 (some 0) none = .fault ∧
    ¬ StaysInside [0x61, 0] (fun _ => true) 0 0 1 := by
  refine ⟨by decide, fun h => ?_⟩
  have hcall : substr [0x61, 0] true (some 0) true 0 = some
      { str := some (.ofBytes [0x61]), nxt := some (some 2) } := by decide
  exact absurd (h.cursors 0 _ _ _ .first hcall rfl).2 (by decide)

end Ohmylib.Substr
