import Mathlib.Data.Nat.ModEq
import Mathlib.Data.Nat.Prime.Basic
import Mathlib.Logic.Function.Basic

/-! Mixing of words. Adding a word to a shifted copy of itself multiplies it by an odd
number, and an exclusive or with a copy shifted to the right keeps its highest bit, so
neither loses a word. A fold whose steps are injective keeps different states apart
whatever it folds over. -/

namespace Ohmylib.Mixing

open Function

variable {w k : ℕ}

theorem toNat_add_shiftLeft (x : BitVec w) (k : ℕ) :
    (x + x <<< k).toNat = x.toNat * (1 + 2 ^ k) % 2 ^ w := by
  rw [BitVec.toNat_add, BitVec.toNat_shiftLeft, Nat.add_mod_mod, Nat.shiftLeft_eq, Nat.mul_add,
    Nat.mul_one]

/-- `x += x << k` for `k` at least 1. -/
theorem add_shiftLeft_injective (hk : 0 < k) : Injective fun x : BitVec w => x + x <<< k := by
  intro x y h
  have hodd : Nat.Coprime (2 ^ w) (1 + 2 ^ k) := by
    apply Nat.Coprime.pow_left
    rw [Nat.coprime_two_left, Nat.odd_iff]
    obtain ⟨j, rfl⟩ := Nat.exists_eq_add_of_lt hk
    rw [Nat.zero_add, Nat.pow_succ]
    omega
  have hmod : x.toNat * (1 + 2 ^ k) ≡ y.toNat * (1 + 2 ^ k) [MOD 2 ^ w] := by
    rw [Nat.ModEq, ← toNat_add_shiftLeft, ← toNat_add_shiftLeft]
    exact congrArg BitVec.toNat h
  have hxy : x.toNat ≡ y.toNat [MOD 2 ^ w] := Nat.ModEq.cancel_right_of_coprime hodd hmod
  apply BitVec.eq_of_toNat_eq
  rwa [Nat.ModEq, Nat.mod_eq_of_lt x.isLt, Nat.mod_eq_of_lt y.isLt] at hxy

/-- Only zero is its own copy shifted to the right. -/
theorem eq_zero_of_ushiftRight (hk : 0 < k) {x : BitVec w} (h : x = x >>> k) : x = 0 := by
  have hdiv : x.toNat = x.toNat / 2 ^ k := by
    rw [← Nat.shiftRight_eq_div_pow, ← BitVec.toNat_ushiftRight, ← h]
  apply BitVec.eq_of_toNat_eq
  by_contra hne
  have hpos : 0 < x.toNat := Nat.pos_of_ne_zero hne
  have hlt := Nat.div_lt_self hpos (Nat.one_lt_two_pow hk.ne')
  omega

/-- `x ^= x >> k` for `k` at least 1. -/
theorem xor_ushiftRight_injective (hk : 0 < k) : Injective fun x : BitVec w => x ^^^ x >>> k := by
  intro x y h
  have hdiff : (x ^^^ y) ^^^ (x ^^^ y) >>> k = 0 := by
    have hxy : (x ^^^ x >>> k) ^^^ (y ^^^ y >>> k) = 0 := BitVec.xor_eq_zero_iff.mpr h
    rw [BitVec.ushiftRight_xor_distrib, ← hxy]
    ac_rfl
  exact BitVec.xor_eq_zero_iff.mp
    (eq_zero_of_ushiftRight hk (BitVec.xor_eq_zero_iff.mp hdiff))

variable {α σ : Type} {f : σ → α → σ}

/-- A fold of injective steps keeps states apart. -/
theorem foldl_injective (hf : ∀ c, Injective fun s => f s c) (l : List α) :
    Injective fun s => l.foldl f s := by
  induction l with
  | nil => exact injective_id
  | cons c l ih => exact ih.comp (hf c)

/-- Lists that differ in one place share what is in front of it and behind it. -/
theorem split_of_differ {l l' : List α} (h : ∃! i : ℕ, l[i]? ≠ l'[i]?) (hl : l.length = l'.length) :
    ∃ a c c' b, l = a ++ c :: b ∧ l' = a ++ c' :: b ∧ c ≠ c' := by
  obtain ⟨i, hi, huniq⟩ := h
  have hsame : ∀ j, j ≠ i → l[j]? = l'[j]? := fun j hj => by
    by_contra hne
    exact hj (huniq j hne)
  have hlt : i < l.length := by
    by_contra hge
    apply hi
    rw [List.getElem?_eq_none (Nat.le_of_not_lt hge),
      List.getElem?_eq_none (hl ▸ Nat.le_of_not_lt hge)]
  have hlt' : i < l'.length := hl ▸ hlt
  have htake : l.take i = l'.take i := by
    apply List.ext_getElem?
    intro j
    rw [List.getElem?_take, List.getElem?_take]
    split_ifs with hj
    · exact hsame j hj.ne
    · rfl
  have hdrop : l.drop (i + 1) = l'.drop (i + 1) := by
    apply List.ext_getElem?
    intro j
    rw [List.getElem?_drop, List.getElem?_drop]
    exact hsame _ (by omega)
  refine ⟨l.take i, l[i], l'[i], l.drop (i + 1), ?_, ?_, fun hc => hi ?_⟩
  · rw [List.getElem_cons_drop, List.take_append_drop]
  · rw [htake, hdrop, List.getElem_cons_drop, List.take_append_drop]
  · rw [List.getElem?_eq_getElem hlt, List.getElem?_eq_getElem hlt', hc]

/-- Where in addition the steps tell elements apart, lists that differ in one place lead
to different states. -/
theorem foldl_ne_of_differ (hf : ∀ c, Injective fun s => f s c) (hc : ∀ s, Injective (f s))
    {l l' : List α} (h : ∃! i : ℕ, l[i]? ≠ l'[i]?) (hl : l.length = l'.length) (s : σ) :
    l.foldl f s ≠ l'.foldl f s := by
  obtain ⟨a, c, c', b, rfl, rfl, hne⟩ := split_of_differ h hl
  rw [List.foldl_append, List.foldl_append, List.foldl_cons, List.foldl_cons]
  exact (foldl_injective hf b).ne ((hc _).ne hne)

end Ohmylib.Mixing
