import Mathlib.Algebra.Group.Nat.Defs
import Mathlib.Logic.Function.Iterate

/-! Shift registers of any width with feedback into several bits at once. A step shifts
to the right and, if a one is shifted out, adds the polynomial: a linear map over the
field of two elements. The state with the top bit alone is cyclic, for its first iterates
are the single bits. So a state stands for the linear map that takes the top bit to it,
composition of maps is a product of states, and `n` steps of the top bit can be found by
repeated squaring. -/

namespace Ohmylib.Galois

open Function

/-- A map that respects exclusive or. -/
def Linear {v w : ℕ} (f : BitVec v → BitVec w) : Prop := ∀ a b, f (a ^^^ b) = f a ^^^ f b

namespace Linear

variable {v w : ℕ} {f g : BitVec v → BitVec w}

theorem zero (hf : Linear f) : f 0#v = 0#w := by
  have h0 := hf 0#v 0#v
  rwa [BitVec.xor_self, BitVec.xor_self] at h0

/-- A bit of the argument that selects a value. -/
theorem select (i : ℕ) (y : BitVec w) :
    Linear fun x : BitVec v => if x.getLsbD i then y else 0#w := by
  intro a b
  simp only [BitVec.getLsbD_xor]
  cases a.getLsbD i <;> cases b.getLsbD i <;> simp

theorem xor (hf : Linear f) (hg : Linear g) : Linear fun x => f x ^^^ g x := by
  intro a b
  simp only [hf a b, hg a b]
  ac_rfl

theorem comp {u : ℕ} {k : BitVec w → BitVec u} (hk : Linear k) (hf : Linear f) :
    Linear fun x => k (f x) := by
  intro a b
  simp only [hf a b, hk (f a) (f b)]

theorem iterate {f : BitVec w → BitVec w} (hf : Linear f) (n : ℕ) : Linear f^[n] :=
  fun a b => Semiconj₂.iterate hf n a b

/-- Linear maps that agree on the single bits are equal. -/
theorem ext (hf : Linear f) (hg : Linear g)
    (h : ∀ i < v, f (BitVec.twoPow v i) = g (BitVec.twoPow v i)) : f = g := by
  have hlow : ∀ n, ∀ x : BitVec v, (∀ i, n ≤ i → x.getLsbD i = false) → f x = g x := by
    intro n
    induction n with
    | zero =>
      intro x hx
      have h0 : x = 0#v := BitVec.eq_of_getLsbD_eq fun i _ => by simp [hx i (Nat.zero_le i)]
      rw [h0, hf.zero, hg.zero]
    | succ n ih =>
      intro x hx
      cases hb : x.getLsbD n with
      | false =>
        refine ih x fun i hi => ?_
        rcases Nat.eq_or_lt_of_le hi with rfl | hi
        · exact hb
        · exact hx i hi
      | true =>
        have hn : n < v := by
          by_contra hn
          rw [BitVec.getLsbD_of_ge x n (Nat.le_of_not_lt hn)] at hb
          cases hb
        have hsplit : x = (x ^^^ BitVec.twoPow v n) ^^^ BitVec.twoPow v n := by
          rw [BitVec.xor_assoc, BitVec.xor_self, BitVec.xor_zero]
        have hrest : f (x ^^^ BitVec.twoPow v n) = g (x ^^^ BitVec.twoPow v n) := by
          refine ih _ fun i hi => ?_
          rw [BitVec.getLsbD_xor, BitVec.getLsbD_twoPow]
          rcases Nat.eq_or_lt_of_le hi with rfl | hi
          · simp [hb, hn]
          · simp [hx i hi, Nat.ne_of_lt hi]
        rw [hsplit, hf, hg, hrest, h n hn]
  exact funext fun x => hlow v x fun i hi => BitVec.getLsbD_of_ge x i hi

end Linear

variable {w n : ℕ} {poly x y : BitVec (w + 1)}

/-- One step of the register with feedback `poly`. -/
def next (poly l : BitVec (w + 1)) : BitVec (w + 1) :=
  l >>> 1 ^^^ if l.getLsbD 0 then poly else 0#(w + 1)

/-- The state with the top bit alone. -/
def top (w : ℕ) : BitVec (w + 1) := BitVec.twoPow (w + 1) w

theorem next_linear (poly : BitVec (w + 1)) : Linear (next poly) :=
  Linear.xor (fun a b => BitVec.ushiftRight_xor_distrib a b 1) (Linear.select 0 poly)

theorem next_twoPow_succ {i : ℕ} (hi : i < w) :
    next poly (BitVec.twoPow (w + 1) (i + 1)) = BitVec.twoPow (w + 1) i := by
  apply BitVec.eq_of_getLsbD_eq
  intro j _
  have hle : i < w + 1 := Nat.lt_succ_of_lt hi
  simp only [next, BitVec.getLsbD_twoPow, BitVec.getLsbD_xor, BitVec.getLsbD_ushiftRight]
  by_cases hij : i = j
  · simp [hi, hle, ← hij, Nat.add_comm]
  · have hne : ¬ i + 1 = 1 + j := by omega
    simp [hij, hne]

theorem next_twoPow_zero : next poly (BitVec.twoPow (w + 1) 0) = poly := by
  have hshift : (BitVec.twoPow (w + 1) 0) >>> 1 = 0#(w + 1) := by
    apply BitVec.eq_of_getLsbD_eq
    intro j _
    have hne : ¬ 0 = 1 + j := by omega
    simp [BitVec.getLsbD_ushiftRight, hne]
  have hbit : (BitVec.twoPow (w + 1) 0).getLsbD 0 = true := by simp
  rw [next, hshift, hbit]
  exact BitVec.zero_xor

/-- The first iterates of the top bit are the single bits. -/
theorem iterate_next_top (poly : BitVec (w + 1)) (k i : ℕ) (hk : k + i = w) :
    (next poly)^[k] (top w) = BitVec.twoPow (w + 1) i := by
  induction k generalizing i with
  | zero =>
    rw [Nat.zero_add] at hk
    rw [iterate_zero_apply, top, hk]
  | succ k ih => rw [iterate_succ_apply', ih (i + 1) (by omega), next_twoPow_succ (by omega)]

/-- A linear map that the register goes through is determined by what it makes of the top bit. -/
theorem ext_top (poly : BitVec (w + 1)) {f g : BitVec (w + 1) → BitVec (w + 1)}
    (hf : Linear f) (hg : Linear g)
    (cf : ∀ x, f (next poly x) = next poly (f x)) (cg : ∀ x, g (next poly x) = next poly (g x))
    (h : f (top w) = g (top w)) : f = g := by
  refine hf.ext hg fun i hi => ?_
  rw [← iterate_next_top poly (w - i) i (by omega)]
  have hcf := (Semiconj.iterate_right (f := f) cf (w - i)).eq (top w)
  have hcg := (Semiconj.iterate_right (f := g) cg (w - i)).eq (top w)
  rw [hcf, hcg, h]

/-! ### The product of states -/

/-- The bits of `x` below `n`, each taken `y` once as far as it is from `n`. -/
def horner (poly x y : BitVec (w + 1)) : ℕ → BitVec (w + 1)
  | 0 => 0#(w + 1)
  | n + 1 => next poly (horner poly x y n) ^^^ if x.getLsbD n then y else 0#(w + 1)

/-- What the map that takes the top bit to `x` makes of `y`. -/
def mul (poly x y : BitVec (w + 1)) : BitVec (w + 1) := horner poly x y (w + 1)

theorem horner_linear_left (poly y : BitVec (w + 1)) (n : ℕ) :
    Linear fun x => horner poly x y n := by
  induction n with
  | zero => exact fun _ _ => BitVec.xor_self.symm
  | succ n ih => exact ((next_linear poly).comp ih).xor (Linear.select n y)

theorem horner_linear_right (poly x : BitVec (w + 1)) (n : ℕ) :
    Linear fun y => horner poly x y n := by
  induction n with
  | zero => exact fun _ _ => BitVec.xor_self.symm
  | succ n ih =>
    refine ((next_linear poly).comp ih).xor fun a b => ?_
    cases x.getLsbD n <;> simp

theorem horner_next (n : ℕ) :
    horner poly x (next poly y) n = next poly (horner poly x y n) := by
  induction n with
  | zero => exact (next_linear poly).zero.symm
  | succ n ih =>
    rw [horner, horner, ih, next_linear poly]
    cases x.getLsbD n with
    | true => rfl
    | false => simp [(next_linear poly).zero]

/-- A state that is a single bit. -/
theorem horner_twoPow {i : ℕ} (hi : i ≤ w) (n : ℕ) :
    horner poly (BitVec.twoPow (w + 1) i) y n =
      if i < n then (next poly)^[n - 1 - i] y else 0#(w + 1) := by
  induction n with
  | zero => rfl
  | succ n ih =>
    rw [horner, ih, BitVec.getLsbD_twoPow]
    have hlt : i < w + 1 := Nat.lt_succ_of_le hi
    rcases Nat.lt_trichotomy i n with h | rfl | h
    · have hne : ¬ i = n := Nat.ne_of_lt h
      have hn : n - i = n - 1 - i + 1 := by omega
      simp [h, hne, Nat.lt_succ_of_lt h, hn, iterate_succ_apply']
    · simp [hlt, (next_linear poly).zero]
    · have hne : ¬ i = n := Nat.ne_of_gt h
      have hns : ¬ i < n + 1 := by omega
      have hnn : ¬ i < n := by omega
      simp [hne, hns, hnn, (next_linear poly).zero]

theorem mul_twoPow {i : ℕ} (hi : i ≤ w) :
    mul poly (BitVec.twoPow (w + 1) i) y = (next poly)^[w - i] y := by
  rw [mul, horner_twoPow hi, if_pos (Nat.lt_succ_of_le hi), Nat.add_sub_cancel]

theorem mul_top_left : mul poly (top w) y = y := by
  rw [top, mul_twoPow (Nat.le_refl w), Nat.sub_self, iterate_zero_apply]

theorem mul_top_right : mul poly x (top w) = x := by
  have h : (fun x => mul poly x (top w)) = id := by
    refine (horner_linear_left poly (top w) (w + 1)).ext (fun _ _ => rfl) fun i hi => ?_
    rw [← mul, mul_twoPow (Nat.le_of_lt_succ hi), iterate_next_top poly (w - i) i (by omega), id]
  exact congrFun h x

/-- The register satisfies its own characteristic equation. -/
theorem mul_poly : mul poly poly y = (next poly)^[w + 1] y := by
  have h : mul poly poly = (next poly)^[w + 1] := by
    refine ext_top poly (horner_linear_right poly poly (w + 1))
      ((next_linear poly).iterate (w + 1)) (fun x => horner_next (w + 1))
      (fun x => iterate_succ_apply .. ▸ iterate_succ_apply' ..) ?_
    rw [mul_top_right, iterate_succ_apply', iterate_next_top poly w 0 (Nat.add_zero w),
      next_twoPow_zero]
  exact congrFun h y

/-- A step is a factor. -/
theorem mul_next : mul poly (next poly x) y = next poly (mul poly x y) := by
  have h : (fun x => mul poly (next poly x) y) = fun x => next poly (mul poly x y) := by
    refine ((horner_linear_left poly y (w + 1)).comp (next_linear poly)).ext
      ((next_linear poly).comp (horner_linear_left poly y (w + 1))) fun i hi => ?_
    show mul poly (next poly (BitVec.twoPow (w + 1) i)) y =
      next poly (mul poly (BitVec.twoPow (w + 1) i) y)
    rw [mul_twoPow (Nat.le_of_lt_succ hi)]
    cases i with
    | zero => rw [next_twoPow_zero, mul_poly, Nat.sub_zero, iterate_succ_apply']
    | succ i =>
      have hi : i < w := Nat.lt_of_succ_lt_succ hi
      have hsteps : w - i = w - (i + 1) + 1 := by omega
      rw [next_twoPow_succ hi, mul_twoPow (Nat.le_of_lt hi), hsteps, iterate_succ_apply']
  exact congrFun h x

/-- Steps of the top bit, as a factor, are steps. -/
theorem mul_iterate_top (n : ℕ) : mul poly ((next poly)^[n] (top w)) y = (next poly)^[n] y := by
  induction n with
  | zero => exact mul_top_left
  | succ n ih => rw [iterate_succ_apply', mul_next, ih, iterate_succ_apply']

/-- `n` steps of the top bit, by repeated squaring, for `n` below `2 ^ bits`. -/
def power (poly : BitVec (w + 1)) : ℕ → ℕ → BitVec (w + 1)
  | 0, _ => top w
  | bits + 1, n =>
    if n % 2 = 1 then next poly ((fun r => mul poly r r) (power poly bits (n / 2)))
    else (fun r => mul poly r r) (power poly bits (n / 2))

theorem power_eq {bits : ℕ} (hn : n < 2 ^ bits) :
    power poly bits n = (next poly)^[n] (top w) := by
  induction bits generalizing n with
  | zero =>
    obtain rfl : n = 0 := by simpa using hn
    rfl
  | succ bits ih =>
    have hhalf : n / 2 < 2 ^ bits := by
      rw [Nat.pow_succ] at hn
      omega
    have hsq : mul poly (power poly bits (n / 2)) (power poly bits (n / 2)) =
        (next poly)^[n / 2 + n / 2] (top w) := by
      rw [ih hhalf, mul_iterate_top, iterate_add_apply]
    simp only [power, hsq]
    split
    · rw [← iterate_succ_apply' (next poly)]
      congr 1
      omega
    · congr 1
      omega

end Ohmylib.Galois
