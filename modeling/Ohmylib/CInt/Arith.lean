import Mathlib.Data.Int.ModEq

/-! Integer arithmetic of C. Operands of different types are converted to a common
type before every operation. Unsigned results are taken modulo a power of two, a
signed result that does not fit is undefined. A value carries along whether no
conversion and no operation on the way to it has changed a number. -/

namespace Ohmylib.CInt

/-- An integer type of at least the rank of `int`, so that promotion keeps it. -/
structure Ty where
  rank : ℕ
  signed : Bool
  bits : ℕ
  deriving DecidableEq

/-- The numbers a type has. -/
def Ty.Fits (t : Ty) (x : ℤ) : Prop :=
  if t.signed then -2 ^ (t.bits - 1) ≤ x ∧ x < 2 ^ (t.bits - 1) else 0 ≤ x ∧ x < 2 ^ t.bits

instance (t : Ty) (x : ℤ) : Decidable (t.Fits x) := by
  unfold Ty.Fits
  infer_instance

/-- Conversion of a number to a type. -/
def Ty.wrap (t : Ty) (x : ℤ) : ℤ :=
  if t.signed then x.bmod (2 ^ t.bits) else x % 2 ^ t.bits

/-- The common type of two operands: between types of one signedness the one of higher
rank. Otherwise the unsigned one, unless the signed one has higher rank; then the signed
one if it has all the numbers of the other, else its unsigned counterpart. -/
def common (s t : Ty) : Ty :=
  if s.signed = t.signed then if s.rank < t.rank then t else s
  else
    let u := if s.signed then t else s
    let v := if s.signed then s else t
    if v.rank ≤ u.rank then u
    else if u.bits < v.bits then v else { v with signed := false }

structure Value where
  ty : Ty
  val : ℤ
  exact : Bool
  deriving DecidableEq

/-- What a variable or a constant holds. -/
def var (t : Ty) (x : ℤ) : Value := { ty := t, val := x, exact := true }

def Value.convert (a : Value) (t : Ty) : Value where
  ty := t
  val := t.wrap a.val
  exact := a.exact && decide (t.Fits a.val)

/-- An operator applied to two operands; `none` where a signed result overflows. -/
def arith (op : ℤ → ℤ → ℤ) (a b : Value) : Option Value :=
  let t := common a.ty b.ty
  let a := a.convert t
  let b := b.convert t
  let r := op a.val b.val
  if t.signed ∧ ¬ t.Fits r then none
  else some { ty := t, val := t.wrap r, exact := a.exact && b.exact && decide (t.Fits r) }

variable {t : Ty} {a b : Value} {op : ℤ → ℤ → ℤ} {x : ℤ}

/-- A number that fits survives its conversion. -/
theorem Ty.wrap_of_fits (hb : 0 < t.bits) (h : t.Fits x) : t.wrap x = x := by
  unfold Ty.Fits at h
  unfold Ty.wrap
  split_ifs at h ⊢ with hs
  · obtain ⟨k, hk⟩ := Nat.exists_eq_succ_of_ne_zero (Nat.pos_iff_ne_zero.mp hb)
    rw [hk, Nat.succ_sub_one] at h
    rw [hk, Nat.pow_succ]
    apply Int.bmod_eq_of_le
    · push_cast
      omega
    · push_cast
      omega
  · exact Int.emod_eq_of_lt h.1 h.2

theorem Value.convert_of_fits (hb : 0 < t.bits) (h : t.Fits a.val) :
    a.convert t = { ty := t, val := a.val, exact := a.exact } := by
  simp [Value.convert, Ty.wrap_of_fits hb h, h]

/-- Where operands and result fit the common type, the operation is the mathematical
one. -/
theorem arith_of_fits (ht : common a.ty b.ty = t) (hb : 0 < t.bits) (ha : t.Fits a.val)
    (hb' : t.Fits b.val) (hr : t.Fits (op a.val b.val)) :
    arith op a b = some { ty := t, val := op a.val b.val, exact := a.exact && b.exact } := by
  simp [arith, ht, Value.convert_of_fits hb ha, Value.convert_of_fits hb hb', hr,
    Ty.wrap_of_fits hb hr]

/-- In an unsigned common type an operation that respects congruence is carried out
modulo the power of two, and it is exact only if its operands are and its result
fits. -/
theorem arith_unsigned (ht : common a.ty b.ty = t) (hs : t.signed = false)
    (hop : ∀ x y : ℤ, op (x % 2 ^ t.bits) (y % 2 ^ t.bits) % 2 ^ t.bits = op x y % 2 ^ t.bits) :
    ∃ e, arith op a b = some { ty := t, val := op a.val b.val % 2 ^ t.bits, exact := e } ∧
      (e = true → a.exact = true ∧ b.exact = true ∧ t.Fits (op a.val b.val)) := by
  have hwrap : ∀ x : ℤ, t.wrap x = x % 2 ^ t.bits := fun x => by simp [Ty.wrap, hs]
  have hfits : ∀ x : ℤ, t.Fits x → x % 2 ^ t.bits = x := by
    intro x hx
    simp only [Ty.Fits, hs, Bool.false_eq_true, ↓reduceIte] at hx
    exact Int.emod_eq_of_lt hx.1 hx.2
  refine ⟨(a.convert t).exact && (b.convert t).exact &&
    decide (t.Fits (op (a.convert t).val (b.convert t).val)), ?_, fun he => ?_⟩
  · simp only [arith, ht, hs, Bool.false_eq_true, false_and, ↓reduceIte, Value.convert, hwrap, hop]
  · simp only [Value.convert, Bool.and_eq_true, decide_eq_true_eq, hwrap] at he
    obtain ⟨⟨⟨hea, hfa⟩, heb, hfb⟩, hr⟩ := he
    rw [hfits _ hfa, hfits _ hfb] at hr
    exact ⟨hea, heb, hr⟩

end Ohmylib.CInt
