import Mathlib.Data.FinEnum
import Ohmylib.Lfsr.Linear
import Ohmylib.Orbit.Period

/-! The period of the shift register. With bit 15 in the polynomial the top bit of a new
state is the bit that was shifted out, so no state is lost: the linear step has kernel
zero, it is injective, and a register that is not zero stays so. Its orbit is periodic
from the seed on. -/

namespace Ohmylib.Lfsr

open Function Orbit

variable {poly l init : BitVec 16}

/-- The top bit of a new state is the bit that was shifted out. -/
theorem getLsbD_step (h : poly.getLsbD 15 = true) (l : BitVec 16) :
    (step poly l).getLsbD 15 = l.getLsbD 0 := by
  have hout : l.getLsbD (1 + 15) = false := BitVec.getLsbD_of_ge l _ le_rfl
  rw [step_eq, BitVec.getLsbD_xor, BitVec.getLsbD_ushiftRight, hout, Bool.false_xor, tap]
  cases l.getLsbD 0 with
  | false => exact BitVec.getLsbD_zero
  | true => exact h

theorem step_eq_zero_iff (h : poly.getLsbD 15 = true) : step poly l = 0 ↔ l = 0 := by
  constructor
  · intro hs
    have hlow : l.getLsbD 0 = false := by
      rw [← getLsbD_step h, hs]
      exact BitVec.getLsbD_zero
    have hhigh : l >>> 1 = 0 := by
      rw [step_eq, tap, hlow] at hs
      simpa using hs
    apply BitVec.eq_of_getLsbD_eq
    intro i hi
    cases i with
    | zero => exact hlow
    | succ i =>
      have hbit := congrArg (fun x => BitVec.getLsbD x i) hhigh
      rw [BitVec.getLsbD_ushiftRight, Nat.add_comm] at hbit
      exact hbit.trans (BitVec.getLsbD_zero.trans BitVec.getLsbD_zero.symm)
  · rintro rfl
    rw [step_eq, tap]
    simp

theorem step_injective (h : poly.getLsbD 15 = true) : Injective (step poly) := by
  intro a b hab
  rw [← BitVec.xor_eq_zero_iff] at hab ⊢
  rw [← step_xor] at hab
  exact (step_eq_zero_iff h).mp hab

/-- The states a register that is not zero can have. -/
def nonzero : Set (BitVec 16) := {0}ᶜ

instance : Fintype nonzero := inferInstanceAs (Fintype ({0}ᶜ : Set (BitVec 16)))

theorem card_nonzero : Fintype.card nonzero = 65535 := by
  have hcard : Fintype.card ({0}ᶜ : Set (BitVec 16)) = 65535 := by
    rw [Fintype.card_compl_set, ← FinEnum.card_eq_fintypeCard]
    simp
  exact hcard

theorem mapsTo_step (h : poly.getLsbD 15 = true) : Set.MapsTo (step poly) nonzero nonzero :=
  fun _ hl hs => hl ((step_eq_zero_iff h).mp hs)

/-- The register never locks up, and its bytes are periodic from the first one on, with
a period that depends on the seed and the polynomial alone. -/
theorem lfsr_periodic (h : poly.getLsbD 15 = true) (hi : init ≠ 0) :
    (∀ mem buf n, ((round poly)^[n] (start mem buf init)).lfsr ≠ 0) ∧
      ∃ P, 1 ≤ P ∧ P ≤ 65535 ∧ ∀ mem buf count i, i + P < count →
        (lfsr mem (some buf) count init poly).2 (buf + (i + P)) =
          (lfsr mem (some buf) count init poly).2 (buf + i) := by
  constructor
  · intro mem buf n
    rw [iterate_round_lfsr]
    exact iterate_mem (mapsTo_step h) hi n
  · obtain ⟨P, hP, hper⟩ := exists_period (mapsTo_step h) (step_injective h).injOn hi
    refine ⟨P, hper.pos, card_nonzero ▸ hP, fun mem buf count i hlt => ?_⟩
    rw [lfsr_mem mem buf init poly hlt, lfsr_mem mem buf init poly (by omega), hper.iterate_add]

/-- The GigE register, with its documented seed and polynomial. -/
theorem lfsr_periodic_gige : ∃ P, 1 ≤ P ∧ P ≤ 65535 ∧ ∀ mem buf count i, i + P < count →
    (lfsr mem (some buf) count 0xffff 0x8016).2 (buf + (i + P)) =
      (lfsr mem (some buf) count 0xffff 0x8016).2 (buf + i) :=
  (lfsr_periodic (by decide) (by decide)).2

end Ohmylib.Lfsr
