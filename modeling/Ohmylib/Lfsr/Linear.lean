import Ohmylib.Lfsr.Model

/-! The byte stream of the shift register. The mask `-(lfsr & 1)` is all ones or zero, so
a step is a shift and, for an odd state, an exclusive or with the polynomial: a linear
map over GF(2). Its iterates are linear, and with them every byte. -/

namespace Ohmylib.Lfsr

open Function

variable {poly a b init : BitVec 16} {mem : Mem} {buf n : ℕ}

/-- The polynomial, taken in by an odd state. -/
def tap (poly l : BitVec 16) : BitVec 16 := if l.getLsbD 0 then poly else 0

theorem mask_eq (poly l : BitVec 16) :
    -(l.setWidth 32 &&& 1) &&& poly.setWidth 32 = (tap poly l).setWidth 32 := by
  have hone : (1 : BitVec 32) = 1#32 := rfl
  have hbit : (l.setWidth 32).getLsbD 0 = l.getLsbD 0 := by
    simp only [BitVec.getLsbD_setWidth, Nat.zero_lt_succ, decide_true, Bool.true_and]
  rw [hone, BitVec.and_one_eq_setWidth_ofBool_getLsbD, hbit, tap]
  cases l.getLsbD 0 with
  | false => simp
  | true =>
    have hones : -(BitVec.setWidth 32 (BitVec.ofBool true)) = BitVec.allOnes 32 := by decide
    rw [hones, BitVec.allOnes_and]
    rfl

/-- A step without its detour through `int`. -/
theorem step_eq (poly l : BitVec 16) : step poly l = l >>> 1 ^^^ tap poly l := by
  have hshift : (l.setWidth 32 >>> 1).setWidth 16 = l >>> 1 := by
    apply BitVec.eq_of_getLsbD_eq
    intro i hi
    have hlt : 1 + i < 32 := by omega
    simp only [BitVec.getLsbD_setWidth, BitVec.getLsbD_ushiftRight, hi, hlt, decide_true,
      Bool.true_and]
  simp only [step, mask_eq, BitVec.setWidth_xor, hshift]
  rw [BitVec.setWidth_setWidth_of_le _ (by decide), BitVec.setWidth_eq]

theorem tap_xor (poly a b : BitVec 16) : tap poly (a ^^^ b) = tap poly a ^^^ tap poly b := by
  simp only [tap, BitVec.getLsbD_xor]
  cases a.getLsbD 0 <;> cases b.getLsbD 0 <;> simp

theorem step_xor (poly a b : BitVec 16) : step poly (a ^^^ b) = step poly a ^^^ step poly b := by
  simp only [step_eq, BitVec.ushiftRight_xor_distrib, tap_xor]
  ac_rfl

theorem iterate_step_xor (poly a b : BitVec 16) (n : ℕ) :
    (step poly)^[n] (a ^^^ b) = (step poly)^[n] a ^^^ (step poly)^[n] b :=
  Semiconj₂.iterate (step_xor poly) n a b

theorem lowByte_xor (a b : BitVec 16) : lowByte (a ^^^ b) = lowByte a ^^^ lowByte b := by
  apply UInt8.toBitVec_inj.mp
  apply BitVec.eq_of_getLsbD_eq
  intro i hi
  simp [lowByte, BitVec.setWidth_xor, Bool.and_xor_distrib_right]

theorem iterate_round_lfsr (poly : BitVec 16) (n : ℕ) (s : State) :
    ((round poly)^[n] s).lfsr = (step poly)^[n] s.lfsr := by
  induction n with
  | zero => rfl
  | succ n ih =>
    rw [iterate_succ_apply', iterate_succ_apply', ← ih]
    rfl

theorem iterate_round_p (poly : BitVec 16) (n : ℕ) (s : State) :
    ((round poly)^[n] s).p = s.p + n := by
  induction n with
  | zero => rfl
  | succ n ih =>
    rw [iterate_succ_apply', ← Nat.add_assoc, ← ih]
    rfl

/-- After `n` rounds the `n` cells from `p` on hold the low bytes of the states. -/
theorem iterate_round_mem (poly : BitVec 16) (n : ℕ) (s : State) (x : ℕ) :
    ((round poly)^[n] s).mem x =
      if s.p ≤ x ∧ x < s.p + n then lowByte ((step poly)^[x - s.p] s.lfsr) else s.mem x := by
  induction n with
  | zero =>
    rw [if_neg (by omega)]
    rfl
  | succ n ih =>
    have hround : ((round poly)^[n + 1] s).mem x =
        if x = s.p + n then lowByte ((step poly)^[n] s.lfsr) else ((round poly)^[n] s).mem x := by
      rw [iterate_succ_apply', ← iterate_round_p poly n s, ← iterate_round_lfsr]
      rfl
    rw [hround, ih]
    by_cases hx : x = s.p + n
    · rw [if_pos hx, if_pos (by omega), hx, Nat.add_sub_cancel_left]
    · rw [if_neg hx]
      by_cases hin : s.p ≤ x ∧ x < s.p + n
      · rw [if_pos hin, if_pos (by omega)]
      · rw [if_neg hin, if_neg (by omega)]

/-- Cell `i` of the buffer that `lfsr` fills. -/
theorem lfsr_mem (mem : Mem) (buf : ℕ) {count i : ℕ} (init poly : BitVec 16) (hi : i < count) :
    (lfsr mem (some buf) count init poly).2 (buf + i) = lowByte ((step poly)^[i] init) := by
  have hin : buf ≤ buf + i ∧ buf + i < buf + count := by omega
  refine (iterate_round_mem poly count (start mem buf init) (buf + i)).trans ?_
  rw [start, if_pos hin, Nat.add_sub_cancel_left]

/-- The bytes of a run of the register. -/
def stream (poly init : BitVec 16) (n : ℕ) : List UInt8 :=
  (List.range n).map fun i => lowByte ((step poly)^[i] init)

theorem bytes_lfsr (mem : Mem) (buf count : ℕ) (init poly : BitVec 16) :
    bytes (lfsr mem (some buf) count init poly).2 buf count = stream poly init count :=
  List.map_congr_left fun _ hi => lfsr_mem mem buf init poly (List.mem_range.mp hi)

theorem stream_drop (poly init : BitVec 16) (m n : ℕ) :
    (stream poly init (m + n)).drop m = stream poly ((step poly)^[m] init) n := by
  rw [stream, List.range_add, List.map_append, List.drop_left' (by simp), List.map_map, stream]
  refine List.map_congr_left fun i _ => ?_
  rw [comp_apply, Nat.add_comm, iterate_add_apply]

/-- The bytes are linear in the seed, and a run goes on from the state where a shorter
one stopped, whatever memory the runs write to. -/
theorem lfsr_linear (poly a b : BitVec 16) (mem₁ mem₂ mem₃ : Mem) (buf₁ buf₂ buf₃ : ℕ) :
    (∀ count, bytes (lfsr mem₁ (some buf₁) count (a ^^^ b) poly).2 buf₁ count =
      List.zipWith (· ^^^ ·) (bytes (lfsr mem₂ (some buf₂) count a poly).2 buf₂ count)
        (bytes (lfsr mem₃ (some buf₃) count b poly).2 buf₃ count)) ∧
    ∀ m n, (bytes (lfsr mem₁ (some buf₁) (m + n) a poly).2 buf₁ (m + n)).drop m =
      bytes (lfsr mem₂ (some buf₂) n ((round poly)^[m] (start mem₁ buf₁ a)).lfsr poly).2
        buf₂ n := by
  constructor
  · intro count
    simp only [bytes_lfsr, stream, List.zipWith_map, List.zipWith_self, iterate_step_xor,
      lowByte_xor]
  · intro m n
    rw [bytes_lfsr, bytes_lfsr, stream_drop, iterate_round_lfsr]
    rfl

end Ohmylib.Lfsr
