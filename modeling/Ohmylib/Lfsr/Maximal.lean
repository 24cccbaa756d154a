import Mathlib.Data.Int.CardIntervalMod
import Mathlib.Data.List.Range
import Mathlib.Tactic.NormNum.Prime
import Ohmylib.Galois.Register
import Ohmylib.Lfsr.Period

/-! The GigE register, with polynomial `0x8016`. Its step has order 65535: that many
steps lead from the top bit back to it, and no quotient by a prime does. So it comes by
every state but zero before it returns, from any seed, two seeds give the same bytes but
for a delay, and over a period every byte occurs 256 times, but zero 255 times. Whatever
the polynomial, nine bytes tell the seed. -/

namespace Ohmylib.Lfsr

open Function Orbit

variable {poly l init : BitVec 16} {mem : Mem} {buf n : ℕ}

theorem step_eq_next (poly : BitVec 16) : step poly = Galois.next (w := 15) poly :=
  funext fun l => step_eq poly l

/-- The polynomial of the GigE register. -/
def gige : BitVec 16 := 0x8016

theorem gige_bit : gige.getLsbD 15 = true := by decide

theorem iterate_top {n : ℕ} (hn : n < 65536) :
    (step gige)^[n] (Galois.top 15) = Galois.power (w := 15) gige 16 n := by
  rw [Galois.power_eq hn, step_eq_next]

theorem isPeriodicPt_top : IsPeriodicPt (step gige) 65535 (Galois.top 15) := by
  rw [IsPeriodicPt, IsFixedPt, iterate_top (by decide)]
  decide +kernel

theorem not_isPeriodicPt_top {p : ℕ} (hp : p.Prime) (hd : p ∣ 65535) :
    ¬ IsPeriodicPt (step gige) (65535 / p) (Galois.top 15) := by
  have hfac : p = 3 ∨ p = 5 ∨ p = 17 ∨ p = 257 := by
    have hm : 65535 = 3 * 5 * 17 * 257 := by decide
    rw [hm, hp.dvd_mul, hp.dvd_mul, hp.dvd_mul] at hd
    simp only [or_assoc] at hd
    have hdiv : ∀ q : ℕ, q.Prime → p ∣ q → p = q := fun q hq =>
      (Nat.prime_dvd_prime_iff_eq hp hq).mp
    exact hd.imp (hdiv 3 (by norm_num)) (.imp (hdiv 5 (by norm_num))
      (.imp (hdiv 17 (by norm_num)) (hdiv 257 (by norm_num))))
  rw [IsPeriodicPt, IsFixedPt, iterate_top (Nat.lt_of_le_of_lt (Nat.div_le_self ..) (by decide))]
  rcases hfac with rfl | rfl | rfl | rfl <;> decide +kernel

theorem minimalPeriod_top : minimalPeriod (step gige) (Galois.top 15) = 65535 :=
  minimalPeriod_eq isPeriodicPt_top fun _ => not_isPeriodicPt_top

/-- Every state but zero is on the orbit of the top bit, so each has the same period. -/
theorem minimalPeriod_gige (hi : init ≠ 0) : minimalPeriod (step gige) init = 65535 := by
  have htop : Galois.top 15 ≠ (0 : BitVec 16) := by decide
  obtain ⟨n, -, rfl⟩ := exists_iterate_eq (mapsTo_step gige_bit) htop
    (minimalPeriod_top.trans card_nonzero.symm) hi
  have hper : Galois.top 15 ∈ periodicPts (step gige) := ⟨65535, by decide, isPeriodicPt_top⟩
  rw [minimalPeriod_apply_iterate hper, minimalPeriod_top]

/-- The GigE register goes through all 65535 states that are not zero before it returns to its
seed, whatever the seed. -/
theorem gige_maximal (hi : init ≠ 0) (mem : Mem) (buf : ℕ) :
    (∀ m n, ((round gige)^[m] (start mem buf init)).lfsr =
        ((round gige)^[n] (start mem buf init)).lfsr ↔ m % 65535 = n % 65535) ∧
      ∀ l ≠ 0, ∃ n, n < 65535 ∧ ((round gige)^[n] (start mem buf init)).lfsr = l := by
  have hper : init ∈ periodicPts (step gige) := by
    rw [← minimalPeriod_pos_iff_mem_periodicPts, minimalPeriod_gige hi]
    decide
  constructor
  · intro m n
    rw [iterate_round_lfsr, iterate_round_lfsr, start, iterate_eq_iff hper, minimalPeriod_gige hi]
  · intro l hl
    obtain ⟨n, hn, rfl⟩ := exists_iterate_eq (mapsTo_step gige_bit) hi
      ((minimalPeriod_gige hi).trans card_nonzero.symm) hl
    exact ⟨n, card_nonzero ▸ hn, iterate_round_lfsr ..⟩

theorem gige_maximal_documented : ∃ n, n < 65535 ∧
    ((round gige)^[n] (start (fun _ => 0) 0 0xffff)).lfsr = 1 :=
  have hi : (0xffff : BitVec 16) ≠ 0 := by decide
  (gige_maximal hi (fun _ => 0) 0).2 1 (by decide)

/-! ### Two seeds -/

/-- The bytes of one seed are those of any other, from some place on. -/
theorem gige_shift {a b : BitVec 16} (ha : a ≠ 0) (hb : b ≠ 0) :
    ∃ k, k < 65535 ∧ ∀ mem₁ mem₂ buf₁ buf₂ count,
      bytes (lfsr mem₂ (some buf₂) count b gige).2 buf₂ count =
        (bytes (lfsr mem₁ (some buf₁) (k + count) a gige).2 buf₁ (k + count)).drop k := by
  obtain ⟨k, hk, rfl⟩ := exists_iterate_eq (mapsTo_step gige_bit) ha
    ((minimalPeriod_gige ha).trans card_nonzero.symm) hb
  refine ⟨k, card_nonzero ▸ hk, fun mem₁ mem₂ buf₁ buf₂ count => ?_⟩
  rw [bytes_lfsr, bytes_lfsr, stream_drop]

theorem gige_shift_documented : ∃ k, k < 65535 ∧ ∀ mem₁ mem₂ buf₁ buf₂ count,
    bytes (lfsr mem₂ (some buf₂) count 1 gige).2 buf₂ count =
      (bytes (lfsr mem₁ (some buf₁) (k + count) 0xffff gige).2 buf₁ (k + count)).drop k :=
  gige_shift (by decide) (by decide)

/-! ### The bytes of a period -/

theorem lowByte_eq (l : BitVec 16) : lowByte l = UInt8.ofNat l.toNat := by
  have hmask : (0xFF : BitVec 32).toNat = 2 ^ 8 - 1 := rfl
  have hlt : l.toNat < 2 ^ 32 := Nat.lt_trans l.isLt (by decide)
  apply UInt8.toNat_inj.mp
  calc (lowByte l).toNat
      = ((l.toNat % 2 ^ 32) &&& (0xFF : BitVec 32).toNat) % 2 ^ 8 := by
        show ((l.setWidth 32 &&& 0xFF).setWidth 8).toNat = _
        rw [BitVec.toNat_setWidth, BitVec.toNat_and, BitVec.toNat_setWidth]
    _ = l.toNat % 2 ^ 8 := by
        rw [hmask, Nat.and_two_pow_sub_one_eq_mod, Nat.mod_mod, Nat.mod_eq_of_lt hlt]
    _ = (UInt8.ofNat l.toNat).toNat := UInt8.toNat_ofNat'.symm

/-- The states of a period, as numbers, are those from 1 on. -/
theorem period_perm (hi : init ≠ 0) :
    ((List.range 65535).map fun i => ((step gige)^[i] init).toNat).Perm (List.range' 1 65535) := by
  have hinj : Set.InjOn (fun i => ((step gige)^[i] init).toNat) {i | i < 65535} := by
    intro i hlt j hlt' hij
    refine iterate_injOn_Iio_minimalPeriod (f := step gige) (x := init) ?_ ?_
      (BitVec.eq_of_toNat_eq hij)
    · rw [minimalPeriod_gige hi]
      exact hlt
    · rw [minimalPeriod_gige hi]
      exact hlt'
  rw [List.perm_ext_iff_of_nodup (List.Nodup.map_on (fun i h j h' => hinj (List.mem_range.mp h)
    (List.mem_range.mp h')) List.nodup_range) (List.nodup_range' _)]
  intro n
  rw [List.mem_map, List.mem_range'_1]
  constructor
  · rintro ⟨i, -, rfl⟩
    have hne := iterate_mem (mapsTo_step gige_bit) hi i
    have hlt := ((step gige)^[i] init).isLt
    have hpos : ((step gige)^[i] init).toNat ≠ 0 := fun h0 => hne (BitVec.eq_of_toNat_eq h0)
    omega
  · rintro ⟨hlo, hhi⟩
    have hn : (BitVec.ofNat 16 n).toNat = n := by
      rw [BitVec.toNat_ofNat]
      exact Nat.mod_eq_of_lt (by omega)
    have hne : BitVec.ofNat 16 n ≠ 0 := by
      intro h0
      rw [h0] at hn
      simp at hn
      omega
    obtain ⟨i, hlt, hit⟩ := exists_iterate_eq (mapsTo_step gige_bit) hi
      ((minimalPeriod_gige hi).trans card_nonzero.symm) hne
    exact ⟨i, List.mem_range.mpr (card_nonzero ▸ hlt), by rw [hit, hn]⟩

/-- The numbers below 65536 end in every byte equally often. -/
theorem count_ofNat (v : UInt8) : ((List.range 65536).map UInt8.ofNat).count v = 256 := by
  have hmod : ∀ n, UInt8.ofNat n == v ↔ n ≡ v.toNat [MOD 256] := by
    intro n
    rw [beq_iff_eq, ← UInt8.toNat_inj, UInt8.toNat_ofNat', Nat.ModEq,
      Nat.mod_eq_of_lt (UInt8.toNat_lt v)]
  calc ((List.range 65536).map UInt8.ofNat).count v
      = Nat.count (· ≡ v.toNat [MOD 256]) 65536 := by
        rw [List.count, List.countP_map, Nat.count]
        exact List.countP_congr fun n _ => by simpa using hmod n
    _ = 256 := by
        rw [Nat.count_modEq_card 65536 (by decide)]
        simp

/-- Over a period every byte occurs 256 times, but zero 255 times. -/
theorem count_period (hi : init ≠ 0) (v : UInt8) :
    (stream gige init 65535).count v = if v = 0 then 255 else 256 := by
  have hperm := ((period_perm hi).map UInt8.ofNat).count_eq v
  have hall := count_ofNat v
  have hrange : List.range 65536 = 0 :: List.range' 1 65535 := by
    rw [List.range_eq_range', List.range'_succ]
  rw [hrange, List.map_cons, List.count_cons] at hall
  have hstream : stream gige init 65535 =
      ((List.range 65535).map fun i => ((step gige)^[i] init).toNat).map UInt8.ofNat := by
    rw [stream, List.map_map]
    exact List.map_congr_left fun i _ => lowByte_eq _
  rw [hstream, hperm]
  split
  · next hv =>
    subst hv
    simp at hall
    omega
  · next hv =>
    have hne : ¬ (0 : UInt8) = v := Ne.symm hv
    simpa [hne] using hall

/-- In every window of 65535 bytes that the GigE register writes, each byte occurs 256 times,
but zero 255 times. -/
theorem gige_balanced (hi : init ≠ 0) (mem : Mem) (buf : ℕ) {i count : ℕ}
    (hw : i + 65535 ≤ count) (v : UInt8) :
    (bytes (lfsr mem (some buf) count init gige).2 (buf + i) 65535).count v =
      if v = 0 then 255 else 256 := by
  have hne : (step gige)^[i] init ≠ 0 := iterate_mem (mapsTo_step gige_bit) hi i
  have hwin : bytes (lfsr mem (some buf) count init gige).2 (buf + i) 65535 =
      stream gige ((step gige)^[i] init) 65535 := by
    refine List.map_congr_left fun j hj => ?_
    have hj := List.mem_range.mp hj
    rw [Nat.add_assoc, lfsr_mem mem buf init gige (by omega), Nat.add_comm i j,
      iterate_add_apply]
  rw [hwin, count_period hne]

theorem gige_balanced_documented :
    (bytes (lfsr (fun _ => 0) (some 0) 65536 0xffff gige).2 (0 + 1) 65535).count 0 = 255 :=
  gige_balanced (by decide) (fun _ => 0) 0 (by decide) 0

/-! ### The seed -/

theorem lowByte_eq_zero_iff : lowByte l = 0 ↔ l.toNat % 256 = 0 := by
  rw [lowByte_eq, ← UInt8.toNat_inj, UInt8.toNat_ofNat']
  rfl

/-- A state whose low byte is zero takes in no polynomial. -/
theorem step_of_lowByte (h : lowByte l = 0) : step poly l = l >>> 1 := by
  have hmod := lowByte_eq_zero_iff.mp h
  have hbit : l.getLsbD 0 = false := by
    rw [BitVec.getLsbD, Nat.testBit_zero, decide_eq_false_iff_not]
    omega
  rw [step_eq, tap, hbit]
  simp

theorem iterate_of_lowBytes (h : ∀ i < n, lowByte ((step poly)^[i] l) = 0) :
    (step poly)^[n] l = l >>> n := by
  induction n with
  | zero => simp
  | succ n ih =>
    rw [iterate_succ_apply', step_of_lowByte (h n (Nat.lt_succ_self n)),
      ih fun i hi => h i (Nat.lt_succ_of_lt hi), BitVec.shiftRight_add]

/-- Two seeds give the same bytes when their difference gives zeros. -/
theorem stream_eq_iff (poly a b : BitVec 16) (count : ℕ) : stream poly a count = stream poly b count
    ↔ ∀ i < count, lowByte ((step poly)^[i] (a ^^^ b)) = 0 := by
  rw [stream, stream, List.map_inj_left]
  simp only [List.mem_range, iterate_step_xor, lowByte_xor, UInt8.xor_eq_zero_iff]

/-- Nine bytes tell the seed, and eight do not, whatever the polynomial. -/
theorem seed_determined_iff (poly : BitVec 16) (mem : Mem) (buf count : ℕ) :
    (∀ a b, bytes (lfsr mem (some buf) count a poly).2 buf count =
      bytes (lfsr mem (some buf) count b poly).2 buf count → a = b) ↔ 9 ≤ count := by
  simp only [bytes_lfsr, stream_eq_iff]
  constructor
  · intro h
    by_contra hlt
    -- the top bit needs eight steps to reach the low byte
    have hquiet : ∀ i < count, lowByte ((step poly)^[i] (Galois.top 15 ^^^ 0)) = 0 := by
      intro i hi
      have htop : Galois.top 15 ^^^ 0 = (Galois.top 15 : BitVec 16) := BitVec.xor_zero
      have hi' : i + (15 - i) = 15 := by omega
      have hlow : ∀ i < 8, lowByte (BitVec.twoPow 16 (15 - i)) = 0 := by decide
      rw [htop, step_eq_next, Galois.iterate_next_top poly i (15 - i) hi']
      exact hlow i (by omega)
    exact absurd (h (Galois.top 15) 0 hquiet) (by decide)
  · intro hc a b h
    have hshift := iterate_of_lowBytes (n := 8) fun i hi => h i (by omega)
    have hlow := lowByte_eq_zero_iff.mp (h 0 (by omega))
    have hhigh := h 8 (by omega)
    rw [hshift, lowByte_eq_zero_iff, BitVec.toNat_ushiftRight, Nat.shiftRight_eq_div_pow] at hhigh
    rw [iterate_zero_apply] at hlow
    have hlt := (a ^^^ b).isLt
    have hzero : (a ^^^ b).toNat = 0 := by omega
    exact BitVec.xor_eq_zero_iff.mp (BitVec.eq_of_toNat_eq hzero)

end Ohmylib.Lfsr
