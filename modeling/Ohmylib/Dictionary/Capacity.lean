import Mathlib.Order.Bounds.Basic
import Ohmylib.Dictionary.Runs

/-! The capacity a dictionary is created with. `ALIGN` rounds the requested size up to
a multiple of 128, but the complement of its mask has 32 bits, so the result loses
every bit of the size above them. Where nothing is lost, each addition takes at most
one slot and there is room for as many additions as were asked for. -/

namespace Ohmylib.Dictionary

variable {signed : Bool} {d d' : DictionaryS} {c : Call} {cs : List Call} {r : Resp}
  {rs : List Resp} {m n : ℕ}

/-- The multiples of the minimal size that hold `m` slots. -/
def capacities (m : ℕ) : Set ℕ := {n | dictionaryMinSize ∣ n ∧ m ≤ n}

theorem isLeast_capacities (m : ℕ) :
    IsLeast (capacities m) (dictionaryMinSize * ((m + 127) / dictionaryMinSize)) := by
  unfold dictionaryMinSize
  constructor
  · refine ⟨Nat.dvd_mul_right 128 _, ?_⟩
    omega
  · rintro n ⟨⟨q, rfl⟩, hn⟩
    refine Nat.mul_le_mul_left 128 ?_
    unfold dictionaryMinSize at hn
    omega

/-- The mask keeps bits 7 to 31. -/
theorem and_mask (y : ℕ) : y &&& (2 ^ 32 - 1 - 0x7f) = 128 * (y / 128 % 2 ^ 25) := by
  have hmask : 2 ^ 32 - 1 - 0x7f = (2 ^ 25 - 1) * 2 ^ 7 := by decide
  rw [hmask, Nat.mul_comm 128, show 128 = 2 ^ 7 from rfl]
  apply Nat.eq_of_testBit_eq
  intro i
  rw [Nat.testBit_and, Nat.testBit_mul_two_pow, Nat.testBit_mul_two_pow,
    ← Nat.and_two_pow_sub_one_eq_mod, Nat.testBit_and, Nat.testBit_div_two_pow]
  by_cases hi : 7 ≤ i
  · simp [hi, Nat.sub_add_cancel hi]
  · simp [hi]

theorem align_eq (hm : m ≤ 2 ^ 64 - 128) :
    align m = dictionaryMinSize * ((m + 127) / dictionaryMinSize % 2 ^ 25) := by
  have hlt : m + 0x7f < 2 ^ 64 := by omega
  rw [align, u64_of_lt hlt]
  exact and_mask _

/-- `ALIGN` is right up to the last multiple below `2 ^ 32`. -/
theorem isLeast_align_iff (hm : m ≤ 2 ^ 64 - 128) :
    IsLeast (capacities m) (align m) ↔ m ≤ 2 ^ 32 - 128 := by
  have hleast := isLeast_capacities m
  have hq : align m = dictionaryMinSize * ((m + 127) / dictionaryMinSize) ↔
      m ≤ 2 ^ 32 - 128 := by
    rw [align_eq hm]
    unfold dictionaryMinSize
    omega
  rw [← hq]
  exact ⟨fun h => h.unique hleast, fun h => h ▸ hleast⟩

theorem dictionaryCreate_eq {handle slots : Bool} {size : ℕ}
    (h : dictionaryCreate handle slots size = some d) :
    d.count = 0 ∧ d.size = align (max size dictionaryMinSize) := by
  have hmax : (if size < dictionaryMinSize then dictionaryMinSize else size) =
      max size dictionaryMinSize := by
    rw [max_def]
    split_ifs <;> omega
  unfold dictionaryCreate at h
  rw [hmax] at h
  split_ifs at h
  cases h
  exact ⟨rfl, rfl⟩

def Call.isAdd : Call → Bool
  | .add _ _ _ => true
  | _ => false

/-- How many of the calls add. -/
def additions (cs : List Call) : ℕ := cs.countP Call.isAdd

/-- `d'` has grown from `d` by at most `n` keys, and has not shrunk. -/
structure Within (n : ℕ) (d d' : DictionaryS) : Prop where
  count_le : d'.count ≤ d.count + n
  size_le : d.size ≤ d'.size

theorem Within.refl (n : ℕ) (d : DictionaryS) : Within n d d := ⟨Nat.le_add_right _ n, le_rfl⟩

theorem Within.trans {d₁ : DictionaryS} (h : Within m d d₁) (h' : Within n d₁ d') :
    Within (m + n) d d' where
  count_le := by
    have := h.count_le
    have := h'.count_le
    omega
  size_le := h.size_le.trans h'.size_le

theorem AddEffect.within {a : Allocs} {k : CString} {val : Option CString} {code : ℤ}
    (h : AddEffect signed a d k val code d') (hd : Sane signed d) : Within 1 d d' := by
  cases h with
  | replaced he hv hr hs hc => exact ⟨hc.le.trans (Nat.le_succ _), hr.size_eq.ge⟩
  | full hk hg => exact .refl 1 d
  | filled hk hg he hr hc =>
    have hg' := dictionaryResize_spec hd hg
    obtain ⟨n, -, hs, -⟩ := hg'.entries_eq
    constructor
    · rw [hc, hg'.count_eq]
    · rw [hr.size_eq, hs]
      exact Nat.le_add_right _ n

theorem DelEffect.within {k : CString} (h : DelEffect d k d') : Within 0 d d' := by
  cases h with
  | absent hk => exact .refl 0 d
  | deleted he hr hc => exact ⟨by omega, hr.size_eq.ge⟩

theorem exec_within (hd : Sane signed d) (hc : c.exec signed d = some (r, d')) :
    Within (additions [c]) d d' := by
  rcases exec_effect hd hc with rfl | ⟨a, k, val, n, rfl, he⟩ | ⟨k, rfl, he⟩
  · exact .refl _ _
  · exact he.within hd
  · exact he.within

/-- A run takes at most one slot for each of its additions. -/
theorem run_within (hd : Sane signed d) (h : run signed d cs = some (rs, d')) :
    Within (additions cs) d d' := by
  induction cs generalizing d rs with
  | nil =>
    cases h
    exact .refl _ _
  | cons c cs ih =>
    obtain ⟨r, d₁, rs', hc, hr, -⟩ := run_cons.mp h
    have hadd : additions (c :: cs) = additions [c] + additions cs := by
      rw [additions, ← List.singleton_append, List.countP_append]
      rfl
    rw [hadd]
    exact (exec_within hd hc).trans (ih (exec_sane hd hc) hr)

/-- The requested capacity is honoured: the size and the number of slots are the least
multiple of 128 that is enough, and with fewer additions behind it than were asked for,
whatever other calls stand between them, the next one finds `count < size` and does not
grow the slots. -/
structure Honoured (signed : Bool) (size : ℕ) (d : DictionaryS) : Prop where
  size_least : IsLeast (capacities (max size dictionaryMinSize)) d.size
  slots_least : IsLeast (capacities (max size dictionaryMinSize)) d.entries.length
  room : ∀ cs rs d', additions cs < max size dictionaryMinSize →
    run signed d cs = some (rs, d') → d'.count < d'.size

theorem honoured_of_isLeast (hd : Sane signed d) (hc : d.count = 0) {size : ℕ}
    (h : IsLeast (capacities (max size dictionaryMinSize)) d.size) :
    Honoured signed size d where
  size_least := h
  slots_least := hd.length_eq ▸ h
  room cs rs d' hcs hr := by
    have hw := run_within hd hr
    calc d'.count ≤ d.count + additions cs := hw.count_le
      _ = additions cs := by rw [hc, Nat.zero_add]
      _ < max size dictionaryMinSize := hcs
      _ ≤ d.size := h.1.2
      _ ≤ d'.size := hw.size_le

/-- A created dictionary has the capacity asked for exactly up to the last multiple of
128 below `2 ^ 32`. -/
theorem capacity_honoured_iff {handle slots : Bool} {size : ℕ} (hsize : size ≤ 2 ^ 64 - 128)
    (h : dictionaryCreate handle slots size = some d) :
    Honoured signed size d ↔ size ≤ 2 ^ 32 - 128 := by
  obtain ⟨hc, hs⟩ := dictionaryCreate_eq h
  have hmax : max size dictionaryMinSize ≤ 2 ^ 64 - 128 := max_le hsize (by decide)
  have hleast : IsLeast (capacities (max size dictionaryMinSize)) d.size ↔ size ≤ 2 ^ 32 - 128 := by
    rw [hs, isLeast_align_iff hmax, max_le_iff]
    exact and_iff_left (by decide)
  rw [← hleast]
  exact ⟨Honoured.size_least, honoured_of_isLeast (dictionaryCreate_valid signed h).1.toSane hc⟩

theorem capacity_honoured_iff_request : ∃ d, dictionaryCreate true true 1000 = some d ∧
    (Honoured true 1000 d ↔ 1000 ≤ 2 ^ 32 - 128) := by
  obtain ⟨d, h⟩ : ∃ d, dictionaryCreate true true 1000 = some d := ⟨_, rfl⟩
  exact ⟨d, h, capacity_honoured_iff (by decide) h⟩

/-- A request for more than `2 ^ 32` slots is granted with 128 of them. -/
theorem capacity_not_honoured : ∃ d, dictionaryCreate true true (2 ^ 32 + 1) = some d ∧
    d.size = 128 ∧ d.entries.length = 128 ∧ ¬ Honoured true (2 ^ 32 + 1) d := by
  have hs : align (max (2 ^ 32 + 1) dictionaryMinSize) = 128 := by decide
  obtain ⟨d, h⟩ : ∃ d, dictionaryCreate true true (2 ^ 32 + 1) = some d := ⟨_, rfl⟩
  have hsize := (dictionaryCreate_eq h).2.trans hs
  have hlen := (dictionaryCreate_valid true h).1.length_eq.trans hsize
  refine ⟨d, h, hsize, hlen, fun hh => ?_⟩
  have hle := hh.size_least.1.2
  rw [hsize] at hle
  exact absurd hle (by decide)

end Ohmylib.Dictionary
