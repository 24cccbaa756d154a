import Ohmylib.Dictionary.Capacity

/-! How much memory a dictionary takes. The slots grow only when all of them are counted,
and never shrink, so their number is decided by the largest `count` of the run alone: it
is the least multiple of 128 that the request and this count fit in, whatever was deleted
in between and whichever allocations failed. -/

namespace Ohmylib.Dictionary

variable {signed : Bool} {d d' : DictionaryS} {c : Call} {cs : List Call} {r : Resp}
  {rs : List Resp} {m n s : ℕ}

/-- The largest `count` of a run. -/
def peak (signed : Bool) (d : DictionaryS) : List Call → ℕ
  | [] => d.count
  | c :: cs =>
    match c.exec signed d with
    | none => d.count
    | some (_, d₁) => max d.count (peak signed d₁ cs)

theorem count_le_peak (signed : Bool) (d : DictionaryS) (cs : List Call) :
    d.count ≤ peak signed d cs := by
  cases cs with
  | nil => exact le_rfl
  | cons c cs =>
    rw [peak]
    split
    · exact le_rfl
    · exact le_max_left _ _

/-- The slots stay, or all of them are counted and 128 more come with the next. -/
theorem AddEffect.size {a : Allocs} {k : CString} {val : Option CString} {code : ℤ}
    (h : AddEffect signed a d k val code d') (hd : Sane signed d) :
    d'.size = d.size ∨ d'.size = d.size + dictionaryMinSize ∧ d'.count = d.size + 1 := by
  cases h with
  | replaced he hv hr hs hc => exact .inl hr.size_eq
  | full hk hg => exact .inl rfl
  | filled hk hg he hr hc =>
    rw [hr.size_eq, hc]
    have hle := hd.count_le
    unfold dictionaryResize at hg
    split_ifs at hg with hlt
    · cases hg
      exact .inl rfl
    · cases hg
      refine .inr ⟨rfl, ?_⟩
      show d.count + 1 = d.size + 1
      omega

theorem exec_size (hd : Sane signed d) (hc : c.exec signed d = some (r, d')) :
    d'.size = d.size ∨ d'.size = d.size + dictionaryMinSize ∧ d'.count = d.size + 1 := by
  rcases exec_effect hd hc with rfl | ⟨a, k, val, n, -, he⟩ | ⟨k, -, he⟩
  · exact .inl rfl
  · exact he.size hd
  · cases he with
    | absent hk => exact .inl rfl
    | deleted he hr hc => exact .inl hr.size_eq

/-- Whoever has counted one slot more than `s` has been given the next 128. -/
theorem capacities_grown (hs : dictionaryMinSize ∣ s) (hm : s + 1 ≤ m) :
    capacities (max (s + dictionaryMinSize) m) = capacities (max s m) := by
  ext n
  simp only [capacities, Set.mem_ofPred_eq, and_congr_right_iff, max_le_iff]
  rintro ⟨q, rfl⟩
  obtain ⟨t, rfl⟩ := hs
  have hlt : dictionaryMinSize * t < dictionaryMinSize * q →
      dictionaryMinSize * t + dictionaryMinSize ≤ dictionaryMinSize * q := by
    intro h
    exact Nat.mul_le_mul_left dictionaryMinSize (Nat.lt_of_mul_lt_mul_left h)
  constructor
  · rintro ⟨h₁, h₂⟩
    exact ⟨by omega, h₂⟩
  · rintro ⟨h₁, h₂⟩
    exact ⟨hlt (by omega), h₂⟩

theorem run_size (hd : Sane signed d) (h : run signed d cs = some (rs, d')) :
    IsLeast (capacities (max d.size (peak signed d cs))) d'.size := by
  induction cs generalizing d rs with
  | nil =>
    obtain ⟨-, rfl⟩ : rs = [] ∧ d = d' := by simpa [run, eq_comm] using h
    have hmax : max d.size (peak signed d []) = d.size := max_eq_left hd.count_le
    rw [hmax]
    exact ⟨⟨hd.aligned, le_rfl⟩, fun n hn => hn.2⟩
  | cons c cs ih =>
    obtain ⟨r, d₁, rs', hc, hr, -⟩ := run_cons.mp h
    have hpeak : peak signed d (c :: cs) = max d.count (peak signed d₁ cs) := by
      simp only [peak, hc]
    have hmax : max d.size (peak signed d (c :: cs)) = max d.size (peak signed d₁ cs) := by
      rw [hpeak, ← max_assoc, max_eq_left hd.count_le]
    have hrest := ih (exec_sane hd hc) hr
    rw [hmax]
    rcases exec_size hd hc with hs | ⟨hs, hcount⟩
    · rwa [hs] at hrest
    · rw [hs, capacities_grown hd.aligned] at hrest
      · exact hrest
      · exact hcount ▸ count_le_peak signed d₁ cs

/-- After every run, with any failures, the slots are as many as the least multiple of 128
that both the size at creation and the largest `count` of the run fit in. -/
theorem size_isLeast {handle slots : Bool} {size : ℕ} {d₀ : DictionaryS}
    (h₀ : dictionaryCreate handle slots size = some d₀)
    (h : run signed d₀ cs = some (rs, d)) :
    IsLeast (capacities (max d₀.size (peak signed d₀ cs))) d.entries.length := by
  have hs := (dictionaryCreate_valid signed h₀).1.toSane
  rw [(run_sane hs h).length_eq]
  exact run_size hs h

/-- A key is added and deleted again. -/
theorem size_isLeast_deleted : ∃ d₀ rs d, dictionaryCreate true true 0 = some d₀ ∧
    run true d₀ [.add .all (some (.ofBytes [0x61])) none, .del (some (.ofBytes [0x61]))] =
      some (rs, d) ∧
    IsLeast (capacities (max d₀.size (peak true d₀
      [.add .all (some (.ofBytes [0x61])) none, .del (some (.ofBytes [0x61]))])))
      d.entries.length := by
  obtain ⟨d₀, h₀⟩ : ∃ d₀, dictionaryCreate true true 0 = some d₀ := ⟨_, rfl⟩
  obtain ⟨⟨rs, d⟩, hr⟩ : ∃ p, run true d₀ [.add .all (some (.ofBytes [0x61])) none,
      .del (some (.ofBytes [0x61]))] = some p := by
    cases h₀
    exact Option.isSome_iff_exists.mp (by decide +kernel)
  exact ⟨d₀, rs, d, h₀, hr, size_isLeast h₀ hr⟩

end Ohmylib.Dictionary
