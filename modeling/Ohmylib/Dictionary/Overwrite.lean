import Ohmylib.Dictionary.Atomicity

/-! Overwriting a key against deleting it and adding it again. Both paths of
`dictionary_add` store a value, but only the insertion tests it for `NULL`; the
refresh of a held key passes it on to `strdup`. -/

namespace Ohmylib.Dictionary

variable {signed : Bool} {d d' : DictionaryS} {k : CString} {r : ℤ}

/-- With allocations that succeed, overwriting the key is defined and the code and
all later lookups are those of deleting the key and adding it again. -/
def OverwritesAlike (signed : Bool) (d : DictionaryS) (k : CString) (val : Option CString) : Prop :=
  ∃ r d₁ d₂, dictionaryAdd signed .all d (some k) val = some (r, d₁) ∧
    dictionaryAdd signed .all (dictionaryDel signed d (some k)) (some k) val = some (r, d₂) ∧
    ∀ key dflt, dictionaryGet signed d₁ key dflt = dictionaryGet signed d₂ key dflt

/-- An addition without failures stores the value, on either path. -/
theorem AddEffect.stores {v : CString} (h : AddEffect signed .all d k (some v) r d')
    (hd : Sane signed d) : r = 0 ∧ d'.stored k = some (some v) := by
  cases h with
  | @replaced e w _ he hv hr hs hc =>
    obtain rfl : some v = w := Option.some.inj hv
    exact ⟨rfl, hr.stored_self.trans (if_pos he)⟩
  | full hk hg => exact absurd ((dictionaryResize_eq_none_iff hd true).mp hg).2 (by decide)
  | filled hk hg he hr hc => exact ⟨rfl, hr.stored_self.trans (if_pos rfl)⟩

/-- Deleting first makes no difference to an addition of a value. -/
theorem overwritesAlike_some (hd : Sane signed d) (k v : CString) :
    OverwritesAlike signed d k (some v) := by
  have hdel := dictionaryDel_effect hd k
  have hd' := hdel.sane hd
  obtain ⟨r₁, d₁, h₁⟩ := dictionaryAdd_some hd .all k v
  obtain ⟨r₂, d₂, h₂⟩ := dictionaryAdd_some hd' .all k v
  have he₁ := dictionaryAdd_effect hd h₁
  have he₂ := dictionaryAdd_effect hd' h₂
  obtain ⟨rfl, hs₁⟩ := he₁.stores hd
  obtain ⟨rfl, hs₂⟩ := he₂.stores hd'
  refine ⟨0, d₁, d₂, h₁, h₂, (gets_eq_iff (he₂.sane hd') (he₁.sane hd)).mpr fun k' => ?_⟩
  by_cases hk : k' = k
  · rw [hk, hs₁, hs₂]
  · rw [he₁.stored_ne hd hk, he₂.stored_ne hd' hk, hdel.stored_ne hk]

/-- The refresh of a held key with `NULL` is undefined. -/
theorem not_overwritesAlike_none (hd : Sane signed d) (hk : k ∈ d.keys) :
    ¬ OverwritesAlike signed d k none := by
  rintro ⟨r, d₁, d₂, h₁, -, -⟩
  have hdef : k ∈ d.keys → (none : Option CString) ≠ none :=
    (dictionaryAdd_isSome_iff (a := .all) hd).mp (by rw [h₁]; rfl)
  exact hdef hk rfl

/-- In every reachable dictionary, overwriting a held key is deleting it and adding
it again exactly when the value is not `NULL`. -/
theorem overwrites_alike_iff (signed handle slots : Bool) (size : ℕ) (d₀ d : DictionaryS)
    (cs : List Call) (rs : List Resp) (hd : dictionaryCreate handle slots size = some d₀)
    (hr : run signed d₀ cs = some (rs, d)) (k : CString) (hk : k ∈ d.keys)
    (val : Option CString) : OverwritesAlike signed d k val ↔ val ≠ none := by
  have hs : Sane signed d := run_sane (dictionaryCreate_valid signed hd).1.toSane hr
  cases val with
  | none => exact iff_of_false (not_overwritesAlike_none hs hk) (by simp)
  | some v => exact iff_of_true (overwritesAlike_some hs k v) (by simp)

/-- A dictionary that holds one key with a value. -/
private theorem one_key : ∃ d₀ rs d, dictionaryCreate true true 0 = some d₀ ∧
    run true d₀ [.add .all (some (.ofBytes [0x61])) (some (.ofBytes [0x78]))] = some (rs, d) ∧
    .ofBytes [0x61] ∈ d.keys := by
  obtain ⟨d₀, hd⟩ : ∃ d₀, dictionaryCreate true true 0 = some d₀ := ⟨_, rfl⟩
  have hkeys : (run true d₀ [.add .all (some (.ofBytes [0x61])) (some (.ofBytes [0x78]))]).map
      (fun p => decide (.ofBytes [0x61] ∈ p.2.keys)) = some true := by
    cases hd
    decide +kernel
  obtain ⟨⟨rs, d⟩, hr, hk⟩ := Option.map_eq_some_iff.mp hkeys
  exact ⟨d₀, rs, d, hd, hr, of_decide_eq_true hk⟩

theorem overwrites_alike_value : ∃ d₀ rs d, dictionaryCreate true true 0 = some d₀ ∧
    run true d₀ [.add .all (some (.ofBytes [0x61])) (some (.ofBytes [0x78]))] = some (rs, d) ∧
    (OverwritesAlike true d (.ofBytes [0x61]) (some (.ofBytes [0x79])) ↔
      some (CString.ofBytes [0x79]) ≠ none) := by
  obtain ⟨d₀, rs, d, hd, hr, hk⟩ := one_key
  exact ⟨d₀, rs, d, hd, hr, overwrites_alike_iff true true true 0 d₀ d _ rs hd hr _ hk _⟩

/-- Overwriting the value of a key by `NULL` passes `NULL` to `strdup`. -/
theorem overwrite_null : ∃ d₀ rs d, dictionaryCreate true true 0 = some d₀ ∧
    run true d₀ [.add .all (some (.ofBytes [0x61])) (some (.ofBytes [0x78]))] = some (rs, d) ∧
    .ofBytes [0x61] ∈ d.keys ∧ ¬ OverwritesAlike true d (.ofBytes [0x61]) none := by
  obtain ⟨d₀, rs, d, hd, hr, hk⟩ := one_key
  have hs : Sane true d := run_sane (dictionaryCreate_valid true hd).1.toSane hr
  exact ⟨d₀, rs, d, hd, hr, hk, not_overwritesAlike_none hs hk⟩

end Ohmylib.Dictionary
