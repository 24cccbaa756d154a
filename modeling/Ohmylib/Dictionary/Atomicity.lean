import Ohmylib.Dictionary.Runs

/-! What a failing allocation leaves behind. An insertion of `dictionary_add` counts
its slot and returns 0 whatever its two duplications return, and an overwrite has
freed the old value before it duplicates the new one. The call is atomic exactly when
the duplications it reaches succeed, or there was no old value to lose. -/

namespace Ohmylib.Dictionary

variable {signed : Bool} {a : Allocs} {d d₀ d₁ d' : DictionaryS} {k k' : CString}
  {val : Option CString} {r : ℤ} {cs : List Call} {rs : List Resp}

/-- An atomic `dictionary_add` of a value: it succeeds and the value is there, or it
fails and nothing has changed. `count` is the number of keys afterwards. -/
structure Atomic (signed : Bool) (d : DictionaryS) (k val : CString) (r : ℤ)
    (d' : DictionaryS) : Prop where
  outcome : (r = 0 ∧ ∀ dflt, dictionaryGet signed d' (some k) dflt = some val) ∨
    r = -1 ∧ (∀ key dflt, dictionaryGet signed d' key dflt = dictionaryGet signed d key dflt) ∧
      d'.count = d.count
  counted : d'.count = d'.occupied

/-- The allocations that an addition must not lose: of the new value where a key that
holds a value is overwritten, of key and value where a slot is filled. -/
def AddSafe (a : Allocs) (d : DictionaryS) (k : CString) (val : Option CString) : Prop :=
  (k ∈ d.keys → a.strdupVal = true ∨ d.stored k = some none) ∧
    (k ∉ d.keys → (d.count = d.size ∧ a.calloc = false) ∨
      a.strdupKey = true ∧ (a.strdupVal = true ∨ val = none))

theorem get_eq_iff (h : Sane signed d) {v : CString} :
    (∀ dflt, dictionaryGet signed d (some k) dflt = some v) ↔ d.stored k = some (some v) := by
  simp only [dictionaryGet_eq h]
  constructor
  · intro hg
    have := hg none
    cases hs : d.stored k with
    | none => simp [hs] at this
    | some v' => simpa [hs] using this
  · intro hs dflt
    rw [hs, Option.getD_some]

/-- The results of all `dictionary_get` calls are what is stored. -/
theorem gets_eq_iff (h : Sane signed d) (h' : Sane signed d') :
    (∀ key dflt, dictionaryGet signed d' key dflt = dictionaryGet signed d key dflt) ↔
      ∀ k, d'.stored k = d.stored k := by
  constructor
  · intro hg k
    have hs := fun dflt => hg (some k) dflt
    simp only [dictionaryGet_eq h, dictionaryGet_eq h'] at hs
    cases hd : d.stored k with
    | some v =>
      cases hd' : d'.stored k with
      | some v' => simpa [hd, hd'] using hs none
      | none =>
        -- a default that differs from the stored value tells the two apart
        cases v with
        | none => simpa [hd, hd'] using hs (some ⟨[], List.not_mem_nil⟩)
        | some v => simpa [hd, hd'] using hs none
    | none =>
      cases hd' : d'.stored k with
      | none => rfl
      | some v' =>
        cases v' with
        | none => simpa [hd, hd'] using hs (some ⟨[], List.not_mem_nil⟩)
        | some v => simpa [hd, hd'] using hs none
  · intro hs key dflt
    cases key with
    | none => rfl
    | some k => rw [dictionaryGet_eq h, dictionaryGet_eq h', hs k]

/-- Where nothing but the values is rewritten, nothing changes if no value does. -/
theorem AddEffect.gets_eq_iff (h : AddEffect signed a d k val r d') (hd : Sane signed d) :
    (∀ key dflt, dictionaryGet signed d' key dflt = dictionaryGet signed d key dflt) ↔
      d'.stored k = d.stored k := by
  rw [Dictionary.gets_eq_iff hd (h.sane hd)]
  refine ⟨fun hs => hs k, fun hs k' => ?_⟩
  by_cases hk : k' = k
  · rw [hk, hs]
  · exact h.stored_ne hd hk

theorem stored_isSome_iff : (d.stored k).isSome ↔ k ∈ d.keys := by
  rw [Option.isSome_iff_ne_none, Ne, stored_eq_none_iff, not_not]

/-- The key counts: whether the number of keys follows `count` through an addition. -/
theorem AddEffect.counted_iff (h : AddEffect signed a d k val r d') (hd : Sane signed d) :
    d'.count = d'.occupied ↔ d.count = d.occupied ∧
      (k ∉ d.keys → (d.count = d.size ∧ a.calloc = false) ∨ a.strdupKey = true) := by
  cases h with
  | replaced he hv hr hs hc =>
    have hk : k ∈ d.keys := stored_isSome_iff.mp (by rw [hs]; rfl)
    simp [hc, hr.occupied_eq rfl, hk]
  | full hk hg =>
    simp [(dictionaryResize_eq_none_iff hd a.calloc).mp hg]
  | @filled e d₁ _ hk hg he hr hc =>
    have hd₁ := dictionaryResize_spec hd hg
    have hg' := not_full_of_dictionaryResize hd hg
    have ho : d₁.occupied = d.occupied := congrArg List.length hd₁.keys_eq
    have hle := hd.occupied_le
    simp only [hk, not_false_eq_true, true_imp_iff, hg', false_or]
    by_cases ha : a.strdupKey = true
    · have := hr.occupied_succ he (if_pos ha)
      have := hd₁.count_eq
      simp only [ha, and_true]
      omega
    · have hn : (newEntry (dictionaryHash signed (some k)) a k val).key = none := if_neg ha
      have := hr.occupied_eq (hn.trans he.symm)
      have := hd₁.count_eq
      have hne : d'.count ≠ d'.occupied := by omega
      exact iff_of_false hne fun hc => ha hc.2

/-- The value under the key after an addition that returns 0, and before one that
returns -1. -/
theorem AddEffect.outcome_iff {v : CString} (h : AddEffect signed a d k (some v) r d')
    (hd : Sane signed d) :
    ((r = 0 ∧ d'.stored k = some (some v)) ∨
        r = -1 ∧ d'.stored k = d.stored k ∧ d'.count = d.count) ↔
      (k ∈ d.keys → a.strdupVal = true ∨ d.stored k = some none) ∧
        (k ∉ d.keys → (d.count = d.size ∧ a.calloc = false) ∨
          a.strdupKey = true ∧ a.strdupVal = true) := by
  cases h with
  | @replaced e v' _ he hv hr hs hc =>
    have hk : k ∈ d.keys := stored_isSome_iff.mp (by rw [hs]; rfl)
    have hs' : d'.stored k = some v' := by rw [hr.stored_self, if_pos he]
    simp only [strdup, Option.some.injEq] at hv
    subst hv
    rw [hs', hs, hc]
    by_cases ha : a.strdupVal = true
    · simp [ha, hk]
    · simp [ha, hk, @eq_comm _ none e.val]
  | full hk hg => simp [(dictionaryResize_eq_none_iff hd a.calloc).mp hg, hk]
  | @filled e d₁ _ hk hg he hr hc =>
    have hg' := not_full_of_dictionaryResize hd hg
    simp only [hr.stored_self, newEntry, hk, hg']
    by_cases ha : a.strdupKey = true
    · by_cases hb : a.strdupVal = true <;> simp [ha, hb]
    · simp [ha]

theorem atomic_iff {v : CString} (hd : Sane signed d)
    (h : dictionaryAdd signed a d (some k) (some v) = some (r, d')) :
    Atomic signed d k v r d' ↔ d.count = d.occupied ∧ AddSafe a d k (some v) := by
  have he := dictionaryAdd_effect hd h
  have hd' := he.sane hd
  have ho := he.outcome_iff hd
  have hc := he.counted_iff hd
  rw [← get_eq_iff hd', ← he.gets_eq_iff hd] at ho
  have hsafe : AddSafe a d k (some v) ↔ (k ∈ d.keys → a.strdupVal = true ∨ d.stored k = some none) ∧
      (k ∉ d.keys → (d.count = d.size ∧ a.calloc = false) ∨
        a.strdupKey = true ∧ a.strdupVal = true) := by
    simp [AddSafe]
  constructor
  · rintro ⟨hout, hcount⟩
    exact ⟨(hc.mp hcount).1, hsafe.mpr (ho.mp hout)⟩
  · rintro ⟨hcount, hs⟩
    have hs' := hsafe.mp hs
    exact ⟨ho.mpr hs', hc.mpr ⟨hcount, fun hk => (hs'.2 hk).imp_right And.left⟩⟩

/-- A call that loses no allocation. -/
def Call.Safe (d : DictionaryS) : Call → Prop
  | .add a (some k) val => AddSafe a d k val
  | _ => True

/-- No call of a run loses an allocation. -/
def SafeRun (signed : Bool) (d : DictionaryS) : List Call → Prop
  | [] => True
  | c :: cs => c.Safe d ∧ ∀ r d₁, c.exec signed d = some (r, d₁) → SafeRun signed d₁ cs

theorem exec_counted (hd : Sane signed d) (hcount : d.count = d.occupied) {c : Call} {r : Resp}
    (hs : c.Safe d) (hc : c.exec signed d = some (r, d')) : d'.count = d'.occupied := by
  rcases exec_effect hd hc with rfl | ⟨a, k, val, n, rfl, he⟩ | ⟨k, rfl, he⟩
  · exact hcount
  · exact (he.counted_iff hd).mpr ⟨hcount, fun hk => (hs.2 hk).imp_right And.left⟩
  · cases he with
    | absent hk => exact hcount
    | deleted he hr hc =>
      have := hr.occupied_pred he rfl
      omega

theorem safeRun_counted (hd : Sane signed d) (hcount : d.count = d.occupied)
    (hs : SafeRun signed d cs) (h : run signed d cs = some (rs, d')) : d'.count = d'.occupied := by
  induction cs generalizing d rs with
  | nil =>
    cases h
    exact hcount
  | cons c cs ih =>
    obtain ⟨r, d₁, rs', hc, hr, -⟩ := run_cons.mp h
    exact ih (exec_sane hd hc) (exec_counted hd hcount hs.1 hc) (hs.2 r d₁ hc) hr

/-- When `dictionary_add` is failure atomic, in every state that calls under any
pattern of allocation failures reach; and in runs of calls that lose no allocation
the count is right, so that there the allocations of the call alone decide. -/
theorem add_atomic_iff {handle slots : Bool} {size : ℕ}
    (hd : dictionaryCreate handle slots size = some d₀) (hr : run signed d₀ cs = some (rs, d)) :
    (∀ a k v, ∃ r d', dictionaryAdd signed a d (some k) (some v) = some (r, d') ∧
        (Atomic signed d k v r d' ↔ d.count = d.occupied ∧ AddSafe a d k (some v))) ∧
      (SafeRun signed d₀ cs → ∀ a k v, AddSafe a d k (some v) →
        ∃ r d', dictionaryAdd signed a d (some k) (some v) = some (r, d') ∧
          Atomic signed d k v r d') := by
  have hv : Valid signed d₀ := (dictionaryCreate_valid signed hd).1
  have hs : Sane signed d := run_sane hv.toSane hr
  constructor
  · intro a k v
    obtain ⟨r, d', h⟩ := dictionaryAdd_some hs a k v
    exact ⟨r, d', h, atomic_iff hs h⟩
  · intro hsafe a k v ha
    obtain ⟨r, d', h⟩ := dictionaryAdd_some hs a k v
    have hcount := safeRun_counted hv.toSane hv.count_eq hsafe hr
    exact ⟨r, d', h, (atomic_iff hs h).mpr ⟨hcount, ha⟩⟩

/-- A value that was stored although the slots could not have grown is overwritten: atomically
where only the key could not be duplicated, not where the value could not. -/
theorem add_atomic_overwrite : ∃ d₀ rs d, dictionaryCreate true true 0 = some d₀ ∧
    run true d₀ [.add ⟨false, true, true⟩ (some (.ofBytes [0x61])) (some (.ofBytes [0x31]))] =
      some (rs, d) ∧
    (∃ r d', dictionaryAdd true ⟨false, false, true⟩ d (some (.ofBytes [0x61]))
        (some (.ofBytes [0x32])) = some (r, d') ∧
      Atomic true d (.ofBytes [0x61]) (.ofBytes [0x32]) r d') ∧
    ∃ r d', dictionaryAdd true ⟨true, true, false⟩ d (some (.ofBytes [0x61]))
        (some (.ofBytes [0x32])) = some (r, d') ∧
      ¬ Atomic true d (.ofBytes [0x61]) (.ofBytes [0x32]) r d' := by
  obtain ⟨d₀, hd⟩ : ∃ d₀, dictionaryCreate true true 0 = some d₀ := ⟨_, rfl⟩
  obtain ⟨⟨rs, d⟩, hr⟩ : ∃ p, run true d₀
      [.add ⟨false, true, true⟩ (some (.ofBytes [0x61])) (some (.ofBytes [0x31]))] = some p := by
    cases hd
    exact Option.isSome_iff_exists.mp (by decide +kernel)
  have hs : d.stored (.ofBytes [0x61]) = some (some (.ofBytes [0x31])) := by
    have hstored := congrArg (Option.map fun p => p.2.stored (.ofBytes [0x61])) hr
    cases hd
    exact Option.some.inj (hstored.symm.trans (by decide +kernel))
  have hk : CString.ofBytes [0x61] ∈ d.keys := stored_isSome_iff.mp (by rw [hs]; rfl)
  have hsafe : SafeRun true d₀
      [.add ⟨false, true, true⟩ (some (.ofBytes [0x61])) (some (.ofBytes [0x31]))] :=
    ⟨by simp [Call.Safe, AddSafe], fun _ _ _ => trivial⟩
  refine ⟨d₀, rs, d, hd, hr, ?_, ?_⟩
  · refine (add_atomic_iff hd hr).2 hsafe ⟨false, false, true⟩ (.ofBytes [0x61])
      (.ofBytes [0x32]) ?_
    exact ⟨fun _ => .inl rfl, fun hn => absurd hk hn⟩
  · obtain ⟨r, d', h, hiff⟩ := (add_atomic_iff hd hr).1 ⟨true, true, false⟩ (.ofBytes [0x61])
      (.ofBytes [0x32])
    refine ⟨r, d', h, fun hat => ?_⟩
    have hlost := (hiff.mp hat).2.1 hk
    rw [hs] at hlost
    exact absurd hlost (by decide)

/-- Overwriting a value loses it when the duplication of the new one fails. -/
theorem add_not_atomic : ¬∀ (signed : Bool) (size : ℕ) (d₀ d : DictionaryS) (cs : List Call)
    (rs : List Resp) (a : Allocs) (k v : CString), dictionaryCreate true true size = some d₀ →
    run signed d₀ cs = some (rs, d) → ∃ r d',
      dictionaryAdd signed a d (some k) (some v) = some (r, d') ∧ Atomic signed d k v r d' := by
  intro h
  let k : CString := .ofBytes [0x61]
  let old : CString := .ofBytes [0x31]
  let e : DictionaryEntryS := ⟨dictionaryHash true (some k), some k, some old⟩
  let d : DictionaryS := ⟨1, 128, e :: List.replicate 127 zeroed⟩
  let d₁ : DictionaryS := ⟨1, 128, { e with val := none } :: List.replicate 127 zeroed⟩
  have hrun : run true ⟨0, 128, List.replicate 128 zeroed⟩ [.add .all (some k) (some old)] =
      some ([.code 0], d) := by decide +kernel
  obtain ⟨r, d', hadd, hat⟩ := h true 0 _ d _ _
    { calloc := true, strdupKey := true, strdupVal := false } k (.ofBytes [0x32]) rfl hrun
  have hfail : dictionaryAdd true { calloc := true, strdupKey := true, strdupVal := false } d
      (some k) (some (.ofBytes [0x32])) = some (-1, d₁) := by decide +kernel
  rw [hfail] at hadd
  cases hadd
  rcases hat.outcome with ⟨h0, -⟩ | ⟨-, hgets, -⟩
  · exact absurd h0 (by decide)
  · exact absurd (hgets (some k) none) (by decide +kernel)

end Ohmylib.Dictionary
