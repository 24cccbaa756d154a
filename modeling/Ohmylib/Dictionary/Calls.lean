import Ohmylib.Dictionary.Invariant

/-! What each call does to a dictionary, and what a run of calls preserves. The two
calls that change it are inverted once: `dictionary_add` and `dictionary_del` leave
the dictionary as it is or rewrite the one slot of their key. -/

namespace Ohmylib.Dictionary

open Slots

variable {signed : Bool} {a : Allocs} {d d₁ d' : DictionaryS} {k k' : CString}
  {val : Option CString} {r : ℤ}

theorem align_dvd (x : ℕ) : dictionaryMinSize ∣ align x := by
  apply Nat.dvd_of_mod_eq_zero
  rw [align, show dictionaryMinSize = 2 ^ 7 from rfl, Nat.and_mod_two_pow]
  exact Nat.and_zero _

theorem dictionaryCreate_valid (signed : Bool) {handle slots : Bool} {size : ℕ}
    (h : dictionaryCreate handle slots size = some d) : Valid signed d ∧ d.keys = [] := by
  unfold dictionaryCreate at h
  split_ifs at h
  all_goals
    cases h
    have hk : ∀ n, Slots.keys DictionaryEntryS.key (List.replicate n zeroed) = [] :=
      keys_replicate rfl
    refine ⟨⟨⟨List.length_replicate, align_dvd _, ?_, ?_, ?_, Nat.zero_le _⟩, ?_, ?_⟩, hk _⟩
    · intro e he k hek
      rw [List.eq_of_mem_replicate he] at hek
      cases hek
    · rw [DictionaryS.keys, hk]
      exact List.nodup_nil
    · simp [DictionaryS.occupied, DictionaryS.keys, hk]
    · simp [DictionaryS.occupied, DictionaryS.keys, hk]
    · intro e he _
      exact List.eq_of_mem_replicate he

/-- What `dictionary_add` does: it replaces a value, it fails to grow, or it fills a
free slot. -/
inductive AddEffect (signed : Bool) (a : Allocs) (d : DictionaryS) (k : CString)
    (val : Option CString) : ℤ → DictionaryS → Prop
  | replaced {e : DictionaryEntryS} {v : Option CString} {d' : DictionaryS}
      (he : e.key = some k) (hv : strdup a.strdupVal val = some v)
      (hr : Rewrites k e { e with val := v } d d') (hs : d.stored k = some e.val)
      (hc : d'.count = d.count) : AddEffect signed a d k val (if v.isNone then -1 else 0) d'
  | full (hk : k ∉ d.keys) (hg : dictionaryResize a.calloc d = none) :
      AddEffect signed a d k val (-1) d
  | filled {e : DictionaryEntryS} {d₁ d' : DictionaryS} (hk : k ∉ d.keys)
      (hg : dictionaryResize a.calloc d = some d₁) (he : e.key = none)
      (hr : Rewrites k e (newEntry (dictionaryHash signed (some k)) a k val) d₁ d')
      (hc : d'.count = d₁.count + 1) : AddEffect signed a d k val 0 d'

theorem newEntry_freeOr {hash : UInt32} :
    FreeOr DictionaryEntryS.key k (newEntry hash a k val) := by
  intro k' hk'
  change (if a.strdupKey then some k else none) = some k' at hk'
  split_ifs at hk'
  cases hk'
  rfl

theorem dictionaryAdd_effect (h : Sane signed d)
    (ha : dictionaryAdd signed a d (some k) val = some (r, d')) :
    AddEffect signed a d k val r d' := by
  unfold dictionaryAdd at ha
  by_cases hk : k ∈ d.keys
  · obtain ⟨x, e, y, hl, he, hf⟩ := findIdxByKey_of_mem h hk
    simp only [hf, entry_split hl] at ha
    cases hv : strdup a.strdupVal val with
    | none => simp [hv] at ha
    | some v =>
      simp only [hv, Option.some.injEq, Prod.mk.injEq] at ha
      obtain ⟨rfl, rfl⟩ := ha
      refine .replaced he hv (rewrites_held h hl he fun k' hk' => ?_) (stored_split h hl he) rfl
      exact Option.some.inj (hk'.symm.trans he)
  · simp only [findIdxByKey_of_notMem h hk] at ha
    cases hg : dictionaryResize a.calloc d with
    | none =>
      simp only [hg, Option.some.injEq, Prod.mk.injEq] at ha
      obtain ⟨rfl, rfl⟩ := ha
      exact .full hk hg
    | some d₁ =>
      have hd₁ := dictionaryResize_spec h hg
      obtain ⟨x, e, y, hl, he, hf⟩ := hd₁.findIdxByEmpty h
      simp only [hg, hf, Option.some.injEq, Prod.mk.injEq] at ha
      obtain ⟨rfl, rfl⟩ := ha
      exact .filled hk hg he
        ((rewrites_free (hd₁.keys_eq ▸ hk) hl he newEntry_freeOr).withCount _) rfl

/-- `dictionary_add` is undefined only where it would duplicate a `NULL` value. -/
theorem dictionaryAdd_isSome_iff (h : Sane signed d) :
    (dictionaryAdd signed a d (some k) val).isSome ↔ (k ∈ d.keys → val ≠ none) := by
  unfold dictionaryAdd
  by_cases hk : k ∈ d.keys
  · obtain ⟨x, e, y, hl, he, hf⟩ := findIdxByKey_of_mem h hk
    cases val <;> simp [hf, hk, strdup]
  · simp only [findIdxByKey_of_notMem h hk, hk, false_imp_iff, iff_true]
    split
    · rfl
    · split <;> rfl

theorem dictionaryAdd_some (h : Sane signed d) (a : Allocs) (k v : CString) :
    ∃ r d', dictionaryAdd signed a d (some k) (some v) = some (r, d') := by
  have hd : (dictionaryAdd signed a d (some k) (some v)).isSome :=
    (dictionaryAdd_isSome_iff h).mpr fun _ => Option.some_ne_none v
  obtain ⟨⟨r, d'⟩, hp⟩ := Option.isSome_iff_exists.mp hd
  exact ⟨r, d', hp⟩

/-- What `dictionary_del` does. -/
inductive DelEffect (d : DictionaryS) (k : CString) : DictionaryS → Prop
  | absent (hk : k ∉ d.keys) : DelEffect d k d
  | deleted {e : DictionaryEntryS} {d' : DictionaryS} (he : e.key = some k)
      (hr : Rewrites k e zeroed d d') (hc : d'.count + 1 = d.count) : DelEffect d k d'

theorem dictionaryDel_effect (h : Sane signed d) (k : CString) :
    DelEffect d k (dictionaryDel signed d (some k)) := by
  unfold dictionaryDel
  by_cases hk : k ∈ d.keys
  · obtain ⟨x, e, y, hl, he, hf⟩ := findIdxByKey_of_mem h hk
    have hpos : 0 < d.count := lt_of_lt_of_le (List.length_pos_of_mem hk) h.occupied_le
    have hr : Rewrites k e zeroed d (d.setEntry x.length zeroed) :=
      rewrites_held h hl he fun k' hk' => nomatch hk'
    simp only [hf, Nat.pos_iff_ne_zero.mp hpos, ↓reduceIte]
    refine .deleted he (hr.withCount _) ?_
    show d.count - 1 + 1 = d.count
    omega
  · simp only [findIdxByKey_of_notMem h hk]
    exact .absent hk

theorem AddEffect.stored_ne (h : AddEffect signed a d k val r d') (hd : Sane signed d)
    (hk : k' ≠ k) : d'.stored k' = d.stored k' := by
  cases h with
  | replaced he hv hr hs hc => exact hr.stored_ne hk
  | full hn hg => rfl
  | filled hn hg he hr hc =>
    rw [hr.stored_ne hk, (dictionaryResize_spec hd hg).stored_eq]

theorem DelEffect.stored_ne (h : DelEffect d k d') (hk : k' ≠ k) :
    d'.stored k' = d.stored k' := by
  cases h with
  | absent hn => rfl
  | deleted he hr hc => exact hr.stored_ne hk

theorem DelEffect.stored_self (h : DelEffect d k d') : d'.stored k = none := by
  cases h with
  | absent hn => exact stored_eq_none_iff.mpr hn
  | deleted he hr hc => exact hr.stored_self

/-- Every failure of an allocation leaves the slots sane. -/
theorem AddEffect.sane (h : AddEffect signed a d k val r d') (hd : Sane signed d) :
    Sane signed d' := by
  cases h with
  | replaced he hv hr hs hc =>
    apply hr.sane hd
    · intro _
      exact hd.hash_eq _ hr.mem k he
    · rw [hr.occupied_eq rfl, hc]
      exact hd.occupied_le
    · rw [hc]
      exact hd.count_le
  | full hk hg => exact hd
  | filled hk hg he hr hc =>
    have hd₁ := dictionaryResize_spec hd hg
    have hs := hd₁.sane hd
    apply hr.sane hs
    · intro _
      rfl
    · rw [hc]
      exact hr.occupied_le.trans (Nat.succ_le_succ hs.occupied_le)
    · rw [hc]
      exact hd₁.room

theorem DelEffect.sane (h : DelEffect d k d') (hd : Sane signed d) : Sane signed d' := by
  cases h with
  | absent hk => exact hd
  | deleted he hr hc =>
    have ho := hr.occupied_pred he rfl
    have hle := hd.occupied_le
    have hcl := hd.count_le
    apply hr.sane hd
    · exact fun hk => nomatch hk
    · omega
    · omega

/-- With the keys duplicated, `count` stays the number of keys and free slots stay
empty. -/
theorem AddEffect.valid (h : AddEffect signed a d k val r d') (hd : Valid signed d)
    (ha : a.strdupKey = true) : Valid signed d' := by
  have hs := h.sane hd.toSane
  cases h with
  | replaced he hv hr _ hc =>
    refine ⟨hs, ?_, fun x hx hk => ?_⟩
    · rw [hc, hd.count_eq, hr.occupied_eq rfl]
    · rcases hr.mem_entries hx with hx | rfl
      · exact hd.free_eq x hx hk
      · simp [he] at hk
  | full hk hg => exact hd
  | filled hk hg he hr hc =>
    have hd₁ := (dictionaryResize_spec hd.toSane hg).valid hd
    have hnk : (newEntry (dictionaryHash signed (some k)) a k val).key = some k := if_pos ha
    refine ⟨hs, ?_, fun x hx hx' => ?_⟩
    · rw [hc, hd₁.count_eq, hr.occupied_succ he hnk]
    · rcases hr.mem_entries hx with hx | rfl
      · exact hd₁.free_eq x hx hx'
      · rw [hnk] at hx'
        cases hx'

theorem DelEffect.valid (h : DelEffect d k d') (hd : Valid signed d) : Valid signed d' := by
  have hs := h.sane hd.toSane
  cases h with
  | absent hk => exact hd
  | deleted he hr hc =>
    refine ⟨hs, ?_, fun x hx hx' => ?_⟩
    · have ho := hr.occupied_pred he rfl
      have := hd.count_eq
      omega
    · rcases hr.mem_entries hx with hx | rfl
      · exact hd.free_eq x hx hx'
      · rfl

end Ohmylib.Dictionary
