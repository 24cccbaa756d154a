import Ohmylib.Dictionary.Calls

/-! Runs of calls on a created dictionary. Every run keeps the slots sane, and a run
whose `strdup` calls succeed keeps them valid, however often the growing of the slots
fails. -/

namespace Ohmylib.Dictionary

variable {signed : Bool} {d d₀ d₁ d' : DictionaryS} {c : Call} {cs : List Call} {r : Resp}
  {rs : List Resp}

/-- Both duplications of a call succeed. -/
def Call.Duplicates : Call → Prop
  | .add a _ _ => a.strdupKey = true ∧ a.strdupVal = true
  | _ => True

theorem run_cons : run signed d (c :: cs) = some (rs, d') ↔ ∃ r d₁ rs',
    c.exec signed d = some (r, d₁) ∧ run signed d₁ cs = some (rs', d') ∧ rs = r :: rs' := by
  cases hc : c.exec signed d with
  | none => simp [run, hc]
  | some p =>
    simp only [run, hc, Option.map_eq_some_iff, Prod.mk.injEq, Option.some.injEq]
    constructor
    · rintro ⟨⟨rs', d''⟩, hr, rfl, rfl⟩
      exact ⟨p.1, p.2, rs', rfl, hr, rfl⟩
    · rintro ⟨r, d₁, rs', rfl, hr, rfl⟩
      exact ⟨(rs', d'), hr, rfl, rfl⟩

/-- What every call keeps, a run of such calls keeps. -/
theorem run_induction {P : DictionaryS → Prop} {Q : Call → Prop}
    (step : ∀ c d r d', Q c → P d → c.exec signed d = some (r, d') → P d') (hd : P d)
    (hQ : ∀ c ∈ cs, Q c) (h : run signed d cs = some (rs, d')) : P d' := by
  induction cs generalizing d rs with
  | nil =>
    cases h
    exact hd
  | cons c cs ih =>
    obtain ⟨r, d₁, rs', hc, hr, -⟩ := run_cons.mp h
    have h₁ := step c d r d₁ (hQ c List.mem_cons_self) hd hc
    exact ih h₁ (fun c hc => hQ c (List.mem_cons_of_mem _ hc)) hr

/-- The effect of a call that may change the dictionary. -/
theorem exec_effect (h : Sane signed d) (hc : c.exec signed d = some (r, d')) :
    d' = d ∨ (∃ a k val n, c = .add a (some k) val ∧ AddEffect signed a d k val n d') ∨
      ∃ k, c = .del (some k) ∧ DelEffect d k d' := by
  cases c with
  | add a key val =>
    obtain ⟨p, hp, hrd⟩ := Option.map_eq_some_iff.mp hc
    cases hrd
    cases key with
    | none =>
      cases hp
      exact .inl rfl
    | some k => exact .inr (.inl ⟨a, k, val, p.1, rfl, dictionaryAdd_effect h hp⟩)
  | del key =>
    cases hc
    cases key with
    | none => exact .inl rfl
    | some k => exact .inr (.inr ⟨k, rfl, dictionaryDel_effect h k⟩)
  | get key dflt =>
    cases hc
    exact .inl rfl
  | dump =>
    cases hc
    exact .inl rfl

theorem exec_sane (hd : Sane signed d) (hc : c.exec signed d = some (r, d')) : Sane signed d' := by
  rcases exec_effect hd hc with rfl | ⟨a, k, val, n, -, he⟩ | ⟨k, -, he⟩
  · exact hd
  · exact he.sane hd
  · exact he.sane hd

theorem exec_valid (hd : Valid signed d) (hs : c.Duplicates)
    (hc : c.exec signed d = some (r, d')) : Valid signed d' := by
  rcases exec_effect hd.toSane hc with rfl | ⟨a, k, val, n, rfl, he⟩ | ⟨k, rfl, he⟩
  · exact hd
  · exact he.valid hd hs.1
  · exact he.valid hd

theorem run_sane (hd : Sane signed d) (h : run signed d cs = some (rs, d')) : Sane signed d' :=
  run_induction (Q := fun _ => True) (fun _ _ _ _ _ hd hc => exec_sane hd hc) hd
    (fun _ _ => trivial) h

theorem run_valid (hd : Valid signed d) (hs : ∀ c ∈ cs, c.Duplicates)
    (h : run signed d cs = some (rs, d')) : Valid signed d' :=
  run_induction (fun _ _ _ _ hs hd hc => exec_valid hd hs hc) hd hs h

/-- A call is undefined only where it would duplicate a `NULL` value: when it adds
`NULL` under a key that is held. -/
theorem exec_isSome_iff (hd : Sane signed d) :
    (c.exec signed d).isSome ↔ ∀ a k, c = .add a (some k) none → k ∉ d.keys := by
  cases c with
  | add a key val =>
    cases key with
    | none => simp [Call.exec, dictionaryAdd]
    | some k =>
      rw [Call.exec, Option.isSome_map, dictionaryAdd_isSome_iff hd]
      simp only [Call.add.injEq, Option.some.injEq]
      constructor
      · rintro h a' k' ⟨rfl, rfl, rfl⟩ hk
        exact h hk rfl
      · rintro h hk rfl
        exact h a k ⟨rfl, rfl, rfl⟩ hk
  | del key => simp [Call.exec]
  | get key dflt => simp [Call.exec]
  | dump => simp [Call.exec]

/-- The representation of a dictionary in every run whose `strdup` calls succeed. A
call that deletes finds `count` positive, and after a successful resize there is an
empty slot, so that an insertion never reaches the end of `dictionary_add`. -/
theorem representation_invariant {handle slots : Bool} {size : ℕ}
    (hd : dictionaryCreate handle slots size = some d₀) (hs : ∀ c ∈ cs, c.Duplicates)
    (hr : run signed d₀ cs = some (rs, d)) :
    Valid signed d ∧
      (∀ c : Call, (c.exec signed d).isSome ↔ ∀ a k, c = .add a (some k) none → k ∉ d.keys) ∧
      (∀ k idx, dictionaryFindIdxByKey d k (dictionaryHash signed (some k)) = .ok idx →
        0 < d.count) ∧
      ∀ calloc d₁, dictionaryResize calloc d = some d₁ →
        ∃ idx, dictionaryFindIdxByEmpty d₁ = .ok idx := by
  have hv : Valid signed d := run_valid (dictionaryCreate_valid signed hd).1 hs hr
  refine ⟨hv, fun c => exec_isSome_iff hv.toSane, fun k idx hf => ?_, fun calloc d₁ hg => ?_⟩
  · by_cases hk : k ∈ d.keys
    · rw [hv.count_eq]
      exact List.length_pos_of_mem hk
    · rw [findIdxByKey_of_notMem hv.toSane hk] at hf
      cases hf
  · obtain ⟨a, e, b, -, -, hf⟩ := (dictionaryResize_spec hv.toSane hg).findIdxByEmpty hv.toSane
    exact ⟨a.length, hf⟩

theorem representation_invariant_null_value : ∃ d₀ rs d, dictionaryCreate true true 200 = some d₀ ∧
    run true d₀ [.add .all (some (.ofBytes [0x61])) none,
      .add .all (some (.ofBytes [0x62])) (some (.ofBytes [])),
      .del (some (.ofBytes [0x61]))] = some (rs, d) ∧ Valid true d := by
  obtain ⟨d₀, hd⟩ : ∃ d₀, dictionaryCreate true true 200 = some d₀ := ⟨_, rfl⟩
  obtain ⟨⟨rs, d⟩, hr⟩ : ∃ p, run true d₀ [.add .all (some (.ofBytes [0x61])) none,
      .add .all (some (.ofBytes [0x62])) (some (.ofBytes [])),
      .del (some (.ofBytes [0x61]))] = some p := by
    cases hd
    exact Option.isSome_iff_exists.mp (by decide +kernel)
  have hv := representation_invariant hd (by simp [Call.Duplicates, Allocs.all]) hr
  exact ⟨d₀, rs, d, hd, hr, hv.1⟩

end Ohmylib.Dictionary
