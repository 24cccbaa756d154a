import Ohmylib.Dictionary.Map
import Ohmylib.Slots.Padding

/-! Two dictionaries of different sizes that get the same calls. They hold the same
slots up to unused ones at the end, which a search for a key cannot tell apart; and a
search for a free slot, when it succeeds in both, stops at the same index, be it a
hole of a deletion or the first slot of an area one of them has just grown. -/

namespace Ohmylib.Dictionary

open Slots

variable {signed : Bool} {d d₁ d₂ d' e e₁ e' : DictionaryS} {k : CString} {hash : UInt32} {i j : ℕ}

theorem findIdxByKey_lt (hd : Sane signed d)
    (hf : dictionaryFindIdxByKey d k hash = .ok i) : i < d.entries.length := by
  unfold dictionaryFindIdxByKey at hf
  rw [hd.take_entries] at hf
  split at hf
  · next j hj =>
    cases hf
    exact (List.findIdx?_eq_some_iff_getElem.mp hj).1
  · cases hf

theorem findIdxByEmpty_eq_ok_iff (hd : Sane signed d) :
    dictionaryFindIdxByEmpty d = .ok i ↔ d.entries.findIdx? (·.key.isNone) = some i := by
  unfold dictionaryFindIdxByEmpty
  rw [hd.take_entries]
  cases d.entries.findIdx? (·.key.isNone) <;> simp

/-- The same slots and the same count, in dictionaries that may differ in size. -/
structure Alike (d e : DictionaryS) : Prop where
  count_eq : d.count = e.count
  agree : Agree zeroed d.entries e.entries

/-- Dictionaries alike whose searches go by the invariant. -/
structure Twins (signed : Bool) (d e : DictionaryS) : Prop extends Alike d e where
  left : Sane signed d
  right : Sane signed e

theorem Twins.findIdxByKey (h : Twins signed d e) (k : CString) (hash : UInt32) :
    dictionaryFindIdxByKey d k hash = dictionaryFindIdxByKey e k hash := by
  have hz : DictionaryEntryS.holds zeroed k hash = false := rfl
  unfold dictionaryFindIdxByKey
  rw [h.left.take_entries, h.right.take_entries, h.agree.findIdx? hz]

theorem Twins.get (h : Twins signed d e) (key dflt : Option CString) :
    dictionaryGet signed d key dflt = dictionaryGet signed e key dflt := by
  unfold dictionaryGet
  cases key with
  | none => rfl
  | some k =>
    simp only [h.findIdxByKey]
    split
    · rfl
    · exact congrArg DictionaryEntryS.val (h.agree _)

theorem Twins.dump (h : Twins signed d e) : dictionaryDump d = dictionaryDump e := by
  have hz : DictionaryEntryS.record zeroed = none := rfl
  unfold dictionaryDump dumpRecords
  rw [h.left.take_entries, h.right.take_entries, h.count_eq, h.agree.filterMap hz]

/-- The slot of a key is written in both. -/
theorem Twins.setEntry_held (h : Twins signed d e) (hf : dictionaryFindIdxByKey e k hash = .ok i)
    (s : DictionaryEntryS) : Agree zeroed (d.setEntry i s).entries (e.setEntry i s).entries :=
  h.agree.set (findIdxByKey_lt h.left ((h.findIdxByKey k hash).trans hf))
    (findIdxByKey_lt h.right hf) s

theorem Twins.resize (h : Twins signed d e) {c c' : Bool} (hd : dictionaryResize c d = some d₁)
    (he : dictionaryResize c' e = some e₁) : Twins signed d₁ e₁ := by
  have hr := dictionaryResize_spec h.left hd
  have hr' := dictionaryResize_spec h.right he
  refine ⟨⟨?_, ?_⟩, hr.sane h.left, hr'.sane h.right⟩
  · rw [hr.count_eq, hr'.count_eq, h.count_eq]
  · obtain ⟨n, hn, -⟩ := hr.entries_eq
    obtain ⟨n', hn', -⟩ := hr'.entries_eq
    rw [hn, hn']
    exact (agree_append_replicate _ n).trans (h.agree.trans (agree_append_replicate _ n').symm)

/-- The first free slot is the same and is written in both. -/
theorem Twins.setEntry_free (h : Twins signed d e) (hd : dictionaryFindIdxByEmpty d = .ok i)
    (he : dictionaryFindIdxByEmpty e = .ok j) (s : DictionaryEntryS) :
    Agree zeroed (d.setEntry i s).entries (e.setEntry j s).entries := by
  have hi := (findIdxByEmpty_eq_ok_iff h.left).mp hd
  have hj := (findIdxByEmpty_eq_ok_iff h.right).mp he
  have hij : i = j := h.agree.first hi hj
  subst hij
  exact h.agree.set (List.findIdx?_eq_some_iff_getElem.mp hi).1
    (List.findIdx?_eq_some_iff_getElem.mp hj).1 s

theorem Twins.del (h : Twins signed d e) (key : Option CString) :
    Alike (dictionaryDel signed d key) (dictionaryDel signed e key) := by
  unfold dictionaryDel
  cases key with
  | none => exact h.toAlike
  | some k =>
    simp only [h.findIdxByKey]
    cases hf : dictionaryFindIdxByKey e k (dictionaryHash signed (some k)) with
    | error _ => exact h.toAlike
    | ok i =>
      exact ⟨by simp only [h.count_eq], h.setEntry_held hf zeroed⟩

theorem Twins.add (h : Twins signed d e) (k v : CString) : ∃ r d' e',
    dictionaryAdd signed .all d (some k) (some v) = some (r, d') ∧
      dictionaryAdd signed .all e (some k) (some v) = some (r, e') ∧ Alike d' e' := by
  unfold dictionaryAdd
  simp only [h.findIdxByKey]
  cases hf : dictionaryFindIdxByKey e k (dictionaryHash signed (some k)) with
  | ok i =>
    refine ⟨0, _, _, rfl, rfl, h.count_eq, ?_⟩
    rw [show d.entry i = e.entry i from h.agree i]
    exact h.setEntry_held hf _
  | error _ =>
    have hgrow : ∀ d, Sane signed d → ∃ d₁, dictionaryResize true d = some d₁ := by
      intro d hd
      rw [← Option.ne_none_iff_exists', Ne, dictionaryResize_eq_none_iff hd]
      exact fun hn => Bool.noConfusion hn.2
    obtain ⟨d₁, hd₁⟩ := hgrow d h.left
    obtain ⟨e₁, he₁⟩ := hgrow e h.right
    obtain ⟨a, _, _, -, -, hi⟩ := (dictionaryResize_spec h.left hd₁).findIdxByEmpty h.left
    obtain ⟨b, _, _, -, -, hj⟩ := (dictionaryResize_spec h.right he₁).findIdxByEmpty h.right
    have h₁ := h.resize hd₁ he₁
    simp only [Allocs.all, hd₁, he₁, hi, hj]
    exact ⟨0, _, _, rfl, rfl, congrArg (· + 1) h₁.count_eq, h₁.setEntry_free hi hj _⟩

/-- One operation answers the same on both and keeps them alike. -/
theorem twins_step (h : Twins signed d e) (op : Op) : ∃ r d' e',
    op.call.exec signed d = some (r, d') ∧ op.call.exec signed e = some (r, e') ∧
      Twins signed d' e' := by
  have hstep : ∃ r d' e', op.call.exec signed d = some (r, d') ∧
      op.call.exec signed e = some (r, e') ∧ Alike d' e' := by
    cases op with
    | add k v =>
      obtain ⟨r, d', e', hd, he, ha⟩ := h.add k v
      refine ⟨.code r, d', e', ?_, ?_, ha⟩
      · simp [Op.call, Call.exec, hd]
      · simp [Op.call, Call.exec, he]
    | del k => exact ⟨.done, _, _, rfl, rfl, h.del (some k)⟩
    | get k dflt =>
      refine ⟨_, d, e, rfl, ?_, h.toAlike⟩
      rw [h.get]
      rfl
    | dump =>
      refine ⟨_, d, e, rfl, ?_, h.toAlike⟩
      rw [h.dump]
      rfl
  obtain ⟨r, d', e', hd, he, ha⟩ := hstep
  exact ⟨r, d', e', hd, he, ha, exec_sane h.left hd, exec_sane h.right he⟩

theorem twins_run (ops : List Op) : ∀ {d e : DictionaryS}, Twins signed d e → ∃ rs d' e',
    run signed d (ops.map Op.call) = some (rs, d') ∧
      run signed e (ops.map Op.call) = some (rs, e') ∧ Twins signed d' e' := by
  induction ops with
  | nil =>
    intro d e h
    exact ⟨[], d, e, rfl, rfl, h⟩
  | cons op ops ih =>
    intro d e h
    obtain ⟨r, d₁, e₁, hd, he, h₁⟩ := twins_step h op
    obtain ⟨rs, d', e', hd', he', h'⟩ := ih h₁
    exact ⟨r :: rs, d', e', run_cons.mpr ⟨r, d₁, rs, hd, hd', rfl⟩,
      run_cons.mpr ⟨r, e₁, rs, he, he', rfl⟩, h'⟩

/-- The requested size of a dictionary cannot be observed: the responses are the same,
the dumps are the same text, and every binding lies in the same slot. -/
theorem growth_unobservable (signed : Bool) {s₁ s₂ : ℕ}
    (h₁ : dictionaryCreate true true s₁ = some d₁)
    (h₂ : dictionaryCreate true true s₂ = some d₂) (ops : List Op) : ∃ rs d e,
      run signed d₁ (ops.map Op.call) = some (rs, d) ∧
      run signed d₂ (ops.map Op.call) = some (rs, e) ∧
      dictionaryDump d = dictionaryDump e ∧ ∀ i, d.entry i = e.entry i := by
  have h : Twins signed d₁ d₂ := by
    refine ⟨⟨?_, ?_⟩, (dictionaryCreate_valid signed h₁).1.toSane,
      (dictionaryCreate_valid signed h₂).1.toSane⟩
    · cases h₁
      cases h₂
      rfl
    · cases h₁
      cases h₂
      exact (agree_append_replicate [] _).trans (agree_append_replicate [] _).symm
  obtain ⟨rs, d, e, hd, he, hde⟩ := twins_run ops h
  exact ⟨rs, d, e, hd, he, hde.dump, hde.agree⟩

/-- A deletion between additions, on a dictionary whose requested size is cut to no slots, so
that its first addition grows it, and on one that never grows. -/
theorem growth_unobservable_add : ∃ d₁ d₂ rs d e,
    dictionaryCreate true true (2 ^ 32 - 127) = some d₁ ∧ dictionaryCreate true true 0 = some d₂ ∧
    run true d₁ ([.add (.ofBytes [0x61]) (.ofBytes [0x31]),
      .add (.ofBytes [0x62]) (.ofBytes [0x32]), .del (.ofBytes [0x61]),
      .add (.ofBytes [0x63]) (.ofBytes [0x33]), .get (.ofBytes [0x62]) none,
      .dump].map Op.call) = some (rs, d) ∧
    run true d₂ ([.add (.ofBytes [0x61]) (.ofBytes [0x31]),
      .add (.ofBytes [0x62]) (.ofBytes [0x32]), .del (.ofBytes [0x61]),
      .add (.ofBytes [0x63]) (.ofBytes [0x33]), .get (.ofBytes [0x62]) none,
      .dump].map Op.call) = some (rs, e) ∧
    (d₁.size = 0 ∧ d.size = 128) ∧ (d₂.size = 128 ∧ e.size = 128) ∧
    dictionaryDump d = dictionaryDump e ∧ ∀ i, d.entry i = e.entry i := by
  obtain ⟨d₁, h₁⟩ : ∃ d₁, dictionaryCreate true true (2 ^ 32 - 127) = some d₁ := ⟨_, rfl⟩
  obtain ⟨d₂, h₂⟩ : ∃ d₂, dictionaryCreate true true 0 = some d₂ := ⟨_, rfl⟩
  refine ⟨d₁, d₂, (growth_unobservable true h₁ h₂ _).imp fun rs => Exists.imp fun d =>
    Exists.imp fun e ⟨hd, he, hsame⟩ => ⟨h₁, h₂, hd, he, ?_, ?_, hsame⟩⟩
  · have hsize := congrArg (Option.map fun p => p.2.size) hd
    cases h₁
    exact ⟨rfl, Option.some.inj (hsize.symm.trans (by decide +kernel))⟩
  · have hsize := congrArg (Option.map fun p => p.2.size) he
    cases h₂
    exact ⟨rfl, Option.some.inj (hsize.symm.trans (by decide +kernel))⟩

end Ohmylib.Dictionary
