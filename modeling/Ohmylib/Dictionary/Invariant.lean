import Ohmylib.Dictionary.Model
import Ohmylib.Slots.Table

/-! The invariant of the slots, and how the parts of a call act on it. `Sane`
survives every pattern of allocation failures; `Valid` is the stronger invariant of
runs in which `strdup` succeeds. The searches find the slot of a key, or a free
slot; a resize appends free slots; every other change rewrites the one slot of a
key. -/

namespace Ohmylib.Dictionary

open Slots

/-- The keys the slots hold. -/
def DictionaryS.keys (d : DictionaryS) : List CString := Slots.keys DictionaryEntryS.key d.entries

/-- The number of slots with a key that is not `NULL`. -/
def DictionaryS.occupied (d : DictionaryS) : ℕ := d.keys.length

/-- The value stored under a key, which may be `NULL`. -/
def DictionaryS.stored (d : DictionaryS) (k : CString) : Option (Option CString) :=
  (lookup DictionaryEntryS.key d.entries k).map DictionaryEntryS.val

structure Sane (signed : Bool) (d : DictionaryS) : Prop where
  length_eq : d.entries.length = d.size
  aligned : dictionaryMinSize ∣ d.size
  hash_eq : ∀ e ∈ d.entries, ∀ k, e.key = some k → e.hash = dictionaryHash signed (some k)
  nodup : d.keys.Nodup
  occupied_le : d.occupied ≤ d.count
  count_le : d.count ≤ d.size

structure Valid (signed : Bool) (d : DictionaryS) : Prop extends Sane signed d where
  count_eq : d.count = d.occupied
  free_eq : ∀ e ∈ d.entries, e.key = none → e = zeroed

variable {signed : Bool} {d d₁ d' : DictionaryS} {k k' : CString} {e e' : DictionaryEntryS}

theorem Sane.take_entries (h : Sane signed d) : d.entries.take d.size = d.entries := by
  rw [← h.length_eq, List.take_length]

theorem stored_eq_none_iff : d.stored k = none ↔ k ∉ d.keys := by
  rw [DictionaryS.stored, Option.map_eq_none_iff]
  exact lookup_eq_none_iff

theorem holds_iff (h : ∀ k', e.key = some k' → e.hash = dictionaryHash signed (some k')) :
    e.holds k (dictionaryHash signed (some k)) ↔ e.key = some k := by
  unfold DictionaryEntryS.holds
  cases hk : e.key with
  | none => simp
  | some k' =>
    simp only [h k' hk, Bool.and_eq_true, beq_iff_eq, Option.some.injEq]
    refine ⟨fun hh => hh.2.symm, fun hh => ?_⟩
    rw [hh]
    exact ⟨rfl, rfl⟩

theorem mem_of_split {a b : List DictionaryEntryS} (hl : d.entries = a ++ e :: b) :
    e ∈ d.entries := by
  rw [hl]
  exact List.mem_append_cons_self

/-- The search for a key that is held stops at its slot. -/
theorem findIdxByKey_of_mem (h : Sane signed d) (hk : k ∈ d.keys) :
    ∃ a e b, d.entries = a ++ e :: b ∧ e.key = some k ∧
      dictionaryFindIdxByKey d k (dictionaryHash signed (some k)) = .ok a.length := by
  obtain ⟨s, hs, hsk⟩ := mem_keys.mp hk
  unfold dictionaryFindIdxByKey
  rw [h.take_entries]
  cases hf : d.entries.findIdx? fun e => e.holds k (dictionaryHash signed (some k)) with
  | none =>
    have := List.findIdx?_eq_none_iff.mp hf s hs
    rw [(holds_iff (h.hash_eq s hs)).mpr hsk] at this
    cases this
  | some i =>
    obtain ⟨a, e, b, hl, rfl, he, -⟩ := findIdx?_eq_some_iff_split.mp hf
    exact ⟨a, e, b, hl, (holds_iff (h.hash_eq e (mem_of_split hl))).mp he, rfl⟩

theorem findIdxByKey_of_notMem (h : Sane signed d) (hk : k ∉ d.keys) :
    dictionaryFindIdxByKey d k (dictionaryHash signed (some k)) = .error .ENOENT := by
  unfold dictionaryFindIdxByKey
  rw [h.take_entries, List.findIdx?_eq_none_iff.mpr]
  intro e he
  rw [Bool.eq_false_iff]
  intro hh
  exact hk (mem_keys.mpr ⟨e, he, (holds_iff (h.hash_eq e he)).mp hh⟩)

theorem entry_split {a b : List DictionaryEntryS} (h : d.entries = a ++ e :: b) :
    d.entry a.length = e := by
  simp [DictionaryS.entry, h]

theorem setEntry_split {a b : List DictionaryEntryS} (h : d.entries = a ++ e :: b) :
    (d.setEntry a.length e').entries = a ++ e' :: b := by
  rw [DictionaryS.setEntry, h]
  exact set_split a b e e'

theorem stored_split {a b : List DictionaryEntryS} (h : Sane signed d)
    (hl : d.entries = a ++ e :: b) (he : e.key = some k) : d.stored k = some e.val := by
  rw [DictionaryS.stored, (lookup_eq_some_iff h.nodup).mpr ⟨mem_of_split hl, he⟩]
  rfl

/-- `dictionary_get` reads what is stored under the key. -/
theorem dictionaryGet_eq (h : Sane signed d) (k : CString) (dflt : Option CString) :
    dictionaryGet signed d (some k) dflt = (d.stored k).getD dflt := by
  unfold dictionaryGet
  by_cases hk : k ∈ d.keys
  · obtain ⟨a, e, b, hl, he, hf⟩ := findIdxByKey_of_mem h hk
    simp only [hf, entry_split hl, stored_split h hl he, Option.getD_some]
  · rw [stored_eq_none_iff.mpr hk]
    simp only [findIdxByKey_of_notMem h hk, Option.getD_none]

/-- The search for an empty slot succeeds while there are fewer keys than slots. -/
theorem findIdxByEmpty_of_lt (h : Sane signed d) (hlt : d.occupied < d.size) :
    ∃ a e b, d.entries = a ++ e :: b ∧ e.key = none ∧
      dictionaryFindIdxByEmpty d = .ok a.length := by
  obtain ⟨a, e, b, hl, he, ha⟩ := exists_first_free (h.length_eq ▸ hlt)
  have hf : d.entries.findIdx? (fun e => e.key.isNone) = some a.length :=
    findIdx?_eq_some_iff_split.mpr ⟨a, e, b, hl, rfl, by simp [he], fun x hx => by
      simpa [Option.isSome_iff_ne_none] using ha x hx⟩
  refine ⟨a, e, b, hl, he, ?_⟩
  unfold dictionaryFindIdxByEmpty
  rw [h.take_entries, hf]

/-- A resize that succeeds leaves room for one more key. -/
structure Resized (d d₁ : DictionaryS) : Prop where
  count_eq : d₁.count = d.count
  room : d₁.count < d₁.size
  entries_eq : ∃ n, d₁.entries = d.entries ++ List.replicate n zeroed ∧ d₁.size = d.size + n ∧
    dictionaryMinSize ∣ n

theorem dictionaryResize_eq_none_iff (h : Sane signed d) (calloc : Bool) :
    dictionaryResize calloc d = none ↔ d.count = d.size ∧ calloc = false := by
  have hle := h.count_le
  unfold dictionaryResize
  split_ifs with hlt hc
  · simp only [false_iff, not_and]
    omega
  · simp [hc]
  · simpa [hc] using le_antisymm hle (Nat.le_of_not_lt hlt)

/-- After a resize that succeeds there was room or there were new slots. -/
theorem not_full_of_dictionaryResize (h : Sane signed d) {calloc : Bool}
    (hr : dictionaryResize calloc d = some d₁) : ¬ (d.count = d.size ∧ calloc = false) := by
  rw [← dictionaryResize_eq_none_iff h, hr]
  exact Option.some_ne_none d₁

theorem dictionaryResize_spec (h : Sane signed d) {calloc : Bool}
    (hr : dictionaryResize calloc d = some d₁) : Resized d d₁ := by
  have hle := h.count_le
  unfold dictionaryResize at hr
  split_ifs at hr with hlt hc
  · cases hr
    exact ⟨rfl, hlt, 0, by simp, rfl, dvd_zero _⟩
  · cases hr
    refine ⟨rfl, by show d.count < d.size + 128; omega, dictionaryMinSize, ?_, rfl, dvd_rfl⟩
    simp [← h.length_eq]

theorem Resized.keys_eq (h : Resized d d₁) : d₁.keys = d.keys := by
  obtain ⟨n, he, -, -⟩ := h.entries_eq
  rw [DictionaryS.keys, he, keys_append, keys_replicate rfl, List.append_nil]
  rfl

theorem Resized.stored_eq (h : Resized d d₁) (k : CString) : d₁.stored k = d.stored k := by
  obtain ⟨n, he, -, -⟩ := h.entries_eq
  rw [DictionaryS.stored, he, lookup_append_free _ rfl]
  rfl

theorem Resized.mem_entries (h : Resized d d₁) (he : e ∈ d₁.entries) :
    e ∈ d.entries ∨ e = zeroed := by
  obtain ⟨n, hl, -, -⟩ := h.entries_eq
  rw [hl, List.mem_append] at he
  exact he.imp_right List.eq_of_mem_replicate

theorem Resized.sane (h : Resized d d₁) (hd : Sane signed d) : Sane signed d₁ where
  length_eq := by
    obtain ⟨n, he, hs, -⟩ := h.entries_eq
    rw [he, hs, List.length_append, List.length_replicate, hd.length_eq]
  aligned := by
    obtain ⟨n, -, hs, hn⟩ := h.entries_eq
    rw [hs]
    exact Nat.dvd_add hd.aligned hn
  hash_eq e he k hk := by
    rcases h.mem_entries he with he | rfl
    · exact hd.hash_eq e he k hk
    · cases hk
  nodup := h.keys_eq ▸ hd.nodup
  occupied_le := by
    rw [DictionaryS.occupied, h.keys_eq, h.count_eq]
    exact hd.occupied_le
  count_le := h.room.le

theorem Resized.valid (h : Resized d d₁) (hd : Valid signed d) : Valid signed d₁ where
  toSane := h.sane hd.toSane
  count_eq := by
    rw [h.count_eq, hd.count_eq, DictionaryS.occupied, DictionaryS.occupied, h.keys_eq]
  free_eq e he hk := by
    rcases h.mem_entries he with he | rfl
    · exact hd.free_eq e he hk
    · rfl

/-- After a resize that succeeded the search for an empty slot does too. -/
theorem Resized.findIdxByEmpty (h : Resized d d₁) (hd : Sane signed d) :
    ∃ a e b, d₁.entries = a ++ e :: b ∧ e.key = none ∧
      dictionaryFindIdxByEmpty d₁ = .ok a.length := by
  have hs := h.sane hd
  exact findIdxByEmpty_of_lt hs (lt_of_le_of_lt hs.occupied_le h.room)

/-- `d'` is `d` with a slot that holds at most `k` rewritten from `e` to `e'`, and `k`
is in no other slot. -/
structure Rewrites (k : CString) (e e' : DictionaryEntryS) (d d' : DictionaryS) : Prop where
  size_eq : d'.size = d.size
  old : FreeOr DictionaryEntryS.key k e
  new : FreeOr DictionaryEntryS.key k e'
  entries_eq : ∃ a b, d.entries = a ++ e :: b ∧ d'.entries = a ++ e' :: b ∧
    k ∉ Slots.keys DictionaryEntryS.key a ∧ k ∉ Slots.keys DictionaryEntryS.key b

theorem Rewrites.stored_self (h : Rewrites k e e' d d') :
    d'.stored k = if e'.key = some k then some e'.val else none := by
  obtain ⟨a, b, -, hl', ha, hb⟩ := h.entries_eq
  rw [DictionaryS.stored, hl', lookup_split ha hb]
  split_ifs <;> rfl

/-- Other keys keep their values. -/
theorem Rewrites.stored_ne (h : Rewrites k e e' d d') (hk : k' ≠ k) :
    d'.stored k' = d.stored k' := by
  obtain ⟨a, b, hl, hl', -, -⟩ := h.entries_eq
  rw [DictionaryS.stored, DictionaryS.stored, hl, hl', lookup_replace h.old h.new hk]

theorem Rewrites.occupied (h : Rewrites k e e' d d') :
    d'.occupied + e.key.toList.length = d.occupied + e'.key.toList.length := by
  obtain ⟨a, b, hl, hl', -, -⟩ := h.entries_eq
  simp only [DictionaryS.occupied, DictionaryS.keys, hl, hl', keys_split, List.length_append]
  omega

theorem Rewrites.occupied_eq (h : Rewrites k e e' d d') (hk : e'.key = e.key) :
    d'.occupied = d.occupied := by
  have := h.occupied
  rw [hk] at this
  omega

theorem Rewrites.occupied_pred (h : Rewrites k e e' d d') (he : e.key = some k)
    (he' : e'.key = none) : d'.occupied + 1 = d.occupied := by
  simpa [he, he'] using h.occupied

theorem Rewrites.occupied_succ (h : Rewrites k e e' d d') (he : e.key = none)
    (he' : e'.key = some k) : d'.occupied = d.occupied + 1 := by
  simpa [he, he'] using h.occupied

theorem Rewrites.occupied_le (h : Rewrites k e e' d d') : d'.occupied ≤ d.occupied + 1 := by
  have := h.occupied
  have := Option.length_toList_le (o := e'.key)
  omega

theorem Rewrites.mem (h : Rewrites k e e' d d') : e ∈ d.entries := by
  obtain ⟨a, b, hl, -, -, -⟩ := h.entries_eq
  exact mem_of_split hl

theorem Rewrites.mem_entries {x : DictionaryEntryS} (h : Rewrites k e e' d d')
    (hx : x ∈ d'.entries) : x ∈ d.entries ∨ x = e' := by
  obtain ⟨a, b, hl, hl', -, -⟩ := h.entries_eq
  rw [hl', List.mem_append, List.mem_cons] at hx
  rw [hl, List.mem_append, List.mem_cons]
  tauto

theorem Rewrites.sane (h : Rewrites k e e' d d') (hd : Sane signed d)
    (hh : e'.key = some k → e'.hash = dictionaryHash signed (some k))
    (ho : d'.occupied ≤ d'.count) (hc : d'.count ≤ d.size) : Sane signed d' where
  length_eq := by
    obtain ⟨a, b, hl, hl', -, -⟩ := h.entries_eq
    rw [h.size_eq, ← hd.length_eq, hl, hl']
    simp
  aligned := h.size_eq ▸ hd.aligned
  hash_eq x hx k' hk := by
    rcases h.mem_entries hx with hx | rfl
    · exact hd.hash_eq x hx k' hk
    · cases h.new k' hk
      exact hh hk
  nodup := by
    obtain ⟨a, b, hl, hl', ha, hb⟩ := h.entries_eq
    have hn := hd.nodup
    rw [DictionaryS.keys, hl] at hn
    rw [DictionaryS.keys, hl']
    exact nodup_keys_replace hn h.new ha hb
  occupied_le := ho
  count_le := h.size_eq ▸ hc

theorem Rewrites.withCount (h : Rewrites k e e' d d') (n : ℕ) :
    Rewrites k e e' d { d' with count := n } :=
  ⟨h.size_eq, h.old, h.new, h.entries_eq⟩

/-- The key of a slot is in no other slot. -/
theorem Sane.notMem_keys {a b : List DictionaryEntryS} (h : Sane signed d)
    (hl : d.entries = a ++ e :: b) (he : e.key = some k) :
    k ∉ Slots.keys DictionaryEntryS.key a ∧ k ∉ Slots.keys DictionaryEntryS.key b := by
  have hn := h.nodup
  rw [DictionaryS.keys, hl] at hn
  exact notMem_keys_of_nodup he hn

/-- The slot of a key that is held. -/
theorem rewrites_held {a b : List DictionaryEntryS} (h : Sane signed d)
    (hl : d.entries = a ++ e :: b) (he : e.key = some k)
    (hn : FreeOr DictionaryEntryS.key k e') : Rewrites k e e' d (d.setEntry a.length e') where
  size_eq := rfl
  old k' hk' := by
    rw [he] at hk'
    cases hk'
    rfl
  new := hn
  entries_eq := ⟨a, b, hl, setEntry_split hl, h.notMem_keys hl he⟩

/-- A free slot, for a key that is not held. -/
theorem rewrites_free {a b : List DictionaryEntryS} (hk : k ∉ d.keys)
    (hl : d.entries = a ++ e :: b) (he : e.key = none)
    (hn : FreeOr DictionaryEntryS.key k e') : Rewrites k e e' d (d.setEntry a.length e') where
  size_eq := rfl
  old k' hk' := by
    rw [he] at hk'
    cases hk'
  new := hn
  entries_eq := by
    rw [DictionaryS.keys, hl, keys_split, he] at hk
    simp only [Option.toList_none, List.nil_append, List.mem_append, not_or] at hk
    exact ⟨a, b, hl, setEntry_split hl, hk⟩

end Ohmylib.Dictionary
