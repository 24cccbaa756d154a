import Mathlib.Data.List.Nodup
import Mathlib.Data.List.Perm.Basic

/-! Tables of slots searched from the front. A slot is free or holds a key; the
keys held are pairwise different. Rewriting one slot changes what is found under
its own key and nothing else. -/

namespace Ohmylib.Slots

variable {σ κ : Type*} {key : σ → Option κ}

/-- The first position that satisfies a test splits the table. -/
theorem findIdx?_eq_some_iff_split {l : List σ} {p : σ → Bool} {i : ℕ} :
    l.findIdx? p = some i ↔ ∃ a s b, l = a ++ s :: b ∧ a.length = i ∧ p s ∧ ∀ x ∈ a, ¬p x := by
  constructor
  · intro h
    obtain ⟨hi, hp, hlt⟩ := List.findIdx?_eq_some_iff_getElem.mp h
    refine ⟨l.take i, l[i], l.drop (i + 1), ?_, List.length_take_of_le (by omega), hp, ?_⟩
    · rw [List.getElem_cons_drop, List.take_append_drop]
    · intro x hx
      obtain ⟨j, hj, rfl⟩ := List.mem_take_iff_getElem.mp hx
      exact hlt j (by omega)
  · rintro ⟨a, s, b, rfl, rfl, hs, ha⟩
    have hn : a.findIdx? p = none := List.findIdx?_eq_none_iff.mpr fun x hx => by
      simpa using ha x hx
    simp [List.findIdx?_append, hn, List.findIdx?_cons, hs]

theorem set_split (a b : List σ) (s t : σ) : (a ++ s :: b).set a.length t = a ++ t :: b := by
  simp

/-- The keys held by the slots of a table. -/
def keys (key : σ → Option κ) (l : List σ) : List κ := l.filterMap key

@[simp] theorem keys_append (a b : List σ) : keys key (a ++ b) = keys key a ++ keys key b :=
  List.filterMap_append

theorem keys_cons (s : σ) (l : List σ) : keys key (s :: l) = (key s).toList ++ keys key l := by
  cases h : key s <;> simp [keys, h]

theorem mem_keys {l : List σ} {k : κ} : k ∈ keys key l ↔ ∃ s ∈ l, key s = some k :=
  List.mem_filterMap

theorem keys_split (a b : List σ) (s : σ) :
    keys key (a ++ s :: b) = keys key a ++ ((key s).toList ++ keys key b) := by
  rw [keys_append, keys_cons]

@[simp] theorem keys_replicate {s : σ} (hs : key s = none) (n : ℕ) :
    keys key (List.replicate n s) = [] :=
  List.filterMap_replicate_of_none hs

/-- A table with more slots than keys has a free slot. -/
theorem exists_free {l : List σ} (h : (keys key l).length < l.length) : ∃ s ∈ l, key s = none := by
  simpa only [exists_prop] using List.length_filterMap_lt_length_iff_exists.mp h

/-- The first free slot of a table with more slots than keys. -/
theorem exists_first_free {l : List σ} (h : (keys key l).length < l.length) :
    ∃ a s b, l = a ++ s :: b ∧ key s = none ∧ ∀ x ∈ a, key x ≠ none := by
  obtain ⟨s, hs, hk⟩ := exists_free h
  cases hf : l.findIdx? fun s => (key s).isNone with
  | none => simpa [hk] using List.findIdx?_eq_none_iff.mp hf s hs
  | some i =>
    obtain ⟨a, s, b, hl, -, hs, ha⟩ := findIdx?_eq_some_iff_split.mp hf
    exact ⟨a, s, b, hl, by simpa using hs, fun x hx => by simpa using ha x hx⟩

/-- `s` is free or holds `k`. -/
def FreeOr (key : σ → Option κ) (k : κ) (s : σ) : Prop := ∀ k', key s = some k' → k' = k

/-- Rewriting the only slot that may hold `k` keeps the keys different. -/
theorem nodup_keys_replace {a b : List σ} {s t : σ} {k : κ} (h : (keys key (a ++ s :: b)).Nodup)
    (ht : FreeOr key k t) (ha : k ∉ keys key a) (hb : k ∉ keys key b) :
    (keys key (a ++ t :: b)).Nodup := by
  have hab : (keys key a ++ keys key b).Nodup := by
    rw [keys_split] at h
    exact h.sublist (List.Sublist.append_left (List.sublist_append_right _ _) _)
  rw [keys_split]
  cases hk : key t with
  | none => simpa using hab
  | some k' =>
    cases ht k' hk
    simpa [List.nodup_middle, ha, hb] using hab

/-- No other slot holds the key of a slot. -/
theorem notMem_keys_of_nodup {a b : List σ} {s : σ} {k : κ} (hs : key s = some k)
    (h : (keys key (a ++ s :: b)).Nodup) : k ∉ keys key a ∧ k ∉ keys key b := by
  rw [keys_split, hs, Option.toList_some, List.singleton_append, List.nodup_middle,
    List.nodup_cons, List.mem_append, not_or] at h
  exact h.1

variable [DecidableEq κ]

/-- The slot that holds a key. -/
def lookup (key : σ → Option κ) (l : List σ) (k : κ) : Option σ := l.find? fun s => key s = some k

theorem lookup_eq_none_iff {l : List σ} {k : κ} : lookup key l k = none ↔ k ∉ keys key l := by
  simp [lookup, mem_keys]

theorem lookup_append (a b : List σ) (k : κ) :
    lookup key (a ++ b) k = (lookup key a k).or (lookup key b k) :=
  List.find?_append

theorem key_of_lookup {l : List σ} {k : κ} {s : σ} (h : lookup key l k = some s) :
    key s = some k := by
  simpa using List.find?_some h

theorem mem_of_lookup {l : List σ} {k : κ} {s : σ} (h : lookup key l k = some s) : s ∈ l :=
  List.mem_of_find?_eq_some h

@[simp] theorem lookup_replicate {s : σ} (hs : key s = none) (n : ℕ) (k : κ) :
    lookup key (List.replicate n s) k = none := by
  rw [lookup_eq_none_iff, keys_replicate hs]
  exact List.not_mem_nil

/-- Free slots behind a table are never found. -/
theorem lookup_append_free (l : List σ) {s : σ} (hs : key s = none) (n : ℕ) (k : κ) :
    lookup key (l ++ List.replicate n s) k = lookup key l k := by
  rw [lookup_append, lookup_replicate hs, Option.or_none]

theorem lookup_split {a b : List σ} {s : σ} {k : κ} (ha : k ∉ keys key a) (hb : k ∉ keys key b) :
    lookup key (a ++ s :: b) k = if key s = some k then some s else none := by
  rw [lookup_append, lookup_eq_none_iff.mpr ha, Option.none_or]
  split_ifs with hs
  · simp [lookup, hs]
  · have := lookup_eq_none_iff.mpr hb
    simpa [lookup, hs] using this

/-- Rewriting a slot that holds at most `k` keeps what is found under other keys. -/
theorem lookup_replace {a b : List σ} {s t : σ} {k k' : κ} (hs : FreeOr key k s)
    (ht : FreeOr key k t) (hk : k' ≠ k) :
    lookup key (a ++ t :: b) k' = lookup key (a ++ s :: b) k' := by
  have hs' : key s ≠ some k' := fun h => hk (hs k' h)
  have ht' : key t ≠ some k' := fun h => hk (ht k' h)
  simp [lookup, List.find?_append, hs', ht']

/-- The keys different, a slot is found exactly under its own key. -/
theorem lookup_eq_some_iff {l : List σ} (hl : (keys key l).Nodup) {k : κ} {s : σ} :
    lookup key l k = some s ↔ s ∈ l ∧ key s = some k := by
  refine ⟨fun h => ⟨mem_of_lookup h, key_of_lookup h⟩, fun ⟨hs, hk⟩ => ?_⟩
  obtain ⟨a, b, rfl⟩ := List.append_of_mem hs
  obtain ⟨ha, hb⟩ := notMem_keys_of_nodup hk hl
  rw [lookup_split ha hb, if_pos hk]

end Ohmylib.Slots
