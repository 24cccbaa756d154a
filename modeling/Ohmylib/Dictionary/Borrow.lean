import Ohmylib.Dictionary.Failures
import Ohmylib.Dictionary.Runs

/-! How long the pointer that `dictionary_get` returns may be used. It is the block of the
stored value itself, not a copy. Calls for other keys leave it where it is, growing
included, and the first call that adds or deletes the key frees it; no later allocation
revives it. So it is live exactly as long as no call names the key. -/

namespace Ohmylib.Dictionary.Blocks

open Alloc Slots

/-- `dictionary_get` with the pointer it returns. -/
def dictionaryGet (signed : Bool) (d : DictionaryS) (key : Option CString) (dflt : Option Str) :
    Option Str :=
  match key with
  | none => dflt
  | some key =>
    match dictionaryFindIdxByKey d.erase key (dictionaryHash signed (some key)) with
    | .error _ => dflt
    | .ok idx => (d.entry idx).val

/-- The call adds or deletes the key. -/
def Names (k : CString) : Dictionary.Call → Prop
  | .add _ key _ | .del key => key = some k
  | _ => False

/-- The string a slot is found under. -/
def DictionaryEntryS.name (e : DictionaryEntryS) : Option CString := e.key.map Str.str

variable {signed : Bool} {a : Allocs} {d d' d₁ : DictionaryS} {L L' L₁ : Ledger}
  {e e' : DictionaryEntryS} {x y : List DictionaryEntryS} {k k' : CString} {rest : List ℕ} {p : Str}

/-- The pointer leads to the string `dictionary_get` gives. -/
theorem dictionaryGet_erase (d : DictionaryS) (key : Option CString) (dflt : Option Str) :
    (dictionaryGet signed d key dflt).map Str.str =
      Dictionary.dictionaryGet signed d.erase key (dflt.map Str.str) := by
  cases key with
  | none => rfl
  | some k =>
    unfold dictionaryGet Dictionary.dictionaryGet
    dsimp only
    cases dictionaryFindIdxByKey d.erase k (dictionaryHash signed (some k)) with
    | error err => rfl
    | ok idx =>
      show (d.entry idx).val.map Str.str = (d.erase.entry idx).val
      rw [erase_entry]
      rfl

theorem keys_name (d : DictionaryS) : keys DictionaryEntryS.name d.entries = d.erase.keys := by
  rw [Dictionary.DictionaryS.keys, DictionaryS.erase, keys, keys, List.filterMap_map]
  rfl

/-- `dictionary_get` returns the value of the slot found under the key. -/
theorem dictionaryGet_lookup (h : Sane signed d.erase) (k : CString) (dflt : Option Str) :
    dictionaryGet signed d (some k) dflt =
      ((lookup DictionaryEntryS.name d.entries k).map DictionaryEntryS.val).getD dflt := by
  unfold dictionaryGet
  by_cases hk : k ∈ d.erase.keys
  · obtain ⟨x, e, y, hl, he, hf⟩ := findIdxByKey_of_mem h hk
    obtain ⟨x', e', y', hl', hx, rfl⟩ := split_of_erase hl
    have hn : (keys DictionaryEntryS.name d.entries).Nodup := by
      rw [keys_name]
      exact h.nodup
    have hlook : lookup DictionaryEntryS.name d.entries k = some e' :=
      (lookup_eq_some_iff hn).mpr ⟨mem_split hl', he⟩
    simp only [hf, hlook, ← hx, entry_append hl', Option.map_some, Option.getD_some]
  · have hlook : lookup DictionaryEntryS.name d.entries k = none := by
      rw [lookup_eq_none_iff, keys_name]
      exact hk
    simp only [findIdxByKey_of_notMem h hk, hlook, Option.map_none, Option.getD_none]

/-! ### One call -/

/-- What a call for the key `k` does to slots and blocks: slots without strings are added, and
at most one slot that is free or holds `k` is rewritten. -/
structure Step (k : CString) (d d' : DictionaryS) (L L' : Ledger) : Prop where
  later : Later L L'
  slots : ∃ n, d'.entries = d.entries ++ List.replicate n zeroed ∨
    ∃ x e e' y, d.entries ++ List.replicate n zeroed = x ++ e :: y ∧ d'.entries = x ++ e' :: y ∧
      FreeOr DictionaryEntryS.name k e ∧ FreeOr DictionaryEntryS.name k e'

theorem Step.refl (k : CString) (d : DictionaryS) (L : Ledger) : Step k d d L L :=
  ⟨.refl L, 0, .inl (by simp)⟩

/-- What is found under other keys stays. -/
theorem Step.lookup_ne (h : Step k d d' L L') (hk : k' ≠ k) :
    lookup DictionaryEntryS.name d'.entries k' = lookup DictionaryEntryS.name d.entries k' := by
  obtain ⟨n, hs | ⟨x, e, e', y, hl, hl', he, he'⟩⟩ := h.slots
  · rw [hs, lookup_append_free _ rfl]
  · rw [hl', lookup_replace he he' hk, ← hl, lookup_append_free _ rfl]

theorem free_later {s : Option Str} (h : free L s = some L') : Later L L' := by
  cases s with
  | none =>
    cases h
    exact .refl L
  | some s => exact Alloc.later_free h

theorem strdup_later {ok : Bool} {val : Option CString} {v : Option Str}
    (h : strdup ok L val = some (v, L')) :
    Later L L' ∧ ∀ s, v = some s → some s.str = val := by
  cases val with
  | none => cases h
  | some s =>
    cases ok with
    | true =>
      cases h
      exact ⟨later_alloc L, fun s hs => by cases hs; rfl⟩
    | false =>
      cases h
      exact ⟨.refl L, fun s hs => by cases hs⟩

theorem strdupOrNull_later {ok : Bool} {val : Option CString} {v : Option Str}
    (h : strdupOrNull ok L val = some (v, L')) : Later L L' := by
  unfold strdupOrNull at h
  split_ifs at h
  · cases h
    exact .refl L
  · exact (strdup_later h).1

theorem freeOr_of_name {key : Option Str} {hash : UInt32} {v : Option Str}
    (h : ∀ s, key = some s → s.str = k) :
    FreeOr DictionaryEntryS.name k ⟨hash, key, v⟩ := by
  intro k' hk'
  obtain ⟨s, hs, rfl⟩ := Option.map_eq_some_iff.mp hk'
  exact h s hs

theorem dictionaryResize_step {calloc : Bool} {g : Option DictionaryS} (h : Tracks d L rest)
    (hg : dictionaryResize calloc d L = some (g, L')) : Later L L' ∧
      ∀ d₁, g = some d₁ → ∃ n, d₁.entries = d.entries ++ List.replicate n zeroed := by
  unfold dictionaryResize at hg
  split_ifs at hg
  · cases hg
    exact ⟨.refl L, fun d₁ hd => by cases hd; exact ⟨0, by simp⟩⟩
  · obtain ⟨L₁, hf, hp⟩ := Option.map_eq_some_iff.mp hg
    cases hp
    refine ⟨(later_alloc L).trans (Alloc.later_free hf), fun d₁ hd => ?_⟩
    cases hd
    exact ⟨dictionaryMinSize, by simp [h.take_entries]⟩
  · cases hg
    exact ⟨.refl L, fun d₁ hd => by cases hd⟩

theorem dictionaryAdd_step (h : Tracks d L rest) {val : Option CString} {r : ℤ}
    (ha : dictionaryAdd signed a d (some k) val L = some (r, d', L')) : Step k d d' L L' := by
  simp only [dictionaryAdd] at ha
  cases hf : dictionaryFindIdxByKey d.erase k (dictionaryHash signed (some k)) with
  | ok idx =>
    simp only [hf, refreshEntry, Option.bind_eq_bind, Option.bind_eq_some_iff, Option.some.injEq,
      Prod.mk.injEq] at ha
    obtain ⟨L₁, hL₁, ⟨v, L₂⟩, hv, -, rfl, rfl⟩ := ha
    obtain ⟨x, e, y, hl, rfl, key, hkey, rfl⟩ := h.findIdxByKey hf
    have he : ∀ v, FreeOr DictionaryEntryS.name key.str ⟨e.hash, e.key, v⟩ := fun v =>
      freeOr_of_name fun s hs => by rw [hkey] at hs; cases hs; rfl
    refine ⟨(free_later hL₁).trans (strdup_later hv).1, 0, .inr ⟨x, e, _, y, by simpa using hl,
      entries_setEntry hl, he e.val, ?_⟩⟩
    rw [entry_append hl]
    exact he v
  | error err =>
    simp only [hf] at ha
    cases hg : dictionaryResize a.calloc d L with
    | none => simp [hg] at ha
    | some q =>
      obtain ⟨g, L₁⟩ := q
      obtain ⟨hlat, hgrow⟩ := dictionaryResize_step h hg
      cases g with
      | none =>
        simp only [hg] at ha
        cases ha
        exact ⟨hlat, 0, .inl (by simp)⟩
      | some d₁ =>
        obtain ⟨n, hn⟩ := hgrow d₁ rfl
        obtain ⟨g', L₁', hg', ht₁, -⟩ := dictionaryResize_tracks h a.calloc
        cases hg.symm.trans hg'
        rw [Option.getD_some] at ht₁
        cases hi : dictionaryFindIdxByEmpty d₁.erase with
        | error err =>
          simp only [hg, hi] at ha
          cases ha
          exact ⟨hlat, n, .inl hn⟩
        | ok idx =>
          simp only [hg, hi, insertEntry, Option.bind_eq_bind, Option.bind_eq_some_iff,
            Option.some.injEq, Prod.mk.injEq] at ha
          obtain ⟨⟨kp, L₂⟩, hkp, ⟨v, L₃⟩, hv, -, rfl, rfl⟩ := ha
          obtain ⟨x, e, y, hl, rfl, he⟩ := ht₁.findIdxByEmpty hi
          obtain ⟨hlat₂, hname⟩ := strdup_later hkp
          refine ⟨(hlat.trans hlat₂).trans (strdupOrNull_later hv), n,
            .inr ⟨x, e, _, y, hn ▸ hl, entries_setEntry hl, ?_, freeOr_of_name fun s hs => ?_⟩⟩
          · intro k' hk'
            simp [DictionaryEntryS.name, he] at hk'
          · exact Option.some.inj (hname s hs)

theorem dictionaryDel_step (h : Tracks d L rest)
    (hd : dictionaryDel signed d (some k) L = some (d', L')) : Step k d d' L L' := by
  simp only [dictionaryDel] at hd
  cases hf : dictionaryFindIdxByKey d.erase k (dictionaryHash signed (some k)) with
  | error err =>
    simp only [hf] at hd
    cases hd
    exact .refl k d L
  | ok idx =>
    simp only [hf, deleteEntry, Option.bind_eq_bind, Option.bind_eq_some_iff, Option.some.injEq,
      Prod.mk.injEq] at hd
    obtain ⟨L₁, hL₁, L₂, hL₂, rfl, rfl⟩ := hd
    obtain ⟨x, e, y, hl, rfl, key, hkey, rfl⟩ := h.findIdxByKey hf
    refine ⟨(free_later hL₁).trans (free_later hL₂), 0, .inr ⟨x, e, zeroed, y, by simpa using hl,
      entries_setEntry hl, ?_, fun k' hk' => by cases hk'⟩⟩
    intro k' hk'
    simpa [DictionaryEntryS.name, hkey, eq_comm] using hk'

/-- What every call does to slots and blocks; a call that names no key changes nothing. -/
theorem exec_step (h : Tracks d L rest) {c : Dictionary.Call} {r : Resp}
    (hx : exec signed d L c = some (r, d', L')) :
    (d' = d ∧ L' = L) ∨ ∃ k, Names k c ∧ Step k d d' L L' := by
  cases c with
  | add a key val =>
    obtain ⟨⟨z, d₂, L₂⟩, ha, hq⟩ := Option.map_eq_some_iff.mp hx
    cases hq
    cases key with
    | none =>
      cases ha
      exact .inl ⟨rfl, rfl⟩
    | some k => exact .inr ⟨k, rfl, dictionaryAdd_step h ha⟩
  | del key =>
    obtain ⟨⟨d₂, L₂⟩, hd, hq⟩ := Option.map_eq_some_iff.mp hx
    cases hq
    cases key with
    | none =>
      cases hd
      exact .inl ⟨rfl, rfl⟩
    | some k => exact .inr ⟨k, rfl, dictionaryDel_step h hd⟩
  | get key dflt | dump =>
    cases hx
    exact .inl ⟨rfl, rfl⟩

theorem exec_later (h : Tracks d L rest) {c : Dictionary.Call} {r : Resp}
    (hx : exec signed d L c = some (r, d', L')) : Later L L' := by
  obtain ⟨-, rfl⟩ | ⟨k, -, hs⟩ := exec_step h hx
  · exact .refl L'
  · exact hs.later

/-- A call for another key, or for none, leaves what is found under a key. -/
theorem exec_lookup (h : Tracks d L rest) {c : Dictionary.Call} {r : Resp}
    (hx : exec signed d L c = some (r, d', L')) (hn : ¬ Names k c) :
    lookup DictionaryEntryS.name d'.entries k = lookup DictionaryEntryS.name d.entries k := by
  obtain ⟨rfl, -⟩ | ⟨k', hk', hs⟩ := exec_step h hx
  · rfl
  · exact hs.lookup_ne fun heq => hn (heq ▸ hk')

/-- A call for the key frees the value found under it. -/
theorem exec_dead (hd : Sane signed d.erase) {c : Dictionary.Call} {r : Resp}
    (hl : lookup DictionaryEntryS.name d.entries k = some e) (hv : e.val = some p)
    (hx : exec signed d L c = some (r, d', L')) (hn : Names k c) {L₂ : Ledger}
    (hlat : Later L' L₂) : p.block ∉ L₂.live := by
  have hk : k ∈ d.erase.keys := by
    rw [← keys_name]
    exact mem_keys.mpr ⟨e, mem_of_lookup hl, key_of_lookup hl⟩
  obtain ⟨x, e₁, y, hs, he₁, hf⟩ := findIdxByKey_of_mem hd hk
  obtain ⟨x', e', y', hl', hx', rfl⟩ := split_of_erase hs
  have hnodup : (keys DictionaryEntryS.name d.entries).Nodup := by
    rw [keys_name]
    exact hd.nodup
  obtain rfl : e' = e :=
    Option.some.inj (((lookup_eq_some_iff hnodup).mpr ⟨mem_split hl', he₁⟩).symm.trans hl)
  rw [← hx'] at hf
  cases c with
  | add a key val =>
    cases hn
    obtain ⟨⟨z, d₂, L₃⟩, ha, hq⟩ := Option.map_eq_some_iff.mp hx
    cases hq
    simp only [dictionaryAdd, hf, refreshEntry, entry_append hl', hv, Option.bind_eq_bind,
      Option.bind_eq_some_iff] at ha
    obtain ⟨L₁, hL₁, ⟨v, L₄⟩, hdup, hq⟩ := ha
    cases hq
    exact dead_of_free hL₁ ((strdup_later hdup).1.trans hlat)
  | del key =>
    cases hn
    obtain ⟨⟨d₂, L₃⟩, ha, hq⟩ := Option.map_eq_some_iff.mp hx
    cases hq
    simp only [dictionaryDel, hf, deleteEntry, entry_append hl', hv, Option.bind_eq_bind,
      Option.bind_eq_some_iff] at ha
    obtain ⟨L₁, -, L₄, hL₄, hq⟩ := ha
    cases hq
    exact dead_of_free hL₄ hlat
  | get key dflt | dump => cases hn

/-! ### Runs -/

theorem exec_tracks (h : Tracks d L rest) {c : Dictionary.Call} {r : Resp}
    (hx : exec signed d L c = some (r, d', L')) : ∃ rest', Tracks d' L' rest' := by
  have hdef : (c.exec signed d.erase).isSome := by
    rw [exec_erase hx]
    rfl
  obtain ⟨r', d₁, L₁, hx', ⟨lost, ht, -⟩⟩ := exec_kept h hdef
  cases hx.symm.trans hx'
  exact ⟨_, ht⟩

theorem runCalls_later {calls : List Dictionary.Call} {rs : List Resp} (h : Tracks d L rest)
    (hr : runCalls signed d L calls = some (rs, d', L')) : Later L L' := by
  induction calls generalizing d L rest rs with
  | nil =>
    cases hr
    exact .refl _
  | cons c calls ih =>
    obtain ⟨r, rs', d₁, L₁, hx, hrest, -⟩ := runCalls_cons hr
    obtain ⟨rest', h₁⟩ := exec_tracks h hx
    exact (exec_later h hx).trans (ih h₁ hrest)

/-- The value of a slot is live. -/
theorem Tracks.live (h : Tracks d L rest) (he : e ∈ d.entries) (hv : e.val = some p) :
    p.block ∈ L.live := by
  refine (List.Perm.mem_iff h.owns).mpr (List.mem_append_left _ ?_)
  refine List.mem_cons_of_mem _ (List.mem_cons_of_mem _ (List.mem_flatMap.mpr ⟨e, he, ?_⟩))
  rw [entry_blocks, hv]
  exact List.mem_append_right _ (List.mem_singleton.mpr rfl)

theorem value_live {calls : List Dictionary.Call} {rs : List Resp} (h : Tracks d L rest)
    (hd : Sane signed d.erase) (hl : lookup DictionaryEntryS.name d.entries k = some e)
    (hv : e.val = some p) (hr : runCalls signed d L calls = some (rs, d', L')) :
    (p.block ∈ L'.live ↔ ∀ c ∈ calls, ¬ Names k c) ∧
      ((∀ c ∈ calls, ¬ Names k c) →
        lookup DictionaryEntryS.name d'.entries k = some e) := by
  induction calls generalizing d L rest rs with
  | nil =>
    cases hr
    exact ⟨iff_of_true (h.live (mem_of_lookup hl) hv) (by simp), fun _ => hl⟩
  | cons c calls ih =>
    obtain ⟨r, rs', d₁, L₁, hx, hrest, -⟩ := runCalls_cons hr
    obtain ⟨rest', h₁⟩ := exec_tracks h hx
    by_cases hn : Names k c
    · have hdead := exec_dead hd hl hv hx hn (runCalls_later h₁ hrest)
      refine ⟨iff_of_false hdead fun hall => hall c List.mem_cons_self hn, fun hall => ?_⟩
      exact absurd hn (hall c List.mem_cons_self)
    · have ih := ih h₁ (exec_sane hd (exec_erase hx)) ((exec_lookup h hx hn).trans hl) hrest
      simpa [hn] using ih

/-- The pointer that `dictionary_get` returned is live, and is what it returns again, with the same
string, as long as no call has added or deleted the key; from the first such call on it dangles.
Allocations may fail in all calls. -/
theorem value_live_iff {size : ℕ} {L₀ L₁ L L' : Ledger} {d₀ d d' : DictionaryS}
    {before calls : List Dictionary.Call} {rs rs' : List Resp}
    (hc : dictionaryCreate true true size L₀ = some (some d₀, L₁))
    (hb : runCalls signed d₀ L₁ before = some (rs, d, L))
    (hg : dictionaryGet signed d (some k) none = some p)
    (hr : runCalls signed d L calls = some (rs', d', L')) :
    (p.block ∈ L'.live ↔ ∀ c ∈ calls, ¬ Names k c) ∧
      ((∀ c ∈ calls, ¬ Names k c) → ∀ dflt, dictionaryGet signed d' (some k) dflt = some p ∧
        Dictionary.dictionaryGet signed d'.erase (some k) (dflt.map Str.str) = some p.str) := by
  have hs₀ : Sane signed d₀.erase := (dictionaryCreate_valid signed (dictionaryCreate_erase hc)).1.1
  have hrun := runCalls_erase hb
  have hs := run_sane hs₀ hrun
  have hs' := run_sane hs (runCalls_erase hr)
  obtain ⟨d₁, L₂, hc', ht₀, -⟩ := dictionaryCreate_tracks size L₀
  cases hc.symm.trans hc'
  obtain ⟨rs₁, d₁, L₂, lost, hb', ht, -⟩ := runCalls_kept before ht₀ (by rw [hrun]; rfl)
  cases hb.symm.trans hb'
  rw [dictionaryGet_lookup hs] at hg
  obtain ⟨e, hl, hv⟩ : ∃ e, lookup DictionaryEntryS.name d.entries k = some e ∧
      e.val = some p := by
    cases hl : lookup DictionaryEntryS.name d.entries k with
    | none => simp [hl] at hg
    | some e => exact ⟨e, rfl, by simpa [hl] using hg⟩
  obtain ⟨hiff, hsame⟩ := value_live ht hs hl hv hr
  refine ⟨hiff, fun hall dflt => ?_⟩
  have hget : dictionaryGet signed d' (some k) dflt = some p := by
    rw [dictionaryGet_lookup hs', hsame hall, Option.map_some, Option.getD_some, hv]
  refine ⟨hget, ?_⟩
  rw [← dictionaryGet_erase, hget, Option.map_some]

/-- The value of `a`, in block 3: another key is added, and then `a` is deleted. -/
theorem value_live_iff_two : ∃ (d d' : DictionaryS) (L L' : Ledger) (rs : List Resp)
    (calls : List Dictionary.Call),
    calls = [.add .all (some (.ofBytes [0x63])) none, .del (some (.ofBytes [0x61]))] ∧
    runCalls true d L calls = some (rs, d', L') ∧
    (3 ∈ L'.live ↔ ∀ c ∈ calls, ¬ Names (.ofBytes [0x61]) c) ∧
    ((∀ c ∈ calls, ¬ Names (.ofBytes [0x61]) c) → ∀ dflt,
      dictionaryGet true d' (some (.ofBytes [0x61])) dflt = some ⟨3, .ofBytes [0x62]⟩ ∧
        Dictionary.dictionaryGet true d'.erase (some (.ofBytes [0x61])) (dflt.map Str.str) =
          some (.ofBytes [0x62])) := by
  obtain ⟨d₀, L₁, hc⟩ : ∃ d L, dictionaryCreate true true 0 .empty = some (some d, L) :=
    ⟨_, _, rfl⟩
  obtain ⟨rs, d, L, hb, hg, hr⟩ : ∃ rs d L,
      runCalls true d₀ L₁ [.add .all (some (.ofBytes [0x61])) (some (.ofBytes [0x62]))] =
        some (rs, d, L) ∧
      dictionaryGet true d (some (.ofBytes [0x61])) none = some ⟨3, .ofBytes [0x62]⟩ ∧
      (runCalls true d L [.add .all (some (.ofBytes [0x63])) none,
        .del (some (.ofBytes [0x61]))]).isSome := by
    cases hc
    refine ⟨_, _, _, rfl, by decide +kernel, by decide +kernel⟩
  obtain ⟨⟨rs', d', L'⟩, hr⟩ := Option.isSome_iff_exists.mp hr
  exact ⟨d, d', L, L', rs', _, rfl, hr, value_live_iff hc hb hg hr⟩

end Ohmylib.Dictionary.Blocks
