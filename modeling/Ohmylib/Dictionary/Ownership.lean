import Ohmylib.Dictionary.Blocks
import Ohmylib.Dictionary.Calls

/-! Who owns which block. Without the ids every operation is that of the plain
dictionary. With them the live blocks are the handle, the block of slots and the two
strings of each occupied slot, after every operation, and no `free` goes wrong. -/

namespace Ohmylib.Dictionary.Blocks

open Alloc

variable {signed : Bool} {a : Allocs} {d d' : DictionaryS} {L L' : Ledger}
  {e e' : DictionaryEntryS} {x y : List DictionaryEntryS} {k : CString}

/-! ### Forgetting the ids -/

@[simp] theorem erase_zeroed : zeroed.erase = Dictionary.zeroed := rfl

theorem erase_entry (d : DictionaryS) (idx : ℕ) : d.erase.entry idx = (d.entry idx).erase := by
  unfold Dictionary.DictionaryS.entry DictionaryS.entry DictionaryS.erase
  rw [List.getD_eq_getElem?_getD, List.getD_eq_getElem?_getD, List.getElem?_map]
  cases d.entries[idx]? <;> rfl

theorem erase_setEntry (d : DictionaryS) (idx : ℕ) (e : DictionaryEntryS) :
    (d.setEntry idx e).erase = d.erase.setEntry idx e.erase := by
  simp [DictionaryS.setEntry, Dictionary.DictionaryS.setEntry, DictionaryS.erase]

/-- A slot found without ids is the slot with ids. -/
theorem split_of_erase {x y : List Dictionary.DictionaryEntryS}
    {e : Dictionary.DictionaryEntryS} (h : d.erase.entries = x ++ e :: y) :
    ∃ x' e' y', d.entries = x' ++ e' :: y' ∧ x'.length = x.length ∧ e'.erase = e := by
  obtain ⟨x', z, hd, hx, hz⟩ := List.map_eq_append_iff.mp h
  obtain ⟨e', y', rfl, he, -⟩ := List.map_eq_cons_iff.mp hz
  exact ⟨x', e', y', hd, by rw [← hx, List.length_map], he⟩

theorem entry_append (h : d.entries = x ++ e :: y) : d.entry x.length = e := by
  simp [DictionaryS.entry, h]

/-- The growing step without ids. -/
theorem dictionaryResize_erase {calloc : Bool} {g : Option DictionaryS}
    (h : dictionaryResize calloc d L = some (g, L')) :
    Dictionary.dictionaryResize calloc d.erase = g.map DictionaryS.erase := by
  unfold dictionaryResize at h
  unfold Dictionary.dictionaryResize
  have hlt : d.erase.count < d.erase.size ↔ d.count < d.size := Iff.rfl
  split_ifs at h with hd hc
  · cases h
    rw [if_pos (hlt.mpr hd)]
    rfl
  · obtain ⟨L₁, -, hg⟩ := Option.map_eq_some_iff.mp h
    cases hg
    rw [if_neg (mt hlt.mp hd), if_pos hc]
    simp [DictionaryS.erase, erase_zeroed]
  · cases h
    rw [if_neg (mt hlt.mp hd), if_neg hc]
    rfl

theorem strdup_erase {ok : Bool} {val : Option CString} {v : Option Str}
    (h : strdup ok L val = some (v, L')) : Ohmylib.strdup ok val = some (v.map Str.str) := by
  cases val with
  | none => cases h
  | some s => cases ok <;> cases h <;> rfl

theorem refreshEntry_erase {idx : ℕ} {val : Option CString} {r : ℤ}
    (h : refreshEntry a d L idx val = some (r, d', L')) :
    ∃ v, Ohmylib.strdup a.strdupVal val = some v ∧ r = (if v.isNone then -1 else 0) ∧
      d'.erase = d.erase.setEntry idx { d.erase.entry idx with val := v } := by
  simp only [refreshEntry, Option.bind_eq_bind, Option.bind_eq_some_iff, Option.some.injEq,
    Prod.mk.injEq] at h
  obtain ⟨L₁, -, ⟨v, L₂⟩, hv, rfl, rfl, rfl⟩ := h
  refine ⟨v.map Str.str, strdup_erase hv, by cases v <;> rfl, ?_⟩
  rw [erase_setEntry, erase_entry]
  rfl

theorem insertEntry_erase {hash : UInt32} {idx : ℕ} {val : Option CString} {r : ℤ}
    (h : insertEntry hash a d L idx k val = some (r, d', L')) : r = 0 ∧ d'.erase =
      { d.erase.setEntry idx (newEntry hash a k val) with count := d.count + 1 } := by
  simp only [insertEntry, Option.bind_eq_bind, Option.bind_eq_some_iff, Option.some.injEq,
    Prod.mk.injEq] at h
  obtain ⟨⟨kp, L₁⟩, hk, ⟨v, L₂⟩, hv, rfl, rfl, rfl⟩ := h
  have hkey : kp.map Str.str = if a.strdupKey then some k else none :=
    (Option.some.inj (strdup_erase hk)).symm
  have hval : v.map Str.str = if a.strdupVal then val else none := by
    unfold strdupOrNull at hv
    split_ifs at hv with hn
    · cases hv
      simp [hn]
    · obtain ⟨s, rfl⟩ := Option.ne_none_iff_exists'.mp hn
      exact (Option.some.inj (strdup_erase hv)).symm
  have hentry : DictionaryEntryS.erase ⟨hash, kp, v⟩ = newEntry hash a k val := by
    rw [DictionaryEntryS.erase, hkey, hval]
    rfl
  refine ⟨rfl, ?_⟩
  rw [← hentry, ← erase_setEntry]
  rfl

/-- Without ids, an addition is that of the dictionary without ids. -/
theorem dictionaryAdd_erase {key val : Option CString} {r : ℤ}
    (h : dictionaryAdd signed a d key val L = some (r, d', L')) :
    Dictionary.dictionaryAdd signed a d.erase key val = some (r, d'.erase) := by
  cases key with
  | none =>
    cases h
    rfl
  | some k =>
    simp only [dictionaryAdd] at h
    unfold Dictionary.dictionaryAdd
    cases hf : dictionaryFindIdxByKey d.erase k (dictionaryHash signed (some k)) with
    | ok idx =>
      simp only [hf] at h ⊢
      obtain ⟨v, hv, rfl, hd⟩ := refreshEntry_erase h
      rw [hv, hd]
    | error _ =>
      simp only [hf] at h ⊢
      cases hg : dictionaryResize a.calloc d L with
      | none => simp [hg] at h
      | some g =>
        obtain ⟨g, L₁⟩ := g
        rw [dictionaryResize_erase hg]
        cases g with
        | none =>
          simp only [hg] at h
          cases h
          rfl
        | some d₁ =>
          simp only [hg, Option.map_some] at h ⊢
          cases hi : dictionaryFindIdxByEmpty d₁.erase with
          | ok idx =>
            simp only [hi] at h ⊢
            obtain ⟨rfl, hd⟩ := insertEntry_erase h
            rw [hd]
            rfl
          | error _ =>
            simp only [hi] at h ⊢
            cases h
            rfl

/-- Without ids, a deletion is that of the dictionary without ids. -/
theorem dictionaryDel_erase {key : Option CString}
    (h : dictionaryDel signed d key L = some (d', L')) :
    d'.erase = Dictionary.dictionaryDel signed d.erase key := by
  cases key with
  | none =>
    cases h
    rfl
  | some k =>
    simp only [dictionaryDel] at h
    unfold Dictionary.dictionaryDel
    cases hf : dictionaryFindIdxByKey d.erase k (dictionaryHash signed (some k)) with
    | ok idx =>
      simp only [hf, deleteEntry, Option.bind_eq_bind, Option.bind_eq_some_iff, Option.some.injEq,
        Prod.mk.injEq] at h ⊢
      obtain ⟨L₁, -, L₂, -, rfl, rfl⟩ := h
      rw [← erase_zeroed, ← erase_setEntry]
      rfl
    | error _ =>
      simp only [hf] at h ⊢
      cases h
      rfl

/-! ### The invariant -/

/-- The blocks of the strings of a slot. -/
def DictionaryEntryS.blocks (e : DictionaryEntryS) : List ℕ :=
  (e.key.toList ++ e.val.toList).map Str.block

/-- The blocks the dictionary owns. -/
def DictionaryS.blocks (d : DictionaryS) : List ℕ :=
  d.handle :: d.block :: d.entries.flatMap DictionaryEntryS.blocks

/-- The slots hold a key and a value or neither, and the live blocks are those of the
dictionary. -/
structure Owned (signed : Bool) (d : DictionaryS) (L : Ledger) : Prop where
  valid : Valid signed d.erase
  full : ∀ e ∈ d.entries, e = zeroed ∨ ∃ key val, e.key = some key ∧ e.val = some val
  owns : Owns L d.blocks

/-- The block of slots has no slots beyond its size. -/
theorem Owned.take_entries (h : Owned signed d L) : d.entries.take d.size = d.entries := by
  have hlen : d.entries.length = d.size := by
    simpa [DictionaryS.erase] using h.valid.length_eq
  rw [← hlen, List.take_length]

/-- Slots without strings own nothing. -/
theorem blocks_replicate (n : ℕ) :
    (List.replicate n zeroed).flatMap DictionaryEntryS.blocks = [] := by
  rw [List.flatMap_eq_nil_iff]
  intro e he
  rw [List.eq_of_mem_replicate he]
  rfl

/-- The blocks besides those of one slot. -/
def DictionaryS.others (d : DictionaryS) (x y : List DictionaryEntryS) : List ℕ :=
  d.handle :: d.block :: (x ++ y).flatMap DictionaryEntryS.blocks

theorem blocks_split (h : d.entries = x ++ e :: y) : d.blocks.Perm (e.blocks ++ d.others x y) := by
  rw [List.perm_iff_count]
  intro id
  simp only [DictionaryS.blocks, DictionaryS.others, h, List.flatMap_append, List.flatMap_cons,
    List.count_append, List.count_cons]
  omega

theorem entries_setEntry (h : d.entries = x ++ e :: y) :
    (d.setEntry x.length e').entries = x ++ e' :: y := by
  simp [DictionaryS.setEntry, h]

/-- A slot is rewritten: its blocks are exchanged for those of the new slot. -/
theorem Owned.setEntry (h : Owned signed d L) (hl : d.entries = x ++ e :: y) {n : ℕ}
    (hv : Valid signed { d.setEntry x.length e' with count := n }.erase)
    (he : e' = zeroed ∨ ∃ key val, e'.key = some key ∧ e'.val = some val)
    (ho : Owns L' (e'.blocks ++ d.others x y)) :
    Owned signed { d.setEntry x.length e' with count := n } L' where
  valid := hv
  full z hz := by
    have hz' : z ∈ x ++ e' :: y := entries_setEntry hl ▸ hz
    rcases List.mem_append.mp hz' with hx | hy
    · exact h.full z (hl ▸ List.mem_append_left _ hx)
    · rcases List.mem_cons.mp hy with rfl | hy
      · exact he
      · exact h.full z (hl ▸ List.mem_append_right x (List.mem_cons_of_mem _ hy))
  owns := by
    have hp : ({ d.setEntry x.length e' with count := n } : DictionaryS).blocks.Perm
        (e'.blocks ++ d.others x y) := blocks_split (entries_setEntry hl)
    exact ho.perm hp.symm

theorem mem_split (h : d.entries = x ++ e :: y) : e ∈ d.entries := by
  rw [h]
  exact List.mem_append_cons_self

/-- What the slot of a key that is held owns. -/
theorem Owned.held (h : Owned signed d L) (hk : k ∈ d.erase.keys) : ∃ x e y key val,
    d.entries = x ++ e :: y ∧ e.key = some key ∧ e.val = some val ∧
      dictionaryFindIdxByKey d.erase k (dictionaryHash signed (some k)) = .ok x.length := by
  obtain ⟨x₀, e₀, y₀, hl₀, hk₀, hf⟩ := findIdxByKey_of_mem h.valid.toSane hk
  obtain ⟨x, e, y, hl, hx, rfl⟩ := split_of_erase hl₀
  rcases h.full e (mem_split hl) with rfl | ⟨key, val, hkey, hval⟩
  · cases hk₀
  · exact ⟨x, e, y, key, val, hl, hkey, hval, hx ▸ hf⟩

theorem blocks_eq {key val : Str} (hk : e.key = some key) (hv : e.val = some val) :
    e.blocks = [key.block, val.block] := by
  simp [DictionaryEntryS.blocks, hk, hv]

/-- Growing exchanges the block of slots for a new one. -/
theorem dictionaryResize_owned (h : Owned signed d L) : ∃ d₁ L₁,
    dictionaryResize true d L = some (some d₁, L₁) ∧ Owned signed d₁ L₁ := by
  by_cases hlt : d.count < d.size
  · exact ⟨d, L, if_pos hlt, h⟩
  have hall : Owns L.alloc (d.block :: d.handle :: L.next ::
      d.entries.flatMap DictionaryEntryS.blocks) := by
    refine h.owns.alloc.perm ?_
    rw [List.perm_iff_count]
    intro id
    simp only [DictionaryS.blocks, List.count_cons]
    omega
  obtain ⟨L₁, hfree, ho⟩ := hall.free
  have hr : dictionaryResize true d L = some (some { d with
      block := L.next
      size := d.size + dictionaryMinSize
      entries := d.entries ++ List.replicate dictionaryMinSize zeroed }, L₁) := by
    simp [dictionaryResize, hlt, hfree, h.take_entries]
  refine ⟨_, L₁, hr, ?_, ?_, ?_⟩
  · exact (dictionaryResize_spec h.valid.toSane (dictionaryResize_erase hr)).valid h.valid
  · intro e he
    rcases List.mem_append.mp he with he | he
    · exact h.full e he
    · exact .inl (List.eq_of_mem_replicate he)
  · rw [DictionaryS.blocks, List.flatMap_append, blocks_replicate, List.append_nil]
    exact ho

/-- The refresh frees the old value and allocates the new one. -/
theorem dictionaryAdd_held (h : Owned signed d L) (hk : k ∈ d.erase.keys) (val : CString) :
    ∃ r d' L', dictionaryAdd signed .all d (some k) (some val) L = some (r, d', L') ∧
      Owned signed d' L' := by
  obtain ⟨x, e, y, key, old, hl, hkey, hold, hf⟩ := h.held hk
  have ho : Owns L (old.block :: key.block :: d.others x y) := by
    have := h.owns.perm (blocks_split hl)
    rw [blocks_eq hkey hold] at this
    exact this.perm (List.Perm.swap _ _ _)
  obtain ⟨L₁, hfree, ho₁⟩ := ho.free
  have ha : dictionaryAdd signed .all d (some k) (some val) L =
      some (0, d.setEntry x.length { e with val := some ⟨L₁.next, val⟩ }, L₁.alloc) := by
    simp [dictionaryAdd, hf, refreshEntry, entry_append hl, hold, free, hfree, strdup, Allocs.all]
  refine ⟨_, _, _, ha, ?_⟩
  have hv := (dictionaryAdd_effect h.valid.toSane (dictionaryAdd_erase ha)).valid h.valid rfl
  refine h.setEntry (n := d.count) hl hv (.inr ⟨key, _, hkey, rfl⟩) ?_
  rw [blocks_eq (e := { e with val := some ⟨L₁.next, val⟩ }) hkey rfl]
  exact ho₁.alloc.perm (List.Perm.swap _ _ _)

/-- The insertion allocates key and value. -/
theorem dictionaryAdd_absent (h : Owned signed d L) (hk : k ∉ d.erase.keys) (val : CString) :
    ∃ r d' L', dictionaryAdd signed .all d (some k) (some val) L = some (r, d', L') ∧
      Owned signed d' L' := by
  have hf := findIdxByKey_of_notMem h.valid.toSane hk
  obtain ⟨d₁, L₁, hg, h₁⟩ := dictionaryResize_owned h
  have hr := dictionaryResize_spec h.valid.toSane (dictionaryResize_erase hg)
  obtain ⟨x₀, e₀, y₀, hl₀, hk₀, hi⟩ := hr.findIdxByEmpty h.valid.toSane
  obtain ⟨x, e, y, hl, hx, rfl⟩ := split_of_erase hl₀
  rw [← hx] at hi
  obtain rfl : e = zeroed := by
    rcases h₁.full e (mem_split hl) with he | ⟨key, old, hkey, -⟩
    · exact he
    · simp [DictionaryEntryS.erase, hkey] at hk₀
  have ho : Owns L₁ (d₁.others x y) := h₁.owns.perm (blocks_split hl)
  let e' : DictionaryEntryS := ⟨dictionaryHash signed (some k), some ⟨L₁.next, k⟩,
    some ⟨L₁.alloc.next, val⟩⟩
  have ha : dictionaryAdd signed .all d (some k) (some val) L =
      some (0, { d₁.setEntry x.length e' with count := d₁.count + 1 }, L₁.alloc.alloc) := by
    simp [dictionaryAdd, hf, Allocs.all, hg, hi, insertEntry, strdup, strdupOrNull, e']
  refine ⟨_, _, _, ha, ?_⟩
  have hv := (dictionaryAdd_effect h.valid.toSane (dictionaryAdd_erase ha)).valid h.valid rfl
  refine h₁.setEntry hl hv (.inr ⟨_, _, rfl, rfl⟩) ?_
  exact ho.alloc.alloc.perm (List.Perm.swap _ _ _)

/-- An addition of a value frees and allocates what it should. -/
theorem dictionaryAdd_owned (h : Owned signed d L) (key : Option CString) (val : CString) :
    ∃ r d' L', dictionaryAdd signed .all d key (some val) L = some (r, d', L') ∧
      Owned signed d' L' := by
  cases key with
  | none => exact ⟨-1, d, L, rfl, h⟩
  | some k =>
    by_cases hk : k ∈ d.erase.keys
    · exact dictionaryAdd_held h hk val
    · exact dictionaryAdd_absent h hk val

/-- A deletion frees the strings of its slot. -/
theorem dictionaryDel_owned (h : Owned signed d L) (key : Option CString) :
    ∃ d' L', dictionaryDel signed d key L = some (d', L') ∧ Owned signed d' L' := by
  cases key with
  | none => exact ⟨d, L, rfl, h⟩
  | some k =>
    by_cases hk : k ∈ d.erase.keys
    · obtain ⟨x, e, y, key, val, hl, hkey, hval, hf⟩ := h.held hk
      have ho : Owns L (key.block :: val.block :: d.others x y) := by
        have := h.owns.perm (blocks_split hl)
        rwa [blocks_eq hkey hval] at this
      obtain ⟨L₁, hfree, ho₁⟩ := ho.free
      obtain ⟨L₂, hfree', ho₂⟩ := ho₁.free
      have hd : dictionaryDel signed d (some k) L = some ({ d.setEntry x.length zeroed with
          count := if d.count = 0 then 2 ^ 64 - 1 else d.count - 1 }, L₂) := by
        simp [dictionaryDel, hf, deleteEntry, entry_append hl, hkey, hval, free, hfree, hfree']
      refine ⟨_, _, hd, ?_⟩
      have hv := (dictionaryDel_effect h.valid.toSane k).valid h.valid
      rw [← dictionaryDel_erase hd] at hv
      exact h.setEntry hl hv (.inl rfl) ho₂
    · refine ⟨d, L, ?_, h⟩
      simp [dictionaryDel, findIdxByKey_of_notMem h.valid.toSane hk]

end Ohmylib.Dictionary.Blocks
