import Ohmylib.Dictionary.Ownership

/-! The life of a dictionary from its creation to its destruction, with allocations
that succeed and values that are not `NULL`. Up to `dictionary_destroy` exactly the
blocks of the dictionary are live; behind it one of them still is, the block of slots. -/

namespace Ohmylib.Dictionary.Blocks

open Alloc

variable {signed : Bool} {d d' : DictionaryS} {L L' : Ledger}

theorem dictionaryCreate_erase {handle slots : Bool} {size : ℕ}
    (h : dictionaryCreate handle slots size L = some (some d, L')) :
    Dictionary.dictionaryCreate handle slots size = some d.erase := by
  cases handle with
  | false => cases h
  | true =>
    cases slots with
    | false =>
      obtain ⟨L₁, -, hn⟩ := Option.map_eq_some_iff.mp h
      cases hn
    | true =>
      cases h
      simp [Dictionary.dictionaryCreate, DictionaryS.erase, DictionaryEntryS.erase, zeroed,
        Dictionary.zeroed]

/-- A new dictionary owns its handle and its block of slots. -/
theorem dictionaryCreate_owned (signed : Bool) (size : ℕ) : ∃ d L,
    dictionaryCreate true true size .empty = some (some d, L) ∧ Owned signed d L := by
  obtain ⟨d, L, hc⟩ : ∃ d L, dictionaryCreate true true size .empty = some (some d, L) :=
    ⟨_, _, rfl⟩
  have hv := (dictionaryCreate_valid signed (dictionaryCreate_erase hc)).1
  refine ⟨d, L, hc, ?_⟩
  cases hc
  refine ⟨hv, ?_, ?_⟩
  · exact fun e he => .inl (List.eq_of_mem_replicate he)
  · rw [DictionaryS.blocks, blocks_replicate]
    exact owns_empty.alloc.alloc.perm (List.Perm.swap _ _ _)

/-- Every operation keeps the ownership. -/
theorem exec_owned (h : Owned signed d L) (op : Op) :
    ∃ d' L', op.exec signed d L = some (d', L') ∧ Owned signed d' L' := by
  cases op with
  | add key val =>
    obtain ⟨r, d', L', ha, h'⟩ := dictionaryAdd_owned h key val
    exact ⟨d', L', by rw [Op.exec, ha]; rfl, h'⟩
  | del key => exact dictionaryDel_owned h key

/-- So does every run, and no `free` of it goes wrong. -/
theorem run_owned (ops : List Op) : ∀ {d : DictionaryS} {L : Ledger}, Owned signed d L →
    ∃ d' L', run signed d L ops = some (d', L') ∧ Owned signed d' L' := by
  induction ops with
  | nil => exact fun {d L} h => ⟨d, L, rfl, h⟩
  | cons op ops ih =>
    intro d L h
    obtain ⟨d₁, L₁, hx, h₁⟩ := exec_owned h op
    obtain ⟨d', L', hr, h'⟩ := ih h₁
    exact ⟨d', L', by rw [run, hx, Option.bind_some, hr], h'⟩

theorem destroyEntry_eq (L : Ledger) (e : DictionaryEntryS) :
    destroyEntry L e = e.blocks.foldlM Ledger.free L := by
  obtain ⟨hash, key, val⟩ := e
  cases key <;> cases val <;> simp [destroyEntry, DictionaryEntryS.blocks, free]

/-- The loop of `dictionary_destroy` frees the strings of all slots. -/
theorem foldlM_destroyEntry (entries : List DictionaryEntryS) (L : Ledger) :
    entries.foldlM destroyEntry L =
      (entries.flatMap DictionaryEntryS.blocks).foldlM Ledger.free L := by
  induction entries generalizing L with
  | nil => rfl
  | cons e entries ih =>
    rw [List.foldlM_cons, List.flatMap_cons, List.foldlM_append, destroyEntry_eq]
    congr 1
    funext L₁
    exact ih L₁

/-- `dictionary_destroy` frees all it owns but the block of slots. -/
theorem dictionaryDestroy_owned (h : Owned signed d L) :
    ∃ L', dictionaryDestroy d L = some L' ∧ Owns L' [d.block] := by
  have ho : Owns L (d.entries.flatMap DictionaryEntryS.blocks ++ [d.handle, d.block]) := by
    refine h.owns.perm ?_
    rw [List.perm_iff_count]
    intro id
    simp only [DictionaryS.blocks, List.count_cons, List.count_append, List.count_nil]
    omega
  obtain ⟨L₁, hall, ho₁⟩ := Owns.freeAll _ ho
  obtain ⟨L', hfree, ho'⟩ := ho₁.free
  refine ⟨L', ?_, ho'⟩
  rw [dictionaryDestroy, h.take_entries, foldlM_destroyEntry, hall]
  exact hfree

/-- The life of a dictionary up to the ledger `L` in front of `dictionary_destroy` and
the ledger `L'` behind it, without a `free` that goes wrong. -/
structure Life (signed : Bool) (size : ℕ) (ops : List Op) (d : DictionaryS) (L L' : Ledger) :
    Prop where
  runs : ∃ d₀ L₀, dictionaryCreate true true size .empty = some (some d₀, L₀) ∧
    run signed d₀ L₀ ops = some (d, L)
  full : ∀ e ∈ d.entries, e = zeroed ∨ ∃ key val, e.key = some key ∧ e.val = some val
  owns : Owns L d.blocks
  destroys : dictionaryDestroy d L = some L'

/-- Everything the dictionary owned is returned. -/
def ReturnsAll (signed : Bool) (size : ℕ) (ops : List Op) : Prop :=
  ∃ d L L', Life signed size ops d L L' ∧ L'.live = []

theorem Life.unique {size : ℕ} {ops : List Op} {d₁ d₂ : DictionaryS} {L₁ L₁' L₂ L₂' : Ledger}
    (h₁ : Life signed size ops d₁ L₁ L₁') (h₂ : Life signed size ops d₂ L₂ L₂') : L₁' = L₂' := by
  obtain ⟨a, A, ha, hra⟩ := h₁.runs
  obtain ⟨b, B, hb, hrb⟩ := h₂.runs
  cases ha.symm.trans hb
  cases hra.symm.trans hrb
  exact Option.some.inj (h₁.destroys.symm.trans h₂.destroys)

/-- In every life of a dictionary no `free` goes wrong and the live blocks are those of
the dictionary, but `dictionary_destroy` leaves the block of slots behind. -/
theorem destroy_leaks (signed : Bool) (size : ℕ) (ops : List Op) :
    (∃ d L L', Life signed size ops d L L' ∧ L'.live = [d.block]) ∧
      ¬ ReturnsAll signed size ops := by
  obtain ⟨d₀, L₀, hc, h₀⟩ := dictionaryCreate_owned signed size
  obtain ⟨d, L, hr, h⟩ := run_owned ops h₀
  obtain ⟨L', hd, ho⟩ := dictionaryDestroy_owned h
  have hlife : Life signed size ops d L L' := ⟨⟨d₀, L₀, hc, hr⟩, h.full, h.owns, hd⟩
  have hlive : L'.live = [d.block] := List.perm_singleton.mp ho
  refine ⟨⟨d, L, L', hlife, hlive⟩, ?_⟩
  rintro ⟨d₂, L₂, L₂', hlife₂, hnil⟩
  rw [hlife.unique hlife₂, hnil] at hlive
  cases hlive

/-- An empty dictionary, created and destroyed: of its blocks 0 and 1, the block of
slots 1 is still live. -/
theorem destroy_leaks_empty :
    ((dictionaryCreate true true 0 .empty).bind fun p =>
      p.1.bind fun d => (dictionaryDestroy d p.2).map Ledger.live) = some [1] ∧
    ¬ ReturnsAll true 0 [] := by
  have hlive : ∀ d L, dictionaryCreate true true 0 .empty = some (some d, L) →
      (dictionaryDestroy d L).map Ledger.live = some [1] := by
    intro d L hc
    cases hc
    decide +kernel
  refine ⟨hlive _ _ rfl, ?_⟩
  rintro ⟨d, L, L', h, hnil⟩
  obtain ⟨d₀, L₀, hc, hr⟩ := h.runs
  cases hr
  have := hlive d L hc
  rw [h.destroys, Option.map_some, hnil] at this
  cases this

end Ohmylib.Dictionary.Blocks
