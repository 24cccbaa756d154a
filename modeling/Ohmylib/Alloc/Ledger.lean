import Mathlib.Data.List.Perm.Basic
import Mathlib.Data.List.Nodup

/-! An allocator as a ledger of live blocks. Every allocation gives a block with an id
that was never used before; freeing a block that is not live has no result. A list of
ids owns the ledger when it lists the live blocks, each once; the order is free. -/

namespace Ohmylib.Alloc

structure Ledger where
  next : ℕ
  live : List ℕ
  nodup : live.Nodup
  fresh : ∀ id ∈ live, id < next
  deriving DecidableEq

def Ledger.empty : Ledger := { next := 0, live := [], nodup := List.nodup_nil, fresh := by simp }

/-- Allocate the block `L.next`. -/
def Ledger.alloc (L : Ledger) : Ledger where
  next := L.next + 1
  live := L.next :: L.live
  nodup := List.nodup_cons.mpr ⟨fun h => Nat.lt_irrefl _ (L.fresh _ h), L.nodup⟩
  fresh id h := by
    rcases List.mem_cons.mp h with rfl | h
    · exact Nat.lt_succ_self _
    · exact Nat.lt_succ_of_lt (L.fresh id h)

def Ledger.free (L : Ledger) (id : ℕ) : Option Ledger :=
  if id ∈ L.live then
    some { next := L.next, live := L.live.erase id, nodup := L.nodup.erase id,
           fresh := fun i h => L.fresh i (List.mem_of_mem_erase h) }
  else none

/-- `L'` comes of `L` by allocations and frees: what is live there was live before or is new. -/
structure Later (L L' : Ledger) : Prop where
  next_le : L.next ≤ L'.next
  live : ∀ id ∈ L'.live, id ∈ L.live ∨ L.next ≤ id

/-- The live blocks are `ids`. -/
def Owns (L : Ledger) (ids : List ℕ) : Prop := L.live.Perm ids

variable {L L' : Ledger} {id : ℕ} {ids ids' rest : List ℕ}

theorem Later.refl (L : Ledger) : Later L L := ⟨Nat.le_refl _, fun _ h => .inl h⟩

theorem Later.trans {L'' : Ledger} (h : Later L L') (h' : Later L' L'') : Later L L'' where
  next_le := Nat.le_trans h.next_le h'.next_le
  live id hid := by
    rcases h'.live id hid with hid | hle
    · exact h.live id hid
    · exact .inr (Nat.le_trans h.next_le hle)

theorem later_alloc (L : Ledger) : Later L L.alloc where
  next_le := Nat.le_succ _
  live id hid := by
    rcases List.mem_cons.mp hid with rfl | hid
    · exact .inr (Nat.le_refl _)
    · exact .inl hid

theorem later_free (h : L.free id = some L') : Later L L' := by
  unfold Ledger.free at h
  split_ifs at h
  cases h
  exact ⟨Nat.le_refl _, fun _ hid => .inl (List.mem_of_mem_erase hid)⟩

/-- A block that is freed at once leaves the live ones as they were. -/
theorem free_alloc (L : Ledger) :
    ∃ L', L.alloc.free L.next = some L' ∧ L'.next = L.next + 1 ∧ L'.live = L.live := by
  have hm : L.next ∈ L.alloc.live := List.mem_cons_self
  exact ⟨_, if_pos hm, rfl, List.erase_cons_head L.next L.live⟩

/-- A block that was freed is never live again. -/
theorem dead_of_free (h : L.free id = some L') {L'' : Ledger} (hl : Later L' L'') :
    id ∉ L''.live := by
  unfold Ledger.free at h
  split_ifs at h with hm
  cases h
  intro hid
  rcases hl.live id hid with hid | hle
  · exact L.nodup.not_mem_erase hid
  · exact Nat.lt_irrefl _ (Nat.lt_of_lt_of_le (L.fresh id hm) hle)

theorem owns_empty : Owns .empty [] := List.Perm.refl []

theorem Owns.perm (h : Owns L ids) (hp : ids.Perm ids') : Owns L ids' := List.Perm.trans h hp

/-- The first two groups of owned blocks change places. -/
theorem Owns.swap {a b c : List ℕ} (h : Owns L (a ++ (b ++ c))) : Owns L (b ++ (a ++ c)) := by
  rw [← List.append_assoc] at h ⊢
  exact h.perm (List.perm_append_comm.append_right c)

theorem Owns.alloc (h : Owns L ids) : Owns L.alloc (L.next :: ids) := List.Perm.cons _ h

/-- An owned block can be freed, and is not owned afterwards. -/
theorem Owns.free (h : Owns L (id :: ids)) : ∃ L', L.free id = some L' ∧ Owns L' ids := by
  have hm : id ∈ L.live := (List.Perm.mem_iff h).mpr List.mem_cons_self
  refine ⟨_, if_pos hm, ?_⟩
  have := List.Perm.erase id h
  rwa [List.erase_cons_head] at this

/-- Owned blocks can be freed one after the other. -/
theorem Owns.freeAll (ids : List ℕ) : ∀ {L : Ledger}, Owns L (ids ++ rest) →
    ∃ L', ids.foldlM Ledger.free L = some L' ∧ Owns L' rest := by
  induction ids with
  | nil => exact fun {L} h => ⟨L, rfl, h⟩
  | cons id ids ih =>
    intro L h
    obtain ⟨L₁, h₁, ho⟩ := Owns.free h
    obtain ⟨L', hr, ho'⟩ := ih ho
    exact ⟨L', by simp [h₁, hr], ho'⟩

end Ohmylib.Alloc
