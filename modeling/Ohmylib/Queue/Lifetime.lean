import Ohmylib.Alloc.Ledger
import Ohmylib.Queue.Confinement

/-! The life of a queue from its creation to `queue_destroy`. The handle is one block, the
buffer of `queue_create` another, known by its address `p_head`; the buffer of
`queue_create_static` belongs to the caller. No statement of any thread touches `p_head`
or the mark of a static queue, so whatever happened in between `queue_destroy` frees what
the creation allocated, and a creation that fails leaves nothing behind. -/

namespace Ohmylib.Queue

open Alloc Monitor

/-- The queue with the block of its handle. -/
structure Handle where
  block : ℕ
  q : QueueS

/-- `free` of the address `p`, when block `id` is at the address `addr id`. -/
def freeAt (addr : ℕ → ℕ) (L : Ledger) (p : ℕ) : Option Ledger :=
  (L.live.find? fun id => addr id = p).bind L.free

/-- `queue_setup`, which allocates the handle. -/
def setupHandle (handle : Bool) (p nmemb size : ℕ) (L : Ledger) : Option Handle × Ledger :=
  match queueSetup handle p nmemb size with
  | some q => (some { block := L.next, q := q }, L.alloc)
  | none => (none, L)

/-- `queue_create`; the arguments tell which of the two allocations succeed. -/
def createHandle (addr : ℕ → ℕ) (buffer handle : Bool) (nmemb size : ℕ) (L : Ledger) :
    Option (Except Errno Handle × Ledger) :=
  if nmemb = 0 ∨ size = 0 then some (.error .EINVAL, L)
  else if buffer then
    match setupHandle handle (addr L.next) (u32 nmemb) (u32 size) L.alloc with
    | (some h, L') => some (.ok h, L')
    | (none, L') => (freeAt addr L' (addr L.next)).map fun L => (.error .ENOMEM, L)
  else some (.error .ENOMEM, L)

/-- `queue_create_static`. -/
def createStaticHandle (handle : Bool) (p count nmemb size : ℕ) (L : Ledger) :
    Except Errno Handle × Ledger :=
  if nmemb = 0 ∨ size = 0 ∨ u64 (nmemb * size) < count then (.error .EINVAL, L)
  else match setupHandle handle p (u32 nmemb) (u32 size) L with
    | (some h, L') => (.ok { h with q := { h.q with staticallyAllocated := true } }, L')
    | (none, L') => (.error .ENOMEM, L')

def queueDestroy (addr : ℕ → ℕ) (h : Handle) (L : Ledger) : Option Ledger := do
  let L ← if h.q.staticallyAllocated then some L else freeAt addr L h.q.pHead
  L.free h.block

variable {addr : ℕ → ℕ} {L L' : Ledger} {h : Handle} {buffer handle : Bool}
  {p count nmemb size : ℕ} {ids : List ℕ}

/-! ### Without the ledger -/

theorem createHandle_erase {r : Except Errno Handle}
    (hc : createHandle addr buffer handle nmemb size L = some (r, L')) :
    r.map Handle.q = queueCreate (fun _ => if buffer then some (addr L.next) else none) handle
      nmemb size := by
  unfold createHandle at hc
  unfold queueCreate
  split_ifs at hc ⊢ with h0 hb
  · cases hc
    rfl
  · simp only [setupHandle] at hc
    cases hq : queueSetup handle (addr L.next) (u32 nmemb) (u32 size) with
    | some q =>
      simp only [hq] at hc ⊢
      cases hc
      rfl
    | none =>
      simp only [hq] at hc ⊢
      obtain ⟨L₁, -, hr⟩ := Option.map_eq_some_iff.mp hc
      cases hr
      rfl
  · cases hc
    rfl

theorem createStaticHandle_erase {r : Except Errno Handle}
    (hc : createStaticHandle handle p count nmemb size L = (r, L')) :
    r.map Handle.q = queueCreateStatic handle p count nmemb size := by
  unfold createStaticHandle at hc
  unfold queueCreateStatic
  split_ifs at hc ⊢ with h0
  · cases hc
    rfl
  · simp only [setupHandle] at hc
    cases hq : queueSetup handle p (u32 nmemb) (u32 size) with
    | some q =>
      simp only [hq] at hc
      cases hc
      rfl
    | none =>
      simp only [hq] at hc
      cases hc
      rfl

/-! ### Ownership -/

/-- The live blocks are at different addresses. A block that was freed may share its address
with one that is live. -/
def Apart (addr : ℕ → ℕ) (L : Ledger) : Prop := Set.InjOn addr {id | id ∈ L.live}

/-- The address of an owned block leads back to it. -/
theorem Owns.freeAt {id : ℕ} (haddr : Apart addr L) (h : Owns L (id :: ids)) :
    ∃ L', freeAt addr L (addr id) = some L' ∧ Owns L' ids := by
  obtain ⟨L', hf, ho⟩ := Alloc.Owns.free h
  refine ⟨L', ?_, ho⟩
  have hm : id ∈ L.live := (List.Perm.mem_iff h).mpr List.mem_cons_self
  have hfind : (L.live.find? fun i => addr i = addr id) = some id := by
    cases hx : L.live.find? fun i => decide (addr i = addr id) with
    | none => simpa using List.find?_eq_none.mp hx id hm
    | some i =>
      have hi : addr i = addr id := by simpa using List.find?_some hx
      rw [haddr (List.mem_of_find?_eq_some hx) hm hi]
  rw [Queue.freeAt, hfind, Option.bind_some, hf]

/-- The blocks of a queue, when its buffer, if it is not the caller's, is the block `id`. -/
def Handle.Blocks (addr : ℕ → ℕ) (h : Handle) (ids : List ℕ) : Prop :=
  (h.q.staticallyAllocated = true ∧ ids = [h.block]) ∨
    ∃ id, h.q.staticallyAllocated = false ∧ h.q.pHead = addr id ∧ ids = [id, h.block]

/-- `queue_destroy` frees the blocks of the queue, each once. -/
theorem queueDestroy_owns (haddr : Apart addr L) (hb : h.Blocks addr ids)
    {rest : List ℕ} (ho : Owns L (ids ++ rest)) :
    ∃ L', queueDestroy addr h L = some L' ∧ Owns L' rest := by
  rcases hb with ⟨hs, rfl⟩ | ⟨id, hs, hp, rfl⟩
  · obtain ⟨L', hf, ho'⟩ := Alloc.Owns.free ho
    exact ⟨L', by simp [queueDestroy, hs, hf], ho'⟩
  · obtain ⟨L₁, hf, ho₁⟩ := Owns.freeAt haddr ho
    obtain ⟨L', hf', ho'⟩ := Alloc.Owns.free ho₁
    exact ⟨L', by simp [queueDestroy, hs, hp, hf, hf'], ho'⟩

/-- What a creation leaves: nothing, or the blocks of the queue. -/
def LeavesBlocks (addr : ℕ → ℕ) (L L' : Ledger) : Except Errno Handle → Prop
  | .error _ => Owns L' L.live
  | .ok h => ∃ ids, h.Blocks addr ids ∧ Owns L' (ids ++ L.live)

theorem queueSetup_static {q : QueueS} (hq : queueSetup handle p nmemb size = some q) :
    q.staticallyAllocated = false ∧ q.pHead = p := by
  unfold queueSetup at hq
  split_ifs at hq
  cases hq
  exact ⟨rfl, rfl⟩

theorem createHandle_leaves (buffer handle : Bool) (nmemb size : ℕ) (L : Ledger)
    (haddr : buffer = true → Apart addr L.alloc) : ∃ r L',
    createHandle addr buffer handle nmemb size L = some (r, L') ∧ LeavesBlocks addr L L' r := by
  have ho : Owns L L.live := List.Perm.refl _
  unfold createHandle
  split_ifs with h0 hb
  · exact ⟨_, L, rfl, ho⟩
  · simp only [setupHandle]
    cases hq : queueSetup handle (addr L.next) (u32 nmemb) (u32 size) with
    | some q =>
      obtain ⟨hs, hp⟩ := queueSetup_static hq
      refine ⟨_, _, rfl, [L.next, L.alloc.next], .inr ⟨L.next, hs, hp, rfl⟩, ?_⟩
      exact ho.alloc.alloc.perm (List.Perm.swap _ _ _)
    | none =>
      obtain ⟨L', hf, ho'⟩ := Owns.freeAt (haddr hb) ho.alloc
      exact ⟨.error .ENOMEM, L', by simp only [hf, Option.map_some], ho'⟩
  · exact ⟨_, L, rfl, ho⟩

theorem createStaticHandle_leaves (addr : ℕ → ℕ) (handle : Bool) (p count nmemb size : ℕ)
    (L : Ledger) : LeavesBlocks addr L (createStaticHandle handle p count nmemb size L).2
      (createStaticHandle handle p count nmemb size L).1 := by
  have ho : Owns L L.live := List.Perm.refl _
  unfold createStaticHandle
  split_ifs with h0
  · exact ho
  · simp only [setupHandle]
    cases hq : queueSetup handle p (u32 nmemb) (u32 size) with
    | some q => exact ⟨[L.next], .inl ⟨rfl, rfl⟩, ho.alloc⟩
    | none => exact ho

/-! ### Runs -/

/-- After a creation that failed all is as before. After one that succeeded, whatever calls of
whatever threads follow in whatever order, and whatever else is allocated meanwhile,
`queue_destroy` frees the blocks of the queue and no other, and each of them once. The blocks
that are live when the buffer is allocated, and those live at the destroy, are at different
addresses. -/
theorem destroy_frees {T : Type*} [DecidableEq T] (L₀ : Ledger)
    (haddr : buffer = true → Apart addr L₀.alloc) {r : Except Errno Handle} {L₁ : Ledger}
    (hc : createHandle addr buffer handle nmemb size L₀ = some (r, L₁) ∨
      createStaticHandle handle p count nmemb size L₀ = (r, L₁)) :
    (∀ e, r = .error e → Owns L₁ L₀.live) ∧
      ∀ h, r = .ok h → ∃ ids, Owns L₁ (ids ++ L₀.live) ∧
        ∀ (mem : Mem) (moves : List (T × Move Call)) (s : State T Shared Point)
          (tr : List (T × Event)) (L : Ledger) (rest : List ℕ),
          exec api (.initial ⟨h.q, mem⟩) moves = some (s, tr) → Apart addr L →
          Owns L (ids ++ rest) →
          ∃ L', queueDestroy addr { h with q := s.shared.q } L = some L' ∧ Owns L' rest := by
  have hl : LeavesBlocks addr L₀ L₁ r := by
    rcases hc with hc | hc
    · obtain ⟨r', L', hc', hl⟩ := createHandle_leaves buffer handle nmemb size L₀ haddr
      cases hc.symm.trans hc'
      exact hl
    · have hl := createStaticHandle_leaves addr handle p count nmemb size L₀
      rwa [hc] at hl
  refine ⟨?_, ?_⟩
  · rintro e rfl
    exact hl
  · rintro h rfl
    obtain ⟨ids, hb, ho⟩ := hl
    refine ⟨ids, ho, fun mem moves s tr L rest hrun hA hL => queueDestroy_owns hA ?_ hL⟩
    have hsame := exec_shared (fun v => (v.q.pHead, v.q.staticallyAllocated)) access_owner hrun
    obtain ⟨hp, hst⟩ := Prod.ext_iff.mp hsame
    have hp : s.shared.q.pHead = h.q.pHead := hp
    have hst : s.shared.q.staticallyAllocated = h.q.staticallyAllocated := hst
    simpa only [Handle.Blocks, hp, hst] using hb

/-- A queue of two messages on an allocator that gives every address out again: block `id` is at
the address `16 * (id % 8)`. -/
theorem destroy_frees_two : ∃ h L₁,
    createHandle (fun id => 16 * (id % 8)) true true 2 4 .empty = some (.ok h, L₁) ∧
      ∃ ids, Owns L₁ (ids ++ Ledger.empty.live) ∧
        ∀ (mem : Mem) (moves : List (ℕ × Move Call)) (s : State ℕ Shared Point)
          (tr : List (ℕ × Event)) (L : Ledger) (rest : List ℕ),
          exec api (.initial ⟨h.q, mem⟩) moves = some (s, tr) →
          Apart (fun id => 16 * (id % 8)) L → Owns L (ids ++ rest) →
          ∃ L', queueDestroy (fun id => 16 * (id % 8)) { h with q := s.shared.q } L = some L' ∧
            Owns L' rest := by
  obtain ⟨h, L₁, hc⟩ : ∃ h L₁,
      createHandle (fun id => 16 * (id % 8)) true true 2 4 .empty = some (.ok h, L₁) := ⟨_, _, rfl⟩
  have hor : createHandle (fun id => 16 * (id % 8)) true true 2 4 .empty = some (.ok h, L₁) ∨
      createStaticHandle true 0 0 2 4 .empty = (.ok h, L₁) := .inl hc
  have haddr : true = true → Apart (fun id => 16 * (id % 8)) Ledger.empty.alloc := by
    intro _ i hi j hj _
    rw [List.mem_singleton.mp hi, List.mem_singleton.mp hj]
  exact ⟨h, L₁, hc, (destroy_frees .empty haddr hor).2 h rfl⟩

end Ohmylib.Queue
