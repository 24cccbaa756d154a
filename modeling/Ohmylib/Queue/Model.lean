import Ohmylib.Libc

/-! The queue handle and what `lib/queue.c` computes from it. Pointers into the
message buffer are byte addresses. The allocator is a parameter: `calloc` gives
the address of a block of the requested size, `handle` tells whether the
allocation of the handle succeeds. -/

namespace Ohmylib.Queue

/-- `struct queue_s` without its mutex and its condition variables. -/
structure QueueS where
  staticallyAllocated : Bool
  nmemb : ℕ
  size : ℕ
  avail : ℕ
  pHead : ℕ
  pTail : ℕ
  pWrite : ℕ
  pRead : ℕ
  deriving DecidableEq, Repr

/-- `queue_setup`, whose arguments `nmemb` and `size` have type `uint32_t`. -/
def queueSetup (handle : Bool) (p nmemb size : ℕ) : Option QueueS :=
  if handle then
    some { staticallyAllocated := false, nmemb := nmemb, size := size, avail := 0, pHead := p,
           pTail := p + u32 (u32 (2 ^ 32 - 1 + nmemb) * size), pWrite := p, pRead := p }
  else none

/-- `queue_create_static`: the caller's buffer has `count` bytes at `p`. -/
def queueCreateStatic (handle : Bool) (p count nmemb size : ℕ) : Except Errno QueueS :=
  if nmemb = 0 ∨ size = 0 ∨ u64 (nmemb * size) < count then .error .EINVAL
  else match queueSetup handle p (u32 nmemb) (u32 size) with
    | some q => .ok { q with staticallyAllocated := true }
    | none => .error .ENOMEM

/-- `queue_create`: the buffer is `calloc(1, nmemb * size)`. -/
def queueCreate (calloc : ℕ → Option ℕ) (handle : Bool) (nmemb size : ℕ) : Except Errno QueueS :=
  if nmemb = 0 ∨ size = 0 then .error .EINVAL
  else match calloc (u64 (nmemb * size)) with
    | none => .error .ENOMEM
    | some p => match queueSetup handle p (u32 nmemb) (u32 size) with
      | some q => .ok q
      | none => .error .ENOMEM

def queueIsEmptyLocked (q : QueueS) : Bool := q.avail == 0

def queueIsFullLocked (q : QueueS) : Bool := q.nmemb == q.avail

/-- The `size_t` difference, returned as an `int`. -/
def queueSpaceAvailableLocked (q : QueueS) : ℤ := toInt (u64 (2 ^ 64 - q.avail + q.nmemb))

/-- The pointer behind a message: back to `p_head` from `p_tail`, else one size on. -/
def QueueS.advance (q : QueueS) (ptr : ℕ) : ℕ := if ptr = q.pTail then q.pHead else ptr + q.size

/-- `p_write` after a message was written. -/
def QueueS.advanceWrite (q : QueueS) : QueueS := { q with pWrite := q.advance q.pWrite }

/-- `p_read` after a message was read. -/
def QueueS.advanceRead (q : QueueS) : QueueS := { q with pRead := q.advance q.pRead }

/-- `q->avail++`. -/
def QueueS.incAvail (q : QueueS) : QueueS := { q with avail := u64 (q.avail + 1) }

/-- `q->avail--`. -/
def QueueS.decAvail (q : QueueS) : QueueS := { q with avail := u64 (2 ^ 64 - 1 + q.avail) }

@[simp] theorem queueIsEmptyLocked_iff (q : QueueS) :
    queueIsEmptyLocked q = true ↔ q.avail = 0 := by
  simp [queueIsEmptyLocked]

@[simp] theorem queueIsFullLocked_iff (q : QueueS) :
    queueIsFullLocked q = true ↔ q.avail = q.nmemb := by
  rw [queueIsFullLocked, beq_iff_eq]
  exact eq_comm

/-- A queue made for `nmemb` messages of `size` bytes: by `queue_create` with
allocations that succeed, or by `queue_create_static` on a buffer that is large
enough. -/
def Created (nmemb size : ℕ) (q : QueueS) : Prop :=
  (∃ calloc, queueCreate calloc true nmemb size = .ok q) ∨
    ∃ p count, nmemb * size ≤ count ∧ queueCreateStatic true p count nmemb size = .ok q

/-- `queue_setup` on an admissible geometry. -/
structure Fresh (nmemb size : ℕ) (q : QueueS) : Prop where
  nmemb_eq : q.nmemb = nmemb
  size_eq : q.size = size
  avail_eq : q.avail = 0
  tail_eq : q.pTail = q.pHead + (nmemb - 1) * size
  write_eq : q.pWrite = q.pHead
  read_eq : q.pRead = q.pHead

theorem queueSetup_fresh {p nmemb size : ℕ} {q : QueueS} (hn : 1 ≤ nmemb) (hn' : nmemb < 2 ^ 32)
    (hs' : size < 2 ^ 32) (ht : (nmemb - 1) * size < 2 ^ 32)
    (h : queueSetup true p (u32 nmemb) (u32 size) = some q) : Fresh nmemb size q := by
  have hm : u32 (2 ^ 32 - 1 + nmemb) = nmemb - 1 := by unfold u32; omega
  simp only [queueSetup, ↓reduceIte, u32_of_lt hn', u32_of_lt hs', hm, u32_of_lt ht,
    Option.some.injEq] at h
  subst h
  exact ⟨rfl, rfl, rfl, rfl, rfl, rfl⟩

/-- Every queue that is made has the geometry it was asked for. -/
theorem Created.fresh {nmemb size : ℕ} {q : QueueS} (hn' : nmemb < 2 ^ 32) (hs' : size < 2 ^ 32)
    (ht : (nmemb - 1) * size < 2 ^ 32) (h : Created nmemb size q) : Fresh nmemb size q := by
  rcases h with ⟨calloc, h⟩ | ⟨p, count, -, h⟩
  · unfold queueCreate at h
    split_ifs at h with h0
    split at h
    · cases h
    · next p _ =>
      split at h
      · next q' hq =>
        cases h
        exact queueSetup_fresh (by omega) hn' hs' ht hq
      · cases h
  · unfold queueCreateStatic at h
    split_ifs at h with h0
    split at h
    · next q' hq =>
      cases h
      have hf := queueSetup_fresh (by omega) hn' hs' ht hq
      exact ⟨hf.nmemb_eq, hf.size_eq, hf.avail_eq, hf.tail_eq, hf.write_eq, hf.read_eq⟩
    · cases h

end Ohmylib.Queue
