import Ohmylib.Queue.Fifo
import Ohmylib.Cyclic.Window

/-! The message buffer as a ring of slots. The pending messages are the window of
`avail` slots from the read pointer on, the write pointer is the slot behind it,
and the pointer equality with `p_tail` is the wrap of the ring. Each statement of
a send or a receive is followed through this picture. -/

namespace Ohmylib.Queue

open Cyclic

variable {nmemb size r : ℕ} {v : Shared} {pending : List Msg}

/-- The bytes of slot `i`. -/
def Shared.slot (v : Shared) (size i : ℕ) : Msg := bytes v.mem (v.q.pHead + i * size) size

/-- The shared state stores `pending` in the window from slot `r` on. -/
structure Stored (nmemb size r : ℕ) (pending : List Msg) (v : Shared) : Prop where
  nmemb_eq : v.q.nmemb = nmemb
  size_eq : v.q.size = size
  nmemb_lt : nmemb < 2 ^ 32
  size_pos : 0 < size
  tail_eq : v.q.pTail = v.q.pHead + (nmemb - 1) * size
  read_lt : r < nmemb
  read_eq : v.q.pRead = v.q.pHead + r * size
  write_eq : v.q.pWrite = v.q.pHead + (r + pending.length) % nmemb * size
  avail_eq : v.q.avail = pending.length
  length_le : pending.length ≤ nmemb
  window_eq : window nmemb r (v.slot size) pending.length = pending

/-- The shared state stores `pending` somewhere. -/
def Ringed (nmemb size : ℕ) (pending : List Msg) (v : Shared) : Prop :=
  ∃ r, Stored nmemb size r pending v

theorem Ringed.length (h : Ringed nmemb size pending v) :
    pending.length = v.q.avail ∧ pending.length ≤ nmemb :=
  let ⟨_, hr⟩ := h
  ⟨hr.avail_eq.symm, hr.length_le⟩

theorem Fresh.stored {q : QueueS} (h : Fresh nmemb size q) (hn : 1 ≤ nmemb) (hn' : nmemb < 2 ^ 32)
    (hs : 1 ≤ size) (mem : Mem) : Stored nmemb size 0 [] ⟨q, mem⟩ where
  nmemb_eq := h.nmemb_eq
  size_eq := h.size_eq
  nmemb_lt := hn'
  size_pos := hs
  tail_eq := h.tail_eq
  read_lt := hn
  read_eq := by simp [h.read_eq]
  write_eq := by simp [h.write_eq]
  avail_eq := h.avail_eq
  length_le := Nat.zero_le _
  window_eq := rfl

/-- The slots lie one after the other. -/
theorem slot_le (size : ℕ) {i j : ℕ} (h : i < j) : i * size + size ≤ j * size := by
  have := Nat.mul_le_mul_right size (show i + 1 ≤ j from h)
  rwa [Nat.add_mul, Nat.one_mul] at this

/-- The pointer equality with `p_tail` is the wrap of the ring. -/
theorem Stored.advance_slot (h : Stored nmemb size r pending v) {i : ℕ} (hi : i < nmemb) :
    v.q.advance (v.q.pHead + i * size) = v.q.pHead + next nmemb i * size := by
  unfold QueueS.advance next
  by_cases hl : i + 1 = nmemb
  · obtain rfl : i = nmemb - 1 := by omega
    simp [h.tail_eq, hl]
  · have hlt : i * size + size ≤ (nmemb - 1) * size := slot_le size (by omega)
    have := h.size_pos
    rw [if_neg (by rw [h.tail_eq]; omega), if_neg hl, h.size_eq, Nat.add_mul]
    omega

/-! ### Send -/

/-- The slot of the write pointer is none of the pending ones, so the copy leaves
the pending messages alone. -/
theorem Stored.memcpy (h : Stored nmemb size r pending v) (hl : pending.length < nmemb)
    (p : ℕ → UInt8) :
    Stored nmemb size r pending { v with mem := memcpy v.mem v.q.pWrite p v.q.size } := by
  have hframe : ∀ i < nmemb, i ≠ (r + pending.length) % nmemb →
      bytes (Ohmylib.memcpy v.mem v.q.pWrite p v.q.size) (v.q.pHead + i * size) size =
        v.slot size i := by
    intro i hi hne
    refine bytes_memcpy_of_disjoint _ _ ?_
    rw [h.size_eq, h.write_eq]
    rcases Nat.lt_or_gt_of_ne hne with hlt | hgt
    · have := slot_le size hlt; omega
    · have := slot_le size hgt; omega
  exact { h with window_eq := (window_frame hl hframe).trans h.window_eq }

/-- The copied message. -/
theorem Stored.memcpy_message (h : Stored nmemb size r pending v) (p : ℕ → UInt8) :
    bytes (Ohmylib.memcpy v.mem v.q.pWrite p v.q.size) v.q.pWrite size = message size p := by
  rw [h.size_eq]
  exact bytes_memcpy_self ..

/-- The shared state with another write pointer. -/
def Shared.setWrite (v : Shared) (w : ℕ) : Shared := { v with q := { v.q with pWrite := w } }

/-- Before `q->avail++`: the slot `w` holds the new message and the write pointer
is one slot on. -/
structure Written (nmemb size : ℕ) (m : Msg) (pending : List Msg) (w : ℕ) (v : Shared) : Prop where
  ringed : Ringed nmemb size pending (v.setWrite w)
  room : pending.length < nmemb
  message_eq : bytes v.mem w size = m
  write_eq : v.q.pWrite = v.q.advance w

/-- `q->avail++` appends the message. -/
theorem Written.incAvail {m : Msg} {w : ℕ} (h : Written nmemb size m pending w v) :
    Ringed nmemb size (pending ++ [m]) { v with q := v.q.incAvail } := by
  obtain ⟨r, hr⟩ := h.ringed
  have hw : w = v.q.pHead + (r + pending.length) % nmemb * size := hr.write_eq
  have hlt : (r + pending.length) % nmemb < nmemb := Nat.mod_lt _ (by have := hr.read_lt; omega)
  have hadv : v.q.advance w =
      v.q.pHead + next nmemb ((r + pending.length) % nmemb) * size := by
    rw [hw]
    exact hr.advance_slot hlt
  have hn := hr.nmemb_lt
  have hroom := h.room
  have hav : v.q.avail = pending.length := hr.avail_eq
  refine ⟨r, { hr with write_eq := ?_, avail_eq := ?_, length_le := ?_, window_eq := ?_ }⟩
  · simp only [QueueS.incAvail]
    rw [h.write_eq, hadv, next_mod (by omega), List.length_append, List.length_singleton]
  · simp only [QueueS.incAvail]
    rw [u64_of_lt (by omega), hav, List.length_append, List.length_singleton]
  · rw [List.length_append, List.length_singleton]
    exact hroom
  · rw [List.length_append, List.length_singleton, window_succ]
    have hwin : window nmemb r (v.slot size) pending.length = pending := hr.window_eq
    have hslot : v.slot size ((r + pending.length) % nmemb) = m := by
      rw [← h.message_eq, hw]
      rfl
    exact congrArg₂ (fun x y => x ++ [y]) hwin hslot

/-! ### Receive -/

/-- The slot of the read pointer holds the first pending message. -/
theorem Stored.head {m : Msg} {rest : List Msg} (h : Stored nmemb size r (m :: rest) v) :
    bytes v.mem v.q.pRead v.q.size = m := by
  have hw := h.window_eq
  rw [List.length_cons, window_cons _ h.read_lt, List.cons.injEq] at hw
  rw [h.read_eq, h.size_eq]
  exact hw.1

/-- The shared state with another read pointer. -/
def Shared.setRead (v : Shared) (w : ℕ) : Shared := { v with q := { v.q with pRead := w } }

/-- Before `q->avail--`: the read pointer is one slot beyond the first message. -/
structure Consumed (nmemb size : ℕ) (pending : List Msg) (w : ℕ) (v : Shared) : Prop where
  ringed : Ringed nmemb size pending (v.setRead w)
  read_eq : v.q.pRead = v.q.advance w

/-- `q->avail--` removes the first message. -/
theorem Consumed.decAvail {m : Msg} {rest : List Msg} {w : ℕ}
    (h : Consumed nmemb size (m :: rest) w v) :
    Ringed nmemb size rest { v with q := v.q.decAvail } := by
  obtain ⟨r, hr⟩ := h.ringed
  have hw : w = v.q.pHead + r * size := hr.read_eq
  have hadv : v.q.advance w = v.q.pHead + next nmemb r * size := by
    rw [hw]
    exact hr.advance_slot hr.read_lt
  have hn := hr.nmemb_lt
  have hle := hr.length_le
  have hav : v.q.avail = rest.length + 1 := hr.avail_eq
  rw [List.length_cons] at hle
  refine ⟨next nmemb r, { hr with
    read_lt := next_lt hr.read_lt, read_eq := ?_, write_eq := ?_, avail_eq := ?_,
    length_le := by omega, window_eq := ?_ }⟩
  · simp only [QueueS.decAvail]
    rw [h.read_eq, hadv]
  · simp only [QueueS.decAvail, next_add_mod hr.read_lt]
    exact hr.write_eq
  · simp only [QueueS.decAvail, hav, u64]
    omega
  · have hwin := hr.window_eq
    rw [List.length_cons, window_cons _ hr.read_lt, List.cons.injEq] at hwin
    exact hwin.2

/-! ### Observers -/

theorem Stored.full_eq (h : Stored nmemb size r pending v) :
    queueIsFullLocked v.q = (nmemb == pending.length) := by
  rw [queueIsFullLocked, h.nmemb_eq, h.avail_eq]

theorem Stored.empty_eq (h : Stored nmemb size r pending v) :
    queueIsEmptyLocked v.q = pending.isEmpty := by
  rw [queueIsEmptyLocked, h.avail_eq]
  cases pending <;> rfl

/-- The test of `queue_send` leaves room for one message. -/
theorem Stored.room (h : Stored nmemb size r pending v) (hf : ¬queueIsFullLocked v.q = true) :
    pending.length < nmemb := by
  have := h.length_le
  rw [h.full_eq, beq_iff_eq] at hf
  omega

/-- The test of `queue_recv` leaves a message to read. -/
theorem Stored.ne_nil (h : Stored nmemb size r pending v) (he : ¬queueIsEmptyLocked v.q = true) :
    pending ≠ [] := by
  rw [h.empty_eq] at he
  rintro rfl
  exact he rfl

theorem Stored.space_eq (h : Stored nmemb size r pending v) :
    queueSpaceAvailableLocked v.q = toInt (nmemb - pending.length) := by
  have hn := h.nmemb_lt
  have hl := h.length_le
  have hu : u64 (2 ^ 64 - pending.length + nmemb) = nmemb - pending.length := by
    unfold u64
    omega
  rw [queueSpaceAvailableLocked, h.nmemb_eq, h.avail_eq, hu]

end Ohmylib.Queue
