import Ohmylib.Queue.Geometry
import Mathlib.Logic.Function.Iterate

/-! The geometry of a queue for the `size_t` arguments of `queue_create`. The
block is sized by a 64-bit product, but `queue_setup` takes both arguments as
`uint32_t` and computes `p_tail` by a 32-bit product, unchecked. The geometry is
the requested one exactly when neither narrowing nor that product wraps. -/

namespace Ohmylib.Queue

open Cyclic

variable {nmemb size : ℕ} {q : QueueS}

/-- A message pointer passes over all slots, each once, and is back at the start. -/
structure Tour (nmemb size : ℕ) (q : QueueS) (ptr : ℕ) : Prop where
  visits : ∀ k < nmemb, q.advance^[k] ptr = q.pHead + k * size
  different : ∀ j < nmemb, ∀ k < nmemb, q.advance^[j] ptr = q.advance^[k] ptr → j = k
  wraps : q.advance^[nmemb] ptr = q.pHead

/-- The geometry asked for, in a block of the bytes requested from `calloc`. -/
structure Geometry (nmemb size : ℕ) (q : QueueS) : Prop where
  noWrap : nmemb * size < 2 ^ 64
  nmemb_eq : q.nmemb = nmemb
  size_eq : q.size = size
  tail_eq : q.pTail = q.pHead + (nmemb - 1) * size
  inside : q.pTail + size ≤ q.pHead + u64 (nmemb * size)
  write : Tour nmemb size q q.pWrite
  read : Tour nmemb size q q.pRead

/-- `queue_create` succeeds only on a block for the wrapped product, with the
narrowed arguments. -/
theorem queueCreate_ok {calloc : ℕ → Option ℕ} {handle : Bool}
    (h : queueCreate calloc handle nmemb size = .ok q) : 0 < nmemb ∧ 0 < size ∧
      calloc (u64 (nmemb * size)) = some q.pHead ∧
      queueSetup true q.pHead (u32 nmemb) (u32 size) = some q := by
  unfold queueCreate at h
  split_ifs at h with h0
  split at h
  · cases h
  · next p hp =>
    cases handle with
    | false => cases h
    | true =>
      cases h
      exact ⟨by omega, by omega, hp, rfl⟩

theorem Fresh.iterate_advance (h : Fresh nmemb size q) (hn : 1 ≤ nmemb) (hn' : nmemb < 2 ^ 32)
    (hs : 1 ≤ size) {k : ℕ} (hk : k < nmemb) : q.advance^[k] q.pHead = q.pHead + k * size := by
  have hst : Stored nmemb size 0 [] ⟨q, fun _ => 0⟩ := h.stored hn hn' hs _
  induction k with
  | zero => simp
  | succ k ih =>
    have hk' : k + 1 ≠ nmemb := by omega
    rw [Function.iterate_succ_apply', ih (by omega), hst.advance_slot (by omega), next,
      if_neg hk']

theorem Fresh.tour (h : Fresh nmemb size q) (hn : 1 ≤ nmemb) (hn' : nmemb < 2 ^ 32)
    (hs : 1 ≤ size) : Tour nmemb size q q.pHead where
  visits k hk := h.iterate_advance hn hn' hs hk
  different j hj k hk he := by
    rw [h.iterate_advance hn hn' hs hj, h.iterate_advance hn hn' hs hk] at he
    exact Nat.eq_of_mul_eq_mul_right hs (Nat.add_left_cancel he)
  wraps := by
    have hst : Stored nmemb size 0 [] ⟨q, fun _ => 0⟩ := h.stored hn hn' hs _
    obtain ⟨m, rfl⟩ : ∃ m, nmemb = m + 1 := ⟨nmemb - 1, by omega⟩
    rw [Function.iterate_succ_apply', h.iterate_advance hn hn' hs (Nat.lt_succ_self m),
      hst.advance_slot (Nat.lt_succ_self m), next, if_pos rfl, Nat.zero_mul, Nat.add_zero]

/-- The byte count of narrow arguments does not wrap. -/
theorem mul_lt_of_narrow (hn : nmemb < 2 ^ 32) (hs : size < 2 ^ 32) : nmemb * size < 2 ^ 64 := by
  calc nmemb * size < 2 ^ 32 * 2 ^ 32 := Nat.mul_lt_mul'' hn hs
    _ = 2 ^ 64 := (pow_add 2 32 32).symm

theorem Fresh.geometry (h : Fresh nmemb size q) (hn : 1 ≤ nmemb) (hn' : nmemb < 2 ^ 32)
    (hs : 1 ≤ size) (hs' : size < 2 ^ 32) : Geometry nmemb size q where
  noWrap := mul_lt_of_narrow hn' hs'
  nmemb_eq := h.nmemb_eq
  size_eq := h.size_eq
  tail_eq := h.tail_eq
  inside := by
    have hlast : (nmemb - 1) * size + size ≤ nmemb * size := slot_le size (by omega)
    rw [h.tail_eq, u64_of_lt (mul_lt_of_narrow hn' hs')]
    omega
  write := h.write_eq ▸ h.tour hn hn' hs
  read := h.read_eq ▸ h.tour hn hn' hs

/-- A queue that `queue_create` returns has the requested geometry exactly when
both arguments and the distance of `p_tail` fit 32 bits. -/
theorem geometry_iff (calloc : ℕ → Option ℕ) (handle : Bool) (nmemb size : ℕ) (q : QueueS)
    (h : queueCreate calloc handle nmemb size = .ok q) :
    Geometry nmemb size q ↔ nmemb < 2 ^ 32 ∧ size < 2 ^ 32 ∧ (nmemb - 1) * size < 2 ^ 32 := by
  obtain ⟨hn, hs, -, hq⟩ := queueCreate_ok h
  constructor
  · intro hg
    have hqe : q = ⟨false, u32 nmemb, u32 size, 0, q.pHead,
        q.pHead + u32 (u32 (2 ^ 32 - 1 + u32 nmemb) * u32 size), q.pHead, q.pHead⟩ :=
      (Option.some.inj hq).symm
    have hn' : u32 nmemb = nmemb := (congrArg QueueS.nmemb hqe).symm.trans hg.nmemb_eq
    have hs' : u32 size = size := (congrArg QueueS.size hqe).symm.trans hg.size_eq
    have ht : q.pHead + (nmemb - 1) * size =
        q.pHead + u32 (u32 (2 ^ 32 - 1 + u32 nmemb) * u32 size) :=
      hg.tail_eq.symm.trans (congrArg QueueS.pTail hqe)
    have hlt (n : ℕ) : u32 n < 2 ^ 32 := Nat.mod_lt n (by decide)
    refine ⟨hn' ▸ hlt nmemb, hs' ▸ hlt size, ?_⟩
    rw [Nat.add_left_cancel ht]
    exact hlt _
  · rintro ⟨hn', hs', ht⟩
    exact (queueSetup_fresh hn hn' hs' ht hq).geometry hn hn' hs hs'

theorem geometry_three : Geometry 3 8 ⟨false, 3, 8, 0, 4096, 4112, 4096, 4096⟩ ↔
    3 < 2 ^ 32 ∧ 8 < 2 ^ 32 ∧ (3 - 1) * 8 < 2 ^ 32 :=
  geometry_iff (fun _ => some 4096) true 3 8 _ rfl

/-- `2 ^ 16 + 1` messages of `2 ^ 16` bytes: `p_tail` is `p_head`, so every send
writes to the first slot. -/
theorem geometry_fails : ∃ q, queueCreate (fun _ => some 4096) true (2 ^ 16 + 1) (2 ^ 16) = .ok q ∧
    q.pTail = q.pHead ∧ q.advance q.pWrite = q.pWrite ∧ ¬ Geometry (2 ^ 16 + 1) (2 ^ 16) q := by
  refine ⟨⟨false, 65537, 65536, 0, 4096, 4096, 4096, 4096⟩, rfl, rfl, rfl, fun hg => ?_⟩
  exact absurd hg.tail_eq (by decide)

end Ohmylib.Queue
