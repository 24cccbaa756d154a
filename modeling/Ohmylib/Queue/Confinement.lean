import Ohmylib.Queue.Linearizable

/-! Static queues and the caller's buffer. `queue_create_static` compares the size
of the slots with the size of the buffer the wrong way round: it accepts the
buffers that are too small or exact and refuses those that are too large. Only for
an exact buffer the result is right, and then no copy of any run leaves the buffer. -/

namespace Ohmylib.Queue

open Monitor

/-- The address and the length of the `memcpy` on the message buffer that comes next. -/
def Point.copies : Point → QueueS → Option (ℕ × ℕ)
  | .send _ _ .memcpy, q => some (q.pWrite, q.size)
  | .recv _ .memcpy, q => some (q.pRead, q.size)
  | _, _ => none

/-- Every copy that comes next stays in the `count` bytes at `p`. -/
def Confined {T : Type*} (p count : ℕ) (s : State T Shared Point) : Prop :=
  ∀ t l a n, s.status t = .ready l → l.copies s.shared.q = some (a, n) →
    p ≤ a ∧ a + n ≤ p + count

/-- What `queue_create_static` promises for a buffer of `count` bytes at `p`: it
succeeds exactly for a buffer that is large enough, and then no run copies outside. -/
def StaticSafe (T : Type*) [DecidableEq T] (p count nmemb size : ℕ) : Prop :=
  ((∃ q, queueCreateStatic true p count nmemb size = .ok q) ↔ nmemb * size ≤ count) ∧
    ∀ q, queueCreateStatic true p count nmemb size = .ok q →
      ∀ (mem : Mem) (moves : List (T × Move Call)) (s : State T Shared Point)
        (tr : List (T × Event)), (∀ x ∈ moves, locking.Allows x.2) →
        exec api (.initial ⟨q, mem⟩) moves = some (s, tr) → Confined p count s

theorem queueCreateStatic_head {p count nmemb size : ℕ} {q : QueueS}
    (h : queueCreateStatic true p count nmemb size = .ok q) : q.pHead = p := by
  unfold queueCreateStatic queueSetup at h
  split_ifs at h
  cases h
  rfl

/-- The size check accepts the buffers that are not larger than the slots. -/
theorem queueCreateStatic_ok_iff {p count nmemb size : ℕ} (hn : 0 < nmemb) (hs : 0 < size)
    (h32 : nmemb * size < 2 ^ 32) :
    (∃ q, queueCreateStatic true p count nmemb size = .ok q) ↔ count ≤ nmemb * size := by
  have hu : u64 (nmemb * size) = nmemb * size := u64_of_lt (by omega)
  unfold queueCreateStatic queueSetup
  rw [hu]
  by_cases hc : nmemb * size < count
  · simp [hc, Nat.not_le.mpr hc]
  · have hg : ¬ (nmemb = 0 ∨ size = 0 ∨ nmemb * size < count) := by omega
    simp [hg, Nat.not_lt.mp hc]

/-- No statement moves the start of the buffer or changes who owns it. -/
theorem access_owner (l : Point) (f : Shared → Shared × Point × Option Event)
    (h : api.code l = .access f) (v : Shared) :
    ((f v).1.q.pHead, (f v).1.q.staticallyAllocated) = (v.q.pHead, v.q.staticallyAllocated) := by
  have ha := access_effect h v
  generalize (f v).1 = v' at ha
  cases ha <;> rfl

theorem access_head (l : Point) (f : Shared → Shared × Point × Option Event)
    (h : api.code l = .access f) (v : Shared) : (f v).1.q.pHead = v.q.pHead :=
  (Prod.ext_iff.mp (access_owner l f h v)).1

/-- The `n` bytes at `a` are slot `i` as a whole, inside the `nmemb * size` bytes of the
ring. -/
structure WholeSlot (nmemb size i : ℕ) (q : QueueS) (a n : ℕ) : Prop where
  slot_lt : i < nmemb
  address_eq : a = q.pHead + i * size
  length_eq : n = size
  inside : a + n ≤ q.pHead + nmemb * size

theorem wholeSlot_of_lt {nmemb size i : ℕ} {q : QueueS} {a : ℕ} (hi : i < nmemb)
    (ha : a = q.pHead + i * size) (hs : q.size = size) : WholeSlot nmemb size i q a q.size where
  slot_lt := hi
  address_eq := ha
  length_eq := hs
  inside := by
    have hin := slot_le size hi
    rw [ha, hs]
    omega

/-- Every copy is of a whole slot. -/
theorem fifoPre_copies {nmemb size : ℕ} {l : Point} {v : Shared} {a : List Msg} {W : Cond → Prop}
    {b n : ℕ} (h : fifoPre nmemb size l v a W) (hc : l.copies v.q = some (b, n)) :
    ∃ i, WholeSlot nmemb size i v.q b n := by
  unfold Point.copies at hc
  split at hc
  · obtain ⟨⟨r, hr⟩, -⟩ := h
    simp only [Option.some.injEq, Prod.mk.injEq] at hc
    obtain ⟨rfl, rfl⟩ := hc
    have hlt : (r + a.length) % nmemb < nmemb := Nat.mod_lt _ (by have := hr.read_lt; omega)
    exact ⟨_, wholeSlot_of_lt hlt hr.write_eq hr.size_eq⟩
  · obtain ⟨⟨r, hr⟩, -⟩ := h
    simp only [Option.some.injEq, Prod.mk.injEq] at hc
    obtain ⟨rfl, rfl⟩ := hc
    exact ⟨r, wholeSlot_of_lt hr.read_lt hr.read_eq hr.size_eq⟩
  · cases hc

theorem copies_guarded {l : Point} {q : QueueS} {x : ℕ × ℕ} (hc : l.copies q = some x) :
    (api.code l).Guarded := by
  unfold Point.copies at hc
  split at hc <;> trivial

variable {T : Type*}

/-- In every reachable state the copy that comes next is of a whole slot. -/
theorem holds_copies {nmemb size : ℕ} {s : State T Shared Point} {a : List Msg} {t : T} {l : Point}
    {b n : ℕ} (h : (linearization nmemb size).Holds s a) (hl : s.status t = .ready l)
    (hc : l.copies s.shared.q = some (b, n)) : ∃ i, WholeSlot nmemb size i s.shared.q b n :=
  fifoPre_copies (h.owned (h.disciplined.guarded hl (copies_guarded hc)) hl) hc

variable [DecidableEq T]

/-- No run of a created queue copies outside its `nmemb * size` bytes. -/
theorem created_confined {nmemb size : ℕ} (hn : 1 ≤ nmemb) (hs : 1 ≤ size) (hn' : nmemb < 2 ^ 32)
    (hs' : size < 2 ^ 32) (ht : (nmemb - 1) * size < 2 ^ 32) {q : QueueS}
    (hq : Created nmemb size q) {mem : Mem} {moves : List (T × Move Call)}
    {s : State T Shared Point} {tr : List (T × Event)} (hcalls : ∀ x ∈ moves, locking.Allows x.2)
    (hrun : exec api (.initial ⟨q, mem⟩) moves = some (s, tr)) :
    Confined q.pHead (nmemb * size) s := by
  intro t l a n hl hc
  obtain ⟨b, -, h⟩ := (hq.fresh hn' hs' ht).holds hn hn' hs hcalls hrun
  have hhead : s.shared.q.pHead = q.pHead := exec_shared (fun v => v.q.pHead) access_head hrun
  obtain ⟨i, hi⟩ := holds_copies h hl hc
  rw [← hhead]
  exact ⟨hi.address_eq ▸ Nat.le_add_right _ _, hi.inside⟩

/-- `queue_create_static` keeps its promise exactly for a buffer of the exact size. -/
theorem static_safe_iff {p count nmemb size : ℕ} (hn : 0 < nmemb) (hs : 0 < size)
    (h32 : nmemb * size < 2 ^ 32) : StaticSafe T p count nmemb size ↔ nmemb * size = count := by
  constructor
  · rintro ⟨h, -⟩
    rw [queueCreateStatic_ok_iff hn hs h32] at h
    omega
  · rintro rfl
    refine ⟨by rw [queueCreateStatic_ok_iff hn hs h32], fun q hq mem moves s tr hcalls hrun => ?_⟩
    have hn' : nmemb < 2 ^ 32 := lt_of_le_of_lt (Nat.le_mul_of_pos_right _ hs) h32
    have hs' : size < 2 ^ 32 := lt_of_le_of_lt (Nat.le_mul_of_pos_left _ hn) h32
    have ht : (nmemb - 1) * size < 2 ^ 32 :=
      lt_of_le_of_lt (Nat.mul_le_mul_right size (Nat.sub_le nmemb 1)) h32
    have hc := created_confined hn hs hn' hs' ht (.inr ⟨p, _, le_rfl, hq⟩) hcalls hrun
    rwa [queueCreateStatic_head hq] at hc

theorem static_safe_exact : StaticSafe ℕ 0 8 2 4 ↔ 2 * 4 = 8 :=
  static_safe_iff (by decide) (by decide) (by decide)

/-- Two slots of four bytes are accepted for a buffer of four bytes, and the second
send copies to the four bytes behind the buffer. -/
theorem static_overflow : ¬ StaticSafe ℕ 0 4 2 4 ∧
    ∃ q, queueCreateStatic true 0 4 2 4 = .ok q ∧
      ∃ (moves : List (ℕ × Move Call)) (s : State ℕ Shared Point) (tr : List (ℕ × Event)),
        exec api (.initial ⟨q, fun _ => 0⟩) moves = some (s, tr) ∧ ¬ Confined 0 4 s := by
  refine ⟨fun h => ?_, ⟨true, 2, 4, 0, 0, 4, 0, 0⟩, rfl,
    (0, .call (.send (fun _ => 7) 0)) :: List.replicate 8 (0, .run) ++
      (0, .call (.send (fun _ => 8) 0)) :: List.replicate 2 (0, .run), _, _, rfl, fun h => ?_⟩
  · exact absurd (h.1.mp ⟨_, rfl⟩) (by decide)
  · exact absurd (h 0 (.send (fun _ => 8) 0 .memcpy) 4 4 rfl rfl).2 (by decide)

end Ohmylib.Queue
