import Ohmylib.Queue.Confinement
import Ohmylib.Queue.Sizes
import Ohmylib.Monitor.Steps

/-! The ring in every state of a run. While no thread is between a pointer and the
counter, both pointers are slots of the ring, `avail` slots apart; every copy is of
one whole slot, a send copies to a slot that is not pending, and the memory changes
only by these copies, so all bytes outside the slot of a send stay as they are. -/

namespace Ohmylib.Queue

open Monitor Cyclic

variable {nmemb size r : ℕ} {v : Shared} {a : List Msg}

/-- The read pointer is slot `r`, the write pointer is the slot `avail` further on. -/
structure Ring (nmemb size r : ℕ) (q : QueueS) : Prop where
  slot_lt : r < nmemb
  read_eq : q.pRead = q.pHead + r * size
  write_eq : q.pWrite = q.pHead + (r + q.avail) % nmemb * size
  avail_le : q.avail ≤ nmemb

theorem Stored.ring (h : Stored nmemb size r a v) : Ring nmemb size r v.q where
  slot_lt := h.read_lt
  read_eq := h.read_eq
  write_eq := h.avail_eq ▸ h.write_eq
  avail_le := h.avail_eq ▸ h.length_le

/-- A pointer has moved and the counter has not yet. -/
def Point.Moving : Point → Prop
  | .send _ _ .incAvail => True
  | .recv _ (.decAvail _) => True
  | _ => False

theorem fifoPre_ringed {l : Point} {W : Cond → Prop} (h : fifoPre nmemb size l v a W)
    (hm : ¬ l.Moving) : Ringed nmemb size a v := by
  unfold fifoPre at h
  split at h
  · exact h.1
  · exact h.1
  · exact absurd trivial hm
  · exact h.1
  · exact h.1
  · exact absurd trivial hm
  · exact h

variable {T : Type*} {s : State T Shared Point}

/-- Thread `t` is about to copy its message to slot `i`, which is a whole slot of the
ring and none of the pending ones. -/
structure Fills (nmemb size i : ℕ) (s : State T Shared Point) (t : T) : Prop where
  copying : ∃ p timeout, s.status t = .ready (.send p timeout .memcpy)
  whole : WholeSlot nmemb size i s.shared.q s.shared.q.pWrite s.shared.q.size
  free : ∃ r, Ring nmemb size r s.shared.q ∧ ∀ k < s.shared.q.avail, (r + k) % nmemb ≠ i

theorem holds_ringed (h : (linearization nmemb size).Holds s a)
    (hm : ∀ t l, s.status t = .ready l → ¬ l.Moving) : Ringed nmemb size a s.shared := by
  cases ho : s.owner with
  | none => exact h.free ho
  | some t =>
    obtain ⟨l, hl⟩ := h.disciplined.owner_ready ho
    exact fifoPre_ringed (h.owned ho hl) (hm t l hl)

/-- The slot behind the pending ones is not pending, because there is room. -/
theorem holds_fills (h : (linearization nmemb size).Holds s a) {t : T} {p : ℕ → UInt8}
    {timeout : ℤ} (hl : s.status t = .ready (.send p timeout .memcpy)) :
    ∃ i, Fills nmemb size i s t := by
  obtain ⟨⟨r, hr⟩, hroom⟩ := h.owned (h.disciplined.guarded hl trivial) hl
  have hlt : (r + a.length) % nmemb < nmemb := Nat.mod_lt _ (by omega)
  refine ⟨(r + a.length) % nmemb, ⟨p, timeout, hl⟩, ?_, r, hr.ring, fun k hk he => ?_⟩
  · exact wholeSlot_of_lt hlt hr.write_eq hr.size_eq
  · rw [hr.avail_eq] at hk
    have hka : k = a.length := slot_injective (by omega) hroom he
    omega

variable [DecidableEq T]

/-- A step that changes a byte is the copy of a send, and the byte is in its target. -/
theorem step_mem {s' : State T Shared Point} {t : T} {m : Move Call} {e : Option Event} {x : ℕ}
    (h : step api s t m = some (s', e)) (hx : s'.shared.mem x ≠ s.shared.mem x) :
    m = .run ∧ (∃ p timeout, s.status t = .ready (.send p timeout .memcpy)) ∧
      s.shared.q.pWrite ≤ x ∧ x < s.shared.q.pWrite + s.shared.q.size := by
  cases step_effect h with
  | access hl hc =>
    have ha := access_effect hc s.shared
    dsimp only at hx
    generalize Prod.fst _ = v at ha hx
    cases ha with
    | memcpy =>
      refine ⟨rfl, ⟨_, _, hl⟩, ?_⟩
      by_contra hout
      exact hx (memcpy_outside _ _ hout)
    | _ => exact absurd rfl hx
  | _ => exact absurd rfl hx

/-- Address `x` is one of the bytes of slot `i`. -/
def InSlot (size i : ℕ) (q : QueueS) (x : ℕ) : Prop :=
  q.pHead + i * size ≤ x ∧ x < q.pHead + i * size + size

/-- The ring of `nmemb` slots of `size` bytes in a state of a run, and behind it. -/
structure RingSafe (nmemb size : ℕ) (s : State T Shared Point) : Prop where
  /-- Both pointers are slots, `avail` apart. -/
  ring : (∀ t l, s.status t = .ready l → ¬ l.Moving) → ∃ r, Ring nmemb size r s.shared.q
  /-- Every `memcpy` reads or writes one whole slot inside the block. -/
  copies : ∀ t l b n, s.status t = .ready l → l.copies s.shared.q = some (b, n) →
    ∃ i, WholeSlot nmemb size i s.shared.q b n
  /-- The slot a send writes is none of the pending ones. -/
  sends : ∀ t p timeout, s.status t = .ready (.send p timeout .memcpy) →
    ∃ i, Fills nmemb size i s t
  /-- A byte that a further run changes lies in a slot that a send filled in that run. -/
  frame : ∀ moves s' tr x, (∀ y ∈ moves, locking.Allows y.2) →
    exec api s moves = some (s', tr) → s'.shared.mem x ≠ s.shared.mem x →
    ∃ before t after s₁ tr₁ i, moves = before ++ (t, .run) :: after ∧
      exec api s before = some (s₁, tr₁) ∧ Fills nmemb size i s₁ t ∧ InSlot size i s₁.shared.q x

theorem holds_ringSafe (h : (linearization nmemb size).Holds s a) : RingSafe nmemb size s where
  ring hm :=
    let ⟨r, hr⟩ := holds_ringed h hm
    ⟨r, hr.ring⟩
  copies _ _ _ _ hl hc := holds_copies h hl hc
  sends _ _ _ hl := holds_fills h hl
  frame moves s' tr x hcalls hrun hx := by
    obtain ⟨before, t, m, after, s₁, tr₁, s₂, e, rfl, hb, hs, hx₁⟩ :=
      exec_changes (fun s => s.shared.mem x) hrun hx
    obtain ⟨rfl, ⟨p, timeout, hl⟩, hle, hlt⟩ := step_mem hs hx₁
    obtain ⟨b, -, h₁⟩ := h.exec (fun y hy => hcalls y (List.mem_append_left _ hy)) hb
    obtain ⟨i, hi⟩ := holds_fills h₁ hl
    rw [hi.whole.address_eq] at hle hlt
    rw [hi.whole.length_eq] at hlt
    exact ⟨before, t, after, s₁, tr₁, i, rfl, hb, hi, hle, hlt⟩

/-- A queue of `queue_create` is a ring in its allocated bytes throughout every run of
sends, receives and observers, of any number of threads. -/
theorem ring_geometry (calloc : ℕ → Option ℕ) (handle : Bool) {nmemb size : ℕ} {q : QueueS}
    (hn : 1 ≤ nmemb) (hs : 1 ≤ size) (hn' : nmemb < 2 ^ 32) (hs' : size < 2 ^ 32)
    (ht : (nmemb - 1) * size < 2 ^ 32) (hq : queueCreate calloc handle nmemb size = .ok q)
    (mem : Mem) {moves : List (T × Move Call)} {s : State T Shared Point}
    {tr : List (T × Event)} (hcalls : ∀ x ∈ moves, locking.Allows x.2)
    (hrun : exec api (.initial ⟨q, mem⟩) moves = some (s, tr)) :
    calloc (nmemb * size) = some q.pHead ∧ s.shared.q.pHead = q.pHead ∧ RingSafe nmemb size s := by
  obtain ⟨-, -, hp, hsetup⟩ := queueCreate_ok hq
  rw [u64_of_lt (mul_lt_of_narrow hn' hs')] at hp
  have hfresh : Fresh nmemb size q := queueSetup_fresh hn hn' hs' ht hsetup
  obtain ⟨b, -, h⟩ := hfresh.holds hn hn' hs hcalls hrun
  exact ⟨hp, exec_shared (fun v => v.q.pHead) access_head hrun, holds_ringSafe h⟩

/-- Two messages sent to a ring of two slots of four bytes; the second is still being
copied. -/
theorem ring_geometry_two : ∃ (s : State ℕ Shared Point) (tr : List (ℕ × Event)),
    exec api (.initial ⟨⟨false, 2, 4, 0, 0, 4, 0, 0⟩, fun _ => 0⟩)
      ((0, .call (.send (fun _ => 7) 0)) :: List.replicate 8 (0, .run) ++
        (0, .call (.send (fun _ => 8) 0)) :: List.replicate 2 (0, .run)) = some (s, tr) ∧
    s.shared.q.pHead = 0 ∧ RingSafe 2 4 s := by
  obtain ⟨⟨s, tr⟩, hrun⟩ : ∃ r, exec (T := ℕ) api
      (.initial ⟨⟨false, 2, 4, 0, 0, 4, 0, 0⟩, fun _ => 0⟩)
      ((0, .call (.send (fun _ => 7) 0)) :: List.replicate 8 (0, .run) ++
        (0, .call (.send (fun _ => 8) 0)) :: List.replicate 2 (0, .run)) = some r :=
    Option.isSome_iff_exists.mp rfl
  refine ⟨s, tr, hrun, (ring_geometry (fun _ => some 0) true (by decide) (by decide) (by decide)
    (by decide) (by decide) rfl (fun _ => 0) (allows_of_notMem (by simp)) hrun).2⟩

end Ohmylib.Queue
