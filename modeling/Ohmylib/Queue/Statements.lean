import Ohmylib.Queue.Discipline
import Ohmylib.Monitor.Outline

/-! What the statements of the queue functions do to the shared state, said once, and
the proof obligations of the parts that several functions have in common: the wait
loop and the observers. -/

namespace Ohmylib.Queue

open Monitor

/-- The accesses: a statement reads only, or it is one of five that write. -/
inductive Access : Point → Shared → Shared → Prop
  | read {l : Point} {v : Shared} : Access l v v
  | memcpy {p : ℕ → UInt8} {timeout : ℤ} {v : Shared} : Access (.send p timeout .memcpy) v
      { v with mem := Ohmylib.memcpy v.mem v.q.pWrite p v.q.size }
  | advanceWrite {p : ℕ → UInt8} {timeout : ℤ} {v : Shared} :
      Access (.send p timeout .advance) v { v with q := v.q.advanceWrite }
  | incAvail {p : ℕ → UInt8} {timeout : ℤ} {v : Shared} :
      Access (.send p timeout .incAvail) v { v with q := v.q.incAvail }
  | advanceRead {timeout : ℤ} {m : Msg} {v : Shared} :
      Access (.recv timeout (.advance m)) v { v with q := v.q.advanceRead }
  | decAvail {timeout : ℤ} {m : Msg} {v : Shared} :
      Access (.recv timeout (.decAvail m)) v { v with q := v.q.decAvail }

theorem access_effect {l : Point} {f : Shared → Shared × Point × Option Event}
    (h : api.code l = .access f) (v : Shared) : Access l v (f v).1 := by
  cases l with
  | send p timeout stage =>
    cases stage with
    | memcpy => cases h; exact .memcpy
    | advance => cases h; exact .advanceWrite
    | incAvail => cases h; exact .incAvail
    | loop w => cases w <;> cases h; exact .read
    | _ => cases h <;> exact .read
  | recv timeout stage =>
    cases stage with
    | advance m => cases h; exact .advanceRead
    | decAvail m => cases h; exact .decAvail
    | loop w => cases w <;> cases h; exact .read
    | _ => cases h <;> exact .read
  | isEmpty stage | isFull stage | spaceAvailable stage => cases stage <;> cases h; exact .read
  | emptyWait timeout stage =>
    cases stage with
    | loop w => cases w <;> cases h; exact .read
    | _ => cases h <;> exact .read

/-- Only `queue_empty_wait` waits on `cond_empty`. -/
theorem wait_empty {l : Point} {next : Bool → Point} (h : api.code l = .wait .empty next) :
    ∃ timeout, l = .emptyWait timeout (.loop .timedwait) := by
  cases l with
  | emptyWait timeout stage =>
    cases stage with
    | loop w =>
      cases w with
      | test zero => cases h
      | timedwait => exact ⟨timeout, rfl⟩
    | _ => cases h
  | send p timeout stage | recv timeout stage =>
    cases stage with
    | loop w => cases w <;> cases h
    | _ => cases h
  | isEmpty stage | isFull stage | spaceAvailable stage => cases stage <;> cases h

section Obligations

variable {α : Type*} {spec : α → Event → Option α} {inv : Assertion Shared Cond α}
  {pre : Point → Assertion Shared Cond α}

/-- The wait loop keeps an invariant that survives the sleep of a thread. -/
theorem timedWaitLoop_sound {pred : QueueS → Bool} {c : Cond} (loop : LoopStage → Point)
    (done : Point) (htest : ∀ zero, pre (loop (.test zero)) = inv) (hdone : pre done = inv)
    (hwait : ∀ v a W, inv v a W → pred v.q = true → pre (loop .timedwait) v a W)
    (hsleep : ∀ v a W, pre (loop .timedwait) v a W → inv v a W ∧ inv v a fun d => d = c ∨ W d)
    (w : LoopStage) : Sound spec inv pre (loop w) (timedWaitLoop pred c loop done w) := by
  cases w with
  | test zero =>
    intro v a W h
    rw [htest] at h
    refine ⟨a, rfl, ?_⟩
    by_cases hp : (pred v.q && zero) = true
    · have hp' : pred v.q = true := (Bool.and_eq_true_iff.mp hp).1
      simpa [readQueue, hp] using hwait v a W h hp'
    · simpa [readQueue, hp, hdone] using h
  | timedwait =>
    refine ⟨fun v a W h => (hsleep v a W h).2, fun v a W h => ?_, fun zero v a W h => ?_⟩
    · rw [htest]
      exact (hsleep v a W h).1
    · rwa [htest]

/-- It keeps an invariant that does not look at the wait sets. -/
theorem timedWaitLoop_keeps {pred : QueueS → Bool} {c : Cond} (loop : LoopStage → Point)
    (done : Point) (hloop : ∀ w, pre (loop w) = inv) (hdone : pre done = inv)
    (hinv : ∀ v a W W', inv v a W → inv v a W') (w : LoopStage) :
    Sound spec inv pre (loop w) (timedWaitLoop pred c loop done w) := by
  refine timedWaitLoop_sound loop done (fun _ => hloop _) hdone (fun v a W h _ => ?_)
    (fun v a W h => ?_) w
  · rwa [hloop]
  · rw [hloop] at h
    exact ⟨h, hinv v a W _ h⟩

/-- An observer keeps every invariant under which its answer is accepted. -/
theorem observe_sound (c : Call) (value : QueueS → ℤ) (point : ReadStage → Point)
    (hp : ∀ stage, pre (point stage) = inv)
    (hcommit : ∀ v a W, inv v a W → spec a (.commit c { ret := value v.q }) = some a)
    (hret : ∀ a r, spec a (.ret c r) = some a) (stage : ReadStage) :
    Sound spec inv pre (point stage) (observe c value point stage) := by
  cases stage with
  | lock | unlock =>
    intro v a W h
    simpa only [hp] using h
  | read =>
    intro v a W h
    rw [hp] at h
    exact ⟨a, hcommit v a W h, by simpa only [readQueue, hp] using h⟩
  | ret r => exact fun a => hret a _

end Obligations

end Ohmylib.Queue
