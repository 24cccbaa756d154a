import Ohmylib.Queue.Statements

/-! No lost wakeup between senders and receivers. While the mutex is free, a thread
sleeps on `cond_write` only if the queue is full and on `cond_read` only if it is
empty. Inside a critical section this may fail between the change of `avail` and
the broadcast that follows it. The initial queue is arbitrary. -/

namespace Ohmylib.Queue

open Monitor

/-- A nonempty wait set has its reason. -/
def NoLostWakeup : Assertion Shared Cond Unit := fun v _ W =>
  (W .write → v.q.avail = v.q.nmemb) ∧ (W .read → v.q.avail = 0)

/-- The assertions inside the critical sections of the senders and receivers. -/
def wakeupPre : Point → Assertion Shared Cond Unit
  | .send _ _ (.loop .timedwait) => fun v a W => NoLostWakeup v a W ∧ v.q.avail = v.q.nmemb
  | .send _ _ .memcpy | .send _ _ .advance | .send _ _ .incAvail =>
      fun v a W => NoLostWakeup v a W ∧ v.q.avail ≠ v.q.nmemb
  | .send _ _ .broadcast => fun _ _ W => ¬ W .write
  | .recv _ (.loop .timedwait) => fun v a W => NoLostWakeup v a W ∧ v.q.avail = 0
  | .recv _ .memcpy | .recv _ (.advance _) | .recv _ (.decAvail _) =>
      fun v a W => NoLostWakeup v a W ∧ v.q.avail ≠ 0
  | .recv _ (.broadcast _) => fun _ _ W => ¬ W .read
  | _ => NoLostWakeup

private theorem noLostWakeup_anti {v : Shared} {a : Unit} {W W' : Cond → Prop}
    (hW : ∀ d, W' d → W d) (h : NoLostWakeup v a W) : NoLostWakeup v a W' :=
  ⟨fun hw => h.1 (hW _ hw), fun hw => h.2 (hW _ hw)⟩

private theorem wakeupPre_anti {l : Point} {v : Shared} {a : Unit} {W W' : Cond → Prop}
    (hW : ∀ d, W' d → W d) (h : wakeupPre l v a W) : wakeupPre l v a W' := by
  unfold wakeupPre at h ⊢
  split <;> simp only at h
  all_goals first
    | exact ⟨noLostWakeup_anti hW h.1, h.2⟩
    | exact fun hw => h (hW _ hw)
    | simp_all only [noLostWakeup_anti hW h]

abbrev acceptAll : Unit → Event → Option Unit := fun _ _ => some ()

theorem accept_acceptAll (a : Unit) (e : Option Event) :
    accept acceptAll a e = some () := by
  cases e <;> rfl

theorem acceptAll_invoke (c : Call) (a : Unit) : acceptAll a (api.invoke c) = some a := rfl

private theorem send_wakeup (p : ℕ → UInt8) (timeout : ℤ) (stage : SendStage) :
    Sound acceptAll NoLostWakeup wakeupPre (.send p timeout stage) (queueSend p timeout stage) := by
  cases stage with
  | test =>
    intro v a W h
    refine ⟨(), rfl, ?_⟩
    by_cases hf : queueIsFullLocked v.q = true
    · simpa [readQueue, hf, wakeupPre] using h
    · have hne : v.q.avail ≠ v.q.nmemb := by simpa using hf
      simpa [readQueue, hne, wakeupPre] using h
  | loop w =>
    refine timedWaitLoop_sound (fun w => .send p timeout (.loop w)) (.send p timeout .result)
      ?_ ?_ ?_ ?_ w
    · exact fun zero => rfl
    · rfl
    · exact fun v a W h hf => ⟨h, by simpa using hf⟩
    · intro v a W h
      exact ⟨h.1, fun _ => h.2, fun hw => h.1.2 (by simpa using hw)⟩
  | result =>
    intro v a W h
    refine ⟨(), accept_acceptAll a _, ?_⟩
    by_cases hf : queueIsFullLocked v.q = true
    · have he : v.q.avail = v.q.nmemb := by simpa using hf
      simpa [readQueue, he, wakeupPre] using h
    · have hne : v.q.avail ≠ v.q.nmemb := by simpa using hf
      simpa [readQueue, hne, wakeupPre] using h
  | lock | unlockFull | unlock => exact fun v a W h => h
  | retFull | ret => exact fun a => rfl
  | memcpy | advance => exact fun v a W h => ⟨(), rfl, h⟩
  | incAvail => exact fun v a W h => ⟨(), rfl, fun hw => h.2 (h.1.1 hw)⟩
  | broadcast => exact fun v a W h => ⟨fun hw => absurd hw.2 h, fun hw => absurd rfl hw.1⟩

private theorem recv_wakeup (timeout : ℤ) (stage : RecvStage) :
    Sound acceptAll NoLostWakeup wakeupPre (.recv timeout stage) (queueRecv timeout stage) := by
  cases stage with
  | test =>
    intro v a W h
    refine ⟨(), rfl, ?_⟩
    by_cases he : queueIsEmptyLocked v.q = true
    · simpa [readQueue, he, wakeupPre] using h
    · have hne : v.q.avail ≠ 0 := by simpa using he
      simpa [readQueue, hne, wakeupPre] using h
  | loop w =>
    refine timedWaitLoop_sound (fun w => .recv timeout (.loop w)) (.recv timeout .result)
      ?_ ?_ ?_ ?_ w
    · exact fun zero => rfl
    · rfl
    · exact fun v a W h he => ⟨h, by simpa using he⟩
    · intro v a W h
      exact ⟨h.1, fun hw => h.1.1 (by simpa using hw), fun _ => h.2⟩
  | result =>
    intro v a W h
    refine ⟨(), accept_acceptAll a _, ?_⟩
    by_cases he : queueIsEmptyLocked v.q = true
    · have he' : v.q.avail = 0 := by simpa using he
      simpa [readQueue, he', wakeupPre] using h
    · have hne : v.q.avail ≠ 0 := by simpa using he
      simpa [readQueue, hne, wakeupPre] using h
  | lock | unlockEmpty | unlock => exact fun v a W h => h
  | retEmpty | ret => exact fun a => rfl
  | memcpy | advance => exact fun v a W h => ⟨(), rfl, h⟩
  | decAvail => exact fun v a W h => ⟨(), rfl, fun hw => h.2 (h.1.2 hw)⟩
  | broadcastEmpty =>
    intro v a W h
    show NoLostWakeup v a fun d => d ≠ Cond.empty ∧ W d
    exact noLostWakeup_anti (fun _ hw => hw.2) h
  | broadcast => exact fun v a W h => ⟨fun hw => absurd rfl hw.1, fun hw => absurd hw.2 h⟩

/-- The observers keep every invariant. -/
theorem observe_acceptAll {inv : Assertion Shared Cond Unit}
    {pre : Point → Assertion Shared Cond Unit} (c : Call) (value : QueueS → ℤ)
    (point : ReadStage → Point) (hp : ∀ stage, pre (point stage) = inv) (stage : ReadStage) :
    Sound acceptAll inv pre (point stage) (observe c value point stage) :=
  observe_sound c value point hp (fun _ _ _ _ => rfl) (fun _ _ => rfl) stage

/-- The proof outline of the wakeups. -/
def wakeups : Outline locking Unit where
  spec := acceptAll
  inv := NoLostWakeup
  pre := wakeupPre
  invoke := acceptAll_invoke
  inv_anti := noLostWakeup_anti
  pre_anti := wakeupPre_anti
  sound l hl := by
    cases l with
    | send p timeout stage => exact send_wakeup p timeout stage
    | recv timeout stage => exact recv_wakeup timeout stage
    | isEmpty stage => exact observe_acceptAll _ _ .isEmpty (fun _ => rfl) stage
    | isFull stage => exact observe_acceptAll _ _ .isFull (fun _ => rfl) stage
    | spaceAvailable stage => exact observe_acceptAll _ _ .spaceAvailable (fun _ => rfl) stage
    | emptyWait timeout stage => exact hl.elim

variable {T : Type*} [DecidableEq T]

/-- In every reachable state with a free mutex, a sleeping sender means a full
queue and a sleeping receiver means an empty one. -/
theorem no_lost_wakeup {v : Shared} {moves : List (T × Move Call)} {s : State T Shared Point}
    {tr : List (T × Event)} (hcalls : ∀ x ∈ moves, locking.Allows x.2)
    (hrun : exec api (.initial v) moves = some (s, tr)) (hfree : s.owner = none) :
    (Waits api s .write → s.shared.q.avail = s.shared.q.nmemb) ∧
      (Waits api s .read → s.shared.q.avail = 0) := by
  have hinit : wakeups.Holds (.initial (T := T) v) () :=
    Outline.holds_initial ⟨fun h => h.elim, fun h => h.elim⟩
  obtain ⟨_, -, h⟩ := hinit.exec hcalls hrun
  exact h.free hfree

/-- Thread 0 fills a queue of one message, then thread 1 sleeps in its send. -/
theorem no_lost_wakeup_sender : ∃ (s : State ℕ Shared Point) (tr : List (ℕ × Event)),
    exec api (.initial ⟨⟨false, 1, 1, 0, 0, 0, 0, 0⟩, fun _ => 0⟩)
      ((0, .call (.send (fun _ => 7) 0)) :: List.replicate 8 (0, .run) ++
        (1, .call (.send (fun _ => 8) 0)) :: List.replicate 4 (1, .run)) = some (s, tr) ∧
    Waits api s .write ∧ s.shared.q.avail = s.shared.q.nmemb := by
  obtain ⟨⟨s, tr⟩, hrun, hfree, hwait⟩ : ∃ r, exec (T := ℕ) api
      (.initial ⟨⟨false, 1, 1, 0, 0, 0, 0, 0⟩, fun _ => 0⟩)
      ((0, .call (.send (fun _ => 7) 0)) :: List.replicate 8 (0, .run) ++
        (1, .call (.send (fun _ => 8) 0)) :: List.replicate 4 (1, .run)) = some r ∧
      r.1.owner = none ∧ r.1.status 1 = .waiting (.send (fun _ => 8) 0 (.loop .timedwait)) :=
    ⟨_, rfl, rfl, rfl⟩
  have hw : Waits api s .write := ⟨1, _, hwait, rfl⟩
  exact ⟨s, tr, hrun, hw, (no_lost_wakeup (allows_of_notMem (by simp)) hrun hfree).1 hw⟩

end Ohmylib.Queue
