import Ohmylib.Queue.Threads
import Ohmylib.Monitor.Discipline

/-! Which control points of the queue functions lie inside a critical section, and
that every function but `queue_empty_wait` respects its mutex. A run keeps the
lock discipline in all its states exactly when it never calls `queue_empty_wait`,
whose first statement already reads the handle without the mutex. -/

namespace Ohmylib.Queue

open Monitor

def SendStage.inside : SendStage → Bool
  | .lock | .retFull | .ret => false
  | _ => true

def RecvStage.inside : RecvStage → Bool
  | .lock | .retEmpty | .ret _ => false
  | _ => true

def ReadStage.inside : ReadStage → Bool
  | .lock | .ret _ => false
  | _ => true

def EmptyWaitStage.inside : EmptyWaitStage → Bool
  | .loop _ | .unlock => true
  | _ => false

/-- The control points up to and including the `pthread_mutex_unlock` of a call. -/
def Point.inside : Point → Bool
  | .send _ _ stage => stage.inside
  | .recv _ stage => stage.inside
  | .isEmpty stage | .isFull stage | .spaceAvailable stage => stage.inside
  | .emptyWait _ stage => stage.inside

/-- The calls that take the mutex. -/
def Call.Locks : Call → Prop
  | .emptyWait _ => False
  | _ => True

/-- The control points of the calls that take the mutex. -/
def Point.Locks : Point → Prop
  | .emptyWait _ _ => False
  | _ => True

/-- The wait loop stays inside its critical section. -/
theorem timedWaitLoop_closed {pred : QueueS → Bool} {c : Cond} (loop : LoopStage → Point)
    (done : Point) (hloop : ∀ w, (loop w).Locks ∧ (loop w).inside = true)
    (hdone : done.Locks ∧ done.inside = true) (w : LoopStage) :
    Closed Point.Locks (fun l => l.inside = true) (loop w) (timedWaitLoop pred c loop done w) := by
  cases w with
  | test zero =>
    refine ⟨(hloop _).2, fun v => ?_⟩
    dsimp only [readQueue]
    split_ifs
    · exact hloop _
    · exact hdone
  | timedwait => exact ⟨(hloop _).2, fun _ => hloop _⟩

private theorem send_closed (p : ℕ → UInt8) (timeout : ℤ) (stage : SendStage) :
    Closed Point.Locks (fun l => l.inside = true) (.send p timeout stage)
      (queueSend p timeout stage) := by
  cases stage with
  | test | result =>
    refine ⟨rfl, fun s => ?_⟩
    dsimp only [readQueue, queueSend]
    split_ifs <;> exact ⟨trivial, rfl⟩
  | loop w =>
    exact timedWaitLoop_closed (fun w => .send p timeout (.loop w)) (.send p timeout .result)
      (fun _ => ⟨trivial, rfl⟩) ⟨trivial, rfl⟩ w
  | _ => simp [queueSend, Closed, Point.inside, SendStage.inside, Point.Locks]

private theorem recv_closed (timeout : ℤ) (stage : RecvStage) :
    Closed Point.Locks (fun l => l.inside = true) (.recv timeout stage)
      (queueRecv timeout stage) := by
  cases stage with
  | test | result =>
    refine ⟨rfl, fun s => ?_⟩
    dsimp only [readQueue, queueRecv]
    split_ifs <;> exact ⟨trivial, rfl⟩
  | loop w =>
    exact timedWaitLoop_closed (fun w => .recv timeout (.loop w)) (.recv timeout .result)
      (fun _ => ⟨trivial, rfl⟩) ⟨trivial, rfl⟩ w
  | _ => simp [queueRecv, Closed, Point.inside, RecvStage.inside, Point.Locks]

private theorem observe_closed (c : Call) (value : QueueS → ℤ) (point : ReadStage → Point)
    (hp : ∀ stage, (point stage).Locks ∧ (point stage).inside = stage.inside) (stage : ReadStage) :
    Closed Point.Locks (fun l => l.inside = true) (point stage) (observe c value point stage) := by
  cases stage <;> simp [observe, readQueue, Closed, hp, ReadStage.inside]

/-- The critical sections of the calls that take the mutex. -/
def locking : Annotation api where
  calls := Call.Locks
  covered := Point.Locks
  held l := l.inside = true
  entry c hc := by
    cases c with
    | emptyWait timeout => exact hc.elim
    | _ => exact ⟨trivial, by simp [api, entry, Point.inside, SendStage.inside, RecvStage.inside,
        ReadStage.inside]⟩
  closed l hl := by
    cases l with
    | send p timeout stage => exact send_closed p timeout stage
    | recv timeout stage => exact recv_closed timeout stage
    | isEmpty stage => exact observe_closed _ _ .isEmpty (fun _ => ⟨trivial, rfl⟩) stage
    | isFull stage => exact observe_closed _ _ .isFull (fun _ => ⟨trivial, rfl⟩) stage
    | spaceAvailable stage =>
      exact observe_closed _ _ .spaceAvailable (fun _ => ⟨trivial, rfl⟩) stage
    | emptyWait timeout stage => exact hl.elim

variable {T : Type*}

/-- The lock discipline in one state: whoever is about to unlock, to enter a timed
wait, or to access the handle or the buffer owns the mutex, at most one thread is
inside a critical section, and a thread outside every call does not own the mutex. -/
structure LockDiscipline (s : State T Shared Point) : Prop where
  guarded : ∀ {t l}, s.status t = .ready l → (api.code l).Guarded → s.owner = some t
  exclusive : ∀ {t u l k}, s.status t = .ready l → l.inside = true → s.status u = .ready k →
    k.inside = true → t = u
  returned : ∀ {t}, s.status t = .idle → s.owner ≠ some t

theorem LockDiscipline.of_disciplined {s : State T Shared Point} (h : locking.Disciplined s) :
    LockDiscipline s where
  guarded hl hg := h.guarded hl hg
  exclusive {t u l k} ht hl hu hk := by
    have ho : s.owner = some t := h.owns ht hl
    have ho' : s.owner = some u := h.owns hu hk
    exact Option.some.inj (ho.symm.trans ho')
  returned ht := h.idle ht

/-- Moves without a call of `queue_empty_wait` are allowed. -/
theorem allows_of_notMem {moves : List (T × Move Call)}
    (h : ∀ t timeout, (t, .call (.emptyWait timeout)) ∉ moves) :
    ∀ x ∈ moves, locking.Allows x.2 := by
  rintro ⟨t, m⟩ hx
  cases m with
  | call c =>
    cases c with
    | emptyWait timeout => exact h t timeout hx
    | _ => trivial
  | _ => trivial

variable [DecidableEq T]

/-- Every state a run passes through. -/
def Throughout (v : Shared) (moves : List (T × Move Call)) (p : State T Shared Point → Prop) :
    Prop :=
  ∀ a b s tr, moves = a ++ b → exec api (.initial v) a = some (s, tr) → p s

/-- The call of `queue_empty_wait` breaks the discipline: the caller did not own the
mutex before and is now about to read the handle. -/
theorem emptyWait_breaks {s s' : State T Shared Point} {t : T} {timeout : ℤ} {e : Option Event}
    (h : LockDiscipline s) (hs : step api s t (.call (.emptyWait timeout)) = some (s', e)) :
    ¬ LockDiscipline s' := by
  cases step_effect hs with
  | call _ hl =>
    intro h'
    have hl' : (s.goto t (.ready (api.entry (.emptyWait timeout)))).status t =
        .ready (api.entry (.emptyWait timeout)) := by simp [State.goto]
    exact h.returned hl (h'.guarded hl' trivial)

/-- A run keeps the lock discipline exactly when it never calls `queue_empty_wait`. -/
theorem lock_discipline_iff {v : Shared} {moves : List (T × Move Call)}
    {s : State T Shared Point} {tr : List (T × Event)}
    (hrun : exec api (.initial v) moves = some (s, tr)) :
    Throughout v moves LockDiscipline ↔ ∀ t timeout, (t, .call (.emptyWait timeout)) ∉ moves := by
  constructor
  · intro h t timeout hmem
    obtain ⟨a, b, rfl⟩ := List.append_of_mem hmem
    obtain ⟨s₀, tr₀, tr₁, ha, hb⟩ := exec_split hrun
    obtain ⟨s₁, e, tr₂, hs, -, -⟩ := exec_cons api hb
    have h₀ : LockDiscipline s₀ := h a _ s₀ tr₀ rfl ha
    have h₁ : LockDiscipline s₁ := h _ b s₁ _ (by simp) (exec_trans ha (exec_one hs))
    exact emptyWait_breaks h₀ hs h₁
  · intro h a b s' tr' hab ha
    refine .of_disciplined ((locking.disciplined_initial v).exec (allows_of_notMem ?_) ha)
    exact fun t timeout hx => h t timeout (hab ▸ List.mem_append_left b hx)

/-- Thread 1 sleeps in its receive until thread 0 has sent, while thread 2 sends as well and looks
whether the queue is full. -/
theorem lock_discipline_send : ∃ moves : List (ℕ × Move Call),
    moves = List.flatten [turn 1 (.recv 5) 4, turn 0 (.send (fun _ => 7) 0) 6,
      turn 2 (.send (fun _ => 8) 0) 0, List.replicate 2 (0, .run), List.replicate 4 (2, .run),
      [(2, .wake false)], List.replicate 9 (1, .run), List.replicate 9 (2, .run),
      turn 2 .isFull 4] ∧
    ∃ s tr, exec api (.initial ⟨⟨false, 1, 1, 0, 0, 0, 0, 0⟩, fun _ => 0⟩) moves = some (s, tr) ∧
      s.shared.q.avail = 1 ∧
      Throughout ⟨⟨false, 1, 1, 0, 0, 0, 0, 0⟩, fun _ => 0⟩ moves LockDiscipline := by
  refine ⟨_, rfl, (exists_exec (p := fun s => s.shared.q.avail = 1) ?_).imp fun s =>
    Exists.imp fun tr ⟨hrun, hone⟩ => ⟨hrun, hone, (lock_discipline_iff hrun).mpr ?_⟩⟩
  · decide +kernel
  · simp [turn]

/-- Thread 0 takes the mutex to send, thread 1 waits for an empty queue and unlocks
the mutex of thread 0, so that thread 2 enters a critical section next to thread 0. -/
theorem lock_discipline_fails : ∃ q, Created 1 1 q ∧ ∃ (moves : List (ℕ × Move Call))
    (s : State ℕ Shared Point) (tr : List (ℕ × Event)),
    exec api (.initial ⟨q, fun _ => 0⟩) moves = some (s, tr) ∧ ¬ LockDiscipline s := by
  refine ⟨⟨false, 1, 1, 0, 0, 0, 0, 0⟩, .inl ⟨fun _ => some 0, rfl⟩,
    [(0, .call (.send (fun _ => 7) 0)), (0, .run), (1, .call (.emptyWait 0)), (1, .run),
     (1, .run), (2, .call (.recv 0)), (2, .run)], _, _, rfl, fun h => ?_⟩
  have h02 : 0 = 2 := h.exclusive (l := .send (fun _ => 7) 0 .test) (k := .recv 0 .test)
    rfl rfl rfl rfl
  exact absurd h02 (by decide)

end Ohmylib.Queue
