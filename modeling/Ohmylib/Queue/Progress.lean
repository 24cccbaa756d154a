import Ohmylib.Queue.Linearizable
import Ohmylib.Monitor.Progress

/-! No call of the queue can hang for ever on the other calls. The wait loops end when
their wait does without success, and every other statement goes down in the function,
so from each state of each run every call can be brought to its return by its own moves
and those of the owner of the mutex. With this the bounded FIFO is not only an upper
bound: every sequence of calls on it is a run of the queue with the same answers. -/

namespace Ohmylib.Queue

open Monitor

/-! ### Ranks -/

def LoopStage.rank : LoopStage → ℕ
  | .test false => 0
  | .timedwait => 1
  | .test true => 2

def SendStage.rank : SendStage → ℕ
  | .ret | .retFull => 0
  | .unlock | .unlockFull => 1
  | .broadcast => 2
  | .incAvail => 3
  | .advance => 4
  | .memcpy => 5
  | .result => 6
  | .loop w => 7 + w.rank
  | .test => 10
  | .lock => 11

def RecvStage.rank : RecvStage → ℕ
  | .ret _ | .retEmpty => 0
  | .unlock _ | .unlockEmpty => 1
  | .broadcast _ | .broadcastEmpty => 2
  | .decAvail _ => 3
  | .advance _ => 4
  | .memcpy => 5
  | .result => 6
  | .loop w => 7 + w.rank
  | .test => 10
  | .lock => 11

def ReadStage.rank : ReadStage → ℕ
  | .ret _ => 0
  | .unlock _ => 1
  | .read => 2
  | .lock => 3

def Point.rank : Point → ℕ
  | .send _ _ stage => stage.rank
  | .recv _ stage => stage.rank
  | .isEmpty stage | .isFull stage | .spaceAvailable stage => stage.rank
  | .emptyWait _ _ => 0

theorem LoopStage.rank_le (w : LoopStage) : w.rank ≤ 2 := by
  cases w with
  | test zero => cases zero <;> simp [LoopStage.rank]
  | timedwait => simp [LoopStage.rank]

theorem Point.rank_le (l : Point) : l.rank ≤ 11 := by
  cases l with
  | send p timeout stage =>
    cases stage with
    | loop w =>
      have := w.rank_le
      simp only [Point.rank, SendStage.rank]
      omega
    | _ => simp [Point.rank, SendStage.rank]
  | recv timeout stage =>
    cases stage with
    | loop w =>
      have := w.rank_le
      simp only [Point.rank, RecvStage.rank]
      omega
    | _ => simp [Point.rank, RecvStage.rank]
  | isEmpty stage | isFull stage | spaceAvailable stage =>
    cases stage <;> simp [Point.rank, ReadStage.rank]
  | emptyWait timeout stage => simp [Point.rank]

/-- A wait that failed ends the loop at its next test. -/
theorem timedWaitLoop_descends {pred : QueueS → Bool} {c : Cond} (loop : LoopStage → Point)
    (done : Point) (hloop : ∀ w, (loop w).rank = 7 + w.rank) (hdone : done.rank < 7)
    (w : LoopStage) :
    Descends Point.rank (loop w).rank (timedWaitLoop pred c loop done w) := by
  cases w with
  | test zero =>
    intro v
    dsimp only [readQueue]
    cases zero with
    | false =>
      simp only [Bool.and_false, Bool.false_eq_true, ↓reduceIte, hloop, LoopStage.rank]
      exact hdone
    | true =>
      simp only [Bool.and_true]
      split_ifs
      · simp [hloop, LoopStage.rank]
      · rw [hloop]
        omega
  | timedwait =>
    show (loop (.test false)).rank < _
    simp [hloop, LoopStage.rank]

private theorem send_descends (p : ℕ → UInt8) (timeout : ℤ) (stage : SendStage) :
    Descends Point.rank (Point.rank (.send p timeout stage)) (queueSend p timeout stage) := by
  cases stage with
  | test | result =>
    intro v
    dsimp only [readQueue]
    split_ifs <;> simp [Point.rank, SendStage.rank, LoopStage.rank]
  | loop w =>
    exact timedWaitLoop_descends (fun w => .send p timeout (.loop w)) (.send p timeout .result)
      (fun _ => rfl) (by simp [Point.rank, SendStage.rank]) w
  | retFull | ret => trivial
  | _ => simp [queueSend, Descends, Point.rank, SendStage.rank]

private theorem recv_descends (timeout : ℤ) (stage : RecvStage) :
    Descends Point.rank (Point.rank (.recv timeout stage)) (queueRecv timeout stage) := by
  cases stage with
  | test | result =>
    intro v
    dsimp only [readQueue]
    split_ifs <;> simp [Point.rank, RecvStage.rank, LoopStage.rank]
  | loop w =>
    exact timedWaitLoop_descends (fun w => .recv timeout (.loop w)) (.recv timeout .result)
      (fun _ => rfl) (by simp [Point.rank, RecvStage.rank]) w
  | retEmpty | ret => trivial
  | _ => simp [queueRecv, Descends, Point.rank, RecvStage.rank]

private theorem observe_descends (c : Call) (value : QueueS → ℤ) (point : ReadStage → Point)
    (hp : ∀ stage, (point stage).rank = stage.rank) (stage : ReadStage) :
    Descends Point.rank (point stage).rank (observe c value point stage) := by
  cases stage <;> simp [observe, readQueue, Descends, hp, ReadStage.rank]

def ranking : Ranking locking where
  rank := Point.rank
  bound := 11
  le_bound := Point.rank_le
  descends l hl := by
    cases l with
    | send p timeout stage => exact send_descends p timeout stage
    | recv timeout stage => exact recv_descends timeout stage
    | isEmpty stage => exact observe_descends _ _ .isEmpty (fun _ => rfl) stage
    | isFull stage => exact observe_descends _ _ .isFull (fun _ => rfl) stage
    | spaceAvailable stage => exact observe_descends _ _ .spaceAvailable (fun _ => rfl) stage
    | emptyWait timeout stage => exact hl.elim

variable {T : Type*} [DecidableEq T]

/-- In every state of every run each thread can come out of its call: 28 moves of its own
and of the present owner of the mutex are enough, none of them a new call. -/
theorem calls_complete (q : QueueS) (mem : Mem) (moves : List (T × Move Call))
    (s : State T Shared Point) (tr : List (T × Event)) (hcalls : ∀ x ∈ moves, locking.Allows x.2)
    (hrun : exec api (.initial ⟨q, mem⟩) moves = some (s, tr)) (u : T) :
    ∃ more s' tr', (∀ x ∈ more, (x.1 = u ∨ s.owner = some x.1) ∧ ∀ c, x.2 ≠ .call c) ∧
      more.length ≤ 28 ∧ exec api s more = some (s', tr') ∧ s'.status u = .idle ∧
      s'.owner = none := by
  have hsl : Sleepers api (.initial (T := T) ⟨q, mem⟩) := fun t l h => by cases h
  have hd := (locking.disciplined_initial ⟨q, mem⟩).exec hcalls hrun
  exact ranking.completes hd (hsl.exec hrun) u

/-- Thread 1 waits for the mutex that thread 0 took to send. -/
theorem calls_complete_two : ∃ (s : State ℕ Shared Point) (tr : List (ℕ × Event)),
    exec api (.initial ⟨⟨false, 1, 1, 0, 0, 0, 0, 0⟩, fun _ => 0⟩)
      [(0, .call (.send (fun _ => 7) 0)), (0, .run), (1, .call (.recv 0))] = some (s, tr) ∧
    ∃ more s' tr', (∀ x ∈ more, (x.1 = 1 ∨ s.owner = some x.1) ∧ ∀ c, x.2 ≠ .call c) ∧
      more.length ≤ 28 ∧ exec api s more = some (s', tr') ∧ s'.status 1 = .idle ∧
      s'.owner = none := by
  exact ⟨_, _, rfl, calls_complete _ _ [(0, .call (.send (fun _ => 7) 0)), (0, .run),
    (1, .call (.recv 0))] _ _ (allows_of_notMem (by simp)) rfl 1⟩

/-! ### Sequential histories -/

/-- The events of calls made one after the other on the bounded FIFO. -/
def sequential (cap size : ℕ) (pending : List Msg) : List (T × Call) → List (T × Event)
  | [] => []
  | (t, c) :: calls =>
    let r := fifo cap size pending c
    (t, .invoke c) :: (t, .commit c r.1) :: (t, .ret c r.1) :: sequential cap size r.2 calls

theorem phase_ne_outside (l : Point) : l.phase ≠ .outside := by
  unfold Point.phase
  split <;> simp

/-- Only a call enters a function. -/
theorem step_not_invoke {s s' : State T Shared Point} {t : T} {m : Move Call} {e : Event}
    (h : step api s t m = some (s', some e)) (hm : ∀ c, m ≠ .call c) (c : Call) :
    e ≠ .invoke c := by
  rintro rfl
  have hout : histories.of (s.status t) = .outside := by
    have hs : CallStep _ _ _ := histories.step_self h
    generalize histories.of (s.status t) = a at hs
    generalize histories.of (s'.status t) = b at hs
    cases hs
    rfl
  cases hst : s.status t with
  | idle =>
    cases m with
    | call c => exact hm c rfl
    | _ => simp [step, hst] at h
  | ready l | waiting l | woken l =>
    rw [hst] at hout
    exact phase_ne_outside l hout

theorem inside_events {s s' : State T Shared Point} {t : T} {moves : List (T × Move Call)}
    {tr : List (T × Event)} (hi : Inside t moves) (h : exec api s moves = some (s', tr)) :
    ∀ x ∈ tr, x.1 = t ∧ ∀ c, x.2 ≠ .invoke c := by
  induction moves generalizing s tr with
  | nil =>
    cases h
    simp
  | cons x rest ih =>
    obtain ⟨u, m⟩ := x
    obtain ⟨s₁, e, tr', h₁, h₂, rfl⟩ := exec_cons api h
    obtain ⟨rfl, hm⟩ := hi _ List.mem_cons_self
    intro y hy
    rcases List.mem_append.mp hy with hy | hy
    · obtain ⟨e, he, rfl⟩ := List.mem_map.mp hy
      obtain rfl := Option.mem_toList.mp he
      exact ⟨rfl, step_not_invoke h₁ hm⟩
    · exact ih (fun z hz => hi z (List.mem_cons_of_mem _ hz)) h₂ y hy

omit [DecidableEq T] in
theorem eq_map_snd {t : T} {tr : List (T × Event)} (h : ∀ x ∈ tr, x.1 = t) :
    tr = (tr.map Prod.snd).map fun e => (t, e) := by
  induction tr with
  | nil => rfl
  | cons x tr ih =>
    have hx := h x List.mem_cons_self
    rw [List.map_cons, List.map_cons, ← ih fun y hy => h y (List.mem_cons_of_mem _ hy), ← hx]

/-- From the start of a call to outside, without another call, there is one commit and one
return. -/
theorem path_one_call {c : Call} {es : List Event} (h : Path CallStep (.called c) es .outside)
    (hn : ∀ e ∈ es, ∀ c, e ≠ .invoke c) : ∃ r, es = [.commit c r, .ret c r] := by
  cases h with
  | cons h₁ rest =>
    cases h₁ with
    | commit c r =>
      cases rest with
      | cons h₂ rest =>
        cases h₂ with
        | ret c r =>
          cases rest with
          | nil => exact ⟨r, rfl⟩
          | cons h₃ rest =>
            cases h₃ with
            | invoke c' => exact absurd rfl (hn (.invoke c') (by simp) c')

/-- What a sequence of calls needs and leaves behind. -/
structure Settled (cap size : ℕ) (s : State T Shared Point) (a : List Msg) : Prop where
  holds : (linearization cap size).Holds s a
  sleepers : Sleepers api s
  free : s.owner = none

/-- A thread outside every call makes one, and brings it to its end with its own moves. -/
theorem Settled.call {cap size : ℕ} {s : State T Shared Point} {a : List Msg}
    (h : Settled cap size s a) {t : T} (ht : s.status t = .idle) {c : Call} (hc : c.Locks) :
    ∃ moves s', (∀ x ∈ moves, locking.Allows x.2) ∧
      exec api s moves = some (s', sequential cap size a [(t, c)]) ∧
      Settled cap size s' (fifo cap size a c).2 ∧
      ∀ u, s'.status u = .idle ↔ s.status u = .idle := by
  have hallow : locking.Allows (.call c) := hc
  have hs : step api s t (.call c) =
      some (s.goto t (.ready (entry c)), some (.invoke c)) := by
    simp only [step, ht]
    rfl
  obtain ⟨moves, s', tr, hi, -, hx, hidle, hfree⟩ :=
    ranking.complete (h.holds.disciplined.step hallow hs) (h.sleepers.step hs) t (.inl h.free)
  have hall : ∀ x ∈ (t, .call c) :: moves, locking.Allows x.2 :=
    List.forall_mem_cons.mpr ⟨hallow, hi.allows⟩
  have hrun := exec_next hs hx
  -- the thread commits once and returns what it committed
  have hev := inside_events hi hx
  have hpath := histories.exec_path hx t
  have hstart : histories.of ((s.goto t (.ready (entry c))).status t) = .called c := by
    cases c <;> simp [State.goto] <;> rfl
  have hsame : ofThread t tr = tr.map Prod.snd := by
    rw [ofThread, List.filter_eq_self.mpr fun x hx => by simpa using (hev x hx).1]
  rw [hstart, hidle, hsame] at hpath
  obtain ⟨r, hr⟩ := path_one_call hpath fun e he => by
    obtain ⟨x, hx, rfl⟩ := List.mem_map.mp he
    exact (hev x hx).2
  have htr : tr = [(t, .commit c r), (t, .ret c r)] := by
    rw [eq_map_snd fun x hx => (hev x hx).1, hr]
    rfl
  subst htr
  -- and the abstract queue says what that is
  obtain ⟨b, hb, hold⟩ := h.holds.exec hall hrun
  have hb : (fifo cap size a c).1 = r ∧ (fifo cap size a c).2 = b := by
    simpa [linearization, fifoStep] using hb
  obtain ⟨rfl, rfl⟩ := hb
  refine ⟨_, s', hall, hrun, ⟨hold, (h.sleepers.step hs).exec hx, hfree⟩, fun u => ?_⟩
  by_cases hu : u = t
  · subst hu
    exact iff_of_true hidle ht
  · rw [inside_idle hu hi hx, step_idle hu hs]

/-- Any calls, made one after the other from threads outside every call. -/
theorem Settled.calls {cap size : ℕ} {calls : List (T × Call)}
    (hc : ∀ x ∈ calls, x.2.Locks) : ∀ {s : State T Shared Point} {a : List Msg},
    Settled cap size s a → (∀ x ∈ calls, s.status x.1 = .idle) →
    ∃ moves s', (∀ x ∈ moves, locking.Allows x.2) ∧
      exec api s moves = some (s', sequential cap size a calls) ∧
      ∀ u, s'.status u = .idle ↔ s.status u = .idle := by
  induction calls with
  | nil => exact fun {s a} _ _ => ⟨[], s, by simp, rfl, fun _ => Iff.rfl⟩
  | cons x calls ih =>
    intro s a h hidle
    obtain ⟨t, c⟩ := x
    obtain ⟨ht, hrest⟩ := List.forall_mem_cons.mp hidle
    obtain ⟨hct, hcrest⟩ := List.forall_mem_cons.mp hc
    obtain ⟨m₁, s₁, hm₁, hx₁, h₁, hsame₁⟩ := h.call ht hct
    obtain ⟨m₂, s₂, hm₂, hx₂, hsame₂⟩ :=
      ih hcrest h₁ fun y hy => (hsame₁ y.1).mpr (hrest y hy)
    refine ⟨m₁ ++ m₂, s₂, fun y hy => ?_, exec_trans hx₁ hx₂,
      fun u => (hsame₂ u).trans (hsame₁ u)⟩
    exact (List.mem_append.mp hy).elim (hm₁ y) (hm₂ y)

/-- Every sequence of calls on the bounded FIFO is a run of the queue: from any state that a
run has reached with a free mutex, threads outside every call can make the calls in this
order, and each gets the answer of the abstract queue. -/
theorem fifo_realized {nmemb size : ℕ} (hn : 1 ≤ nmemb) (hs : 1 ≤ size)
    (hn' : nmemb < 2 ^ 32) (hs' : size < 2 ^ 32) (ht : (nmemb - 1) * size < 2 ^ 32)
    {q : QueueS} (hq : Created nmemb size q) (mem : Mem) {moves : List (T × Move Call)}
    {s : State T Shared Point} {tr : List (T × Event)}
    (hallow : ∀ x ∈ moves, locking.Allows x.2)
    (hrun : exec api (.initial ⟨q, mem⟩) moves = some (s, tr)) (hfree : s.owner = none)
    (calls : List (T × Call)) (hc : ∀ x ∈ calls, x.2.Locks)
    (hidle : ∀ x ∈ calls, s.status x.1 = .idle) :
    ∃ a, (tr.map Prod.snd).foldlM (fifoStep nmemb size) [] = some a ∧
      ∃ more s', (∀ x ∈ more, locking.Allows x.2) ∧
        exec api s more = some (s', sequential nmemb size a calls) := by
  obtain ⟨a, ha, h⟩ := (hq.fresh hn' hs' ht).holds hn hn' hs hallow hrun
  have hsl : Sleepers api (.initial (T := T) ⟨q, mem⟩) := fun t l h => by cases h
  obtain ⟨more, s', hm, hx, -⟩ := Settled.calls hc ⟨h, hsl.exec hrun, hfree⟩ hidle
  exact ⟨a, ha, more, s', hm, hx⟩

/-- Two sends into one slot and a receive. -/
theorem fifo_realized_three :
    ∃ a, (([] : List (ℕ × Event)).map Prod.snd).foldlM (fifoStep 1 1) [] = some a ∧
      ∃ more s', (∀ x ∈ more, locking.Allows x.2) ∧
        exec (T := ℕ) api (.initial ⟨⟨false, 1, 1, 0, 0, 0, 0, 0⟩, fun _ => 0⟩) more =
          some (s', sequential 1 1 a
            [(0, .send (fun _ => 7) 0), (1, .send (fun _ => 8) 5), (0, .recv 0)]) :=
  fifo_realized (by decide) (by decide) (by decide) (by decide) (by decide)
    (.inl ⟨fun _ => some 0, rfl⟩) (fun _ => 0) (List.forall_mem_nil _) rfl rfl _
    (by simp [Call.Locks]) (fun _ _ => rfl)

end Ohmylib.Queue
