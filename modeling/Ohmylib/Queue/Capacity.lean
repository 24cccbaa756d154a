import Ohmylib.Queue.Sizes
import Ohmylib.Queue.Wakeup
import Ohmylib.Monitor.Solo

/-! The observers of one queue against each other and against `queue_send`. The
pending messages never outnumber the slots, whatever the size of a message. The
free space is a `size_t` returned as an `int`: from 2^31 free slots on it is
negative, although such a queue is accepted and has room. -/

namespace Ohmylib.Queue

open Monitor

/-! ### The bound -/

/-- A queue of `n` slots holds at most `n` messages. -/
def Counted (n : ℕ) : Assertion Shared Cond Unit := fun v _ _ => v.q.nmemb = n ∧ v.q.avail ≤ n

/-- The tests hold up to the change of `avail`. -/
def countedPre (n : ℕ) : Point → Assertion Shared Cond Unit
  | .send _ _ .memcpy | .send _ _ .advance | .send _ _ .incAvail =>
      fun v a W => Counted n v a W ∧ v.q.avail < n
  | .recv _ .memcpy | .recv _ (.advance _) | .recv _ (.decAvail _) =>
      fun v a W => Counted n v a W ∧ v.q.avail ≠ 0
  | _ => Counted n

variable {n : ℕ}

/-- The assertions do not look at the wait sets. -/
theorem countedPre_waits (l : Point) (v : Shared) (a : Unit) (W W' : Cond → Prop) :
    countedPre n l v a W = countedPre n l v a W' := by
  unfold countedPre
  split <;> rfl

private theorem counted_full {v : Shared} {a : Unit} {W : Cond → Prop} (h : Counted n v a W)
    (hf : ¬ queueIsFullLocked v.q = true) : v.q.avail < n := by
  have hne : v.q.avail ≠ v.q.nmemb := by simpa using hf
  have := h.2
  rw [h.1] at hne
  omega

private theorem send_counted (hn : n < 2 ^ 32) (p : ℕ → UInt8) (timeout : ℤ) (stage : SendStage) :
    Sound acceptAll (Counted n) (countedPre n) (.send p timeout stage)
      (queueSend p timeout stage) := by
  cases stage with
  | test | result =>
    intro v a W (h : Counted n v a W)
    refine ⟨(), accept_acceptAll a _, ?_⟩
    by_cases hf : queueIsFullLocked v.q = true
    · simpa [readQueue, hf, countedPre] using h
    · simpa [readQueue, hf, countedPre] using And.intro h (counted_full h hf)
  | loop w =>
    refine timedWaitLoop_keeps (fun w => .send p timeout (.loop w)) (.send p timeout .result)
      ?_ ?_ ?_ w
    · exact fun w => by cases w <;> rfl
    · rfl
    · exact fun v a W W' h => h
  | incAvail =>
    rintro v a W ⟨⟨hm, hle⟩, hlt⟩
    refine ⟨(), rfl, hm, ?_⟩
    have hu : u64 (v.q.avail + 1) = v.q.avail + 1 := u64_of_lt (by omega)
    simp only [QueueS.incAvail, hu]
    exact hlt
  | memcpy | advance => exact fun v a W h => ⟨(), rfl, h⟩
  | lock | unlockFull | unlock | broadcast => exact fun v a W h => h
  | retFull | ret => exact fun a => rfl

private theorem recv_counted (hn : n < 2 ^ 32) (timeout : ℤ) (stage : RecvStage) :
    Sound acceptAll (Counted n) (countedPre n) (.recv timeout stage) (queueRecv timeout stage) := by
  cases stage with
  | test | result =>
    intro v a W (h : Counted n v a W)
    refine ⟨(), accept_acceptAll a _, ?_⟩
    by_cases he : queueIsEmptyLocked v.q = true
    · simpa [readQueue, he, countedPre] using h
    · have hne : v.q.avail ≠ 0 := by simpa using he
      simpa [readQueue, hne, countedPre] using h
  | loop w =>
    refine timedWaitLoop_keeps (fun w => .recv timeout (.loop w)) (.recv timeout .result)
      ?_ ?_ ?_ w
    · exact fun w => by cases w <;> rfl
    · rfl
    · exact fun v a W W' h => h
  | decAvail m =>
    rintro v a W ⟨⟨hm, hle⟩, hne⟩
    refine ⟨(), rfl, hm, ?_⟩
    have hu : u64 (2 ^ 64 - 1 + v.q.avail) = v.q.avail - 1 := by
      unfold u64
      omega
    simp only [QueueS.decAvail, hu]
    omega
  | memcpy | advance => exact fun v a W h => ⟨(), rfl, h⟩
  | lock | unlockEmpty | unlock | broadcastEmpty | broadcast => exact fun v a W h => h
  | retEmpty | ret => exact fun a => rfl

/-- The proof outline of the bound. -/
def counting (n : ℕ) (hn : n < 2 ^ 32) : Outline locking Unit where
  spec := acceptAll
  inv := Counted n
  pre := countedPre n
  invoke := acceptAll_invoke
  inv_anti _ h := h
  pre_anti {l v a W W'} _ h := countedPre_waits l v a W W' ▸ h
  sound l hl := by
    cases l with
    | send p timeout stage => exact send_counted hn p timeout stage
    | recv timeout stage => exact recv_counted hn timeout stage
    | isEmpty stage => exact observe_acceptAll _ _ .isEmpty (fun _ => rfl) stage
    | isFull stage => exact observe_acceptAll _ _ .isFull (fun _ => rfl) stage
    | spaceAvailable stage => exact observe_acceptAll _ _ .spaceAvailable (fun _ => rfl) stage
    | emptyWait timeout stage => exact hl.elim

variable {T : Type*} [DecidableEq T]

/-- Every state of a run with a free mutex holds at most `nmemb` messages. -/
theorem avail_le {nmemb size : ℕ} {calloc : ℕ → Option ℕ} {handle : Bool} {q : QueueS}
    (hn' : nmemb < 2 ^ 32) (hq : queueCreate calloc handle nmemb size = .ok q) {mem : Mem}
    {moves : List (T × Move Call)} {s : State T Shared Point} {tr : List (T × Event)}
    (hcalls : ∀ x ∈ moves, locking.Allows x.2)
    (hrun : exec api (.initial ⟨q, mem⟩) moves = some (s, tr)) (hfree : s.owner = none) :
    s.shared.q.nmemb = nmemb ∧ s.shared.q.avail ≤ nmemb := by
  obtain ⟨-, -, -, hset⟩ := queueCreate_ok hq
  have hnm : q.nmemb = nmemb :=
    (congrArg QueueS.nmemb (Option.some.inj hset)).symm.trans (u32_of_lt hn')
  have hav : q.avail = 0 := (congrArg QueueS.avail (Option.some.inj hset)).symm
  have hinit : (counting nmemb hn').Holds (.initial (T := T) ⟨q, mem⟩) () :=
    Outline.holds_initial ⟨hnm, by simp [hav]⟩
  obtain ⟨_, -, h⟩ := hinit.exec hcalls hrun
  exact h.free hfree

/-! ### Calls with no other thread active -/

/-- Thread `t`, alone and without waiting, gets the reply `r` to its call. -/
def Answers (s : State T Shared Point) (t : T) (c : Call) (r : Reply) : Prop :=
  ∃ s' e, step api s t (.call c) = some (s', e) ∧ Returns api t s' (.ret c r)

variable {s : State T Shared Point} {t : T} {r : Reply}

theorem answers_iff (hidle : s.status t = .idle) (hfree : s.owner = none) {c : Call} :
    Answers s t c r ↔ Returns api t (s.put t (entry c) none s.shared) (.ret c r) := by
  have hs : step api s t (.call c) = some (s.put t (entry c) none s.shared, some (.invoke c)) := by
    simp only [step, hidle, State.put, ← hfree]
    rfl
  unfold Answers
  rw [hs]
  constructor
  · rintro ⟨s', e, h, hr⟩
    cases h
    exact hr
  · exact fun hr => ⟨_, _, rfl, hr⟩

/-- A statement that only reads the handle. -/
theorem returns_read {l : Point} {o : Option T} {v : Shared} {e : Event}
    {f : QueueS → Point × Option Event} (hc : api.code l = readQueue f) :
    Returns api t (s.put t l o v) e ↔ Returns api t (s.put t (f v.q).1 o v) e :=
  returns_access hc

/-- An observer answers with its value in the state it is called in. -/
theorem returns_observe (c : Call) (value : QueueS → ℤ) (point : ReadStage → Point)
    (hcode : ∀ stage, api.code (point stage) = observe c value point stage) {v : Shared} :
    Returns api t (s.put t (point .lock) none v) (.ret c r) ↔ r = { ret := value v.q } := by
  have hread : api.code (point .read) = readQueue fun q =>
    (point (.unlock (value q)), some (.commit c { ret := value q })) := hcode .read
  rw [returns_lock (hcode .lock), returns_read hread,
    returns_unlock (l := point (.unlock (value v.q))) (hcode _), returns_ret (hcode _),
    Event.ret.injEq, eq_self, true_and]

theorem answers_isEmpty (hidle : s.status t = .idle) (hfree : s.owner = none) :
    Answers s t .isEmpty r ↔ r = { ret := truth (queueIsEmptyLocked s.shared.q) } := by
  rw [answers_iff hidle hfree]
  exact returns_observe _ _ .isEmpty fun _ => rfl

theorem answers_isFull (hidle : s.status t = .idle) (hfree : s.owner = none) :
    Answers s t .isFull r ↔ r = { ret := truth (queueIsFullLocked s.shared.q) } := by
  rw [answers_iff hidle hfree]
  exact returns_observe _ _ .isFull fun _ => rfl

theorem answers_spaceAvailable (hidle : s.status t = .idle) (hfree : s.owner = none) :
    Answers s t .spaceAvailable r ↔ r = { ret := queueSpaceAvailableLocked s.shared.q } := by
  rw [answers_iff hidle hfree]
  exact returns_observe _ _ .spaceAvailable fun _ => rfl

/-- A send on a queue with room goes through, on a full one it goes to sleep. -/
theorem answers_send (hidle : s.status t = .idle) (hfree : s.owner = none) {p : ℕ → UInt8}
    {timeout : ℤ} :
    Answers s t (.send p timeout) sendOk ↔ ¬ queueIsFullLocked s.shared.q = true := by
  rw [answers_iff hidle hfree]
  have htest : api.code (.send p timeout .test) = readQueue fun q =>
    (.send p timeout (if queueIsFullLocked q then .loop (.test true) else .memcpy), none) := rfl
  have hloop : api.code (.send p timeout (.loop (.test true))) = readQueue fun q =>
    (if queueIsFullLocked q && true then .send p timeout (.loop .timedwait)
      else .send p timeout .result, none) := rfl
  have hsleep : api.code (.send p timeout (.loop .timedwait)) =
    .wait .write fun zero => .send p timeout (.loop (.test zero)) := rfl
  rw [entry, returns_lock (P := api) (l := .send p timeout .lock) rfl, returns_read htest]
  by_cases hf : queueIsFullLocked s.shared.q = true
  · rw [if_pos hf, returns_read hloop]
    simpa [hf] using not_returns_wait hsleep
  · rw [if_neg hf, returns_access (P := api) (l := .send p timeout .memcpy) rfl,
      returns_access (P := api) (l := .send p timeout .advance) rfl,
      returns_access (P := api) (l := .send p timeout .incAvail) rfl,
      returns_broadcast (P := api) (l := .send p timeout .broadcast) rfl,
      returns_unlock (P := api) (l := .send p timeout .unlock) rfl,
      returns_ret (P := api) (l := .send p timeout .ret) rfl]
    simp [hf]

/-! ### Agreement -/

/-- The observers agree with each other and with a send, for thread `t` on a queue
of `n` slots. -/
structure ObserversAgree (n : ℕ) (s : State T Shared Point) (t : T) : Prop where
  space : ∀ r, Answers s t .spaceAvailable r ↔ r = { ret := (n : ℤ) - s.shared.q.avail }
  nonneg : (s.shared.q.avail : ℤ) ≤ n
  full : Answers s t .isFull { ret := 1 } ↔ Answers s t .spaceAvailable { ret := 0 }
  empty : Answers s t .isEmpty { ret := 1 } ↔ Answers s t .spaceAvailable { ret := n }
  exclusive : ¬ (Answers s t .isFull { ret := 1 } ∧ Answers s t .isEmpty { ret := 1 })
  send : ∀ p timeout, Answers s t (.send p timeout) sendOk ↔
    ∃ k > 0, Answers s t .spaceAvailable { ret := k }

theorem truth_eq_one_iff (b : Bool) : truth b = 1 ↔ b = true := by
  cases b <;> simp [truth]

theorem answers_isFull_one (hidle : s.status t = .idle) (hfree : s.owner = none) :
    Answers s t .isFull { ret := 1 } ↔ s.shared.q.avail = s.shared.q.nmemb := by
  rw [answers_isFull hidle hfree, Reply.mk.injEq, ← queueIsFullLocked_iff]
  simp [eq_comm (a := (1 : ℤ)), truth_eq_one_iff]

theorem answers_isEmpty_one (hidle : s.status t = .idle) (hfree : s.owner = none) :
    Answers s t .isEmpty { ret := 1 } ↔ s.shared.q.avail = 0 := by
  rw [answers_isEmpty hidle hfree, Reply.mk.injEq, ← queueIsEmptyLocked_iff]
  simp [eq_comm (a := (1 : ℤ)), truth_eq_one_iff]

/-- The free space as the `int` that is returned. -/
theorem queueSpaceAvailableLocked_eq {q : QueueS} (hn : q.nmemb < 2 ^ 32)
    (hle : q.avail ≤ q.nmemb) :
    queueSpaceAvailableLocked q = toInt (q.nmemb - q.avail) := by
  have hu : u64 (2 ^ 64 - q.avail + q.nmemb) = q.nmemb - q.avail := by
    unfold u64
    omega
  rw [queueSpaceAvailableLocked, hu]

/-- For every state a run reaches with a free mutex, the observers agree exactly
when fewer than 2^31 slots are free. -/
theorem observers_agree_iff (calloc : ℕ → Option ℕ) (handle : Bool) (nmemb size : ℕ) (q : QueueS)
    (hn : 1 ≤ nmemb) (hn' : nmemb < 2 ^ 32) (hq : queueCreate calloc handle nmemb size = .ok q)
    (mem : Mem) (moves : List (T × Move Call)) (s : State T Shared Point) (tr : List (T × Event))
    (hcalls : ∀ x ∈ moves, locking.Allows x.2)
    (hrun : exec api (.initial ⟨q, mem⟩) moves = some (s, tr)) (hfree : s.owner = none)
    (t : T) (hidle : s.status t = .idle) :
    ObserversAgree nmemb s t ↔ nmemb - s.shared.q.avail < 2 ^ 31 := by
  obtain ⟨hnm, hle⟩ := avail_le hn' hq hcalls hrun hfree
  have hspace : queueSpaceAvailableLocked s.shared.q = toInt (nmemb - s.shared.q.avail) := by
    rw [queueSpaceAvailableLocked_eq (by omega) (by omega), hnm]
  have hanswer (k : ℤ) : Answers s t .spaceAvailable { ret := k } ↔
      k = toInt (nmemb - s.shared.q.avail) := by
    rw [answers_spaceAvailable hidle hfree, hspace, Reply.mk.injEq]
    simp
  constructor
  · intro h
    have hr := (hanswer _).mp ((h.space _).mpr rfl)
    have := toInt_lt (nmemb - s.shared.q.avail)
    omega
  · intro hlt
    have hint : toInt (nmemb - s.shared.q.avail) = (nmemb : ℤ) - s.shared.q.avail := by
      rw [toInt_of_lt hlt]
      omega
    have hfull := answers_isFull_one hidle hfree
    have hempty := answers_isEmpty_one hidle hfree
    rw [hnm] at hfull
    refine ⟨fun r => ?_, by omega, ?_, ?_, ?_, fun p timeout => ?_⟩
    · rw [answers_spaceAvailable hidle hfree, hspace, hint]
    · rw [hfull, hanswer, hint]
      omega
    · rw [hempty, hanswer, hint]
      omega
    · rw [hfull, hempty]
      omega
    · rw [answers_send hidle hfree, queueIsFullLocked_iff, hnm]
      constructor
      · intro hne
        exact ⟨(nmemb : ℤ) - s.shared.q.avail, by omega, (hanswer _).mpr hint.symm⟩
      · rintro ⟨k, hk, ha⟩
        rw [hanswer, hint] at ha
        omega

/-- Two slots behind a send of thread 0, while thread 2 is about to look: thread 1 finds one message
and one free slot. -/
theorem observers_agree_two : ∃ moves : List (ℕ × Move Call),
    moves = List.flatten [turn 0 (.send (fun _ => 7) 0) 8, turn 2 .isEmpty 0] ∧
    ∃ s tr, exec api (.initial ⟨⟨false, 2, 4, 0, 0, 4, 0, 0⟩, fun _ => 0⟩) moves = some (s, tr) ∧
      s.shared.q.avail = 1 ∧ ObserversAgree 2 s 1 := by
  refine ⟨_, rfl, (exists_exec
    (p := fun s => s.shared.q.avail = 1 ∧ s.owner = none ∧ s.status 1 = .idle) ?_).imp fun s =>
      Exists.imp fun tr ⟨hrun, hone, hfree, hidle⟩ => ⟨hrun, hone, ?_⟩⟩
  · decide +kernel
  · refine (observers_agree_iff (fun _ => some 0) true 2 4 _ (by decide) (by decide) rfl
      (fun _ => 0) _ s tr (allows_of_notMem (by simp [turn])) hrun hfree 1 hidle).mpr ?_
    rw [hone]
    decide

/-- A fresh queue of 2^31 slots of one byte reports a negative free space. -/
theorem observers_disagree : ∃ q, queueCreate (fun _ => some 0) true (2 ^ 31) 1 = .ok q ∧
    Answers (.initial (T := ℕ) ⟨q, fun _ => 0⟩) 0 .spaceAvailable { ret := -2 ^ 31 } ∧
    ¬ ObserversAgree (2 ^ 31) (.initial (T := ℕ) ⟨q, fun _ => 0⟩) 0 := by
  refine ⟨⟨false, 2 ^ 31, 1, 0, 0, 2 ^ 31 - 1, 0, 0⟩, rfl, ?_, fun h => ?_⟩
  · exact (answers_spaceAvailable rfl rfl).mpr (by decide)
  · have hr := (answers_spaceAvailable rfl rfl).mp ((h.space _).mpr rfl)
    exact absurd hr (by decide)

end Ohmylib.Queue
