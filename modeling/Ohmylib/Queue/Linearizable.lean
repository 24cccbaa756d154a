import Ohmylib.Queue.Statements
import Ohmylib.Queue.Geometry
import Ohmylib.Monitor.History

/-! Linearizability of the queue. The proof outline has the ring of pending
messages as its invariant and follows each statement inside a critical section;
a call takes effect where it changes or finally reads `avail`. The histories of
the threads show that each call takes effect once, between its start and its
return, and returns the answer it committed. -/

namespace Ohmylib.Queue

open Monitor

/-- The shared state stores the pending messages. -/
def FifoInv (cap size : ℕ) : Assertion Shared Cond (List Msg) := fun v a _ => Ringed cap size a v

/-- The assertions inside the critical sections. -/
def fifoPre (cap size : ℕ) : Point → Assertion Shared Cond (List Msg)
  | .send _ _ .memcpy => fun v a _ => Ringed cap size a v ∧ a.length < cap
  | .send p _ .advance => fun v a _ => Ringed cap size a v ∧ a.length < cap ∧
      bytes v.mem v.q.pWrite size = message size p
  | .send p _ .incAvail => fun v a _ => ∃ w, Written cap size (message size p) a w v
  | .recv _ .memcpy => fun v a _ => Ringed cap size a v ∧ a ≠ []
  | .recv _ (.advance m) => fun v a _ => Ringed cap size a v ∧ ∃ rest, a = m :: rest
  | .recv _ (.decAvail m) => fun v a _ => ∃ w rest, a = m :: rest ∧ Consumed cap size a w v
  | _ => FifoInv cap size

/-- The assertions do not look at the wait sets. -/
theorem fifoPre_waits (cap size : ℕ) (l : Point) (v : Shared) (a : List Msg) (W W' : Cond → Prop) :
    fifoPre cap size l v a W = fifoPre cap size l v a W' := by
  unfold fifoPre
  split <;> rfl

section Sound

variable {cap size : ℕ}

private theorem send_sound (p : ℕ → UInt8) (timeout : ℤ) (stage : SendStage) :
    Sound (fifoStep cap size) (FifoInv cap size) (fifoPre cap size) (.send p timeout stage)
      (queueSend p timeout stage) := by
  cases stage with
  | test =>
    rintro v a W ⟨r, hr⟩
    refine ⟨a, rfl, ?_⟩
    by_cases hf : queueIsFullLocked v.q = true
    · simpa [readQueue, hf, fifoPre] using ⟨r, hr⟩
    · simpa [readQueue, hf, fifoPre] using ⟨⟨r, hr⟩, hr.room hf⟩
  | loop w =>
    refine timedWaitLoop_keeps (fun w => .send p timeout (.loop w)) (.send p timeout .result)
      ?_ ?_ ?_ w
    · exact fun w => by cases w <;> rfl
    · rfl
    · exact fun v a W W' h => h
  | result =>
    rintro v a W ⟨r, hr⟩
    by_cases hf : queueIsFullLocked v.q = true
    · have he : cap = a.length := by simpa [hr.full_eq] using hf
      refine ⟨a, ?_, ?_⟩
      · simp [hf, accept, fifoStep, fifo, he]
      · simpa [readQueue, hf, fifoPre] using ⟨r, hr⟩
    · refine ⟨a, ?_, ?_⟩
      · simp [hf, accept]
      · simpa [readQueue, hf, fifoPre] using ⟨⟨r, hr⟩, hr.room hf⟩
  | memcpy =>
    rintro v a W ⟨⟨r, hr⟩, hlt⟩
    exact ⟨a, rfl, ⟨r, hr.memcpy hlt p⟩, hlt, hr.memcpy_message p⟩
  | advance =>
    rintro v a W ⟨⟨r, hr⟩, hlt, hm⟩
    exact ⟨a, rfl, v.q.pWrite, ⟨r, hr⟩, hlt, hm, rfl⟩
  | incAvail =>
    rintro v a W ⟨w, hw⟩
    refine ⟨a ++ [message size p], ?_, hw.incAvail⟩
    simp [accept, fifoStep, fifo, hw.room]
  | lock | unlockFull | unlock | broadcast => exact fun v a W h => h
  | retFull | ret => exact fun a => rfl

private theorem recv_sound (timeout : ℤ) (stage : RecvStage) :
    Sound (fifoStep cap size) (FifoInv cap size) (fifoPre cap size) (.recv timeout stage)
      (queueRecv timeout stage) := by
  cases stage with
  | test =>
    rintro v a W ⟨r, hr⟩
    refine ⟨a, rfl, ?_⟩
    by_cases he : queueIsEmptyLocked v.q = true
    · simpa [readQueue, he, fifoPre] using ⟨r, hr⟩
    · simpa [readQueue, he, fifoPre] using ⟨⟨r, hr⟩, hr.ne_nil he⟩
  | loop w =>
    refine timedWaitLoop_keeps (fun w => .recv timeout (.loop w)) (.recv timeout .result)
      ?_ ?_ ?_ w
    · exact fun w => by cases w <;> rfl
    · rfl
    · exact fun v a W W' h => h
  | result =>
    rintro v a W ⟨r, hr⟩
    by_cases he : queueIsEmptyLocked v.q = true
    · obtain rfl : a = [] := by simpa [hr.empty_eq] using he
      refine ⟨[], ?_, ?_⟩
      · simp [he, accept, fifoStep, fifo]
      · simpa [readQueue, he, fifoPre] using ⟨r, hr⟩
    · refine ⟨a, ?_, ?_⟩
      · simp [he, accept]
      · simpa [readQueue, he, fifoPre] using ⟨⟨r, hr⟩, hr.ne_nil he⟩
  | memcpy =>
    rintro v a W ⟨⟨r, hr⟩, hne⟩
    obtain ⟨m, rest, rfl⟩ := List.exists_cons_of_ne_nil hne
    exact ⟨_, rfl, ⟨r, hr⟩, rest, by rw [hr.head]⟩
  | advance m =>
    rintro v a W ⟨⟨r, hr⟩, rest, rfl⟩
    exact ⟨_, rfl, v.q.pRead, rest, rfl, ⟨r, hr⟩, rfl⟩
  | decAvail m =>
    rintro v a W ⟨w, rest, rfl, hc⟩
    refine ⟨rest, ?_, hc.decAvail⟩
    simp [accept, fifoStep, fifo]
  | lock | unlockEmpty | unlock | broadcastEmpty | broadcast => exact fun v a W h => h
  | retEmpty | ret => exact fun a => rfl

end Sound

/-- The proof outline of the queue as a bounded FIFO. -/
def linearization (cap size : ℕ) : Outline locking (List Msg) where
  spec := fifoStep cap size
  inv := FifoInv cap size
  pre := fifoPre cap size
  invoke _ _ := rfl
  inv_anti _ h := h
  pre_anti _ h := fifoPre_waits .. ▸ h
  sound l hl := by
    cases l with
    | send p timeout stage => exact send_sound p timeout stage
    | recv timeout stage => exact recv_sound timeout stage
    | isEmpty stage =>
      refine observe_sound _ _ .isEmpty (fun _ => rfl) ?_ (fun _ _ => rfl) stage
      rintro v a W ⟨r, hr⟩
      simp [fifoStep, fifo, hr.empty_eq]
    | isFull stage =>
      refine observe_sound _ _ .isFull (fun _ => rfl) ?_ (fun _ _ => rfl) stage
      rintro v a W ⟨r, hr⟩
      simp [fifoStep, fifo, hr.full_eq]
    | spaceAvailable stage =>
      refine observe_sound _ _ .spaceAvailable (fun _ => rfl) ?_ (fun _ _ => rfl) stage
      rintro v a W ⟨r, hr⟩
      simp [fifoStep, fifo, hr.space_eq]
    | emptyWait timeout stage => exact hl.elim

/-! ### Histories -/

/-- Outside every call, in a call that has not taken effect, or in one that has. -/
inductive Phase
  | outside
  | called (c : Call)
  | answered (c : Call) (r : Reply)

/-- A call starts, takes effect once, and returns the answer it committed. -/
inductive CallStep : Phase → Event → Phase → Prop
  | invoke (c : Call) : CallStep .outside (.invoke c) (.called c)
  | commit (c : Call) (r : Reply) : CallStep (.called c) (.commit c r) (.answered c r)
  | ret (c : Call) (r : Reply) : CallStep (.answered c r) (.ret c r) .outside

def Point.phase : Point → Phase
  | .send p timeout .unlockFull | .send p timeout .retFull => .answered (.send p timeout) sendFull
  | .send p timeout .broadcast | .send p timeout .unlock | .send p timeout .ret =>
      .answered (.send p timeout) sendOk
  | .send p timeout _ => .called (.send p timeout)
  | .recv timeout .broadcastEmpty | .recv timeout .unlockEmpty | .recv timeout .retEmpty =>
      .answered (.recv timeout) recvEmpty
  | .recv timeout (.broadcast m) | .recv timeout (.unlock m) | .recv timeout (.ret m) =>
      .answered (.recv timeout) (recvOk m)
  | .recv timeout _ => .called (.recv timeout)
  | .isEmpty (.unlock r) | .isEmpty (.ret r) => .answered .isEmpty { ret := r }
  | .isEmpty _ => .called .isEmpty
  | .isFull (.unlock r) | .isFull (.ret r) => .answered .isFull { ret := r }
  | .isFull _ => .called .isFull
  | .spaceAvailable (.unlock r) | .spaceAvailable (.ret r) => .answered .spaceAvailable { ret := r }
  | .spaceAvailable _ => .called .spaceAvailable
  | .emptyWait timeout (.ret r) => .answered (.emptyWait timeout) { ret := r }
  | .emptyWait timeout _ => .called (.emptyWait timeout)

/-- The wait loop stays in the phase it is entered in. -/
theorem timedWaitLoop_phased {pred : QueueS → Bool} {c : Cond} (loop : LoopStage → Point)
    (done : Point) {a : Phase} (hloop : ∀ w, (loop w).phase = a) (hdone : done.phase = a)
    (w : LoopStage) :
    Phased CallStep Point.phase .outside a (timedWaitLoop pred c loop done w) := by
  cases w with
  | test zero =>
    intro v
    dsimp only [readQueue]
    split_ifs
    · exact hloop _
    · exact hdone
  | timedwait => exact fun _ => hloop _

private theorem send_phased (p : ℕ → UInt8) (timeout : ℤ) (stage : SendStage) :
    Phased CallStep Point.phase .outside (Point.phase (.send p timeout stage))
      (queueSend p timeout stage) := by
  cases stage with
  | test | result =>
    intro v
    dsimp only [readQueue]
    split_ifs <;> first | rfl | exact .commit _ _
  | loop w =>
    exact timedWaitLoop_phased (fun w => .send p timeout (.loop w)) (.send p timeout .result)
      (fun _ => rfl) rfl w
  | memcpy | advance => exact fun _ => rfl
  | incAvail => exact fun _ => .commit _ _
  | lock | unlockFull | unlock | broadcast => rfl
  | retFull | ret => exact .ret _ _

private theorem recv_phased (timeout : ℤ) (stage : RecvStage) :
    Phased CallStep Point.phase .outside (Point.phase (.recv timeout stage))
      (queueRecv timeout stage) := by
  cases stage with
  | test | result =>
    intro v
    dsimp only [readQueue]
    split_ifs <;> first | rfl | exact .commit _ _
  | loop w =>
    exact timedWaitLoop_phased (fun w => .recv timeout (.loop w)) (.recv timeout .result)
      (fun _ => rfl) rfl w
  | memcpy | advance => exact fun _ => rfl
  | decAvail => exact fun _ => .commit _ _
  | lock | unlockEmpty | unlock | broadcastEmpty | broadcast => rfl
  | retEmpty | ret => exact .ret _ _

private theorem emptyWait_phased (timeout : ℤ) (stage : EmptyWaitStage) :
    Phased CallStep Point.phase .outside (Point.phase (.emptyWait timeout stage))
      (queueEmptyWait timeout stage) := by
  cases stage with
  | loop w =>
    exact timedWaitLoop_phased (fun w => .emptyWait timeout (.loop w)) (.emptyWait timeout .unlock)
      (fun _ => rfl) rfl w
  | unlock => rfl
  | result => exact fun _ => .commit _ _
  | ret => exact .ret _ _

/-- The histories of the queue functions. -/
def histories : Phases api Phase where
  next := CallStep
  out := .outside
  phase := Point.phase
  entry c := by cases c <;> exact .invoke _
  sound l := by
    cases l with
    | send p timeout stage => exact send_phased p timeout stage
    | recv timeout stage => exact recv_phased timeout stage
    | isEmpty stage | isFull stage | spaceAvailable stage =>
      cases stage with
      | lock | unlock => rfl
      | read => exact fun _ => .commit _ _
      | ret => exact .ret _ _
    | emptyWait timeout stage => exact emptyWait_phased timeout stage

/-! ### The result -/

variable {T : Type*} [DecidableEq T]

/-- What a run of the queue is, seen from outside, when its state is `s` and its
events so far are `tr`: the threads call one function after the other, each call
takes effect once, and in the order of the commits the calls are those of a
bounded FIFO of `cap` messages of `size` bytes. -/
structure Linearizable (cap size : ℕ) (s : State T Shared Point) (tr : List (T × Event)) :
    Prop where
  /-- Each thread calls, commits, and returns the committed answer. -/
  history : ∀ t, Path CallStep .outside (ofThread t tr) (histories.of (s.status t))
  /-- Every commit carries the answer of the abstract queue at that moment. -/
  answers : ∀ {pre post t c r}, tr = pre ++ (t, .commit c r) :: post →
    ∃ a, (pre.map Prod.snd).foldlM (fifoStep cap size) [] = some a ∧ r = (fifo cap size a c).1
  /-- A send that returns -1 took effect on a full queue, a receive on an empty one. -/
  fails : ∀ {pre post t c r}, tr = pre ++ (t, .commit c r) :: post → r.ret = -1 →
    ∃ a, (pre.map Prod.snd).foldlM (fifoStep cap size) [] = some a ∧
      match c with
      | .send _ _ => a.length = cap
      | .recv _ => a = []
      | _ => True
  /-- The received messages are a prefix of the sent ones, and the others are the
  `avail` pending messages. -/
  pending : ∃ a, (tr.map Prod.snd).foldlM (fifoStep cap size) [] = some a ∧
    sent size (tr.map Prod.snd) = received (tr.map Prod.snd) ++ a ∧
    a.length = s.shared.q.avail ∧ a.length ≤ cap ∧
    -- between critical sections the pending messages are the bytes in the buffer
    (s.owner = none → Ringed cap size a s.shared)

/-- At every control point the abstract queue has `avail` messages. -/
theorem fifoPre_length {cap size : ℕ} {l : Point} {v : Shared} {a : List Msg} {W : Cond → Prop}
    (h : fifoPre cap size l v a W) : a.length = v.q.avail ∧ a.length ≤ cap := by
  unfold fifoPre at h
  split at h
  · exact h.1.length
  · exact h.1.length
  · exact h.choose_spec.ringed.length
  · exact h.1.length
  · exact h.1.length
  · obtain ⟨w, rest, -, hc⟩ := h
    exact hc.ringed.length
  · exact h.length

/-- A run from a fresh queue keeps the outline. -/
theorem Fresh.holds {nmemb size : ℕ} {q : QueueS} (h : Fresh nmemb size q) (hn : 1 ≤ nmemb)
    (hn' : nmemb < 2 ^ 32) (hs : 1 ≤ size) {mem : Mem} {moves : List (T × Move Call)}
    {s : State T Shared Point} {tr : List (T × Event)}
    (hcalls : ∀ x ∈ moves, locking.Allows x.2)
    (hrun : exec api (.initial ⟨q, mem⟩) moves = some (s, tr)) :
    ∃ a, (tr.map Prod.snd).foldlM (fifoStep nmemb size) [] = some a ∧
      (linearization nmemb size).Holds s a := by
  have hinit : (linearization nmemb size).Holds (.initial (T := T) ⟨q, mem⟩) [] :=
    Outline.holds_initial ⟨0, h.stored hn hn' hs mem⟩
  exact hinit.exec hcalls hrun

omit [DecidableEq T] in
/-- In every reachable state the abstract queue has `avail` messages, also in the
middle of a critical section. -/
theorem holds_length {nmemb size : ℕ} {s : State T Shared Point} {a : List Msg}
    (h : (linearization nmemb size).Holds s a) :
    a.length = s.shared.q.avail ∧ a.length ≤ nmemb := by
  cases ho : s.owner with
  | none => exact (h.free ho).length
  | some t =>
    obtain ⟨l, hl⟩ := h.disciplined.owner_ready ho
    exact fifoPre_length (h.owned ho hl)

/-- The queue is linearizable: every run, of any number of threads with any calls
that take the mutex, is a run of the bounded FIFO. -/
theorem queue_linearizable {nmemb size : ℕ} (hn : 1 ≤ nmemb) (hs : 1 ≤ size)
    (hn' : nmemb < 2 ^ 32) (hs' : size < 2 ^ 32) (ht : (nmemb - 1) * size < 2 ^ 32)
    {q : QueueS} (hq : Created nmemb size q) (mem : Mem) {moves : List (T × Move Call)}
    {s : State T Shared Point} {tr : List (T × Event)}
    (hcalls : ∀ x ∈ moves, locking.Allows x.2)
    (hrun : exec api (.initial ⟨q, mem⟩) moves = some (s, tr)) :
    Linearizable nmemb size s tr := by
  obtain ⟨a, ha, h⟩ := (hq.fresh hn' hs' ht).holds hn hn' hs hcalls hrun
  have hanswers : ∀ {pre post t c r}, tr = pre ++ (t, .commit c r) :: post →
      ∃ a, (pre.map Prod.snd).foldlM (fifoStep nmemb size) [] = some a ∧
        r = (fifo nmemb size a c).1 := by
    rintro pre post t c r rfl
    rw [List.map_append, List.map_cons] at ha
    exact fifo_commit ha
  refine ⟨fun t => histories.exec_path hrun t, hanswers, ?_, a, ha, ?_, (holds_length h).1,
    (holds_length h).2, h.free⟩
  · intro pre post t c r htr hr
    obtain ⟨b, hb, rfl⟩ := hanswers htr
    refine ⟨b, hb, ?_⟩
    have hle := fifo_length hb (Nat.zero_le _)
    cases c with
    | send p timeout => exact Nat.le_antisymm hle (send_fails hr)
    | recv timeout => exact recv_fails hr
    | _ => trivial
  · simpa using fifo_sent ha

/-- Two slots, of which the third message takes the first again: the sends of threads 0 and 1
overlap, and thread 2 receives while thread 0 waits for the mutex. -/
theorem queue_linearizable_send_recv : ∃ moves : List (ℕ × Move Call),
    moves = List.flatten [turn 0 (.send (fun _ => 7) 0) 5, turn 1 (.send (fun _ => 8) 0) 0,
      turn 2 (.recv 0) 0, List.replicate 3 (0, .run), List.replicate 8 (1, .run),
      List.replicate 3 (2, .run), turn 0 (.send (fun _ => 9) 0) 0, List.replicate 5 (2, .run),
      List.replicate 8 (0, .run), turn 2 (.recv 0) 8, turn 1 .spaceAvailable 4] ∧
    ∃ s tr, exec api (.initial ⟨⟨false, 2, 1, 0, 0, 1, 0, 0⟩, fun _ => 0⟩) moves = some (s, tr) ∧
      (s.shared.q.avail = 1 ∧ s.shared.q.pRead = 0 ∧ s.shared.mem 0 = 9) ∧
      Linearizable 2 1 s tr := by
  refine ⟨_, rfl, (exists_exec (p := fun s => s.shared.q.avail = 1 ∧ s.shared.q.pRead = 0 ∧
    s.shared.mem 0 = 9) ?_).imp fun s => Exists.imp fun tr ⟨hrun, hend⟩ => ⟨hrun, hend, ?_⟩⟩
  · decide +kernel
  · exact queue_linearizable (by decide) (by decide) (by decide) (by decide) (by decide)
      (.inl ⟨fun _ => some 0, rfl⟩) (fun _ => 0) (allows_of_notMem (by simp [turn])) hrun

end Ohmylib.Queue
