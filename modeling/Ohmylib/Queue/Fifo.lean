import Ohmylib.Queue.Threads

/-! The abstract queue: a bounded list of messages. It says what every call answers
and leaves behind when it takes effect at one moment. A trace is legal when the
list accepts all its commits in order; then the received messages are a prefix of
the sent ones and the list holds the rest. -/

namespace Ohmylib.Queue

/-- The `size` bytes a sender hands over. -/
def message (size : ℕ) (p : ℕ → UInt8) : Msg := (List.range size).map p

/-- The answer to a call and the messages pending after it, for a queue of `cap`
messages of `size` bytes. -/
def fifo (cap size : ℕ) (pending : List Msg) : Call → Reply × List Msg
  | .send p _ =>
    if pending.length < cap then (sendOk, pending ++ [message size p]) else (sendFull, pending)
  | .recv _ => match pending with
    | [] => (recvEmpty, [])
    | m :: rest => (recvOk m, rest)
  | .isEmpty => ({ ret := truth pending.isEmpty }, pending)
  | .isFull => ({ ret := truth (cap == pending.length) }, pending)
  | .spaceAvailable => ({ ret := toInt (cap - pending.length) }, pending)
  | .emptyWait _ => ({ ret := truth !pending.isEmpty }, pending)

/-- A commit must carry the answer of the abstract queue; entering and returning
does not touch it. -/
def fifoStep (cap size : ℕ) (pending : List Msg) : Event → Option (List Msg)
  | .commit c r =>
    if (fifo cap size pending c).1 = r then some (fifo cap size pending c).2 else none
  | .invoke _ | .ret _ _ => some pending

/-- The messages of the successful sends, in the order of their commits. -/
def sent (size : ℕ) (es : List Event) : List Msg := es.filterMap fun e => match e with
  | .commit (.send p _) r => if r.ret = 0 then some (message size p) else none
  | _ => none

/-- The messages handed out by the receives, in the order of their commits. -/
def received (es : List Event) : List Msg := es.filterMap fun e => match e with
  | .commit (.recv _) r => r.out
  | _ => none

variable {cap size : ℕ}

/-- One event moves a message into the list or out of it. -/
theorem fifoStep_sent {a b : List Msg} {e : Event} (h : fifoStep cap size a e = some b) :
    a ++ sent size [e] = received [e] ++ b := by
  cases e with
  | invoke c | ret c r =>
    simp only [fifoStep, Option.some.injEq] at h
    simp [sent, received, h]
  | commit c r =>
    simp only [fifoStep, Option.ite_none_right_eq_some, Option.some.injEq] at h
    obtain ⟨rfl, rfl⟩ := h
    cases c with
    | send p timeout =>
      by_cases hl : a.length < cap <;> simp [fifo, hl, sent, received, sendOk, sendFull]
    | recv timeout => cases a <;> simp [fifo, sent, received, recvOk, recvEmpty]
    | _ => simp [fifo, sent, received]

/-- The messages received so far are a prefix of the messages sent so far and the
list holds the others. -/
theorem fifo_sent {a b : List Msg} {es : List Event}
    (h : es.foldlM (fifoStep cap size) a = some b) : a ++ sent size es = received es ++ b := by
  induction es generalizing a with
  | nil =>
    obtain rfl : a = b := by simpa using h
    simp [sent, received]
  | cons e es ih =>
    simp only [List.foldlM_cons, Option.bind_eq_bind, Option.bind_eq_some_iff] at h
    obtain ⟨c, he, hes⟩ := h
    have hs : sent size (e :: es) = sent size [e] ++ sent size es :=
      List.filterMap_append (l := [e]) ..
    have hr : received (e :: es) = received [e] ++ received es :=
      List.filterMap_append (l := [e]) ..
    rw [hs, hr, ← List.append_assoc, fifoStep_sent he, List.append_assoc, ih hes,
      ← List.append_assoc]

theorem fifoStep_length {a b : List Msg} {e : Event} (h : fifoStep cap size a e = some b)
    (ha : a.length ≤ cap) : b.length ≤ cap := by
  cases e with
  | invoke c | ret c r =>
    obtain rfl : a = b := by simpa [fifoStep] using h
    exact ha
  | commit c r =>
    simp only [fifoStep, Option.ite_none_right_eq_some, Option.some.injEq] at h
    obtain ⟨-, rfl⟩ := h
    cases c with
    | send p timeout =>
      by_cases hl : a.length < cap
      · simp only [fifo, hl, ↓reduceIte, List.length_append, List.length_singleton]
        omega
      · simpa [fifo, hl] using ha
    | recv timeout =>
      cases a with
      | nil => simp [fifo]
      | cons m rest => simpa [fifo] using Nat.le_of_succ_le ha
    | _ => exact ha

/-- The abstract queue never holds more than `cap` messages. -/
theorem fifo_length {a b : List Msg} {es : List Event}
    (h : es.foldlM (fifoStep cap size) a = some b) (ha : a.length ≤ cap) : b.length ≤ cap := by
  induction es generalizing a with
  | nil =>
    obtain rfl : a = b := by simpa using h
    exact ha
  | cons e es ih =>
    simp only [List.foldlM_cons, Option.bind_eq_bind, Option.bind_eq_some_iff] at h
    obtain ⟨c, he, hes⟩ := h
    exact ih hes (fifoStep_length he ha)

/-- Every commit of a legal trace carries the answer of the abstract queue in the
state before it. -/
theorem fifo_commit {b : List Msg} {pre post : List Event} {c : Call} {r : Reply}
    (h : (pre ++ .commit c r :: post).foldlM (fifoStep cap size) [] = some b) :
    ∃ a, pre.foldlM (fifoStep cap size) [] = some a ∧ r = (fifo cap size a c).1 := by
  simp only [List.foldlM_append, List.foldlM_cons, Option.bind_eq_bind,
    Option.bind_eq_some_iff] at h
  obtain ⟨a, ha, d, hd, -⟩ := h
  simp only [fifoStep, Option.ite_none_right_eq_some] at hd
  exact ⟨a, ha, hd.1.symm⟩

/-- A send fails only on a full queue. -/
theorem send_fails {a : List Msg} {p : ℕ → UInt8} {timeout : ℤ}
    (h : (fifo cap size a (.send p timeout)).1.ret = -1) : cap ≤ a.length := by
  by_contra hl
  simp [fifo, Nat.not_le.mp hl, sendOk] at h

/-- A receive fails only on an empty queue. -/
theorem recv_fails {a : List Msg} {timeout : ℤ}
    (h : (fifo cap size a (.recv timeout)).1.ret = -1) : a = [] := by
  cases a with
  | nil => rfl
  | cons m rest => simp [fifo, recvOk] at h

end Ohmylib.Queue
