import Ohmylib.Monitor.Discipline

/-! The history of one thread. Each control point has a phase; an event leads from
one phase to the next and every other statement stays in its phase. Then the
events of each thread form a path of phases, however the threads interleave. -/

namespace Ohmylib.Monitor

variable {T σ κ L C E Φ : Type*} {P : Program σ κ L C E}

/-- A list of events that leads from one phase to another. -/
inductive Path (next : Φ → E → Φ → Prop) : Φ → List E → Φ → Prop
  | nil (a : Φ) : Path next a [] a
  | cons {a b c : Φ} {e : E} {es : List E} (h : next a e b) (rest : Path next b es c) :
      Path next a (e :: es) c

/-- A step without an event stays in its phase. -/
def Follows (next : Φ → E → Φ → Prop) (a b : Φ) : Option E → Prop
  | none => b = a
  | some e => next a e b

/-- The obligation of one action in phase `a`. -/
def Phased (next : Φ → E → Φ → Prop) (phase : L → Φ) (out a : Φ) : Action σ κ L E → Prop
  | .lock l' | .unlock l' | .broadcast _ l' => phase l' = a
  | .access f => ∀ v, Follows next a (phase (f v).2.1) (f v).2.2
  | .wait _ resume => ∀ zero, phase (resume zero) = a
  | .ret e => next a e out

/-- Phases for all control points of a program. -/
structure Phases (P : Program σ κ L C E) (Φ : Type*) where
  next : Φ → E → Φ → Prop
  out : Φ
  phase : L → Φ
  entry : ∀ c, next out (P.invoke c) (phase (P.entry c))
  sound : ∀ l, Phased next phase out (phase l) (P.code l)

/-- The events of one thread, in order. -/
def ofThread [DecidableEq T] (t : T) (tr : List (T × E)) : List E :=
  (tr.filter fun x => x.1 = t).map Prod.snd

namespace Phases

variable (F : Phases P Φ)

/-- The phase of a status. -/
def of : Status L → Φ
  | .idle => F.out
  | .ready l | .waiting l | .woken l => F.phase l

theorem soundAt {l : L} {x : Action σ κ L E} (hc : P.code l = x) :
    Phased F.next F.phase F.out (F.phase l) x :=
  hc ▸ F.sound l

variable [DecidableEq κ]

theorem of_wakeAll (c : κ) (s : State T σ L) (t : T) :
    F.of ((wakeAll P c s).status t) = F.of (s.status t) := by
  obtain ⟨l, next, hst, hc, hw⟩ | ⟨hw, -⟩ := wakeAll_status P c s t
  · have hl := F.soundAt hc
    rw [hw, hst]
    exact hl true
  · rw [hw]

variable [DecidableEq T]

/-- The step of a thread takes its own phase along its event. -/
theorem step_self {s s' : State T σ L} {t : T} {m : Move C} {e : Option E}
    (h : step P s t m = some (s', e)) :
    Follows F.next (F.of (s.status t)) (F.of (s'.status t)) e := by
  cases step_effect h with
  | call c hl => simpa [State.goto, hl, of, Follows] using F.entry c
  | lock hl hc | unlock hl hc | broadcast hl hc | ret hl hc =>
    simpa [State.goto, hl, of, Follows, Phased] using F.soundAt hc
  | access hl hc => simpa [State.goto, hl, of] using F.soundAt hc s.shared
  | sleep hl hc | relock hl => simp [State.goto, hl, of, Follows]
  | fail hl hc => simpa [State.goto, hl, of, Follows] using F.soundAt hc false
  | wake zero hl hc => simpa [State.goto, hl, of, Follows] using F.soundAt hc zero

/-- The step of a thread leaves the phases of the others alone. -/
theorem step_other {s s' : State T σ L} {t u : T} {m : Move C} {e : Option E} (hu : u ≠ t)
    (h : step P s t m = some (s', e)) : F.of (s'.status u) = F.of (s.status u) := by
  cases step_effect h with
  | broadcast hl hc => simpa [State.goto, Function.update_of_ne hu] using F.of_wakeAll _ s u
  | _ => simp [State.goto, Function.update_of_ne hu]

/-- In every run the events of each thread are a path from its first phase to its
last. -/
theorem exec_path {s s' : State T σ L} {moves : List (T × Move C)} {tr : List (T × E)}
    (h : exec P s moves = some (s', tr)) (t : T) :
    Path F.next (F.of (s.status t)) (ofThread t tr) (F.of (s'.status t)) := by
  induction moves generalizing s tr with
  | nil =>
    simp only [exec, Option.some.injEq, Prod.mk.injEq] at h
    obtain ⟨rfl, rfl⟩ := h
    exact .nil _
  | cons x rest ih =>
    obtain ⟨u, m⟩ := x
    obtain ⟨s₁, e, tr', h₁, h₂, rfl⟩ := exec_cons P h
    have hp := ih h₂
    by_cases hu : t = u
    · subst hu
      have hs := F.step_self h₁
      cases e with
      | none =>
        rw [Follows] at hs
        simpa [ofThread, ← hs] using hp
      | some e => simpa [ofThread] using Path.cons hs hp
    · rw [F.step_other hu h₁] at hp
      cases e with
      | none => simpa [ofThread] using hp
      | some e => simpa [ofThread, Ne.symm hu] using hp

end Phases

end Ohmylib.Monitor
