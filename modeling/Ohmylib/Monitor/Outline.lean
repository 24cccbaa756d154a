import Ohmylib.Monitor.Discipline

/-! Proof outlines. An invariant of the shared state holds while the mutex is
free, an assertion at every control point inside a critical section. Both may
mention an abstract state, which the events of the run drive, and the nonempty
wait sets. The rule: if each action keeps its assertions and every event it emits
is accepted by the abstract state, then every run is accepted as a whole. -/

namespace Ohmylib.Monitor

variable {T σ κ L C E α : Type*} {P : Program σ κ L C E}

/-- An assertion on the shared state, the abstract state and the wait sets. -/
abbrev Assertion (σ κ α : Type*) := σ → α → (κ → Prop) → Prop

/-- The abstract step of an optional event. -/
def accept (spec : α → E → Option α) (a : α) : Option E → Option α
  | none => some a
  | some e => spec a e

/-- The proof obligation of one action. -/
def Sound (spec : α → E → Option α) (inv : Assertion σ κ α) (pre : L → Assertion σ κ α) (l : L) :
    Action σ κ L E → Prop
  | .lock l' => ∀ v a W, inv v a W → pre l' v a W
  | .unlock _ => ∀ v a W, pre l v a W → inv v a W
  | .access f => ∀ v a W, pre l v a W →
      ∃ a', accept spec a (f v).2.2 = some a' ∧ pre (f v).2.1 (f v).1 a' W
  | .wait c next => (∀ v a W, pre l v a W → inv v a (fun d => d = c ∨ W d)) ∧
      (∀ v a W, pre l v a W → pre (next false) v a W) ∧
      ∀ zero v a W, inv v a W → pre (next zero) v a W
  | .broadcast c l' => ∀ v a W, pre l v a W → pre l' v a (fun d => d ≠ c ∧ W d)
  | .ret e => ∀ a, spec a e = some a

/-- Assertions for the annotated program. Wakeups only empty wait sets, so the
assertions are closed under smaller wait sets. -/
structure Outline (A : Annotation P) (α : Type*) where
  spec : α → E → Option α
  inv : Assertion σ κ α
  pre : L → Assertion σ κ α
  invoke : ∀ c a, spec a (P.invoke c) = some a
  inv_anti : ∀ {v a} {W W' : κ → Prop}, (∀ d, W' d → W d) → inv v a W → inv v a W'
  pre_anti : ∀ {l v a} {W W' : κ → Prop}, (∀ d, W' d → W d) → pre l v a W → pre l v a W'
  sound : ∀ l, A.covered l → Sound spec inv pre l (P.code l)

section Waits

variable [DecidableEq T]

/-- A thread enters at most the wait set of its own control point. -/
theorem waits_goto {s : State T σ L} {t : T} {x : Status L} {o : Option T} {v : σ} {d : κ}
    (h : Waits P { s.goto t x with owner := o, shared := v } d) :
    (∃ l, x = .waiting l ∧ (P.code l).cond = some d) ∨ Waits P s d := by
  obtain ⟨u, l, hu, hd⟩ := h
  by_cases hut : u = t
  · subst hut
    simp only [State.goto, Function.update_self] at hu
    exact .inl ⟨l, hu, hd⟩
  · simp only [State.goto, Function.update_of_ne hut] at hu
    exact .inr ⟨u, l, hu, hd⟩

/-- A thread that does not go to sleep enters no wait set. -/
theorem waits_goto_awake {s : State T σ L} {t : T} {x : Status L} {o : Option T} {v : σ} {d : κ}
    (hx : ∀ l, x ≠ .waiting l) (h : Waits P { s.goto t x with owner := o, shared := v } d) :
    Waits P s d := by
  rcases waits_goto h with ⟨l, hl, -⟩ | h
  · exact absurd hl (hx l)
  · exact h

omit [DecidableEq T] in
/-- A broadcast empties the wait set of its condition and no other. -/
theorem waits_wakeAll [DecidableEq κ] {s : State T σ L} {c d : κ} (h : Waits P (wakeAll P c s) d) :
    d ≠ c ∧ Waits P s d := by
  obtain ⟨u, l, hu, hd⟩ := h
  obtain ⟨l', next, -, -, hw⟩ | ⟨hw, hne⟩ := wakeAll_status P c s u
  · rw [hw] at hu
    cases hu
  · rw [hw] at hu
    exact ⟨fun hdc => hne l hu (hdc ▸ hd), u, l, hu, hd⟩

end Waits

namespace Outline

variable [DecidableEq T] [DecidableEq κ] {A : Annotation P} (O : Outline A α)

/-- The invariant of a run: the discipline, the shared invariant while the mutex
is free, the assertion of the owner's control point, and for every woken thread
that the shared invariant is all it needs. -/
structure Holds (s : State T σ L) (a : α) : Prop where
  disciplined : A.Disciplined s
  free : s.owner = none → O.inv s.shared a (Waits P s)
  owned : ∀ {t l}, s.owner = some t → s.status t = .ready l → O.pre l s.shared a (Waits P s)
  woken : ∀ {t l}, s.status t = .woken l → ∀ v b W, O.inv v b W → O.pre l v b W

variable {O}

omit [DecidableEq T] [DecidableEq κ] in
theorem holds_initial {v : σ} {a : α} (h : O.inv v a fun _ => False) :
    O.Holds (.initial (T := T) v) a where
  disciplined := A.disciplined_initial v
  free _ := O.inv_anti (by rintro d ⟨t, l, hl, -⟩; simp [State.initial] at hl) h
  owned h := by simp [State.initial] at h
  woken h := by simp [State.initial] at h

omit [DecidableEq T] [DecidableEq κ] in
theorem Holds.soundAt {s : State T σ L} {a : α} (h : O.Holds s a) {t : T} {l : L}
    {x : Action σ κ L E} (hl : s.status t = .ready l) (hc : P.code l = x) :
    Sound O.spec O.inv O.pre l x :=
  hc ▸ O.sound l (h.disciplined.ready hl).1

omit [DecidableEq κ] in
/-- The woken threads stay woken when another thread moves. -/
private theorem woken_goto {s : State T σ L} {a : α} (h : O.Holds s a) {t : T} {x : Status L}
    (hx : ∀ l, x = .woken l → ∀ v b W, O.inv v b W → O.pre l v b W) {u : T} {l : L}
    (hu : (s.goto t x).status u = .woken l) : ∀ v b W, O.inv v b W → O.pre l v b W := by
  by_cases hut : u = t
  · subst hut
    simp only [State.goto, Function.update_self] at hu
    exact hx l hu
  · simp only [State.goto, Function.update_of_ne hut] at hu
    exact h.woken hu

omit [DecidableEq T] in
private theorem woken_wakeAll {s : State T σ L} {a : α} (h : O.Holds s a) (c : κ) {u : T} {l : L}
    (hu : (wakeAll P c s).status u = .woken l) : ∀ v b W, O.inv v b W → O.pre l v b W := by
  obtain ⟨l', next, hst, hc, hw⟩ | ⟨hw, -⟩ := wakeAll_status P c s u
  · have hsound := O.sound l' (h.disciplined.waiting hst).2
    rw [hc] at hsound
    rw [hw] at hu
    cases hu
    exact hsound.2.2 true
  · exact h.woken (hw ▸ hu)

omit [DecidableEq κ] in
/-- After a move that leaves the mutex with `t`, only the assertion of its new
control point has to be shown. -/
private theorem holds_owner {s : State T σ L} {t : T} {l : L} {v : σ} {a : α}
    (hd : A.Disciplined { s.goto t (.ready l) with owner := some t, shared := v })
    (hp : O.pre l v a (Waits P s))
    (hw : ∀ {u l'}, s.status u = .woken l' → ∀ v b W, O.inv v b W → O.pre l' v b W) :
    O.Holds { s.goto t (.ready l) with owner := some t, shared := v } a where
  disciplined := hd
  free h := by simp at h
  owned {u l'} hu hl := by
    obtain rfl : t = u := by simpa using hu
    obtain rfl : l = l' := by simpa [State.goto] using hl
    exact O.pre_anti (fun d => waits_goto_awake (by simp)) hp
  woken {u l'} hu := by
    by_cases hut : u = t
    · subst hut
      simp [State.goto] at hu
    · simp only [State.goto, Function.update_of_ne hut] at hu
      exact hw hu

omit [DecidableEq κ] in
/-- After a move that releases the mutex, only the invariant has to be shown. -/
private theorem holds_free {s : State T σ L} {t : T} {x : Status L} {v : σ} {a : α}
    (hd : A.Disciplined { s.goto t x with owner := none, shared := v })
    (hx : ∀ l, x ≠ .woken l)
    (hi : O.inv v a (Waits P { s.goto t x with owner := none, shared := v })) (h : O.Holds s a) :
    O.Holds { s.goto t x with owner := none, shared := v } a where
  disciplined := hd
  free _ := hi
  owned h := by simp at h
  woken hu := woken_goto h (fun l hl => absurd hl (hx l)) hu

omit [DecidableEq κ] in
/-- A move of a thread outside the critical section changes nothing the owner or
the invariant can see, except that a wait set may shrink. -/
private theorem holds_outside {s : State T σ L} {t : T} {x : Status L} {a : α} (h : O.Holds s a)
    (ho : s.owner ≠ some t) (hd : A.Disciplined (s.goto t x)) (hx : ∀ l, x ≠ .waiting l)
    (hxw : ∀ l, x = .woken l → ∀ v b W, O.inv v b W → O.pre l v b W) :
    O.Holds (s.goto t x) a where
  disciplined := hd
  free hf := O.inv_anti (fun d => waits_goto_awake hx) (h.free hf)
  owned {u l'} hu hl := by
    have hut : u ≠ t := fun hut => ho (hut ▸ hu)
    simp only [State.goto, Function.update_of_ne hut] at hl
    exact O.pre_anti (fun d => waits_goto_awake hx) (h.owned hu hl)
  woken hu := woken_goto h hxw hu

/-- One move: its event is accepted and the invariant of the run is kept. -/
theorem Holds.step {s s' : State T σ L} {a : α} (h : O.Holds s a) {t : T} {m : Move C}
    {e : Option E} (hm : A.Allows m) (hs : Monitor.step P s t m = some (s', e)) :
    ∃ a', accept O.spec a e = some a' ∧ O.Holds s' a' := by
  have hd := h.disciplined.step hm hs
  cases step_effect hs with
  | call c hl =>
    exact ⟨a, O.invoke c a, holds_outside h (h.disciplined.idle hl) hd (by simp) (by simp)⟩
  | lock hl hc ho =>
    exact ⟨a, rfl, holds_owner hd (h.soundAt hl hc _ _ _ (h.free ho)) h.woken⟩
  | unlock hl hc =>
    have ho := h.disciplined.owns hl (h.disciplined.closed hl hc).1
    have hi := h.soundAt hl hc _ _ _ (h.owned ho hl)
    exact ⟨a, rfl, holds_free hd (by simp) (O.inv_anti (fun d => waits_goto_awake (by simp)) hi) h⟩
  | access hl hc =>
    have ho := h.disciplined.owns hl (h.disciplined.closed hl hc).1
    obtain ⟨a', ha, hp⟩ := h.soundAt hl hc _ _ _ (h.owned ho hl)
    refine ⟨a', ha, ?_⟩
    simp only [State.goto_owner, ho] at hd ⊢
    exact holds_owner hd hp h.woken
  | @sleep l c next hl hc =>
    have ho := h.disciplined.owns hl (h.disciplined.closed hl hc).1
    have hi := (h.soundAt hl hc).1 _ _ _ (h.owned ho hl)
    refine ⟨a, rfl, holds_free hd (by simp) (O.inv_anti (fun d hw => ?_) hi) h⟩
    rcases waits_goto hw with ⟨l', hl', hd'⟩ | hw
    · simp only [Status.waiting.injEq] at hl'
      subst hl'
      simp only [hc, Action.cond, Option.some.injEq] at hd'
      exact .inl hd'.symm
    · exact .inr hw
  | @broadcast l l' c hl hc =>
    have ho := h.disciplined.owns hl (h.disciplined.closed hl hc).1
    have hp := h.soundAt hl hc _ _ _ (h.owned ho hl)
    refine ⟨a, rfl, ?_⟩
    have hg : (wakeAll P c s).goto t (.ready l') =
        { (wakeAll P c s).goto t (.ready l') with owner := some t, shared := s.shared } := by
      rw [← ho]; rfl
    rw [hg] at hd ⊢
    exact holds_owner hd (O.pre_anti (fun d => waits_wakeAll) hp) (woken_wakeAll h c)
  | ret hl hc =>
    have ho : s.owner ≠ some t := fun ho =>
      h.disciplined.closed hl hc ((h.disciplined.ready hl).2.mpr ho)
    exact ⟨a, h.soundAt hl hc a, holds_outside h ho hd (by simp) (by simp)⟩
  | relock hl ho =>
    exact ⟨a, rfl, holds_owner hd (h.woken hl _ _ _ (h.free ho)) h.woken⟩
  | @fail l c next hl hc =>
    have ho := h.disciplined.owns hl (h.disciplined.closed hl hc).1
    have hp := (h.soundAt hl hc).2.1 _ _ _ (h.owned ho hl)
    refine ⟨a, rfl, ?_⟩
    have hg : s.goto t (.ready (next false)) =
        { s.goto t (.ready (next false)) with owner := some t, shared := s.shared } := by
      rw [← ho]; rfl
    rw [hg] at hd ⊢
    exact holds_owner hd hp h.woken
  | @wake l c next zero hl hc =>
    obtain ⟨hne, hcov⟩ := h.disciplined.waiting hl
    have hsound := O.sound l hcov
    rw [hc] at hsound
    refine ⟨a, rfl, holds_outside h hne hd (by simp) (fun l' hl' => ?_)⟩
    simp only [Status.woken.injEq] at hl'
    exact hl' ▸ hsound.2.2 zero

/-- Every run of the family is accepted by the abstract state, event by event, and
ends in a state where the invariant of the run holds. -/
theorem Holds.exec {s s' : State T σ L} {a : α} (h : O.Holds s a) {moves : List (T × Move C)}
    {tr : List (T × E)} (hm : ∀ x ∈ moves, A.Allows x.2)
    (hs : Monitor.exec P s moves = some (s', tr)) :
    ∃ a', (tr.map Prod.snd).foldlM O.spec a = some a' ∧ O.Holds s' a' := by
  induction moves generalizing s a tr with
  | nil =>
    simp only [Monitor.exec, Option.some.injEq, Prod.mk.injEq] at hs
    obtain ⟨rfl, rfl⟩ := hs
    exact ⟨a, rfl, h⟩
  | cons x rest ih =>
    obtain ⟨s₁, e, tr', h₁, h₂, rfl⟩ := exec_cons P hs
    obtain ⟨a₁, ha₁, h₁'⟩ := h.step (hm x (by simp)) h₁
    obtain ⟨a', ha', h'⟩ := ih h₁' (fun y hy => hm y (by simp [hy])) h₂
    refine ⟨a', ?_, h'⟩
    cases e with
    | none =>
      obtain rfl : a = a₁ := by simpa [accept] using ha₁
      simpa using ha'
    | some e =>
      simp only [accept] at ha₁
      simpa [ha₁] using ha'

end Outline

end Ohmylib.Monitor
