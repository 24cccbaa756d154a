import Ohmylib.ListHead.Runs

/-! The loops of the header. A loop that only looks comes by the entries of the list in
their order, or in the reverse one, or by those behind a given entry. The safe loops let
their body remove the entry that they are at; the plain loop does not, and runs into the
poison that `list_del` leaves. -/

namespace Ohmylib.ListHead

open Linked Loop

variable {m m' : Memory} {w : Contents Addr} {cs : List Cmd} {x head offset : Addr}
  {xs l r : List Addr} {fuel : ℕ}

theorem containerOf_add (x offset : Addr) : containerOf x offset + offset = x :=
  BitVec.sub_add_cancel x offset

/-- A loop over the containers runs as the one over their members. -/
theorem entries_shift {σ : Type} (init : Memory → Option Addr) (step : Memory → Addr → Option Addr)
    (body : Addr → Memory × σ → Option (Memory × σ)) (fuel : ℕ) (s : Memory × σ) :
    forEach (fun s => (init s.1).map (containerOf · offset)) (· + offset == head)
      (fun s pos => (step s.1 (pos + offset)).map (containerOf · offset)) body fuel s =
    forEach (fun s => init s.1) (· == head) (fun s pos => step s.1 pos)
      (fun x => body (containerOf x offset)) fuel s :=
  forEach_shift (fun s => init s.1) (· == head) (fun s pos => step s.1 pos)
    (f := (containerOf · offset)) (g := (· + offset)) (containerOf_add · offset) body fuel s

theorem listForEachEntry_eq {σ : Type} (body : Addr → Memory × σ → Option (Memory × σ))
    (s : Memory × σ) : listForEachEntry head body fuel s offset =
      listForEach head (fun x => body (containerOf x offset)) fuel s :=
  entries_shift (Memory.next · head) Memory.next body fuel s

theorem entriesSafe_shift {σ : Type} (init : Memory → Option Addr)
    (step : Memory → Addr → Option Addr) (body : Addr → Memory × σ → Option (Memory × σ))
    (fuel : ℕ) (s : Memory × σ) :
    forEachSafe (fun s => (init s.1).map (containerOf · offset)) (· + offset == head)
      (fun s pos => (step s.1 (pos + offset)).map (containerOf · offset)) body fuel s =
    forEachSafe (fun s => init s.1) (· == head) (fun s pos => step s.1 pos)
      (fun x => body (containerOf x offset)) fuel s :=
  forEachSafe_shift (fun s => init s.1) (· == head) (fun s pos => step s.1 pos)
    (f := (containerOf · offset)) (g := (· + offset)) (containerOf_add · offset) body fuel s

/-- What is behind the head or an entry is in the list. -/
theorem mem_of_behind {pos : Addr} (hx : l ++ pos :: r = head :: xs) (hr : x ∈ r) : x ∈ xs := by
  cases l with
  | nil => exact (List.cons.inj hx).2 ▸ hr
  | cons y l => exact (List.cons.inj hx).2 ▸ by simp [hr]

section Sound

variable (hs : Sound m w) (hh : w head = some xs)
include hs hh

theorem head_mapped : m.mapped head := hs.mapped head ⟨head, xs, hh, List.mem_cons_self⟩

theorem not_head : ∀ x ∈ xs, (x == head) = false := fun _ hx =>
  beq_eq_false_iff_ne.mpr fun hxh => (hs.stores.ring hh).notMem (hxh ▸ hx)

theorem next_head : m.next head = some (xs.headD head) := by
  rw [Memory.next, if_pos (head_mapped hs hh), (hs.stores.ring hh).next_eq]

theorem prev_head : m.prev head = some (xs.reverse.headD head) := by
  have hp : m.heads.prev head = xs.reverse.headD head := (hs.stores.ring hh).mirror.next_eq
  rw [Memory.prev, if_pos (head_mapped hs hh), hp]

theorem next_entry (hx : l ++ x :: r = xs) : m.next x = some (r.headD head) := by
  subst hx
  have hm : m.mapped x := hs.mapped x ⟨head, _, hh, by simp⟩
  rw [Memory.next, if_pos hm, (hs.stores.ring hh).next_split]

/-- Behind the head or any entry comes the rest of the list. -/
theorem next_from (hx : l ++ x :: r = head :: xs) : m.next x = some (r.headD head) := by
  cases l with
  | nil =>
    obtain ⟨rfl, rfl⟩ := List.cons.inj hx
    exact next_head hs hh
  | cons y l => exact next_entry hs hh (List.cons.inj hx).2

theorem prev_entry (hx : l ++ x :: r = xs.reverse) : m.prev x = some (r.headD head) := by
  obtain rfl : xs = r.reverse ++ x :: l.reverse := by
    rw [← List.reverse_reverse xs, ← hx]
    simp
  have hm : m.mapped x := hs.mapped x ⟨head, _, hh, by simp⟩
  rw [Memory.prev, if_pos hm, (hs.stores.ring hh).prev_split, List.reverse_reverse]

end Sound

/-- The body of a loop that notes where it is. -/
def note (pos : Addr) (s : Memory × List Addr) : Option (Memory × List Addr) :=
  some (s.1, s.2 ++ [pos])

section Look

variable (hs : Sound m w) (hh : w head = some xs) (hf : xs.length < fuel)
include hs hh hf

theorem listForEach_note : listForEach head note fuel (m, []) = .done (m, xs) := by
  have hc := forEach_collect (not_head hs hh) (Memory.next · head) Memory.next id
    (fun _ _ _ => next_entry hs hh) (next_head hs hh) (beq_self_eq_true head) hf
  rwa [List.map_id] at hc

theorem listForEachEntry_note : listForEachEntry head note fuel (m, []) offset =
    .done (m, xs.map (containerOf · offset)) := by
  rw [listForEachEntry_eq]
  exact forEach_collect (not_head hs hh) (Memory.next · head) Memory.next (containerOf · offset)
    (fun _ _ _ => next_entry hs hh) (next_head hs hh) (beq_self_eq_true head) hf

theorem listForEachEntryReverse_note : listForEachEntryReverse head note fuel (m, []) offset =
    .done (m, xs.reverse.map (containerOf · offset)) :=
  (entries_shift (Memory.prev · head) Memory.prev note fuel (m, [])).trans
    (forEach_collect (fun x hx => not_head hs hh x (List.mem_reverse.mp hx)) (Memory.prev · head)
      Memory.prev (containerOf · offset) (fun _ _ _ => prev_entry hs hh) (prev_head hs hh)
      (beq_self_eq_true head) (by simpa using hf))

omit hf in
/-- From an entry, or from the head, the loop comes by what is behind it. -/
theorem listForEachEntryContinue_note {pos : Addr} (hx : l ++ pos :: r = head :: xs)
    (hf : r.length < fuel) :
    listForEachEntryContinue head note fuel (m, []) offset (containerOf pos offset) =
      .done (m, r.map (containerOf · offset)) := by
  have hsub : ∀ x ∈ r, x ∈ xs := fun x hr => mem_of_behind hx hr
  have hstep : ∀ l' x r', l' ++ x :: r' = r → m.next x = some (r'.headD head) := by
    rintro l' x r' rfl
    exact next_from (l := l ++ pos :: l') hs hh (by simpa using hx)
  have hi : listForEachEntryContinue head note fuel (m, []) offset (containerOf pos offset) =
      forEach (fun s => (s.1.next pos).map (containerOf · offset)) (· + offset == head)
        (nextEntry offset) note fuel (m, []) := by
    simp only [listForEachEntryContinue, nextEntry, containerOf_add]
  rw [hi]
  exact (entries_shift (Memory.next · pos) Memory.next note fuel (m, [])).trans
    (forEach_collect (fun x hr => not_head hs hh x (hsub x hr)) (Memory.next · pos) Memory.next
      (containerOf · offset) hstep (next_from hs hh hx) (beq_self_eq_true head) hf)

end Look

/-- After any calls that keep to the rules, each list can be walked forwards, backwards from its
end, and onwards from its head, where `list_prepare_entry` starts without an entry, or from any
entry, and is empty when `list_empty` tells so. -/
theorem walks_after_run (hl : LegalRun m.mapped (fun _ => none) cs) :
    ∃ m', run cs m = some m' ∧ ∀ head xs, applyAll (fun _ => none) cs head = some xs →
      listEmpty m' head = some (decide (xs = [])) ∧
      ∀ fuel offset, xs.length < fuel →
        listForEach head note fuel (m', []) = .done (m', xs) ∧
        listForEachEntry head note fuel (m', []) offset =
          .done (m', xs.map (containerOf · offset)) ∧
        listForEachEntryReverse head note fuel (m', []) offset =
          .done (m', xs.reverse.map (containerOf · offset)) ∧
        listForEachEntryContinue head note fuel (m', []) offset (listPrepareEntry head offset 0) =
          .done (m', xs.map (containerOf · offset)) ∧
        ∀ l pos r, l ++ pos :: r = head :: xs →
          listForEachEntryContinue head note fuel (m', []) offset (containerOf pos offset) =
            .done (m', r.map (containerOf · offset)) := by
  have hs₀ : Sound m (fun _ => none) := ⟨.nil m.heads, nofun⟩
  obtain ⟨m', hm', hs, -⟩ := run_effect hs₀ hl
  refine ⟨m', hm', fun head xs hh => ⟨listEmpty_eq hs hh, fun fuel offset hf =>
    ⟨listForEach_note hs hh hf, listForEachEntry_note hs hh hf,
      listForEachEntryReverse_note hs hh hf, ?_, fun l pos r hx => ?_⟩⟩⟩
  · rw [listPrepareEntry, if_neg (by simp)]
    exact listForEachEntryContinue_note (l := []) hs hh rfl hf
  · have hlen := congrArg List.length hx
    simp only [List.length_append, List.length_cons] at hlen
    exact listForEachEntryContinue_note hs hh hx (by omega)

theorem walks_after_run_two : ∃ m',
    run [.init 0x10, .init 0x20, .addTail 0x30 0x10, .addTail 0x40 0x10]
      ⟨fun _ => true, ⟨id, id⟩⟩ = some m' ∧
    listForEachEntryReverse 0x10 note 3 (m', []) 8 = .done (m', [0x38, 0x28]) := by
  obtain ⟨hl, hw⟩ := two_lists (fun _ => true) (a := 0x10) (b := 0x20) (x := 0x30) (y := 0x40)
    (by decide) ⟨rfl, rfl, rfl, rfl⟩
  obtain ⟨m', hm', hwalk⟩ := walks_after_run (m := ⟨fun _ => true, ⟨id, id⟩⟩) hl
  exact ⟨m', hm', ((hwalk 0x10 [0x30, 0x40] (by rw [hw]; rfl)).2 3 8 (by decide)).2.2.1⟩

/-! ### Loops that remove entries -/

/-- What a body does with the entry that the loop is at. -/
inductive Fate
  | keep
  | del
  | delInit
  | move (head : Addr)
  | moveTail (head : Addr)
  deriving DecidableEq

def Fate.cmds (pos : Addr) : Fate → List Cmd
  | .keep => []
  | .del => [.del pos]
  | .delInit => [.delInit pos]
  | .move head => [.move pos head]
  | .moveTail head => [.moveTail pos head]

/-- An entry is moved to another list only. -/
def Fate.Fits (w : Contents Addr) (head : Addr) : Fate → Prop
  | .move h | .moveTail h => h ≠ head ∧ (w h).isSome
  | _ => True

/-- The body that gives each entry its fate. -/
def sift (fate : Addr → Fate) (pos : Addr) (s : Memory × Unit) : Option (Memory × Unit) :=
  (run ((fate pos).cmds pos) s.1).map (·, ())

/-- The lists once the entries of `l` have met their fates. -/
def sifted (fate : Addr → Fate) (w : Contents Addr) (l : List Addr) : Contents Addr :=
  applyAll w (l.flatMap fun x => (fate x).cmds x)

theorem sifted_append (fate : Addr → Fate) (w : Contents Addr) (l : List Addr) (x : Addr) :
    sifted fate w (l ++ [x]) = applyAll (sifted fate w l) ((fate x).cmds x) := by
  simp [sifted, applyAll]

theorem detach_isSome {a : Addr} (ha : a ≠ x) (hw : (w a).isSome) : (w.detach x a).isSome := by
  rwa [Contents.detach_of_ne ha, Option.isSome_map]

section Fate

variable {k : List Addr} {f : Fate}

/-- One entry meets its fate: the entries before and behind it stay. -/
theorem fate_step (hs : Sound m w) (hh : w head = some (k ++ x :: r)) (hf : f.Fits w head) :
    LegalRun m.mapped w (f.cmds x) ∧
      applyAll w (f.cmds x) head = some (k ++ [x].filter (fun _ => f = .keep) ++ r) ∧
      ∀ a, (w a).isSome → (applyAll w (f.cmds x) a).isSome := by
  have hentry : w.Entry x := ⟨head, _, hh, by simp⟩
  have hne : ∀ a, (w a).isSome → a ≠ x := by
    rintro a ha rfl
    obtain ⟨ys, ha⟩ := Option.isSome_iff_exists.mp ha
    exact hs.stores.head_not_entry ha hentry
  have hhx : head ≠ x := hne head (hh ▸ rfl)
  have hkx : x ∉ k := by
    have hn := (List.nodup_cons.mp (Cycle.nodup_coe_iff.mp (hs.stores.ring hh).nodup)).2
    exact fun hk => (List.nodup_append.mp hn).2.2 x hk x List.mem_cons_self rfl
  have hdet : w.detach x head = some (k ++ r) := by
    rw [Contents.detach_of_ne hhx, hh, Option.map_some, List.erase_append_right _ hkx,
      List.erase_cons_head]
  cases f with
  | keep => exact ⟨trivial, by simpa [applyAll, Fate.cmds] using hh, fun _ ha => ha⟩
  | del =>
    exact ⟨⟨.inl hentry, trivial⟩, by simpa [applyAll, Fate.cmds, Cmd.apply] using hdet,
      fun a ha => detach_isSome (hne a ha) ha⟩
  | delInit =>
    refine ⟨⟨.inl hentry, trivial⟩, ?_, fun a ha => ?_⟩
    · simpa [applyAll, Fate.cmds, Cmd.apply, Contents.set_of_ne hhx] using hdet
    · have hd := detach_isSome (hne a ha) ha
      simpa [applyAll, Fate.cmds, Cmd.apply, Contents.set_of_ne (hne a ha)] using hd
  | move h =>
    have hd := detach_isSome (hne h hf.2) hf.2
    obtain ⟨ys, hys⟩ := Option.isSome_iff_exists.mp hd
    refine ⟨⟨⟨.inl hentry, (hne h hf.2).symm, hf.2⟩, trivial⟩, ?_, fun a ha => ?_⟩
    · simpa [applyAll, Fate.cmds, Cmd.apply, Contents.push_of_ne hf.1.symm hhx] using hdet
    · by_cases hah : a = h
      · simp [applyAll, Fate.cmds, Cmd.apply, hah, Contents.push_of_head hys]
      · have hda := detach_isSome (hne a ha) ha
        simpa [applyAll, Fate.cmds, Cmd.apply, Contents.push_of_ne hah (hne a ha)] using hda
  | moveTail h =>
    have hd := detach_isSome (hne h hf.2) hf.2
    obtain ⟨ys, hys⟩ := Option.isSome_iff_exists.mp hd
    refine ⟨⟨⟨.inl hentry, (hne h hf.2).symm, hf.2⟩, trivial⟩, ?_, fun a ha => ?_⟩
    · simpa [applyAll, Fate.cmds, Cmd.apply, Contents.append_of_ne hf.1.symm hhx] using hdet
    · by_cases hah : a = h
      · simp [applyAll, Fate.cmds, Cmd.apply, hah, Contents.append_of_head hys]
      · have hda := detach_isSome (hne a ha) ha
        simpa [applyAll, Fate.cmds, Cmd.apply, Contents.append_of_ne hah (hne a ha)] using hda

end Fate

section Safe

/-- How a loop goes through a list: `way xs` is the list when the loop meets the entries `xs`
one after another. An entry that it has met can be left out. -/
structure Way (way : List Addr → List Addr) : Prop where
  split : ∀ l r, ∃ a b, ∀ z : List Addr, z.reverse = z → way (l ++ z ++ r) = a ++ z ++ b

theorem way_onwards (k : List Addr) : Way (k ++ ·) := ⟨fun l r => ⟨k ++ l, r, fun z _ => by simp⟩⟩

theorem way_back : Way List.reverse :=
  ⟨fun l r => ⟨r.reverse, l.reverse, fun z hz => by simp [hz]⟩⟩

variable {fate : Addr → Fate} {way : List Addr → List Addr}

theorem Way.split_one (hw : Way way) (l : List Addr) (x : Addr) (r : List Addr) :
    ∃ a b, way (l ++ x :: r) = a ++ x :: b ∧
      ∀ p : Addr → Bool, way (l ++ [x].filter p ++ r) = a ++ [x].filter p ++ b := by
  obtain ⟨a, b, h⟩ := hw.split l r
  refine ⟨a, b, by simpa using h [x] rfl, fun p => h _ ?_⟩
  cases hp : p x <;> simp [hp]

theorem Way.mem (hw : Way way) (hx : x ∈ xs) : x ∈ way xs := by
  obtain ⟨l, r, rfl⟩ := List.append_of_mem hx
  obtain ⟨a, b, h, -⟩ := hw.split_one l x r
  simp [h]

/-- The entries of `l` have met their fates, and the rest of the list stands. -/
structure Sifting (fate : Addr → Fate) (way : List Addr → List Addr) (m : Memory)
    (w : Contents Addr) (head : Addr) (xs l : List Addr) (s : Memory × Unit) : Prop where
  mapped : s.1.mapped = m.mapped
  sound : Sound s.1 (sifted fate w l)
  rest : ∀ r, l ++ r = xs → sifted fate w l head = some (way (l.filter (fate · = .keep) ++ r))
  heads : ∀ a, (w a).isSome → (sifted fate w l a).isSome

theorem sifting_start (hs : Sound m w) (hh : w head = some (way xs)) :
    Sifting fate way m w head xs [] (m, ()) :=
  ⟨rfl, hs, fun r hr => by simpa [sifted, applyAll, hr] using hh, fun _ ha => ha⟩

theorem Fate.Fits.mono {w' : Contents Addr} {f : Fate} (hf : f.Fits w head)
    (hw : ∀ a, (w a).isSome → (w' a).isSome) : f.Fits w' head := by
  cases f with
  | move h => exact hf.imp_right (hw h)
  | moveTail h => exact hf.imp_right (hw h)
  | _ => trivial

theorem sifting_step (hway : Way way) (hfits : ∀ x ∈ xs, (fate x).Fits w head)
    {s : Memory × Unit} (hx : l ++ x :: r = xs) (hi : Sifting fate way m w head xs l s) :
    ∃ s', sift fate x s = some s' ∧ Sifting fate way m w head xs (l ++ [x]) s' := by
  have hfx := (hfits x (hx ▸ by simp)).mono hi.heads
  obtain ⟨a, b, hsplit, hleft⟩ := hway.split_one (l.filter (fate · = .keep)) x r
  obtain ⟨hlegal, hhead, hheads⟩ := fate_step hi.sound (hsplit ▸ hi.rest _ hx) hfx
  obtain ⟨m', hm', hs', hef⟩ := run_effect hi.sound hlegal
  refine ⟨(m', ()), by rw [sift, hm', Option.map_some], hef.mapped.trans hi.mapped, ?_, ?_, ?_⟩
  · rwa [sifted_append]
  · intro r' hr'
    obtain rfl : r' = r := by simpa [← hx] using hr'
    rw [sifted_append, hhead, List.filter_append, ← hleft]
    rfl
  · intro a ha
    rw [sifted_append]
    exact hheads a (hi.heads a ha)

/-- A safe loop that finds its way reaches every entry, whatever was done to those before it, and
what it leaves of the list are the entries kept. -/
theorem forEachSafe_sift (hway : Way way) (hs : Sound m w) (hh : w head = some (way xs))
    (hfits : ∀ x ∈ xs, (fate x).Fits w head) (init : Memory → Option Addr)
    (step : Memory → Addr → Option Addr)
    (hstep : ∀ l r (s : Memory × Unit), l ++ r = xs → Sifting fate way m w head xs l s →
      ∃ n, step s.1 (r.headD head) = some n ∧ ∀ x r', r = x :: r' → n = r'.headD head)
    (hi : init m = some (xs.headD head)) (hf : xs.length < fuel) :
    ∃ m', forEachSafe (fun s => init s.1) (· == head) (fun s pos => step s.1 pos) (sift fate) fuel
        (m, ()) = .done (m', ()) ∧ Sound m' (sifted fate w xs) ∧
      sifted fate w xs head = some (way (xs.filter (fate · = .keep))) := by
  have hd : ∃ s', forEachSafe (fun s => init s.1) (· == head) (fun s pos => step s.1 pos)
      (sift fate) fuel (m, ()) = .done s' ∧ Sifting fate way m w head xs xs s' :=
    forEachSafe_done (fun x hx => not_head hs hh x (hway.mem hx))
      (fun l x r s hx hi => sifting_step hway hfits hx hi) hstep (sifting_start hs hh) hi
      (beq_self_eq_true head) hf
  obtain ⟨⟨m', ⟨⟩⟩, hd, hi⟩ := hd
  exact ⟨m', hd, hi.sound, by simpa using hi.rest [] (List.append_nil xs)⟩

/-- Onwards the next entry is read before its fate is met. -/
theorem step_onwards {k : List Addr} (l r : List Addr) (s : Memory × Unit) (hr : l ++ r = xs)
    (hi : Sifting fate (k ++ ·) m w head xs l s) :
    ∃ n, s.1.next (r.headD head) = some n ∧ ∀ x r', r = x :: r' → n = r'.headD head := by
  have hrest := hi.rest r hr
  cases r with
  | nil => exact ⟨_, next_head hi.sound hrest, by simp⟩
  | cons x r =>
    refine ⟨r.headD head, ?_, by rintro _ _ ⟨⟩; rfl⟩
    exact next_entry (l := k ++ l.filter (fate · = .keep)) hi.sound hrest (by simp)

theorem step_back (l r : List Addr) (s : Memory × Unit) (hr : l ++ r = xs)
    (hi : Sifting fate List.reverse m w head xs l s) :
    ∃ n, s.1.prev (r.headD head) = some n ∧ ∀ x r', r = x :: r' → n = r'.headD head := by
  have hrest := hi.rest r hr
  cases r with
  | nil => exact ⟨_, prev_head hi.sound hrest, by simp⟩
  | cons x r =>
    refine ⟨r.headD head, ?_, by rintro _ _ ⟨⟩; rfl⟩
    exact prev_entry (l := l.filter (fate · = .keep)) hi.sound hrest (by simp)

variable (hs : Sound m w) (hh : w head = some xs)
include hs hh

theorem sift_onwards (hfits : ∀ x ∈ xs, (fate x).Fits w head) (hf : xs.length < fuel) :
    ∃ m', listForEachSafe head (sift fate) fuel (m, ()) = .done (m', ()) ∧
      (∀ offset, listForEachEntrySafe head (fun pos => sift fate (pos + offset)) fuel (m, ())
        offset = .done (m', ())) ∧
      Sound m' (sifted fate w xs) ∧
      sifted fate w xs head = some (xs.filter (fate · = .keep)) := by
  obtain ⟨m', hd, hs', hkept⟩ := forEachSafe_sift (way_onwards []) hs hh hfits (Memory.next · head)
    Memory.next step_onwards (next_head hs hh) hf
  refine ⟨m', hd, fun offset => ?_, hs', hkept⟩
  refine (entriesSafe_shift (Memory.next · head) Memory.next _ fuel (m, ())).trans ?_
  simpa only [containerOf_add] using hd

/-- Backwards the entries meet their fates in the reverse order. -/
theorem sift_back (hfits : ∀ x ∈ xs, (fate x).Fits w head) (hf : xs.length < fuel) :
    ∃ m', (∀ offset, listForEachEntrySafeReverse head (fun pos => sift fate (pos + offset)) fuel
        (m, ()) offset = .done (m', ())) ∧
      Sound m' (sifted fate w xs.reverse) ∧
      sifted fate w xs.reverse head = some (xs.filter (fate · = .keep)) := by
  have hh' : w head = some xs.reverse.reverse := by rwa [List.reverse_reverse]
  obtain ⟨m', hd, hs', hkept⟩ := forEachSafe_sift way_back hs hh'
    (fun x hx => hfits x (List.mem_reverse.mp hx)) (Memory.prev · head) Memory.prev step_back
    (prev_head hs hh) (by rwa [List.length_reverse])
  refine ⟨m', fun offset => ?_, hs', ?_⟩
  · refine (entriesSafe_shift (Memory.prev · head) Memory.prev _ fuel (m, ())).trans ?_
    simpa only [containerOf_add] using hd
  · rwa [List.filter_reverse, List.reverse_reverse] at hkept

/-- From the head or an entry on, the entries behind it meet their fates. -/
theorem sift_from {pos : Addr} (hx : l ++ pos :: r = head :: xs)
    (hfits : ∀ x ∈ r, (fate x).Fits w head) (hf : r.length < fuel) :
    ∃ m', (∀ offset, listForEachEntrySafeContinue head (fun pos => sift fate (pos + offset)) fuel
        (m, ()) offset (containerOf pos offset) = .done (m', ())) ∧
      Sound m' (sifted fate w r) ∧
      sifted fate w r head = some ((l ++ [pos]).tail ++ r.filter (fate · = .keep)) := by
  have hh' : w head = some ((l ++ [pos]).tail ++ r) := by
    rw [hh]
    cases l with
    | nil => exact congrArg some (List.cons.inj hx).2.symm
    | cons y l => simpa using (List.cons.inj hx).2.symm
  obtain ⟨m', hd, hs', hkept⟩ := forEachSafe_sift (way_onwards (l ++ [pos]).tail) hs hh' hfits
    (Memory.next · pos) Memory.next step_onwards (next_from hs hh hx) hf
  refine ⟨m', fun offset => ?_, hs', hkept⟩
  have hi : listForEachEntrySafeContinue head (fun pos => sift fate (pos + offset)) fuel (m, ())
      offset (containerOf pos offset) =
      forEachSafe (fun s => (s.1.next pos).map (containerOf · offset)) (· + offset == head)
        (nextEntry offset) (fun pos => sift fate (pos + offset)) fuel (m, ()) := by
    simp only [listForEachEntrySafeContinue, nextEntry, containerOf_add]
  rw [hi]
  refine (entriesSafe_shift (Memory.next · pos) Memory.next _ fuel (m, ())).trans ?_
  simpa only [containerOf_add] using hd

/-- The safe loops reach every entry, whatever was done to those before it, and what they
leave of the list are the entries kept: onwards, backwards, and from the head or any entry on. -/
theorem listForEachSafe_sift (hfits : ∀ x ∈ xs, (fate x).Fits w head) (hf : xs.length < fuel) :
    (∃ m', listForEachSafe head (sift fate) fuel (m, ()) = .done (m', ()) ∧
      (∀ offset, listForEachEntrySafe head (fun pos => sift fate (pos + offset)) fuel (m, ())
        offset = .done (m', ())) ∧
      Sound m' (sifted fate w xs) ∧
      sifted fate w xs head = some (xs.filter (fate · = .keep))) ∧
    (∃ m', (∀ offset, listForEachEntrySafeReverse head (fun pos => sift fate (pos + offset)) fuel
        (m, ()) offset = .done (m', ())) ∧
      Sound m' (sifted fate w xs.reverse) ∧
      sifted fate w xs.reverse head = some (xs.filter (fate · = .keep))) ∧
    ∀ l pos r, l ++ pos :: r = head :: xs →
      ∃ m', (∀ offset, listForEachEntrySafeContinue head (fun pos => sift fate (pos + offset)) fuel
          (m, ()) offset (containerOf pos offset) = .done (m', ())) ∧
        Sound m' (sifted fate w r) ∧
        sifted fate w r head = some ((l ++ [pos]).tail ++ r.filter (fate · = .keep)) := by
  refine ⟨sift_onwards hs hh hfits hf, sift_back hs hh hfits hf, fun l pos r hx => ?_⟩
  have hlen := congrArg List.length hx
  simp only [List.length_append, List.length_cons] at hlen
  exact sift_from hs hh hx (fun x hr => hfits x (mem_of_behind hx hr)) (by omega)

omit hs hh in
theorem listForEachSafe_sift_two : ∃ m m' m'' m₁,
    run [.init 0x10, .init 0x20, .addTail 0x30 0x10, .addTail 0x40 0x10]
      ⟨fun _ => true, ⟨id, id⟩⟩ = some m ∧
    listForEachSafe 0x10 (sift fun x => if x = 0x30 then .move 0x20 else .del) 3 (m, ()) =
      .done (m', ()) ∧
    listForEachEntrySafeReverse 0x10
      (fun pos => sift (fun x => if x = 0x30 then .move 0x20 else .del) (pos + 8)) 3 (m, ()) 8 =
      .done (m'', ()) ∧
    listForEachEntrySafeContinue 0x10
      (fun pos => sift (fun x => if x = 0x30 then .move 0x20 else .del) (pos + 8)) 3 (m, ()) 8
      (containerOf 0x30 8) = .done (m₁, ()) := by
  obtain ⟨m, hm, -, hs⟩ := two_lists_run (m := ⟨fun _ => true, ⟨id, id⟩⟩) (a := 0x10) (b := 0x20)
    (x := 0x30) (y := 0x40) (by decide) ⟨rfl, rfl, rfl, rfl⟩
  have hfits : ∀ x ∈ ([0x30, 0x40] : List Addr),
      (if x = 0x30 then Fate.move 0x20 else .del).Fits
        ((Contents.set (fun _ => none) 0x20 []).set 0x10 [0x30, 0x40]) 0x10 := by
    intro x _
    split
    · exact ⟨by decide, rfl⟩
    · trivial
  have hf : ([0x30, 0x40] : List Addr).length < 3 := by decide
  obtain ⟨⟨m', hd, -⟩, ⟨m'', hr, -⟩, hc⟩ := listForEachSafe_sift hs rfl hfits hf
  obtain ⟨m₁, hc, -⟩ := hc [0x10] 0x30 [0x40] rfl
  exact ⟨m, m', m'', m₁, hm, hd, hr 8, hc 8⟩

end Safe

/-! ### The plain loop -/

/-- Delete the entries that `p` selects. -/
def select (p : Addr → Bool) (x : Addr) : Fate := if p x then .del else .keep

section Plain

variable {p : Addr → Bool} (hs : Sound m w) (hh : w head = some xs)

theorem sift_keep (hx : p x = false) (s : Memory × Unit) : sift (select p) x s = some s := by
  simp [sift, select, hx, Fate.cmds, run]

/-- No access is possible at the poison, so nothing can be done there. -/
theorem sift_poison (hp : m.mapped listPoison1 = false) {s : Memory × Unit}
    (hs : sift (select p) listPoison1 (m, ()) = some s) : s.1.next listPoison1 = none := by
  cases h : p listPoison1 with
  | true => simp [sift, select, h, Fate.cmds, run, Cmd.exec, listDel, Memory.prev, hp] at hs
  | false =>
    rw [sift_keep h, Option.some.injEq] at hs
    subst hs
    simp [Memory.next, hp]

include hs hh

theorem plain_keeps (hnone : ∀ x ∈ xs, p x = false) (hf : xs.length < fuel) :
    listForEach head (sift (select p)) fuel (m, ()) = .done (m, ()) := by
  have hd : ∃ s', listForEach head (sift (select p)) fuel (m, ()) = .done s' ∧ s' = (m, ()) := by
    refine forEach_done (I := fun _ s => s = (m, ())) (not_head hs hh) ?_ ?_ rfl
      (next_head hs hh) (beq_self_eq_true head) hf
    · rintro l x r _ hx rfl
      exact ⟨_, sift_keep (hnone x (hx ▸ by simp)) _, rfl⟩
    · rintro l x r _ hx rfl
      exact next_entry hs hh hx
  obtain ⟨_, hd, rfl⟩ := hd
  exact hd

theorem plain_derails (hp : m.mapped listPoison1 = false) (hx : l ++ x :: r = xs)
    (hl : ∀ y ∈ l, p y = false) (hpx : p x = true) (hf : xs.length < fuel) :
    listForEach head (sift (select p)) fuel (m, ()) = .fault := by
  have hentry : w.Entry x := ⟨head, xs, hh, hx ▸ by simp⟩
  have hxh : (x == head) = false := not_head hs hh x (hx ▸ by simp)
  have hph : (listPoison1 == head) = false := by
    rw [beq_eq_false_iff_ne]
    rintro rfl
    exact Bool.false_ne_true (hp.symm.trans (head_mapped hs hh))
  obtain ⟨k, rfl⟩ : ∃ k, fuel = l.length + (k + 2) := by
    have hlen := congrArg List.length hx
    simp only [List.length_append, List.length_cons] at hlen
    exact ⟨fuel - l.length - 2, by omega⟩
  -- up to the first selected entry the loop only looks
  have hstop : ∀ y ∈ l, (y == head) = false := fun y hy => not_head hs hh y (hx ▸ by simp [hy])
  have hi : m.next head = some (l.headD x) := by
    have hn := next_head hs hh
    subst hx
    cases l <;> simpa using hn
  have hstep : ∀ l' y r', l' ++ y :: r' = l → m.next y = some (r'.headD x) := by
    intro l' y r' hy
    have hn := next_entry (l := l') (x := y) (r := r' ++ x :: r) hs hh (by simp [← hx, ← hy])
    cases r' <;> simpa using hn
  have hreach : ∃ s', s' = (m, ()) ∧ ∀ k,
      listForEach head (sift (select p)) (l.length + k) (m, ()) = forEach (fun _ => some x)
        (· == head) (fun s pos => s.1.next pos) (sift (select p)) k s' := by
    refine forEach_reaches (I := fun _ s => s = (m, ())) (r := []) hstop ?_ ?_ rfl hi
      (List.append_nil l)
    · rintro l' y r' _ hy rfl
      exact ⟨_, sift_keep (hl y (hy ▸ by simp)) _, rfl⟩
    · rintro l' y r' _ hy rfl
      exact hstep l' y r' hy
  obtain ⟨_, rfl, hr⟩ := hreach
  obtain ⟨m', hm', hef, hnext, -⟩ := listDel_effect hs (.inl hentry)
  have hxm : m'.mapped x := hef.mapped ▸ hs.mapped x (Removable.holds (.inl hentry))
  have hsift : sift (select p) x (m, ()) = some (m', ()) := by
    simp [sift, select, hpx, Fate.cmds, run, Cmd.exec, hm']
  have hto : m'.next x = some listPoison1 := by rw [Memory.next, if_pos hxm, hnext]
  rw [hr]
  cases h : sift (select p) listPoison1 (m', ()) with
  | none => simp [forEach, whileLoop, hxh, hsift, hto, hph, h, Outcome.map]
  | some s =>
    have hs' := sift_poison (hef.mapped ▸ hp) h
    simp [forEach, whileLoop, hxh, hsift, hto, hph, h, hs', Outcome.map]

/-- The plain loop may delete nothing: it ends when no entry is selected, and otherwise runs
into the poison of the first entry deleted. -/
theorem listForEach_select (hp : m.mapped listPoison1 = false) (hf : xs.length < fuel) :
    listForEach head (sift (select p)) fuel (m, ()) =
      if xs.any p then .fault else .done (m, ()) := by
  cases h : xs.find? p with
  | none =>
    have hnone : ∀ x ∈ xs, p x = false := by simpa using h
    rw [plain_keeps hs hh hnone hf, if_neg (by simpa using hnone)]
  | some x =>
    obtain ⟨hpx, l, r, rfl, hl⟩ := List.find?_eq_some_iff_append.mp h
    rw [plain_derails hs hh hp rfl (by simpa using hl) hpx hf, if_pos (by simp [hpx])]

omit hs hh in
theorem listForEach_select_two : ∃ m,
    run [.init 0x10, .init 0x20, .addTail 0x30 0x10, .addTail 0x40 0x10]
      ⟨fun p => p != listPoison1, ⟨id, id⟩⟩ = some m ∧
    listForEach 0x10 (sift (select fun x => x = 0x30)) 3 (m, ()) = .fault := by
  obtain ⟨m, hm, hmap, hs⟩ := two_lists_run (m := ⟨fun p => p != listPoison1, ⟨id, id⟩⟩)
    (a := 0x10) (b := 0x20) (x := 0x30) (y := 0x40) (by decide) (by decide)
  have hf : ([0x30, 0x40] : List Addr).length < 3 := by decide
  exact ⟨m, hm, listForEach_select hs rfl (by rw [hmap]; rfl) hf⟩

end Plain

end Ohmylib.ListHead
