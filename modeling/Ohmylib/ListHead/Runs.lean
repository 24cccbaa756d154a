import Mathlib.Data.List.Induction
import Ohmylib.ListHead.Refinement

/-! Any sequence of calls that keep to the rules does to the memory what the calls
promise of the lists, and faults nowhere. Once they are done every list can be walked in
both directions and from any of its entries. Moving the entries of a list one by one
leaves the very memory that joining the lists leaves. -/

namespace Ohmylib.ListHead

open Linked Loop

variable {m m' : Memory} {w : Contents Addr} {c : Cmd} {cs : List Cmd} {e x head list : Addr}
  {xs ys : List Addr} {fuel : ℕ}

/-- What a call promises of the lists. -/
def Cmd.apply (w : Contents Addr) : Cmd → Contents Addr
  | .init ptr => w.set ptr []
  | .add entry head => w.push entry head
  | .addTail entry head => w.append entry head
  | .del entry => w.detach entry
  | .delInit entry => (w.detach entry).set entry []
  | .move list head => (w.detach list).push list head
  | .moveTail list head => (w.detach list).append list head
  | .splice list head => w.splice list head
  | .spliceInit list head => (w.splice list head).set list []

/-- What the header asks of the arguments of a call. -/
def Cmd.Legal (mapped : Addr → Bool) (w : Contents Addr) : Cmd → Prop
  | .init ptr => mapped ptr ∧ ¬ w.Entry ptr
  | .add entry head | .addTail entry head =>
    mapped entry ∧ ¬ w.Entry entry ∧ entry ≠ head ∧ (w head).isSome
  | .del entry | .delInit entry => Removable w entry
  | .move list head | .moveTail list head => Removable w list ∧ list ≠ head ∧ (w head).isSome
  | .splice list head | .spliceInit list head => list ≠ head ∧ (w list).isSome ∧ (w head).isSome

/-- The nodes that a call brings into the lists. -/
def Cmd.names : Cmd → List Addr
  | .init ptr => [ptr]
  | .add entry _ | .addTail entry _ => [entry]
  | _ => []

def applyAll (w : Contents Addr) (cs : List Cmd) : Contents Addr := cs.foldl Cmd.apply w

def LegalRun (mapped : Addr → Bool) : Contents Addr → List Cmd → Prop
  | _, [] => True
  | w, c :: cs => c.Legal mapped w ∧ LegalRun mapped (c.apply w) cs

theorem exec_effect (hs : Sound m w) (hl : c.Legal m.mapped w) :
    ∃ m', c.exec m = some m' ∧ Effect c.names m w m' (c.apply w) := by
  cases c with
  | init ptr => exact initListHead_effect hs.stores hl.1 hl.2
  | add entry head =>
    obtain ⟨xs, hh⟩ := Option.isSome_iff_exists.mp hl.2.2.2
    exact listAdd_effect hs hl.1 hl.2.1 hl.2.2.1 hh
  | addTail entry head =>
    obtain ⟨xs, hh⟩ := Option.isSome_iff_exists.mp hl.2.2.2
    exact listAddTail_effect hs hl.1 hl.2.1 hl.2.2.1 hh
  | del entry =>
    obtain ⟨m', hm', hef, -⟩ := listDel_effect hs hl
    exact ⟨m', hm', hef.unnamed (by simpa using Removable.holds hl)⟩
  | delInit entry =>
    obtain ⟨m', hm', hef⟩ := listDelInit_effect hs hl
    exact ⟨m', hm', hef.unnamed (by simpa using Removable.holds hl)⟩
  | move list head =>
    obtain ⟨xs, hh⟩ := Option.isSome_iff_exists.mp hl.2.2
    obtain ⟨m', hm', hef⟩ := listMove_effect hs hl.1 hl.2.1 hh
    exact ⟨m', hm', hef.unnamed (by simpa using hl.1.holds)⟩
  | moveTail list head =>
    obtain ⟨xs, hh⟩ := Option.isSome_iff_exists.mp hl.2.2
    obtain ⟨m', hm', hef⟩ := listMoveTail_effect hs hl.1 hl.2.1 hh
    exact ⟨m', hm', hef.unnamed (by simpa using hl.1.holds)⟩
  | splice list head =>
    obtain ⟨xs, hx⟩ := Option.isSome_iff_exists.mp hl.2.1
    obtain ⟨ys, hy⟩ := Option.isSome_iff_exists.mp hl.2.2
    exact listSplice_effect hs hx hy hl.1
  | spliceInit list head =>
    obtain ⟨xs, hx⟩ := Option.isSome_iff_exists.mp hl.2.1
    obtain ⟨ys, hy⟩ := Option.isSome_iff_exists.mp hl.2.2
    exact listSpliceInit_effect hs hx hy hl.1

theorem names_mapped (hl : c.Legal m.mapped w) : ∀ x ∈ c.names, m.mapped x := by
  cases c with
  | init ptr => simpa [Cmd.names] using hl.1
  | add entry head => simpa [Cmd.names] using hl.1
  | addTail entry head => simpa [Cmd.names] using hl.1
  | _ => exact fun x hx => absurd hx List.not_mem_nil

theorem run_cons (c : Cmd) (cs : List Cmd) (m : Memory) :
    run (c :: cs) m = (c.exec m).bind (run cs) := rfl

theorem run_effect (hs : Sound m w) (hl : LegalRun m.mapped w cs) :
    ∃ m', run cs m = some m' ∧ Sound m' (applyAll w cs) ∧
      Effect (cs.flatMap Cmd.names) m w m' (applyAll w cs) := by
  induction cs generalizing m w with
  | nil => exact ⟨m, rfl, hs, .refl hs.stores⟩
  | cons c cs ih =>
    obtain ⟨m₁, hm₁, hef⟩ := exec_effect hs hl.1
    have hs₁ := hef.sound hs (names_mapped hl.1)
    obtain ⟨m', hm', hs', hef'⟩ := ih hs₁ (hef.mapped.symm ▸ hl.2)
    refine ⟨m', by rw [run_cons, hm₁, Option.bind_some, hm'], hs', ?_⟩
    rw [List.flatMap_cons]
    exact (hef.mono (List.subset_append_left _ _)).trans (hef'.mono (List.subset_append_right _ _))

/-- Two heads, and two entries behind the first. -/
theorem two_lists (mapped : Addr → Bool) {a b x y : Addr} (hd : [a, b, x, y].Nodup)
    (hm : mapped a ∧ mapped b ∧ mapped x ∧ mapped y) :
    LegalRun mapped (fun _ => none) [.init a, .init b, .addTail x a, .addTail y a] ∧
      applyAll (fun _ => none) [.init a, .init b, .addTail x a, .addTail y a] =
        (Contents.set (fun _ => none) b []).set a [x, y] := by
  simp only [List.nodup_cons, List.mem_cons, not_or] at hd
  obtain ⟨⟨hab, hax, hay, -⟩, ⟨hbx, hby, -⟩, ⟨hxy, -⟩, -⟩ := hd
  have hnil : ∀ z, ¬ Contents.Entry (fun _ : Addr => none) z := fun z ⟨_, _, h, _⟩ => nomatch h
  have hw : (Contents.set (fun _ => none) a []).set b [] =
      (Contents.set (fun _ => none) b []).set a [] := Contents.set_comm hab
  have hempty : ∀ z, ¬ ((Contents.set (fun _ => none) b []).set a []).Entry z := by
    intro z hz
    rcases Contents.entry_set hz with hz | hz
    · exact (Contents.entry_set hz).elim (hnil z) List.not_mem_nil
    · exact List.not_mem_nil hz
  have hx : ((Contents.set (fun _ => none) b []).set a []).append x a =
      (Contents.set (fun _ => none) b []).set a [x] := by
    rw [Contents.append_of_head Contents.set_self, Contents.forget_eq_self, Contents.set_set,
      List.nil_append]
    rw [Contents.set_of_ne (Ne.symm hax), Contents.set_of_ne (Ne.symm hbx)]
  have hy : ((Contents.set (fun _ => none) b []).set a [x]).append y a =
      (Contents.set (fun _ => none) b []).set a [x, y] := by
    rw [Contents.append_of_head Contents.set_self, Contents.forget_eq_self, Contents.set_set,
      List.singleton_append]
    rw [Contents.set_of_ne (Ne.symm hay), Contents.set_of_ne (Ne.symm hby)]
  have hyx : ¬ ((Contents.set (fun _ => none) b []).set a [x]).Entry y := by
    intro hz
    rcases Contents.entry_set hz with hz | hz
    · exact (Contents.entry_set hz).elim (hnil y) List.not_mem_nil
    · exact hxy (List.mem_singleton.mp hz).symm
  refine ⟨⟨⟨hm.1, hnil a⟩, ⟨hm.2.1, ?_⟩, ?_, ?_, trivial⟩, ?_⟩
  · exact fun hz => (Contents.entry_set hz).elim (hnil b) List.not_mem_nil
  · simp only [Cmd.apply, hw]
    exact ⟨hm.2.2.1, hempty x, Ne.symm hax, by rw [Contents.set_self]; rfl⟩
  · simp only [Cmd.apply, hw, hx]
    exact ⟨hm.2.2.2, hyx, Ne.symm hay, by rw [Contents.set_self]; rfl⟩
  · simp only [applyAll, List.foldl_cons, List.foldl_nil, Cmd.apply, hw, hx, hy]

theorem two_lists_run {a b x y : Addr} (hd : [a, b, x, y].Nodup)
    (hm : m.mapped a ∧ m.mapped b ∧ m.mapped x ∧ m.mapped y) :
    ∃ m', run [.init a, .init b, .addTail x a, .addTail y a] m = some m' ∧
      m'.mapped = m.mapped ∧ Sound m' ((Contents.set (fun _ => none) b []).set a [x, y]) := by
  obtain ⟨hl, hw⟩ := two_lists m.mapped hd hm
  obtain ⟨m', hm', hs, hef⟩ := run_effect (m := m) ⟨.nil m.heads, nofun⟩ hl
  exact ⟨m', hm', hef.mapped, hw ▸ hs⟩

/-- Calls that keep to the rules never fault, leave the lists that they promise, and write to
no node but those of the lists and those added. -/
theorem run_refines (hs : Sound m w) (hl : LegalRun m.mapped w cs) :
    ∃ m', run cs m = some m' ∧ Sound m' (applyAll w cs) ∧
      ∀ x, ¬ w.Holds x → (∀ c ∈ cs, x ∉ c.names) → m.heads.Agree m'.heads x := by
  obtain ⟨m', hm', hs', hef⟩ := run_effect hs hl
  refine ⟨m', hm', hs', fun x hx hn => hef.agree x hx ?_⟩
  simpa using hn

theorem run_refines_two_lists : ∃ m',
    run [.init 0x10, .init 0x20, .addTail 0x30 0x10, .addTail 0x40 0x10]
      ⟨fun _ => true, ⟨id, id⟩⟩ = some m' ∧
    Sound m' ((Contents.set (fun _ => none) 0x20 []).set 0x10 [0x30, 0x40]) := by
  obtain ⟨hl, hw⟩ := two_lists (fun _ => true) (a := 0x10) (b := 0x20) (x := 0x30)
    (y := 0x40) (by decide) ⟨rfl, rfl, rfl, rfl⟩
  obtain ⟨m', hm', hs, -⟩ := run_refines (m := ⟨fun _ => true, ⟨id, id⟩⟩) ⟨.nil _, nofun⟩ hl
  exact ⟨m', hm', hw ▸ hs⟩

/-! ### Joining two lists -/

section Join

variable (hlh : list ≠ head)
include hlh

/-- The lists once the entries of `list` are in front of those of `head`. -/
theorem spliceInit_eq (hl : w list = some xs) (hh : w head = some ys) :
    (w.splice list head).set list [] = (w.set list []).set head (xs ++ ys) := by
  cases xs with
  | nil =>
    rw [Contents.splice_of_nil hl, List.nil_append, Contents.set_eq_self hl,
      Contents.set_eq_self hh]
  | cons x xs =>
    rw [Contents.splice_of_cons hl hh, ← Contents.set_comm hlh, Contents.forget_set]

/-- Moving the last entry of one list to the front of another. -/
theorem move_last (hs : Stores m.heads w) (hl : w list = some (xs ++ [x]))
    (hh : w head = some ys) :
    (w.detach x).push x head = (w.set list xs).set head (x :: ys) := by
  have hx : x ∈ xs ++ [x] := by simp
  have hxx : x ∉ xs := by
    have hn := (List.nodup_cons.mp (Cycle.nodup_coe_iff.mp (hs.ring hl).nodup)).2
    exact fun hm => (List.nodup_append.mp hn).2.2 x hm x List.mem_cons_self rfl
  have hd : w.detach x = w.set list xs := by
    rw [hs.detach_eq_set hl hx, List.erase_append_right _ hxx, List.erase_cons_head,
      List.append_nil]
  have hdh : (w.detach x) head = some ys := by rw [hd, Contents.set_of_ne hlh.symm, hh]
  rw [Contents.push_of_head hdh, Contents.forget_eq_self Contents.detach_self, hd]

theorem moves_effect (hs : Sound m w) (hl : w list = some xs) (hh : w head = some ys) :
    ∃ m', run (xs.reverse.map (Cmd.move · head)) m = some m' ∧
      Effect [] m w m' ((w.set list []).set head (xs ++ ys)) := by
  induction xs using List.reverseRecOn generalizing m w ys with
  | nil =>
    refine ⟨m, rfl, ?_⟩
    rw [Contents.set_eq_self hl, List.nil_append, Contents.set_eq_self hh]
    exact .refl hs.stores
  | append_singleton xs x ih =>
    have hentry : w.Entry x := ⟨list, _, hl, by simp⟩
    have hxh : x ≠ head := fun h => hs.stores.head_not_entry hh (h ▸ hentry)
    have hlegal : (Cmd.move x head).Legal m.mapped w := ⟨.inl hentry, hxh, hh ▸ rfl⟩
    obtain ⟨m₁, hm₁, hef⟩ := exec_effect hs hlegal
    have hs₁ := hef.sound hs (by simp [Cmd.names])
    have hw : (Cmd.move x head).apply w = (w.set list xs).set head (x :: ys) :=
      move_last hlh hs.stores hl hh
    rw [hw] at hef hs₁
    obtain ⟨m', hm', hef'⟩ := ih hs₁ (by rw [Contents.set_of_ne hlh, Contents.set_self])
      Contents.set_self
    refine ⟨m', ?_, ?_⟩
    · rw [List.reverse_concat, List.map_cons, run_cons, hm₁, Option.bind_some, hm']
    · rw [← Contents.set_comm hlh, Contents.set_set, Contents.set_set] at hef'
      rw [List.append_assoc, List.singleton_append]
      exact hef.trans hef'

theorem joined_holds (hl : w list = some xs) (hh : w head = some ys) (hx : w.Holds x) :
    ((w.set list []).set head (xs ++ ys)).Holds x := by
  have hhead : ((w.set list []).set head (xs ++ ys)) head = some (xs ++ ys) := Contents.set_self
  have hlist : ((w.set list []).set head (xs ++ ys)) list = some [] := by
    rw [Contents.set_of_ne hlh, Contents.set_self]
  obtain ⟨a, zs, ha, hx⟩ := hx
  by_cases hah : a = head
  · subst hah
    cases ha.symm.trans hh
    exact ⟨a, _, hhead, by simpa using (List.mem_cons.mp hx).imp_right .inr⟩
  · by_cases hal : a = list
    · subst hal
      cases ha.symm.trans hl
      rcases List.mem_cons.mp hx with rfl | hx
      · exact ⟨x, [], hlist, List.mem_cons_self⟩
      · exact ⟨head, _, hhead, by simp [hx]⟩
    · exact ⟨a, zs, by rw [Contents.set_of_ne hah, Contents.set_of_ne hal, ha], hx⟩

/-- `list_splice_init` leaves the memory that moving the entries one by one leaves, last one
first: every pointer of every node is the same. -/
theorem listSpliceInit_eq_moves (hs : Sound m w) (hl : w list = some xs)
    (hh : w head = some ys) :
    listSpliceInit m list head = run (xs.reverse.map (Cmd.move · head)) m := by
  obtain ⟨m₁, hm₁, hef₁⟩ := listSpliceInit_effect hs hl hh hlh
  obtain ⟨m₂, hm₂, hef₂⟩ := moves_effect hlh hs hl hh
  rw [spliceInit_eq hlh hl hh] at hef₁
  have hkeep : ∀ x, w.Holds x → ((w.set list []).set head (xs ++ ys)).Holds x :=
    fun x hx => joined_holds hlh hl hh hx
  have hheads : m₁.heads = m₂.heads := by
    refine hef₂.stores.heap_eq hef₁.stores fun x hx => ?_
    have ha₁ := hef₁.agree x (fun h => hx (hkeep x h)) List.not_mem_nil
    have ha₂ := hef₂.agree x (fun h => hx (hkeep x h)) List.not_mem_nil
    exact ⟨ha₁.1.trans ha₂.1.symm, ha₁.2.trans ha₂.2.symm⟩
  rw [hm₁, hm₂, Memory.ext (hef₁.mapped.trans hef₂.mapped.symm) hheads]

omit hlh in
theorem listSpliceInit_eq_moves_two : ∃ m,
    run [.init 0x10, .init 0x20, .addTail 0x30 0x10, .addTail 0x40 0x10]
      ⟨fun _ => true, ⟨id, id⟩⟩ = some m ∧
    listSpliceInit m 0x10 0x20 = run [.move 0x40 0x20, .move 0x30 0x20] m := by
  obtain ⟨m, hm, -, hs⟩ := two_lists_run (m := ⟨fun _ => true, ⟨id, id⟩⟩) (a := 0x10) (b := 0x20)
    (x := 0x30) (y := 0x40) (by decide) ⟨rfl, rfl, rfl, rfl⟩
  have hne : (0x10 : Addr) ≠ 0x20 := by decide
  exact ⟨m, hm, listSpliceInit_eq_moves hne hs rfl rfl⟩

end Join

end Ohmylib.ListHead
