import Ohmylib.Linked.Ring

/-! Several lists in one heap. A list is a ring read from its head, and the rings of
different heads share no node. The operations on rings act on one or two of the lists;
the others keep their pointers, and so does every node outside the lists. -/

namespace Ohmylib.Linked

/-- For each head the nodes behind it, and nothing for a node that is no head. -/
abbrev Contents (α : Type*) := α → Option (List α)

namespace Contents

variable {α : Type*} {w : Contents α} {a b e x : α} {xs ys : List α}

/-- `x` is in some list, behind its head. -/
def Entry (w : Contents α) (x : α) : Prop := ∃ a xs, w a = some xs ∧ x ∈ xs

/-- `x` is a head or an entry. -/
def Holds (w : Contents α) (x : α) : Prop := ∃ a xs, w a = some xs ∧ x ∈ a :: xs

theorem holds_iff : w.Holds x ↔ (w x).isSome ∨ w.Entry x := by
  constructor
  · rintro ⟨a, xs, ha, hx⟩
    rcases List.mem_cons.mp hx with rfl | hx
    · exact .inl (ha ▸ rfl)
    · exact .inr ⟨a, xs, ha, hx⟩
  · rintro (hx | ⟨a, xs, ha, hx⟩)
    · obtain ⟨xs, hx⟩ := Option.isSome_iff_exists.mp hx
      exact ⟨x, xs, hx, List.mem_cons_self⟩
    · exact ⟨a, xs, ha, List.mem_cons_of_mem a hx⟩

variable [DecidableEq α]

/-- `a` is no head any more. -/
def forget (w : Contents α) (a : α) : Contents α := Function.update w a none

/-- The nodes behind `a` are `xs` now. -/
def set (w : Contents α) (a : α) (xs : List α) : Contents α := Function.update w a (some xs)

/-- `e` is neither a head nor an entry any more. -/
def detach (w : Contents α) (e : α) : Contents α :=
  fun a => if a = e then none else (w a).map (·.erase e)

/-- `e` becomes the first entry behind `a`, and `a` keeps its list if it has none. -/
def push (w : Contents α) (e a : α) : Contents α :=
  match w a with
  | some xs => (w.forget e).set a (e :: xs)
  | none => w

def append (w : Contents α) (e a : α) : Contents α :=
  match w a with
  | some xs => (w.forget e).set a (xs ++ [e])
  | none => w

/-- The entries of `a`, if it has any, go in front of those of `b`, and `a` is no head any
more. -/
def splice (w : Contents α) (a b : α) : Contents α :=
  match w a, w b with
  | some (x :: xs), some ys => (w.forget a).set b (x :: xs ++ ys)
  | _, _ => w

@[simp] theorem set_self : (w.set a xs) a = some xs := Function.update_self ..

theorem set_of_ne (h : b ≠ a) : (w.set a xs) b = w b := Function.update_of_ne h ..

@[simp] theorem forget_self : (w.forget a) a = none := Function.update_self ..

theorem forget_of_ne (h : b ≠ a) : (w.forget a) b = w b := Function.update_of_ne h ..

@[simp] theorem set_set : (w.set a xs).set a ys = w.set a ys := Function.update_idem ..

@[simp] theorem forget_set : (w.forget a).set a xs = w.set a xs := Function.update_idem ..

theorem set_eq_self (ha : w a = some xs) : w.set a xs = w := Function.update_eq_self_iff.mpr ha.symm

theorem forget_eq_self (ha : w a = none) : w.forget a = w := Function.update_eq_self_iff.mpr ha.symm

theorem set_comm (hab : a ≠ b) : (w.set a xs).set b ys = (w.set b ys).set a xs :=
  Function.update_comm hab ..

@[simp] theorem detach_self : (w.detach e) e = none := if_pos rfl

theorem detach_of_ne (h : a ≠ e) : (w.detach e) a = (w a).map (·.erase e) := if_neg h

theorem detach_eq_forget (he : ¬ w.Entry e) : w.detach e = w.forget e := by
  funext b
  by_cases hbe : b = e
  · rw [hbe, detach_self, forget_self]
  · rw [detach_of_ne hbe, forget_of_ne hbe]
    cases hb : w b with
    | none => rfl
    | some ys => rw [Option.map_some, List.erase_of_not_mem fun hey => he ⟨b, ys, hb, hey⟩]

theorem push_of_head (ha : w a = some xs) : w.push e a = (w.forget e).set a (e :: xs) := by
  rw [push, ha]

theorem append_of_head (ha : w a = some xs) : w.append e a = (w.forget e).set a (xs ++ [e]) := by
  rw [append, ha]

theorem push_of_ne (hba : b ≠ a) (hbe : b ≠ e) : (w.push e a) b = w b := by
  cases ha : w a with
  | none => rw [push, ha]
  | some xs => rw [push_of_head ha, set_of_ne hba, forget_of_ne hbe]

theorem append_of_ne (hba : b ≠ a) (hbe : b ≠ e) : (w.append e a) b = w b := by
  cases ha : w a with
  | none => rw [append, ha]
  | some xs => rw [append_of_head ha, set_of_ne hba, forget_of_ne hbe]

theorem splice_of_cons (ha : w a = some (x :: xs)) (hb : w b = some ys) :
    w.splice a b = (w.forget a).set b (x :: xs ++ ys) := by
  rw [splice, ha, hb]

theorem splice_of_nil (ha : w a = some []) : w.splice a b = w := by
  rw [splice, ha]

theorem holds_set (hx : (w.set a xs).Holds x) : w.Holds x ∨ x ∈ a :: xs := by
  obtain ⟨b, ys, hb, hx⟩ := hx
  by_cases hba : b = a
  · subst hba
    rw [set_self] at hb
    cases hb
    exact .inr hx
  · rw [set_of_ne hba] at hb
    exact .inl ⟨b, ys, hb, hx⟩

theorem entry_set (hx : (w.set a xs).Entry x) : w.Entry x ∨ x ∈ xs := by
  obtain ⟨b, ys, hb, hx⟩ := hx
  by_cases hba : b = a
  · subst hba
    rw [set_self] at hb
    cases hb
    exact .inr hx
  · rw [set_of_ne hba] at hb
    exact .inl ⟨b, ys, hb, hx⟩

theorem forget_some (hb : (w.forget a) b = some xs) : b ≠ a ∧ w b = some xs := by
  by_cases hba : b = a
  · rw [hba, forget_self] at hb
    cases hb
  · exact ⟨hba, (forget_of_ne hba).symm.trans hb⟩

theorem detach_some (hb : (w.detach e) b = some ys) :
    b ≠ e ∧ ∃ xs, w b = some xs ∧ xs.erase e = ys := by
  by_cases hbe : b = e
  · rw [hbe, detach_self] at hb
    cases hb
  · rw [detach_of_ne hbe, Option.map_eq_some_iff] at hb
    exact ⟨hbe, hb⟩

theorem holds_forget (hx : (w.forget a).Holds x) : w.Holds x := by
  obtain ⟨b, ys, hb, hx⟩ := hx
  exact ⟨b, ys, (forget_some hb).2, hx⟩

theorem not_holds_forget (ha : ¬ w.Entry a) : ¬ (w.forget a).Holds a := by
  rintro ⟨b, ys, hb, hx⟩
  obtain ⟨hba, hb⟩ := forget_some hb
  exact ha ⟨b, ys, hb, (List.mem_cons.mp hx).resolve_left hba.symm⟩

theorem holds_detach (hx : (w.detach e).Holds x) : w.Holds x := by
  obtain ⟨b, ys, hb, hx⟩ := hx
  obtain ⟨-, xs, hw, rfl⟩ := detach_some hb
  exact ⟨b, xs, hw, (List.cons_subset_cons b List.erase_subset) hx⟩

theorem holds_insert (ha : w a = some xs) (hys : ∀ x ∈ ys, x = e ∨ x ∈ xs)
    (hx : ((w.forget e).set a ys).Holds x) : w.Holds x ∨ x = e := by
  rcases holds_set hx with hx | hx
  · exact .inl (holds_forget hx)
  · rcases List.mem_cons.mp hx with rfl | hx
    · exact .inl ⟨x, xs, ha, List.mem_cons_self⟩
    · exact (hys x hx).symm.imp_left fun hx => ⟨a, xs, ha, List.mem_cons_of_mem a hx⟩

end Contents

open Contents

variable {α : Type*} {h h' : Heap α} {w w' : Contents α} {a b e x : α} {xs ys : List α}

/-- The lists of `w` lie in the heap as rings without a common node. -/
structure Stores (h : Heap α) (w : Contents α) : Prop where
  ring : ∀ {a xs}, w a = some xs → Ring h ↑(a :: xs)
  apart : ∀ {a b xs ys}, w a = some xs → w b = some ys → a ≠ b → (a :: xs).Disjoint (b :: ys)

namespace Stores

theorem nil (h : Heap α) : Stores h (fun _ => none) := ⟨nofun, nofun⟩

theorem head_not_entry (hs : Stores h w) (ha : w a = some xs) : ¬ w.Entry a := by
  rintro ⟨b, ys, hb, hm⟩
  by_cases hab : a = b
  · subst hab
    cases ha.symm.trans hb
    exact (hs.ring ha).notMem hm
  · exact hs.apart ha hb hab List.mem_cons_self (List.mem_cons_of_mem b hm)

/-- An entry is behind one head only. -/
theorem entry_unique (hs : Stores h w) (ha : w a = some xs) (hx : x ∈ xs) (hb : w b = some ys)
    (hy : x ∈ ys) : a = b := by
  by_contra hab
  exact hs.apart ha hb hab (List.mem_cons_of_mem a hx) (List.mem_cons_of_mem b hy)

theorem congr (hs : Stores h w) (hp : ∀ x, w.Holds x → h.Agree h' x) : Stores h' w where
  ring {a xs} ha := (hs.ring ha).congr fun x hx => hp x ⟨a, xs, ha, Cycle.mem_coe_iff.mp hx⟩
  apart := hs.apart

/-- The lists and the pointers of the other nodes determine the heap. -/
theorem heap_eq (hs : Stores h w) (hs' : Stores h' w) (hp : ∀ x, ¬ w.Holds x → h.Agree h' x) :
    h' = h := by
  have hall : ∀ x, h.Agree h' x := by
    intro x
    by_cases hx : w.Holds x
    · obtain ⟨a, xs, ha, hx⟩ := hx
      exact (hs.ring ha).agree (hs'.ring ha) (Cycle.mem_coe_iff.mpr hx)
    · exact hp x hx
  exact Heap.ext (funext fun x => (hall x).1) (funext fun x => (hall x).2)

/-- Fewer lists. -/
theorem mono (hs : Stores h w) (hw : ∀ a xs, w' a = some xs → w a = some xs) : Stores h w' where
  ring ha := hs.ring (hw _ _ ha)
  apart ha hb := hs.apart (hw _ _ ha) (hw _ _ hb)

theorem holds_next (hs : Stores h w) (hx : w.Holds x) : w.Holds (h.next x) := by
  obtain ⟨a, xs, ha, hx⟩ := hx
  exact ⟨a, xs, ha, Cycle.mem_coe_iff.mp ((hs.ring ha).next_mem (Cycle.mem_coe_iff.mpr hx))⟩

theorem holds_prev (hs : Stores h w) (hx : w.Holds x) : w.Holds (h.prev x) := by
  obtain ⟨a, xs, ha, hx⟩ := hx
  exact ⟨a, xs, ha, Cycle.mem_coe_iff.mp ((hs.ring ha).prev_mem (Cycle.mem_coe_iff.mpr hx))⟩

variable [DecidableEq α]

theorem forget (hs : Stores h w) (a : α) : Stores h (w.forget a) :=
  hs.mono fun _ _ hb => (forget_some hb).2

/-- A new ring for `a`, when the other lists share no node with it and keep their pointers. -/
theorem set (hs : Stores h w) (hr : Ring h' ↑(a :: xs))
    (ho : ∀ b ys, b ≠ a → w b = some ys →
      (a :: xs).Disjoint (b :: ys) ∧ ∀ x ∈ b :: ys, h.Agree h' x) :
    Stores h' (w.set a xs) where
  ring {b ys} hb := by
    by_cases hba : b = a
    · subst hba
      rw [set_self] at hb
      cases hb
      exact hr
    · rw [set_of_ne hba] at hb
      exact (hs.ring hb).congr fun x hx => (ho b ys hba hb).2 x (Cycle.mem_coe_iff.mp hx)
  apart {b c ys zs} hb hc hbc := by
    by_cases hba : b = a
    · subst hba
      rw [set_self] at hb
      cases hb
      rw [set_of_ne hbc.symm] at hc
      exact (ho c zs hbc.symm hc).1
    · rw [set_of_ne hba] at hb
      by_cases hca : c = a
      · subst hca
        rw [set_self] at hc
        cases hc
        exact ((ho b ys hba hb).1).symm
      · rw [set_of_ne hca] at hc
        exact hs.apart hb hc hbc

/-- A node outside the lists becomes the head of an empty one. -/
theorem init (hs : Stores h w) (ha : ¬ w.Entry a) : Stores (h.link a a) (w.set a []) := by
  refine hs.set (Ring.single h a) fun b ys hba hb => ?_
  have hab : ∀ x ∈ b :: ys, x ≠ a := by
    rintro x hx rfl
    rcases List.mem_cons.mp hx with rfl | hx
    · exact hba rfl
    · exact ha ⟨b, ys, hb, hx⟩
  exact ⟨by simpa using fun hm => hab a hm rfl, fun x hx => Heap.agree_link (hab x hx) (hab x hx)⟩

/-- A new entry, between `p` and `n`, nodes of the ring of `a`. -/
theorem insert (hs : Stores h w) (ha : w a = some xs) (he : ¬ w.Holds e) {p n : α}
    (hp : p ∈ a :: xs) (hn : n ∈ a :: xs) (hys : ∀ x ∈ ys, x = e ∨ x ∈ xs)
    (hr : Ring ((h.link e n).link p e) ↑(a :: ys)) :
    Stores ((h.link e n).link p e) (w.set a ys) := by
  refine hs.set hr fun b zs hba hb => ?_
  have hd := hs.apart ha hb hba.symm
  have hex : ∀ x ∈ b :: zs, x ≠ e := fun x hx hxe => he ⟨b, zs, hb, hxe ▸ hx⟩
  constructor
  · intro x hx hxb
    rcases List.mem_cons.mp hx with rfl | hx
    · exact hd List.mem_cons_self hxb
    · rcases hys x hx with rfl | hx
      · exact hex x hxb rfl
      · exact hd (List.mem_cons_of_mem a hx) hxb
  · intro x hx
    have hxn : x ≠ n := fun hxn => hd hn (hxn ▸ hx)
    have hxp : x ≠ p := fun hxp => hd hp (hxp ▸ hx)
    exact (Heap.agree_link (hex x hx) hxn).trans (Heap.agree_link hxp (hex x hx))

theorem push (hs : Stores h w) (ha : w a = some xs) (he : ¬ w.Holds e) :
    Stores ((h.link e (h.next a)).link a e) (w.set a (e :: xs)) := by
  have hr := hs.ring ha
  have hn : h.next a ∈ (↑(a :: xs) : Cycle α) := hr.next_mem (by simp)
  exact hs.insert ha he List.mem_cons_self (Cycle.mem_coe_iff.mp hn) (by simp)
    (hr.push fun hm => he ⟨a, xs, ha, hm⟩)

theorem append (hs : Stores h w) (ha : w a = some xs) (he : ¬ w.Holds e) :
    Stores ((h.link e a).link (h.prev a) e) (w.set a (xs ++ [e])) := by
  have hr := hs.ring ha
  have hp : h.prev a ∈ (↑(a :: xs) : Cycle α) := hr.prev_mem (by simp)
  exact hs.insert ha he (Cycle.mem_coe_iff.mp hp) List.mem_cons_self (by simp [or_comm])
    (hr.append fun hm => he ⟨a, xs, ha, hm⟩)

theorem detach_eq_set (hs : Stores h w) (ha : w a = some xs) (he : e ∈ xs) :
    w.detach e = w.set a (xs.erase e) := by
  funext b
  by_cases hba : b = a
  · subst hba
    have hbe : b ≠ e := fun hbe => hs.head_not_entry ha ⟨b, xs, ha, hbe ▸ he⟩
    rw [detach_of_ne hbe, ha, set_self, Option.map_some]
  · rw [set_of_ne hba]
    cases hb : w b with
    | none => simp [Contents.detach, hb]
    | some ys =>
      have hbe : b ≠ e := fun hbe => hs.head_not_entry hb ⟨a, xs, ha, hbe ▸ he⟩
      have hey : e ∉ ys := fun hey => hba (hs.entry_unique hb hey ha he)
      rw [detach_of_ne hbe, hb, Option.map_some, List.erase_of_not_mem hey]

/-- An entry, or the head of an empty list, taken out of the lists. -/
theorem detach (hs : Stores h w) (he : w.Entry e ∨ w e = some []) :
    Stores (h.link (h.prev e) (h.next e)) (w.detach e) := by
  rcases he with ⟨a, xs, ha, he⟩ | he
  · rw [hs.detach_eq_set ha he]
    have hr := hs.ring ha
    have hm : e ∈ (↑(a :: xs) : Cycle α) := Cycle.mem_coe_iff.mpr (List.mem_cons_of_mem a he)
    have hp := Cycle.mem_coe_iff.mp (hr.prev_mem hm)
    have hn := Cycle.mem_coe_iff.mp (hr.next_mem hm)
    obtain ⟨l₁, l₂, hel, rfl, herase⟩ := List.exists_erase_eq he
    rw [herase]
    refine hs.set hr.remove fun b ys hba hb => ?_
    have hd := hs.apart ha hb hba.symm
    constructor
    · refine List.disjoint_of_subset_left (fun x hx => ?_) hd
      simp only [List.mem_cons, List.mem_append] at hx ⊢
      tauto
    · intro x hx
      exact Heap.agree_link (fun hxp => hd hp (hxp ▸ hx)) fun hxn => hd hn (hxn ▸ hx)
  · have hne := hs.head_not_entry he
    have hr := hs.ring he
    have hp : h.prev e = e := hr.prev_eq
    have hn : h.next e = e := hr.next_eq
    rw [detach_eq_forget hne, hp, hn]
    refine (hs.forget e).congr fun x hx => ?_
    have hxe : x ≠ e := fun hxe => not_holds_forget hne (hxe ▸ hx)
    exact Heap.agree_link hxe hxe

/-- The entries of one list moved to the front of another. -/
theorem splice (hs : Stores h w) (ha : w a = some xs) (hb : w b = some ys) (hab : a ≠ b)
    (hne : xs ≠ []) :
    Stores ((h.link b (h.next a)).link (h.prev a) (h.next b)) ((w.forget a).set b (xs ++ ys)) := by
  have hra := hs.ring ha
  have hrb := hs.ring hb
  have hd := hs.apart ha hb hab
  have hma : a ∈ (↑(a :: xs) : Cycle α) := Cycle.mem_coe_iff.mpr List.mem_cons_self
  have hmb : b ∈ (↑(b :: ys) : Cycle α) := Cycle.mem_coe_iff.mpr List.mem_cons_self
  have hna := Cycle.mem_coe_iff.mp (hra.next_mem hma)
  have hpa := Cycle.mem_coe_iff.mp (hra.prev_mem hma)
  have hnb := Cycle.mem_coe_iff.mp (hrb.next_mem hmb)
  refine (hs.forget a).set (hra.splice hrb hne hd) fun c zs hcb hc => ?_
  obtain ⟨hca, hc⟩ := forget_some hc
  have hda := hs.apart ha hc hca.symm
  have hdb := hs.apart hb hc hcb.symm
  constructor
  · intro x hx hxc
    simp only [List.mem_cons, List.mem_append] at hx
    rcases hx with rfl | hx | hx
    · exact hdb List.mem_cons_self hxc
    · exact hda (List.mem_cons_of_mem a hx) hxc
    · exact hdb (List.mem_cons_of_mem b hx) hxc
  · intro x hx
    have hxb : x ≠ b := fun hxb => hdb List.mem_cons_self (hxb ▸ hx)
    have hxn : x ≠ h.next a := fun hxn => hda hna (hxn ▸ hx)
    have hxp : x ≠ h.prev a := fun hxp => hda hpa (hxp ▸ hx)
    have hxt : x ≠ h.next b := fun hxt => hdb hnb (hxt ▸ hx)
    exact (Heap.agree_link hxb hxn).trans (Heap.agree_link hxp hxt)

/-- The head whose entries were moved is in no list. -/
theorem not_entry_splice (hs : Stores h w) (ha : w a = some xs) (hb : w b = some ys)
    (hab : a ≠ b) : ¬ ((w.forget a).set b (xs ++ ys)).Entry a := by
  rintro ⟨c, zs, hc, hm⟩
  by_cases hcb : c = b
  · subst hcb
    rw [set_self] at hc
    cases hc
    rcases List.mem_append.mp hm with hm | hm
    · exact hs.head_not_entry ha ⟨a, xs, ha, hm⟩
    · exact hs.head_not_entry ha ⟨c, ys, hb, hm⟩
  · rw [set_of_ne hcb] at hc
    exact hs.head_not_entry ha ⟨c, zs, (forget_some hc).2, hm⟩

theorem not_holds_detach (hs : Stores h w) : ¬ (w.detach e).Holds e := by
  rintro ⟨b, ys, hb, he⟩
  obtain ⟨hbe, xs, hw, rfl⟩ := detach_some hb
  have hn := (List.nodup_cons.mp (Cycle.nodup_coe_iff.mp (hs.ring hw).nodup)).2
  exact hn.not_mem_erase ((List.mem_cons.mp he).resolve_left hbe.symm)

end Stores

end Ohmylib.Linked
