import Ohmylib.Linked.Contents
import Ohmylib.ListHead.Model

/-! The calls on lists against lists. Seen from outside, the memory holds a list of
entries for each head. A call that keeps to the rules of the header (an entry is added
to one list at a time, only an entry is removed, two lists are joined) does to the
memory what its name promises of the lists, does not fault, and writes to no node but
those of the lists and those it is given. -/

namespace Ohmylib.ListHead

open Linked

variable {m m' m₁ : Memory} {w w' w₁ : Contents Addr} {names : List Addr}
  {e x p n head list : Addr} {xs ys : List Addr}

/-- The memory holds the lists `w`, and all of their nodes can be accessed. -/
structure Sound (m : Memory) (w : Contents Addr) : Prop where
  stores : Stores m.heads w
  mapped : ∀ x, w.Holds x → m.mapped x

/-- The memory came from `m` to `m'` and its lists from `w` to `w'`, with no write to a node
that is neither in the lists nor among `names`. -/
structure Effect (names : List Addr) (m : Memory) (w : Contents Addr) (m' : Memory)
    (w' : Contents Addr) : Prop where
  mapped : m'.mapped = m.mapped
  stores : Stores m'.heads w'
  holds : ∀ x, w'.Holds x → w.Holds x ∨ x ∈ names
  agree : ∀ x, ¬ w.Holds x → x ∉ names → m.heads.Agree m'.heads x

namespace Effect

theorem refl (hs : Stores m.heads w) : Effect names m w m w :=
  ⟨rfl, hs, fun _ hx => .inl hx, fun _ _ _ => ⟨rfl, rfl⟩⟩

theorem trans (h : Effect names m w m₁ w₁) (h' : Effect names m₁ w₁ m' w') :
    Effect names m w m' w' where
  mapped := h'.mapped.trans h.mapped
  stores := h'.stores
  holds x hx := (h'.holds x hx).elim (h.holds x) .inr
  agree x hx hn :=
    (h.agree x hx hn).trans (h'.agree x (fun hx₁ => (h.holds x hx₁).elim hx hn) hn)

theorem sound (h : Effect names m w m' w') (hs : Sound m w) (hn : ∀ x ∈ names, m.mapped x) :
    Sound m' w' where
  stores := h.stores
  mapped x hx := by
    rw [h.mapped]
    exact (h.holds x hx).elim (hs.mapped x) (hn x)

theorem mono {names' : List Addr} (h : Effect names m w m' w') (hn : names ⊆ names') :
    Effect names' m w m' w' :=
  ⟨h.mapped, h.stores, fun x hx => (h.holds x hx).imp_right (@hn x),
    fun x hx hx' => h.agree x hx fun hxn => hx' (hn hxn)⟩

/-- Nodes of the lists need not be named. -/
theorem unnamed (h : Effect names m w m' w') (hn : ∀ x ∈ names, w.Holds x) :
    Effect [] m w m' w' :=
  ⟨h.mapped, h.stores, fun x hx => .inl ((h.holds x hx).elim id (hn x)),
    fun x hx _ => h.agree x hx fun hxn => hx (hn x hxn)⟩

end Effect

/-! ### The calls -/

/-- `w` with `e` in no list, or alone in its own. -/
def Removable (w : Contents Addr) (e : Addr) : Prop := w.Entry e ∨ w e = some []

theorem Removable.holds (h : Removable w e) : w.Holds e :=
  Contents.holds_iff.mpr (h.symm.imp_left fun he => by simp [he])

theorem initListHead_effect (hs : Stores m.heads w) (hp : m.mapped p) (he : ¬ w.Entry p) :
    ∃ m', initListHead m p = some m' ∧ Effect [p] m w m' (w.set p []) := by
  refine ⟨{ m with heads := m.heads.link p p }, ?_, rfl, hs.init he, fun x hx => ?_, ?_⟩
  · simp [initListHead, Memory.setNext, Memory.setPrev, hp, Heap.link]
  · exact Contents.holds_set hx
  · intro x _ hx
    have hxp : x ≠ p := fun hxp => hx (hxp ▸ List.mem_cons_self)
    exact Heap.agree_link hxp hxp

theorem _listAdd_eq (he : m.mapped e) (hp : m.mapped p) (hn : m.mapped n) :
    _listAdd m e p n = some { m with heads := (m.heads.link e n).link p e } := by
  simp only [_listAdd, Memory.setNext, Memory.setPrev, he, hp, hn, if_true, Option.bind_eq_bind,
    Option.bind_some]
  rfl

/-- The part that `list_add` and `list_add_tail` share. -/
theorem insert_effect (hs : Sound m w) (hh : w head = some xs) (he : m.mapped e)
    (hp : w.Holds p) (hn : w.Holds n) (hys : ∀ x ∈ ys, x = e ∨ x ∈ xs)
    (hst : Stores ((m.heads.link e n).link p e) ((w.forget e).set head ys)) :
    ∃ m', _listAdd m e p n = some m' ∧ Effect [e] m w m' ((w.forget e).set head ys) := by
  refine ⟨_, _listAdd_eq he (hs.mapped p hp) (hs.mapped n hn), rfl, hst, fun x hx => ?_, ?_⟩
  · exact (Contents.holds_insert hh hys hx).imp_right fun hx => by simp [hx]
  · intro x hx hxe
    have hxe : x ≠ e := fun h => hxe (h ▸ List.mem_cons_self)
    have hxp : x ≠ p := fun h => hx (h ▸ hp)
    have hxn : x ≠ n := fun h => hx (h ▸ hn)
    exact (Heap.agree_link hxe hxn).trans (Heap.agree_link hxp hxe)

section Add

variable (hs : Sound m w) (he : m.mapped e) (hne : ¬ w.Entry e) (heh : e ≠ head)
  (hh : w head = some xs)
include hs he hne heh hh

theorem listAdd_effect : ∃ m', listAdd m e head = some m' ∧ Effect [e] m w m' (w.push e head) := by
  have hhold : w.Holds head := ⟨head, xs, hh, List.mem_cons_self⟩
  have hf : (w.forget e) head = some xs := (Contents.forget_of_ne heh.symm).trans hh
  have hst := (hs.stores.forget e).push hf (Contents.not_holds_forget hne)
  obtain ⟨m', hm, hef⟩ := insert_effect hs hh he hhold (hs.stores.holds_next hhold) (by simp) hst
  refine ⟨m', ?_, Contents.push_of_head hh ▸ hef⟩
  simpa [listAdd, Memory.next, hs.mapped head hhold] using hm

theorem listAddTail_effect :
    ∃ m', listAddTail m e head = some m' ∧ Effect [e] m w m' (w.append e head) := by
  have hhold : w.Holds head := ⟨head, xs, hh, List.mem_cons_self⟩
  have hf : (w.forget e) head = some xs := (Contents.forget_of_ne heh.symm).trans hh
  have hst := (hs.stores.forget e).append hf (Contents.not_holds_forget hne)
  obtain ⟨m', hm, hef⟩ :=
    insert_effect hs hh he (hs.stores.holds_prev hhold) hhold (by simp [or_comm]) hst
  refine ⟨m', ?_, Contents.append_of_head hh ▸ hef⟩
  simpa [listAddTail, Memory.prev, hs.mapped head hhold] using hm

end Add

/-- What `list_del`, `list_del_init` and the moves begin with. -/
theorem _listDel_effect (hs : Sound m w) (he : Removable w e) :
    m.prev e = some (m.heads.prev e) ∧ m.next e = some (m.heads.next e) ∧
      ∃ m', _listDel m (m.heads.prev e) (m.heads.next e) = some m' ∧
        Effect [e] m w m' (w.detach e) := by
  have hp := hs.stores.holds_prev he.holds
  have hn := hs.stores.holds_next he.holds
  have hm := hs.mapped e he.holds
  refine ⟨if_pos hm, if_pos hm, { m with heads := m.heads.link (m.heads.prev e) (m.heads.next e) },
    ?_, rfl, hs.stores.detach he, fun x hx => .inl (Contents.holds_detach hx), fun x hx _ => ?_⟩
  · simp only [_listDel, Memory.setNext, Memory.setPrev, hs.mapped _ hp, hs.mapped _ hn, if_true,
      Option.bind_eq_bind, Option.bind_some]
    rfl
  · exact Heap.agree_link (fun h => hx (h ▸ hp)) fun h => hx (h ▸ hn)

theorem listDel_effect (hs : Sound m w) (he : Removable w e) :
    ∃ m', listDel m e = some m' ∧ Effect [e] m w m' (w.detach e) ∧
      m'.heads.next e = listPoison1 ∧ m'.heads.prev e = listPoison2 := by
  obtain ⟨hp, hn, m₁, hm₁, hef⟩ := _listDel_effect hs he
  have hme : m₁.mapped e := hef.mapped ▸ hs.mapped e he.holds
  have hagree : ∀ x, x ≠ e →
      m₁.heads.Agree ((m₁.heads.setNext e listPoison1).setPrev e listPoison2) x := by
    intro x hx
    simp [Heap.Agree, hx]
  have hout : ¬ (w.detach e).Holds e := hs.stores.not_holds_detach
  refine ⟨{ m₁ with heads := (m₁.heads.setNext e listPoison1).setPrev e listPoison2 }, ?_,
    hef.trans ⟨rfl, ?_, fun x hx => .inl hx, ?_⟩, ?_, ?_⟩
  · simp [listDel, hp, hn, hm₁, Memory.setNext, Memory.setPrev, hme]
  · exact hef.stores.congr fun x hx => hagree x fun hxe => hout (hxe ▸ hx)
  · exact fun x _ hx => hagree x fun hxe => hx (hxe ▸ List.mem_cons_self)
  · simp
  · simp

theorem not_entry_detach (hs : Stores m.heads w) : ¬ (w.detach e).Entry e := fun he =>
  hs.not_holds_detach (Contents.holds_iff.mpr (.inr he))

theorem listDelInit_effect (hs : Sound m w) (he : Removable w e) :
    ∃ m', listDelInit m e = some m' ∧ Effect [e] m w m' ((w.detach e).set e []) := by
  obtain ⟨hp, hn, m₁, hm₁, hef⟩ := _listDel_effect hs he
  have hme : m₁.mapped e := hef.mapped ▸ hs.mapped e he.holds
  obtain ⟨m', hm', hef'⟩ := initListHead_effect hef.stores hme (not_entry_detach hs.stores)
  exact ⟨m', by simp [listDelInit, hp, hn, hm₁, hm'], hef.trans hef'⟩

section Move

variable (hs : Sound m w) (he : Removable w e) (heh : e ≠ head) (hh : w head = some xs)
include hs he heh hh

theorem listMove_effect :
    ∃ m', listMove m e head = some m' ∧ Effect [e] m w m' ((w.detach e).push e head) := by
  obtain ⟨hp, hn, m₁, hm₁, hef⟩ := _listDel_effect hs he
  have hme := hs.mapped e he.holds
  have hs₁ := hef.sound hs (by simpa using hme)
  have hh₁ : (w.detach e) head = some (xs.erase e) := by
    rw [Contents.detach_of_ne heh.symm, hh, Option.map_some]
  obtain ⟨m', hm', hef'⟩ :=
    listAdd_effect hs₁ (hef.mapped ▸ hme) (not_entry_detach hs.stores) heh hh₁
  exact ⟨m', by simp [listMove, hp, hn, hm₁, hm'], hef.trans hef'⟩

theorem listMoveTail_effect :
    ∃ m', listMoveTail m e head = some m' ∧ Effect [e] m w m' ((w.detach e).append e head) := by
  obtain ⟨hp, hn, m₁, hm₁, hef⟩ := _listDel_effect hs he
  have hme := hs.mapped e he.holds
  have hs₁ := hef.sound hs (by simpa using hme)
  have hh₁ : (w.detach e) head = some (xs.erase e) := by
    rw [Contents.detach_of_ne heh.symm, hh, Option.map_some]
  obtain ⟨m', hm', hef'⟩ :=
    listAddTail_effect hs₁ (hef.mapped ▸ hme) (not_entry_detach hs.stores) heh hh₁
  exact ⟨m', by simp [listMoveTail, hp, hn, hm₁, hm'], hef.trans hef'⟩

end Move

theorem listEmpty_eq (hs : Sound m w) (hh : w head = some xs) :
    listEmpty m head = some (decide (xs = [])) := by
  have hm := hs.mapped head ⟨head, xs, hh, List.mem_cons_self⟩
  have hn := (hs.stores.ring hh).next_eq
  have hne := (hs.stores.ring hh).notMem
  cases xs with
  | nil => simp [listEmpty, Memory.next, hm, hn]
  | cons x xs =>
    have hx : x ≠ head := fun hx => hne (hx ▸ List.mem_cons_self)
    simp [listEmpty, Memory.next, hm, hn, hx]

section Splice

variable (hs : Sound m w) (hl : w list = some xs) (hh : w head = some ys) (hlh : list ≠ head)
include hs hl hh hlh

theorem _listSplice_effect (hne : xs ≠ []) :
    ∃ m', _listSplice m list head = some m' ∧
      Effect [] m w m' ((w.forget list).set head (xs ++ ys)) := by
  have hhold : w.Holds head := ⟨head, ys, hh, List.mem_cons_self⟩
  have hlold : w.Holds list := ⟨list, xs, hl, List.mem_cons_self⟩
  have hf := hs.stores.holds_next hlold
  have hg := hs.stores.holds_prev hlold
  have ha := hs.stores.holds_next hhold
  refine ⟨⟨m.mapped, (m.heads.link head (m.heads.next list)).link (m.heads.prev list)
    (m.heads.next head)⟩, ?_, rfl, hs.stores.splice hl hh hlh hne, fun x hx => ?_,
    fun x hx _ => ?_⟩
  · simp only [_listSplice, Memory.next, Memory.prev, Memory.setNext, Memory.setPrev,
      hs.mapped _ hhold, hs.mapped _ hlold, hs.mapped _ hf, hs.mapped _ hg, hs.mapped _ ha, if_true,
      Option.bind_eq_bind, Option.bind_some]
    rfl
  · refine .inl ?_
    rcases Contents.holds_set hx with hx | hx
    · exact Contents.holds_forget hx
    · rw [List.mem_cons, List.mem_append] at hx
      rcases hx with rfl | hx | hx
      · exact hhold
      · exact ⟨list, xs, hl, List.mem_cons_of_mem list hx⟩
      · exact ⟨head, ys, hh, List.mem_cons_of_mem head hx⟩
  · have hne : ∀ y, w.Holds y → x ≠ y := fun y hy hxy => hx (hxy ▸ hy)
    exact (Heap.agree_link (hne _ hhold) (hne _ hf)).trans (Heap.agree_link (hne _ hg) (hne _ ha))

theorem listSplice_effect :
    ∃ m', listSplice m list head = some m' ∧ Effect [] m w m' (w.splice list head) := by
  cases xs with
  | nil =>
    refine ⟨m, by simp [listSplice, listEmpty_eq hs hl], ?_⟩
    rw [Contents.splice_of_nil hl]
    exact .refl hs.stores
  | cons x xs =>
    obtain ⟨m', hm', hef⟩ := _listSplice_effect hs hl hh hlh (List.cons_ne_nil x xs)
    refine ⟨m', ?_, Contents.splice_of_cons hl hh ▸ hef⟩
    simp [listSplice, listEmpty_eq hs hl, hm']

theorem listSpliceInit_effect :
    ∃ m', listSpliceInit m list head = some m' ∧
      Effect [] m w m' ((w.splice list head).set list []) := by
  have hlold : w.Holds list := ⟨list, xs, hl, List.mem_cons_self⟩
  cases xs with
  | nil =>
    have hw : w.set list [] = w := Function.update_eq_self_iff.mpr hl.symm
    refine ⟨m, ?_, ?_⟩
    · simp [listSpliceInit, listEmpty_eq hs hl]
    · rw [Contents.splice_of_nil hl, hw]
      exact .refl hs.stores
  | cons x xs =>
    obtain ⟨m₁, hm₁, hef⟩ := _listSplice_effect hs hl hh hlh (List.cons_ne_nil x xs)
    have hml : m₁.mapped list := hef.mapped ▸ hs.mapped list hlold
    obtain ⟨m', hm', hef'⟩ :=
      initListHead_effect hef.stores hml (hs.stores.not_entry_splice hl hh hlh)
    refine ⟨m', ?_, ?_⟩
    · simp [listSpliceInit, listEmpty_eq hs hl, hm₁, hm']
    · rw [Contents.splice_of_cons hl hh]
      exact ((hef.mono (List.nil_subset _)).trans hef').unnamed (by simpa using hlold)

end Splice

end Ohmylib.ListHead
