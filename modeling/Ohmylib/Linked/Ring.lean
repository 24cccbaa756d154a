import Mathlib.Data.List.Cycle
import Mathlib.Logic.Function.Basic

/-! Rings of nodes that point at each other. Every node has two pointers, and `b`
follows `a` when each points at the other. Linking `b` behind `a` rewrites one
pointer of each. A ring is a cycle of different nodes that follow each other: two
links open it for a new node, one closes it over a removed node, and two join it
with another ring. -/

namespace Ohmylib.Linked

/-- The two pointers of every node. -/
@[ext] structure Heap (α : Type*) where
  next : α → α
  prev : α → α

namespace Heap

variable {α : Type*} [DecidableEq α] {h h' : Heap α} {a b e x y : α}

def setNext (h : Heap α) (a b : α) : Heap α := { h with next := Function.update h.next a b }

def setPrev (h : Heap α) (a b : α) : Heap α := { h with prev := Function.update h.prev a b }

@[simp] theorem setNext_next : (h.setNext a b).next = Function.update h.next a b := rfl

@[simp] theorem setNext_prev : (h.setNext a b).prev = h.prev := rfl

@[simp] theorem setPrev_next : (h.setPrev a b).next = h.next := rfl

@[simp] theorem setPrev_prev : (h.setPrev a b).prev = Function.update h.prev a b := rfl

/-- Make `b` follow `a`. -/
def link (h : Heap α) (a b : α) : Heap α := (h.setNext a b).setPrev b a

theorem link_next_of_ne (hx : x ≠ a) : (h.link a b).next x = h.next x := by simp [link, hx]

theorem link_prev_of_ne (hx : x ≠ b) : (h.link a b).prev x = h.prev x := by simp [link, hx]

omit [DecidableEq α] in
/-- Both pointers of `x` are the same in `h'` as in `h`. -/
def Agree (h h' : Heap α) (x : α) : Prop := h'.next x = h.next x ∧ h'.prev x = h.prev x

omit [DecidableEq α] in
theorem Agree.trans {h'' : Heap α} (hx : Agree h h' x) (hx' : Agree h' h'' x) : Agree h h'' x :=
  ⟨hx'.1.trans hx.1, hx'.2.trans hx.2⟩

theorem agree_link (ha : x ≠ a) (hb : x ≠ b) : Agree h (h.link a b) x :=
  ⟨link_next_of_ne ha, link_prev_of_ne hb⟩

/-- The same heap with the two directions exchanged. -/
def mirror (h : Heap α) : Heap α := ⟨h.prev, h.next⟩

omit [DecidableEq α] in
/-- `b` follows `a`. -/
def Joined (h : Heap α) (a b : α) : Prop := h.next a = b ∧ h.prev b = a

theorem link_joined : (h.link a b).Joined a b := by simp [Joined, link]

theorem Joined.link (hj : h.Joined x y) (hx : x ≠ a) (hy : y ≠ b) : (h.link a b).Joined x y :=
  ⟨(link_next_of_ne hx).trans hj.1, (link_prev_of_ne hy).trans hj.2⟩

/-- A chain survives a link when `a` has no successor in it and `b` no predecessor. -/
theorem isChain_link {l : List α} (hl : l.IsChain h.Joined) (ha : a ∉ l.dropLast)
    (hb : b ∉ l.tail) : l.IsChain (h.link a b).Joined := by
  induction hl with
  | nil => exact .nil
  | singleton x => exact .singleton x
  | @cons_cons x y l hj _ ih =>
    rw [List.dropLast_cons_cons, List.mem_cons, not_or] at ha
    rw [List.tail_cons, List.mem_cons, not_or] at hb
    exact .cons_cons (hj.link (Ne.symm ha.1) (Ne.symm hb.1)) (ih ha.2 hb.2)

end Heap

variable {α : Type*} {h h' : Heap α} {a b e x : α} {l l₁ l₂ xs ys : List α} {c : Cycle α}

/-- The nodes of `c` are different and follow each other. -/
structure Ring (h : Heap α) (c : Cycle α) : Prop where
  nodup : c.Nodup
  chain : c.Chain h.Joined

/-- A cycle can be read from any of its nodes. -/
theorem coe_append_cons (l₁ l₂ : List α) (a : α) :
    (↑(l₁ ++ a :: l₂) : Cycle α) = ↑(a :: (l₂ ++ l₁)) :=
  Cycle.coe_eq_coe.mpr List.isRotated_append

theorem exists_coe_cons (hx : x ∈ c) : ∃ l : List α, c = ↑(x :: l) := by
  induction c with
  | nil => exact absurd hx (Cycle.notMem_nil x)
  | cons a l _ =>
    obtain ⟨l₁, l₂, hl⟩ := List.append_of_mem (Cycle.mem_coe_iff.mp hx)
    exact ⟨l₂ ++ l₁, hl ▸ coe_append_cons l₁ l₂ x⟩

namespace Ring

theorem nodup_append (hr : Ring h ↑(a :: l)) : (l ++ [a]).Nodup := by
  have hn := Cycle.nodup_coe_iff.mp hr.nodup
  exact (List.perm_append_singleton a l).nodup_iff.mpr hn

theorem notMem (hr : Ring h ↑(a :: l)) : a ∉ l :=
  (List.nodup_cons.mp (Cycle.nodup_coe_iff.mp hr.nodup)).1

theorem next_eq (hr : Ring h ↑(a :: l)) : h.next a = l.headD a := by
  have hc := (Cycle.chain_coe_cons _ a l).mp hr.chain
  cases l with
  | nil => exact (List.isChain_cons_cons.mp hc).1.1
  | cons b l => exact (List.isChain_cons_cons.mp hc).1.1

/-- The last node and the first one follow each other too. -/
theorem mirror (hr : Ring h ↑(a :: l)) : Ring h.mirror ↑(a :: l.reverse) where
  nodup := by
    have hn := Cycle.nodup_coe_iff.mp hr.nodup
    rw [Cycle.nodup_coe_iff]
    exact ((List.reverse_perm l).cons a).nodup_iff.mpr hn
  chain := by
    have hc := (Cycle.chain_coe_cons _ a l).mp hr.chain
    rw [Cycle.chain_coe_cons]
    have hrev : a :: (l.reverse ++ [a]) = (a :: (l ++ [a])).reverse := by simp
    rw [hrev, List.isChain_reverse]
    exact hc.imp fun _ _ hj => ⟨hj.2, hj.1⟩

theorem prev_eq (hr : Ring h ↑(a :: l)) : h.prev a = l.getLastD a := by
  have hp := hr.mirror.next_eq
  rwa [List.headD_eq_head?_getD, List.head?_reverse, ← List.getLastD_eq_getLast?] at hp

/-- The node behind any node of a ring read from `a`. -/
theorem next_split (hr : Ring h ↑(a :: (l₁ ++ x :: l₂))) : h.next x = l₂.headD a := by
  rw [← List.cons_append, coe_append_cons] at hr
  rw [hr.next_eq]
  cases l₂ <;> rfl

theorem prev_split (hr : Ring h ↑(a :: (l₁ ++ x :: l₂))) : h.prev x = l₁.reverse.headD a := by
  have hm := hr.mirror
  rw [List.reverse_append, List.reverse_cons, List.append_assoc, List.singleton_append] at hm
  exact hm.next_split

theorem next_mem (hr : Ring h c) (hx : x ∈ c) : h.next x ∈ c := by
  obtain ⟨l, rfl⟩ := exists_coe_cons hx
  rw [hr.next_eq, Cycle.mem_coe_iff]
  cases l <;> simp

theorem prev_mem (hr : Ring h c) (hx : x ∈ c) : h.prev x ∈ c := by
  obtain ⟨l, rfl⟩ := exists_coe_cons hx
  have hm : h.prev x ∈ (↑(x :: l.reverse) : Cycle α) :=
    hr.mirror.next_mem (Cycle.mem_coe_iff.mpr List.mem_cons_self)
  simpa using hm

/-- A ring depends on the pointers of its nodes only. -/
theorem congr (hr : Ring h c) (hp : ∀ x ∈ c, h.Agree h' x) : Ring h' c := by
  refine ⟨hr.nodup, ?_⟩
  induction c with
  | nil => exact Cycle.Chain.nil _
  | cons a l _ =>
    have hm : ∀ x ∈ a :: (l ++ [a]), x ∈ (↑(a :: l) : Cycle α) := by simp [or_comm]
    refine List.IsChain.imp_of_mem_imp (fun x y hx hy hj => ?_) hr.chain
    exact ⟨(hp x (hm x hx)).1.trans hj.1, (hp y (hm y hy)).2.trans hj.2⟩

/-- The pointers of a ring are determined by the ring. -/
theorem agree (hr : Ring h c) (hr' : Ring h' c) (hx : x ∈ c) : h.Agree h' x := by
  obtain ⟨l, rfl⟩ := exists_coe_cons hx
  exact ⟨hr'.next_eq.trans hr.next_eq.symm, hr'.prev_eq.trans hr.prev_eq.symm⟩

theorem chain_unique {s : α} (hx : (s :: (xs ++ [a])).IsChain h.Joined)
    (hy : (s :: (ys ++ [a])).IsChain h.Joined) (hax : a ∉ xs) (hay : a ∉ ys) : xs = ys := by
  induction xs generalizing s ys with
  | nil =>
    cases ys with
    | nil => rfl
    | cons y ys =>
      have hy' := (List.isChain_cons_cons.mp hy).1.1
      have hx' := (List.isChain_cons_cons.mp hx).1.1
      exact absurd (hx'.symm.trans hy' ▸ List.mem_cons_self) hay
  | cons x xs ih =>
    cases ys with
    | nil =>
      have hy' := (List.isChain_cons_cons.mp hy).1.1
      have hx' := (List.isChain_cons_cons.mp hx).1.1
      exact absurd (hy'.symm.trans hx' ▸ List.mem_cons_self) hax
    | cons y ys =>
      rw [List.cons_append, List.isChain_cons_cons] at hx hy
      cases hx.1.1.symm.trans hy.1.1
      rw [ih hx.2 hy.2 (List.not_mem_of_not_mem_cons hax) (List.not_mem_of_not_mem_cons hay)]

/-- The nodes behind `a` can be read off the heap. -/
theorem unique (hx : Ring h ↑(a :: xs)) (hy : Ring h ↑(a :: ys)) : xs = ys :=
  chain_unique hx.chain hy.chain hx.notMem hy.notMem

section Rules

variable [DecidableEq α]

/-- A node linked to itself. -/
theorem single (h : Heap α) (a : α) : Ring (h.link a a) ↑[a] where
  nodup := Cycle.nodup_coe_iff.mpr (List.nodup_singleton a)
  chain := (Cycle.chain_singleton _ a).mpr Heap.link_joined

theorem frame (hr : Ring h c) (ha : a ∉ c) (hb : b ∉ c) : Ring (h.link a b) c :=
  hr.congr fun _ hx => Heap.agree_link (fun hxa => ha (hxa ▸ hx)) fun hxb => hb (hxb ▸ hx)

/-- A new node behind `a`. -/
theorem push (hr : Ring h ↑(a :: l)) (he : e ∉ a :: l) :
    Ring ((h.link e (h.next a)).link a e) ↑(a :: e :: l) where
  nodup := by
    have hn := Cycle.nodup_coe_iff.mp hr.nodup
    rw [Cycle.nodup_coe_iff]
    exact (List.Perm.swap a e l).nodup_iff.mp (List.nodup_cons.mpr ⟨he, hn⟩)
  chain := by
    have hc := (Cycle.chain_coe_cons _ a l).mp hr.chain
    have hn := hr.nodup_append
    have ha : a ∉ (l ++ [a]).dropLast := by simpa using hr.notMem
    have he' : e ∉ l ++ [a] := by simpa [or_comm] using he
    rw [Cycle.chain_coe_cons]
    cases ht : l ++ [a] with
    | nil => simp at ht
    | cons b t =>
      rw [ht] at hc hn ha he'
      have hb := List.isChain_cons_cons.mp hc
      rw [hb.1.1, List.cons_append, ht]
      have hab : a ≠ e := fun h => he (h ▸ List.mem_cons_self)
      have hbe : b ≠ e := fun h => he' (h ▸ List.mem_cons_self)
      refine .cons_cons Heap.link_joined (.cons_cons (Heap.link_joined.link hab.symm hbe) ?_)
      have hb₁ : (b :: t).IsChain (h.link e b).Joined :=
        Heap.isChain_link hb.2 (fun h => he' (List.dropLast_subset _ h)) (List.nodup_cons.mp hn).1
      exact Heap.isChain_link hb₁ ha fun h => he' (List.mem_cons_of_mem b h)

/-- The node behind `a` taken out. -/
theorem pop (hr : Ring h ↑(a :: e :: l)) : Ring (h.link a (h.next e)) ↑(a :: l) where
  nodup := by
    have hn := Cycle.nodup_coe_iff.mp hr.nodup
    rw [Cycle.nodup_coe_iff]
    exact hn.sublist ((List.sublist_cons_self e l).cons_cons a)
  chain := by
    have hc := (Cycle.chain_coe_cons _ a (e :: l)).mp hr.chain
    have hn : (l ++ [a]).Nodup := (List.nodup_cons.mp hr.nodup_append).2
    have ha : a ∉ (l ++ [a]).dropLast := by
      simpa using fun h => hr.notMem (List.mem_cons_of_mem e h)
    rw [Cycle.chain_coe_cons]
    cases ht : l ++ [a] with
    | nil => simp at ht
    | cons b t =>
      rw [List.cons_append, ht] at hc
      rw [ht] at hn ha
      have hb := List.isChain_cons_cons.mp (List.isChain_cons_cons.mp hc).2
      rw [hb.1.1]
      exact .cons_cons Heap.link_joined (Heap.isChain_link hb.2 ha (List.nodup_cons.mp hn).1)

/-- A new node in front of `a`. -/
theorem append (hr : Ring h ↑(a :: l)) (he : e ∉ a :: l) :
    Ring ((h.link e a).link (h.prev a) e) ↑(a :: (l ++ [e])) := by
  rcases l.eq_nil_or_concat' with rfl | ⟨m, p, rfl⟩
  · have hs := hr.push he
    have hn : h.next a = a := hr.next_eq
    have hp : h.prev a = a := hr.prev_eq
    rw [hn] at hs
    rwa [hp]
  · have hp : h.prev a = p := by simp [hr.prev_eq]
    have hm : (↑(a :: (m ++ [p])) : Cycle α) = ↑(p :: a :: m) := coe_append_cons (a :: m) [] p
    rw [hm] at hr
    have hs := hr.push (e := e) (by simpa [or_comm, or_assoc, or_left_comm] using he)
    rw [hr.next_eq, List.headD_cons] at hs
    have hm' : (↑(a :: (m ++ [p] ++ [e])) : Cycle α) = ↑(p :: e :: a :: m) := by
      have := coe_append_cons (a :: m) [e] p
      simpa using this
    rwa [hp, hm']

/-- Any node behind `a` taken out. -/
theorem remove (hr : Ring h ↑(a :: (l₁ ++ e :: l₂))) :
    Ring (h.link (h.prev e) (h.next e)) ↑(a :: (l₁ ++ l₂)) := by
  obtain ⟨m, p, hm⟩ := (a :: l₁).eq_nil_or_concat'.resolve_left (List.cons_ne_nil a l₁)
  rw [← List.cons_append, hm, List.append_assoc] at hr ⊢
  have hp : h.prev e = p := by
    rw [← List.append_assoc, coe_append_cons] at hr
    simp [hr.prev_eq]
  rw [List.singleton_append, coe_append_cons, List.cons_append] at hr
  rw [hp, List.singleton_append, coe_append_cons]
  exact hr.pop

/-- The nodes behind `a` moved behind `b`, a node of another ring. -/
theorem splice (hx : Ring h ↑(a :: xs)) (hy : Ring h ↑(b :: ys)) (hne : xs ≠ [])
    (hd : (a :: xs).Disjoint (b :: ys)) :
    Ring ((h.link b (h.next a)).link (h.prev a) (h.next b)) ↑(b :: (xs ++ ys)) where
  nodup := by
    have hnx := Cycle.nodup_coe_iff.mp hx.nodup
    have hny := Cycle.nodup_coe_iff.mp hy.nodup
    rw [Cycle.nodup_coe_iff, ← List.perm_middle.nodup_iff]
    exact (List.nodup_cons.mp hnx).2.append hny (List.disjoint_of_disjoint_cons_left hd)
  chain := by
    have hnx := Cycle.nodup_coe_iff.mp hx.nodup
    have hcx : xs.IsChain h.Joined := hx.chain.tail.left_of_append
    have hcy : (ys ++ [b]).IsChain h.Joined := hy.chain.tail
    have hny := hy.nodup_append
    have hb : b ∉ (ys ++ [b]).dropLast := by simpa using hy.notMem
    have hdt : ∀ z ∈ xs, z ∉ ys ++ [b] := fun z hz hz' =>
      hd (List.mem_cons_of_mem a hz) (by simpa [or_comm] using hz')
    have hby : h.next b = (ys ++ [b]).headD b := by
      rw [hy.next_eq]
      cases ys <;> rfl
    obtain ⟨f, xs', rfl⟩ := List.exists_cons_of_ne_nil hne
    obtain ⟨m, g, hg⟩ := (f :: xs').eq_nil_or_concat'.resolve_left hne
    have hga : h.prev a = g := by rw [hx.prev_eq, hg, List.getLastD_concat]
    have hgm : g ∈ f :: xs' := hg ▸ List.mem_append_right m List.mem_cons_self
    have hgd : g ∉ (f :: xs').dropLast := by
      have hnm : (m ++ [g]).Nodup := hg ▸ (List.nodup_cons.mp hnx).2
      rw [hg, List.dropLast_concat]
      exact fun hgm => (List.nodup_append.mp hnm).2.2 g hgm g List.mem_cons_self rfl
    rw [Cycle.chain_coe_cons, hx.next_eq, List.headD_cons, hga, hby, List.append_assoc,
      ← List.cons_append]
    cases ht : ys ++ [b] with
    | nil => simp at ht
    | cons t ts =>
      rw [ht] at hcy hny hb hdt
      have hbm : b ∈ t :: ts := ht ▸ List.mem_append_right ys List.mem_cons_self
      rw [List.headD_cons, List.isChain_append]
      refine ⟨.cons_cons (Heap.link_joined.link ?_ ?_) ?_, ?_, ?_⟩
      · exact fun hbg => hdt g hgm (hbg ▸ hbm)
      · exact fun hft => hdt f List.mem_cons_self (hft ▸ List.mem_cons_self)
      · refine Heap.isChain_link (Heap.isChain_link hcx ?_ ?_) hgd ?_
        · exact fun hbx => hdt b (List.dropLast_subset _ hbx) hbm
        · exact (List.nodup_cons.mp (List.nodup_cons.mp hnx).2).1
        · exact fun htx => hdt t (List.mem_of_mem_tail htx) List.mem_cons_self
      · refine Heap.isChain_link (Heap.isChain_link hcy hb ?_) ?_ (List.nodup_cons.mp hny).1
        · exact fun hfy => hdt f List.mem_cons_self (List.mem_of_mem_tail hfy)
        · exact fun hgy => hdt g hgm (List.dropLast_subset _ hgy)
      · rw [hg, ← List.cons_append, List.getLast?_concat]
        rintro z ⟨⟩ w ⟨⟩
        exact Heap.link_joined

end Rules

end Ring

end Ohmylib.Linked
