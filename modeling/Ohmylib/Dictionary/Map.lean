import Mathlib.Logic.Function.Basic
import Ohmylib.Dictionary.Runs

/-! The dictionary as a finite map. The specification knows only the history of
additions and deletions: a key is bound to the value of its latest addition unless a
deletion came later. Every call answers by these bindings, whatever the hashes of the
keys, however often the slots grew and whichever slots were reused. -/

namespace Ohmylib.Dictionary

open Slots

variable {signed : Bool} {d d₀ d' : DictionaryS} {k : CString}

/-- A call on strings, with a value that is not `NULL` and with allocations that
succeed. -/
inductive Op
  | add (k v : CString)
  | del (k : CString)
  | get (k : CString) (dflt : Option CString)
  | dump

def Op.call : Op → Call
  | .add k v => .add .all (some k) (some v)
  | .del k => .del (some k)
  | .get k dflt => .get (some k) dflt
  | .dump => .dump

/-- What an operation makes of the binding of a key, if it concerns the key. -/
def Op.writes (k : CString) : Op → Option (Option CString)
  | .add k' v => if k' = k then some (some v) else none
  | .del k' => if k' = k then some none else none
  | _ => none

/-- The value of the latest addition of a key, if no deletion of it came later. -/
def latest (ops : List Op) (k : CString) : Option CString :=
  (ops.reverse.findSome? (Op.writes k)).join

/-- The bindings after one more operation. -/
def Op.apply (M : CString → Option CString) : Op → CString → Option CString
  | .add k v => Function.update M k (some v)
  | .del k => Function.update M k none
  | _ => M

theorem Op.apply_eq (M : CString → Option CString) (op : Op) (k : CString) :
    op.apply M k = (op.writes k).getD (M k) := by
  cases op with
  | add k' v =>
    simp only [Op.apply, Op.writes, Function.update_apply, eq_comm]
    split_ifs <;> rfl
  | del k' =>
    simp only [Op.apply, Op.writes, Function.update_apply, eq_comm]
    split_ifs <;> rfl
  | get k' dflt => rfl
  | dump => rfl

theorem latest_append_singleton (ops : List Op) (op : Op) :
    latest (ops ++ [op]) = op.apply (latest ops) := by
  funext k
  rw [Op.apply_eq, latest, List.reverse_append, List.reverse_singleton, List.singleton_append,
    List.findSome?_cons]
  cases op.writes k <;> rfl

/-- The answers of a map to an operation. A dump has one record for each binding and
none for any other key, and its text is empty just if there is no binding. -/
inductive Answers (signed : Bool) (M : CString → Option CString) : Op → Resp → Prop
  | add (k v : CString) : Answers signed M (.add k v) (.code 0)
  | del (k : CString) : Answers signed M (.del k) .done
  | get (k : CString) (dflt : Option CString) :
      Answers signed M (.get k dflt) (.value ((M k).or dflt))
  | dump (rs : List Record)
      (hrs : ∀ k, rs.filter (fun r => r.key = k) =
        (M k).toList.map fun v => ⟨dictionaryHash signed (some k), k, some v⟩)
      (he : rs.flatMap Record.text = [] ↔ ∀ k, M k = none) :
      Answers signed M .dump (.text (rs.flatMap Record.text))

theorem text_ne_nil (r : Record) : r.text ≠ [] := by
  simp [Record.text]

theorem filter_records_of_notMem {l : List DictionaryEntryS}
    (hk : k ∉ Slots.keys DictionaryEntryS.key l) :
    (l.filterMap DictionaryEntryS.record).filter (fun r => r.key = k) = [] := by
  rw [List.filter_eq_nil_iff]
  intro r hr
  obtain ⟨e, he, hre⟩ := List.mem_filterMap.mp hr
  obtain ⟨k', hk', rfl⟩ := Option.map_eq_some_iff.mp hre
  simp only [decide_eq_true_eq]
  rintro rfl
  exact hk (mem_keys.mpr ⟨e, he, hk'⟩)

/-- The records with a given key: the slot of the key, if there is one. -/
theorem filter_records (h : Sane signed d) (k : CString) :
    (d.entries.filterMap DictionaryEntryS.record).filter (fun r => r.key = k) =
      (d.stored k).toList.map fun v => ⟨dictionaryHash signed (some k), k, v⟩ := by
  by_cases hk : k ∈ d.keys
  · obtain ⟨a, e, b, hl, he, -⟩ := findIdxByKey_of_mem h hk
    obtain ⟨ha, hb⟩ := h.notMem_keys hl he
    have hh : e.hash = dictionaryHash signed (some k) := h.hash_eq e (mem_of_split hl) k he
    have hr : e.record = some ⟨dictionaryHash signed (some k), k, e.val⟩ := by
      rw [DictionaryEntryS.record, he, ← hh]
      rfl
    rw [stored_split h hl he, hl, List.filterMap_append, List.filterMap_cons, hr,
      List.filter_append, filter_records_of_notMem ha, List.nil_append,
      List.filter_cons_of_pos (by simp), filter_records_of_notMem hb]
    rfl
  · rw [filter_records_of_notMem hk, stored_eq_none_iff.mpr hk]
    rfl

/-- The check of `count` only skips a dump that has no records. -/
theorem dumpRecords_eq (h : Sane signed d) :
    dumpRecords d = d.entries.filterMap DictionaryEntryS.record := by
  unfold dumpRecords
  rw [h.take_entries]
  split_ifs with hc
  · rw [eq_comm, List.filterMap_eq_nil_iff]
    intro e he
    rw [DictionaryEntryS.record, Option.map_eq_none_iff, Option.eq_none_iff_forall_ne_some]
    intro k hk
    have hnil : d.keys = [] := List.length_eq_zero_iff.mp (Nat.le_zero.mp (hc ▸ h.occupied_le))
    have : k ∈ d.keys := mem_keys.mpr ⟨e, he, hk⟩
    rw [hnil] at this
    cases this
  · rfl

/-- A dictionary that holds the bindings of a map. -/
structure Models (signed : Bool) (d : DictionaryS) (M : CString → Option CString) : Prop
    extends Valid signed d where
  stored_eq : ∀ k, d.stored k = (M k).map some

variable {M : CString → Option CString}

theorem Models.get (h : Models signed d M) (k : CString) (dflt : Option CString) :
    dictionaryGet signed d (some k) dflt = (M k).or dflt := by
  rw [dictionaryGet_eq h.toSane, h.stored_eq]
  cases M k <;> rfl

theorem Models.dump (h : Models signed d M) :
    Answers signed M .dump (.text (dictionaryDump d)) := by
  have hrs : ∀ k, (dumpRecords d).filter (fun r => r.key = k) =
      (M k).toList.map fun v => ⟨dictionaryHash signed (some k), k, some v⟩ := by
    intro k
    rw [dumpRecords_eq h.toSane, filter_records h.toSane, h.stored_eq]
    cases M k <;> rfl
  refine .dump _ hrs ?_
  constructor
  · intro he k
    have hnil : dumpRecords d = [] := by
      rw [List.eq_nil_iff_forall_not_mem]
      intro r hr
      exact text_ne_nil r (List.flatMap_eq_nil_iff.mp he r hr)
    have := hrs k
    rw [hnil] at this
    cases hM : M k with
    | none => rfl
    | some v => simp [hM] at this
  · intro hM
    have hnil : dumpRecords d = [] := by
      rw [List.eq_nil_iff_forall_not_mem]
      intro r hr
      have := hrs r.key
      rw [hM r.key, Option.toList_none, List.map_nil, List.filter_eq_nil_iff] at this
      exact this r hr (by simp)
    rw [hnil, List.flatMap_nil]

/-- A write under one key, seen from all keys. -/
theorem Models.update (h : Models signed d M) (hv : Valid signed d') {v : Option CString}
    (hs : d'.stored k = v.map some) (hn : ∀ k', k' ≠ k → d'.stored k' = d.stored k') :
    Models signed d' (Function.update M k v) where
  toValid := hv
  stored_eq k' := by
    by_cases hk : k' = k
    · rw [hk, hs, Function.update_self]
    · rw [hn k' hk, h.stored_eq, Function.update_of_ne hk]

theorem Models.add (h : Models signed d M) (k v : CString) : ∃ d',
    dictionaryAdd signed .all d (some k) (some v) = some (0, d') ∧
      Models signed d' (Function.update M k (some v)) := by
  obtain ⟨r, d', ha⟩ := dictionaryAdd_some h.toSane .all k v
  have he := dictionaryAdd_effect h.toSane ha
  have hv := he.valid h.toValid rfl
  have hn := fun k' (hk : k' ≠ k) => he.stored_ne h.toSane hk
  cases he with
  | replaced he hv' hr hs hc =>
    cases hv'
    exact ⟨d', ha, h.update hv (hr.stored_self.trans (if_pos he)) hn⟩
  | full hk hg =>
    have := ((dictionaryResize_eq_none_iff h.toSane _).mp hg).2
    cases this
  | filled hk hg he hr hc =>
    exact ⟨d', ha, h.update hv (hr.stored_self.trans (if_pos rfl)) hn⟩

theorem Models.del (h : Models signed d M) (k : CString) :
    Models signed (dictionaryDel signed d (some k)) (Function.update M k none) := by
  have he := dictionaryDel_effect h.toSane k
  exact h.update (he.valid h.toValid) he.stored_self fun k' hk => he.stored_ne hk

/-- One operation answers as the map does and leaves the map's next bindings. -/
theorem models_step (h : Models signed d M) (op : Op) : ∃ r d',
    op.call.exec signed d = some (r, d') ∧ Answers signed M op r ∧
      Models signed d' (op.apply M) := by
  cases op with
  | add k v =>
    obtain ⟨d', ha, hm⟩ := h.add k v
    exact ⟨.code 0, d', by simp [Op.call, Call.exec, ha], .add k v, hm⟩
  | del k => exact ⟨.done, _, rfl, .del k, h.del k⟩
  | get k dflt =>
    have ha : Answers signed M (.get k dflt) (.value ((M k).or dflt)) := .get k dflt
    rw [← h.get k dflt] at ha
    exact ⟨_, d, rfl, ha, h⟩
  | dump => exact ⟨_, d, rfl, h.dump, h⟩

/-- A new dictionary has no bindings. -/
theorem models_created (signed : Bool) {handle slots : Bool} {size : ℕ} {d₀ : DictionaryS}
    (hd : dictionaryCreate handle slots size = some d₀) : Models signed d₀ (latest []) := by
  obtain ⟨hv, hk⟩ := dictionaryCreate_valid signed hd
  refine ⟨hv, fun k => stored_eq_none_iff.mpr ?_⟩
  rw [hk]
  exact List.not_mem_nil

theorem models_run (ops : List Op) : ∀ {d : DictionaryS} {past : List Op},
    Models signed d (latest past) → ∃ rs d', run signed d (ops.map Op.call) = some (rs, d') ∧
      rs.length = ops.length ∧
      (∀ i (hi : i < ops.length) (hr : i < rs.length),
        Answers signed (latest (past ++ ops.take i)) ops[i] rs[i]) ∧
      Models signed d' (latest (past ++ ops)) := by
  induction ops with
  | nil =>
    intro d past h
    refine ⟨[], d, rfl, rfl, fun i hi => absurd hi (Nat.not_lt_zero i), ?_⟩
    rwa [List.append_nil]
  | cons op ops ih =>
    intro d past h
    obtain ⟨r, d₁, hc, ha, h₁⟩ := models_step h op
    rw [← latest_append_singleton] at h₁
    obtain ⟨rs, d', hrun, hlen, hans, h'⟩ := ih h₁
    refine ⟨r :: rs, d', run_cons.mpr ⟨r, d₁, rs, hc, hrun, rfl⟩, congrArg (· + 1) hlen, ?_, ?_⟩
    · intro i hi hr
      cases i with
      | zero => simpa using ha
      | succ i =>
        have := hans i (Nat.lt_of_succ_lt_succ hi) (Nat.lt_of_succ_lt_succ hr)
        simpa using this
    · simpa using h'

/-- Operations that do not write under a key leave what is read under it. -/
theorem Models.frame (h : Models signed d M) {op : Op} {r : Resp}
    (hc : op.call.exec signed d = some (r, d')) (hk : op.writes k = none) (dflt : Option CString) :
    dictionaryGet signed d' (some k) dflt = dictionaryGet signed d (some k) dflt := by
  obtain ⟨r₁, d₁, hc₁, -, h₁⟩ := models_step h op
  rw [hc] at hc₁
  cases hc₁
  rw [h₁.get, h.get, Op.apply_eq, hk, Option.getD_none]

/-- A created dictionary refines a finite map, over every sequence of operations with
allocations that succeed: each response is the one the bindings of the operations
before it give, the dictionary left behind holds the bindings of them all, and one
more operation does not change what is read under the keys it does not write. -/
theorem dictionary_refines_map (signed : Bool) {size : ℕ}
    (hd : dictionaryCreate true true size = some d₀)
    (ops : List Op) : ∃ rs d, run signed d₀ (ops.map Op.call) = some (rs, d) ∧
      rs.length = ops.length ∧
      (∀ i (hi : i < ops.length) (hr : i < rs.length),
        Answers signed (latest (ops.take i)) ops[i] rs[i]) ∧
      (∀ k dflt, dictionaryGet signed d (some k) dflt = (latest ops k).or dflt) ∧
      ∀ (op : Op) r d' k dflt, op.call.exec signed d = some (r, d') → op.writes k = none →
        dictionaryGet signed d' (some k) dflt = dictionaryGet signed d (some k) dflt := by
  obtain ⟨rs, d, hrun, hlen, hans, hm⟩ := models_run ops (models_created signed hd)
  exact ⟨rs, d, hrun, hlen, hans, hm.get, fun op r d' k dflt hc hw => hm.frame hc hw dflt⟩

/-- A slot is reused for another key. -/
theorem dictionary_refines_map_reuse : ∃ d₀ rs d, dictionaryCreate true true 0 = some d₀ ∧
    run true d₀ ([.add (.ofBytes [0x61]) (.ofBytes [0x31]), .del (.ofBytes [0x61]),
      .add (.ofBytes [0x62]) (.ofBytes [0x32])].map Op.call) = some (rs, d) ∧
    dictionaryGet true d (some (.ofBytes [0x61])) none = none ∧
    dictionaryGet true d (some (.ofBytes [0x62])) none = some (.ofBytes [0x32]) := by
  obtain ⟨d₀, hd⟩ : ∃ d₀, dictionaryCreate true true 0 = some d₀ := ⟨_, rfl⟩
  obtain ⟨rs, d, hr, -, -, hget, -⟩ := dictionary_refines_map true hd
    [.add (.ofBytes [0x61]) (.ofBytes [0x31]), .del (.ofBytes [0x61]),
      .add (.ofBytes [0x62]) (.ofBytes [0x32])]
  exact ⟨d₀, rs, d, hd, hr, hget _ none, hget _ none⟩

end Ohmylib.Dictionary
