import Ohmylib.Dictionary.Destroy

/-! The blocks of a dictionary when any allocation may fail. A key that could not be
duplicated leaves a slot without a key that may hold a value; the next insertion writes
over the value and loses its block. Apart from these values the live blocks stay those
of the dictionary and those that were live before it, so no `free` ever goes wrong. -/

namespace Ohmylib.Dictionary.Blocks

open Alloc

/-- A call, with the ids of the blocks. -/
def exec (signed : Bool) (d : DictionaryS) (L : Ledger) : Dictionary.Call →
    Option (Resp × DictionaryS × Ledger)
  | .add a key val => (dictionaryAdd signed a d key val L).map fun p => (.code p.1, p.2)
  | .del key => (dictionaryDel signed d key L).map fun p => (.done, p)
  | .get key dflt => some (.value (Dictionary.dictionaryGet signed d.erase key dflt), d, L)
  | .dump => some (.text (dictionaryDump d.erase), d, L)

/-- The responses to a sequence of calls, and what it leaves. -/
def runCalls (signed : Bool) (d : DictionaryS) (L : Ledger) : List Dictionary.Call →
    Option (List Resp × DictionaryS × Ledger)
  | [] => some ([], d, L)
  | c :: cs => (exec signed d L c).bind fun p =>
      (runCalls signed p.2.1 p.2.2 cs).map fun q => (p.1 :: q.1, q.2)

variable {signed : Bool} {a : Allocs} {d d' d₁ : DictionaryS} {L L' L₁ : Ledger}
  {e e' : DictionaryEntryS} {x y : List DictionaryEntryS} {k : CString} {ids rest : List ℕ}

/-! ### Forgetting the ids -/

/-- Without ids, a call is that of the dictionary without ids. -/
theorem exec_erase {c : Dictionary.Call} {r : Resp} (h : exec signed d L c = some (r, d', L')) :
    c.exec signed d.erase = some (r, d'.erase) := by
  cases c with
  | add a key val =>
    obtain ⟨⟨z, d₁, L₁⟩, ha, hr⟩ := Option.map_eq_some_iff.mp h
    cases hr
    rw [Call.exec, dictionaryAdd_erase ha]
    rfl
  | del key =>
    obtain ⟨⟨d₁, L₁⟩, hd, hr⟩ := Option.map_eq_some_iff.mp h
    cases hr
    rw [Call.exec, dictionaryDel_erase hd]
  | get key dflt | dump =>
    cases h
    rfl

theorem runCalls_cons {c : Dictionary.Call} {cs : List Dictionary.Call} {rs : List Resp}
    (h : runCalls signed d L (c :: cs) = some (rs, d', L')) : ∃ r rs' d₁ L₁,
    exec signed d L c = some (r, d₁, L₁) ∧ runCalls signed d₁ L₁ cs = some (rs', d', L') ∧
      rs = r :: rs' := by
  obtain ⟨⟨r, d₁, L₁⟩, hx, hr⟩ := Option.bind_eq_some_iff.mp h
  obtain ⟨⟨rs', d₂, L₂⟩, hcs, he⟩ := Option.map_eq_some_iff.mp hr
  cases he
  exact ⟨r, rs', d₁, L₁, hx, hcs, rfl⟩

/-! ### Single blocks -/

def blockOf (s : Option Str) : List ℕ := s.toList.map Str.block

theorem entry_blocks (e : DictionaryEntryS) : e.blocks = blockOf e.key ++ blockOf e.val :=
  List.map_append

theorem free_owns {s : Option Str} (h : Owns L (blockOf s ++ ids)) :
    ∃ L', free L s = some L' ∧ Owns L' ids := by
  cases s with
  | none => exact ⟨L, rfl, h⟩
  | some s => exact Owns.free h

theorem strdup_owns (h : Owns L ids) (ok : Bool) (s : CString) :
    ∃ v L', strdup ok L (some s) = some (v, L') ∧ Owns L' (blockOf v ++ ids) ∧
      v.isSome = ok := by
  cases ok with
  | true => exact ⟨_, _, rfl, h.alloc, rfl⟩
  | false => exact ⟨none, L, rfl, h, rfl⟩

theorem strdupOrNull_owns (h : Owns L ids) (ok : Bool) (val : Option CString) :
    ∃ v L', strdupOrNull ok L val = some (v, L') ∧ Owns L' (blockOf v ++ ids) ∧
      v.isSome = (ok && val.isSome) := by
  cases val with
  | none => exact ⟨none, L, rfl, h, by simp⟩
  | some s =>
    obtain ⟨v, L', hv, ho, hs⟩ := strdup_owns h ok s
    exact ⟨v, L', by simpa [strdupOrNull] using hv, ho, by simp [hs]⟩

/-! ### The invariant -/

/-- The live blocks are those of the dictionary and `rest`. -/
structure Tracks (d : DictionaryS) (L : Ledger) (rest : List ℕ) : Prop where
  length_eq : d.entries.length = d.size
  owns : Owns L (d.blocks ++ rest)

/-- A value without a key. -/
def DictionaryEntryS.stray (e : DictionaryEntryS) : Bool := e.key.isNone && e.val.isSome

def DictionaryS.strays (d : DictionaryS) : ℕ := d.entries.countP DictionaryEntryS.stray

theorem strays_setEntry (hl : d.entries = x ++ e :: y) (e' : DictionaryEntryS) (n : ℕ) :
    ({ d.setEntry x.length e' with count := n } : DictionaryS).strays +
        (if e.stray then 1 else 0) = d.strays + if e'.stray then 1 else 0 := by
  have hl' : (d.setEntry x.length e').entries = x ++ e' :: y := entries_setEntry hl
  simp only [DictionaryS.strays, hl, hl', List.countP_append, List.countP_cons]
  omega

theorem Tracks.take_entries (h : Tracks d L rest) : d.entries.take d.size = d.entries := by
  rw [← h.length_eq, List.take_length]

/-- The blocks of one slot in front. -/
theorem Tracks.slot (h : Tracks d L rest) (hl : d.entries = x ++ e :: y) :
    Owns L (e.blocks ++ (d.others x y ++ rest)) := by
  have hp := (blocks_split hl).append_right rest
  rw [List.append_assoc] at hp
  exact h.owns.perm hp

/-- A slot is rewritten: its blocks are exchanged for those of the new slot. -/
theorem Tracks.setEntry (h : Tracks d L rest) (hl : d.entries = x ++ e :: y) (n : ℕ)
    {rest' : List ℕ} (ho : Owns L' (e'.blocks ++ (d.others x y ++ rest'))) :
    Tracks { d.setEntry x.length e' with count := n } L' rest' where
  length_eq := by
    have hlen := h.length_eq
    simp only [entries_setEntry hl]
    rw [hl] at hlen
    simpa [DictionaryS.setEntry] using hlen
  owns := by
    have hp : ({ d.setEntry x.length e' with count := n } : DictionaryS).blocks.Perm
        (e'.blocks ++ d.others x y) := blocks_split (entries_setEntry hl)
    have hp' := hp.append_right rest'
    rw [List.append_assoc] at hp'
    exact ho.perm hp'.symm

/-- The slot a search without ids stopped at. -/
theorem Tracks.find {p : Dictionary.DictionaryEntryS → Bool} (h : Tracks d L rest) {idx : ℕ}
    (hf : (d.erase.entries.take d.erase.size).findIdx? p = some idx) : ∃ x e y,
    d.entries = x ++ e :: y ∧ x.length = idx ∧ p e.erase = true := by
  have ht : d.erase.entries.take d.erase.size = d.erase.entries := by
    have hlen : d.erase.entries.length = d.erase.size := by
      simpa [DictionaryS.erase] using h.length_eq
    rw [← hlen, List.take_length]
  rw [ht] at hf
  obtain ⟨x, e, y, hl, rfl, hp, -⟩ := Slots.findIdx?_eq_some_iff_split.mp hf
  obtain ⟨x', e', y', hl', hx, rfl⟩ := split_of_erase hl
  exact ⟨x', e', y', hl', hx, hp⟩

theorem Tracks.findIdxByKey (h : Tracks d L rest) {hash : UInt32} {idx : ℕ}
    (hf : dictionaryFindIdxByKey d.erase k hash = .ok idx) : ∃ x e y,
    d.entries = x ++ e :: y ∧ x.length = idx ∧ ∃ key, e.key = some key ∧ key.str = k := by
  unfold dictionaryFindIdxByKey at hf
  split at hf
  · next i hi =>
    cases hf
    obtain ⟨x, e, y, hl, hx, hp⟩ := h.find hi
    refine ⟨x, e, y, hl, hx, ?_⟩
    cases hk : e.key with
    | none => simp [Dictionary.DictionaryEntryS.holds, DictionaryEntryS.erase, hk] at hp
    | some key =>
      simp only [Dictionary.DictionaryEntryS.holds, DictionaryEntryS.erase, hk, Option.map_some,
        Bool.and_eq_true, beq_iff_eq] at hp
      exact ⟨key, rfl, hp.2.symm⟩
  · cases hf

theorem Tracks.findIdxByEmpty (h : Tracks d L rest) {idx : ℕ}
    (hf : dictionaryFindIdxByEmpty d.erase = .ok idx) : ∃ x e y,
    d.entries = x ++ e :: y ∧ x.length = idx ∧ e.key = none := by
  unfold dictionaryFindIdxByEmpty at hf
  split at hf
  · next i hi =>
    cases hf
    obtain ⟨x, e, y, hl, hx, hp⟩ := h.find hi
    exact ⟨x, e, y, hl, hx, by simpa [DictionaryEntryS.erase] using hp⟩
  · cases hf

/-! ### Calls -/

/-- A refresh frees the old value, and the new one may be `NULL`. -/
theorem refreshEntry_tracks (h : Tracks d L rest) (hl : d.entries = x ++ e :: y) (a : Allocs)
    (s : CString) : ∃ r v L',
    refreshEntry a d L x.length (some s) = some (r, d.setEntry x.length { e with val := v }, L') ∧
      Tracks (d.setEntry x.length { e with val := v }) L' rest := by
  have ho := h.slot hl
  rw [entry_blocks, List.append_assoc] at ho
  obtain ⟨L₁, hf, ho₁⟩ := free_owns ho.swap
  obtain ⟨v, L₂, hv, ho₂, -⟩ := strdup_owns ho₁ a.strdupVal s
  have hr : refreshEntry a d L x.length (some s) =
      some (if v.isNone then -1 else 0, d.setEntry x.length { e with val := v }, L₂) := by
    simp only [refreshEntry, entry_append hl, hf, Option.bind_eq_bind, Option.bind_some, hv]
  refine ⟨_, v, L₂, hr, h.setEntry hl d.count ?_⟩
  rw [entry_blocks, List.append_assoc]
  exact ho₂.swap

/-- An insertion loses the value of its slot, if there is one. -/
theorem insertEntry_tracks (h : Tracks d L rest) (hl : d.entries = x ++ e :: y)
    (hk : e.key = none) (hash : UInt32) (a : Allocs) (k : CString) (val : Option CString) :
    ∃ e' L', insertEntry hash a d L x.length k val =
        some (0, { d.setEntry x.length e' with count := d.count + 1 }, L') ∧
      Tracks { d.setEntry x.length e' with count := d.count + 1 } L' (blockOf e.val ++ rest) ∧
      e'.stray = (!a.strdupKey && (a.strdupVal && val.isSome)) := by
  have ho := h.slot hl
  have he : e.blocks = blockOf e.val := by
    rw [entry_blocks, hk]
    rfl
  obtain ⟨kp, L₁, hkp, ho₁, hks⟩ := strdup_owns ho a.strdupKey k
  obtain ⟨v, L₂, hv, ho₂, hvs⟩ := strdupOrNull_owns ho₁ a.strdupVal val
  refine ⟨⟨hash, kp, v⟩, L₂, ?_, h.setEntry hl _ ?_, ?_⟩
  · simp only [insertEntry, hkp, Option.bind_eq_bind, Option.bind_some, hv]
  · rw [he] at ho₂
    rw [entry_blocks, List.append_assoc]
    refine ho₂.swap.perm ?_
    rw [List.perm_iff_count]
    intro id
    simp only [List.count_append]
    omega
  · rw [DictionaryEntryS.stray, hvs, ← hks]
    cases kp <;> rfl

theorem deleteEntry_tracks (h : Tracks d L rest) (hl : d.entries = x ++ e :: y) : ∃ n L',
    deleteEntry d L x.length = some ({ d.setEntry x.length zeroed with count := n }, L') ∧
      Tracks { d.setEntry x.length zeroed with count := n } L' rest := by
  have ho := h.slot hl
  rw [entry_blocks, List.append_assoc] at ho
  obtain ⟨L₁, hf, ho₁⟩ := free_owns ho
  obtain ⟨L₂, hf', ho₂⟩ := free_owns ho₁
  refine ⟨if d.count = 0 then 2 ^ 64 - 1 else d.count - 1, L₂, ?_, h.setEntry hl _ ho₂⟩
  simp only [deleteEntry, entry_append hl, hf, hf', Option.bind_eq_bind, Option.bind_some]

/-- Growing exchanges the block of slots, or leaves all as it is. -/
theorem dictionaryResize_tracks (h : Tracks d L rest) (calloc : Bool) : ∃ g L',
    dictionaryResize calloc d L = some (g, L') ∧ Tracks (g.getD d) L' rest ∧
      (g.getD d).strays = d.strays := by
  unfold dictionaryResize
  split_ifs with hlt hc
  · exact ⟨some d, L, rfl, h, rfl⟩
  · have hall : Owns L.alloc (d.block :: d.handle :: L.next ::
        (d.entries.flatMap DictionaryEntryS.blocks ++ rest)) := by
      refine h.owns.alloc.perm ?_
      rw [List.perm_iff_count]
      intro id
      simp only [DictionaryS.blocks, List.cons_append, List.count_cons]
      omega
    obtain ⟨L₁, hfree, ho⟩ := hall.free
    refine ⟨_, L₁, by rw [hfree]; rfl, ⟨?_, ?_⟩, ?_⟩
    · simp [h.take_entries, h.length_eq]
    · simpa [DictionaryS.blocks, h.take_entries, blocks_replicate] using ho
    · simp [DictionaryS.strays, h.take_entries, DictionaryEntryS.stray, zeroed]
  · exact ⟨none, L, rfl, h, rfl⟩

/-- The call is an addition that duplicates the value and not the key. -/
def LosesKey : Dictionary.Call → Bool
  | .add a (some _) (some _) => !a.strdupKey && a.strdupVal
  | _ => false

/-- What a call keeps: it runs, and every block it loses was a value without a key. -/
structure Kept (d : DictionaryS) (rest : List ℕ) (fails : Bool) (d' : DictionaryS) (L' : Ledger) :
    Prop where
  intro ::
  tracks : ∃ lost, Tracks d' L' (lost ++ rest) ∧
    lost.length + d'.strays ≤ d.strays + if fails then 1 else 0

theorem dictionaryAdd_kept (signed : Bool) (a : Allocs) (key val : Option CString)
    (h : Tracks d L rest)
    (hdef : (Dictionary.dictionaryAdd signed a d.erase key val).isSome) : ∃ r d' L',
    dictionaryAdd signed a d key val L = some (r, d', L') ∧
      Kept d rest (LosesKey (.add a key val)) d' L' := by
  cases key with
  | none => exact ⟨-1, d, L, rfl, ⟨[], h, by simp⟩⟩
  | some k =>
    cases hf : dictionaryFindIdxByKey d.erase k (dictionaryHash signed (some k)) with
    | ok idx =>
      obtain ⟨x, e, y, hl, rfl, key, hk, -⟩ := h.findIdxByKey hf
      obtain ⟨s, rfl⟩ : ∃ s, val = some s := by
        cases val with
        | none => simp [Dictionary.dictionaryAdd, hf, Ohmylib.strdup] at hdef
        | some s => exact ⟨s, rfl⟩
      obtain ⟨r, v, L', hr, ht⟩ := refreshEntry_tracks h hl a s
      refine ⟨r, _, L', by simp only [dictionaryAdd, hf, hr], ⟨[], ht, ?_⟩⟩
      -- the slot holds a key before and after
      have hs := strays_setEntry hl { e with val := v } d.count
      simp only [DictionaryEntryS.stray, hk, Option.isNone_some, Bool.false_and] at hs
      have : (d.setEntry x.length { e with val := v }).strays = d.strays := hk ▸ hs
      rw [this]
      exact Nat.le_trans (by simp) (Nat.le_add_right _ _)
    | error err =>
      obtain ⟨g, L₁, hg, ht₁, hs₁⟩ := dictionaryResize_tracks h a.calloc
      cases g with
      | none =>
        exact ⟨-1, d, L₁, by simp only [dictionaryAdd, hf, hg], ⟨[], ht₁, by simp⟩⟩
      | some d₁ =>
        rw [Option.getD_some] at ht₁ hs₁
        cases hi : dictionaryFindIdxByEmpty d₁.erase with
        | error err =>
          refine ⟨-1, d₁, L₁, by simp only [dictionaryAdd, hf, hg, hi], ⟨[], ht₁, ?_⟩⟩
          simp [hs₁]
        | ok idx =>
          obtain ⟨x, e, y, hl, rfl, hk⟩ := ht₁.findIdxByEmpty hi
          obtain ⟨e', L', hr, ht, he'⟩ := insertEntry_tracks ht₁ hl hk
            (dictionaryHash signed (some k)) a k val
          refine ⟨0, _, L', by simp only [dictionaryAdd, hf, hg, hi, hr],
            ⟨blockOf e.val, ht, ?_⟩⟩
          have hs := strays_setEntry hl e' (d₁.count + 1)
          have hlost : (blockOf e.val).length = if e.stray then 1 else 0 := by
            cases hv : e.val <;> simp [blockOf, DictionaryEntryS.stray, hk, hv]
          have hnew : e'.stray = LosesKey (.add a (some k) val) := by
            rw [he']
            cases val <;> simp [LosesKey]
          rw [hnew] at hs
          omega

theorem dictionaryDel_kept (signed : Bool) (h : Tracks d L rest) (key : Option CString) : ∃ d' L',
    dictionaryDel signed d key L = some (d', L') ∧ Kept d rest false d' L' := by
  cases key with
  | none => exact ⟨d, L, rfl, ⟨[], h, by simp⟩⟩
  | some k =>
    cases hf : dictionaryFindIdxByKey d.erase k (dictionaryHash signed (some k)) with
    | error err => exact ⟨d, L, by simp only [dictionaryDel, hf], ⟨[], h, by simp⟩⟩
    | ok idx =>
      obtain ⟨x, e, y, hl, rfl, key, hk, -⟩ := h.findIdxByKey hf
      obtain ⟨n, L', hd, ht⟩ := deleteEntry_tracks h hl
      refine ⟨_, L', by simp only [dictionaryDel, hf, hd], ⟨[], ht, ?_⟩⟩
      have hs := strays_setEntry hl zeroed n
      simp only [DictionaryEntryS.stray, hk, Option.isNone_some, Bool.false_and] at hs
      exact Nat.le_of_eq (by simpa [zeroed] using hs)

/-- A call that is defined without ids runs with them. -/
theorem exec_kept (h : Tracks d L rest) {c : Dictionary.Call}
    (hdef : (c.exec signed d.erase).isSome) : ∃ r d' L',
    exec signed d L c = some (r, d', L') ∧ Kept d rest (LosesKey c) d' L' := by
  cases c with
  | add a key val =>
    obtain ⟨r, d', L', ha, hk⟩ :=
      dictionaryAdd_kept signed a key val h (by simpa [Call.exec] using hdef)
    exact ⟨_, d', L', by rw [exec, ha]; rfl, hk⟩
  | del key =>
    obtain ⟨d', L', hd, hk⟩ := dictionaryDel_kept signed h key
    exact ⟨_, d', L', by rw [exec, hd]; rfl, hk⟩
  | get key dflt | dump => exact ⟨_, d, L, rfl, ⟨[], h, by simp [LosesKey]⟩⟩

/-- So does a run, and it loses at most one block for each key that failed. -/
theorem runCalls_kept (calls : List Dictionary.Call) : ∀ {d : DictionaryS} {L : Ledger}
    {rest : List ℕ}, Tracks d L rest → (Dictionary.run signed d.erase calls).isSome →
    ∃ rs d' L' lost, runCalls signed d L calls = some (rs, d', L') ∧
      Tracks d' L' (lost ++ rest) ∧
      lost.length + d'.strays ≤ d.strays + calls.countP LosesKey := by
  induction calls with
  | nil => exact fun {d L rest} h _ => ⟨[], d, L, [], rfl, h, by simp⟩
  | cons c calls ih =>
    intro d L rest h hdef
    have hc : (c.exec signed d.erase).isSome := by
      cases hx : c.exec signed d.erase with
      | none => simp [Dictionary.run, hx] at hdef
      | some p => rfl
    obtain ⟨r, d₁, L₁, hx, ⟨lost₁, ht₁, hn₁⟩⟩ := exec_kept h hc
    have hrest : (Dictionary.run signed d₁.erase calls).isSome := by
      simpa [Dictionary.run, exec_erase hx] using hdef
    obtain ⟨rs, d', L', lost₂, hr, ht, hn⟩ := ih ht₁ hrest
    refine ⟨r :: rs, d', L', lost₂ ++ lost₁, by rw [runCalls, hx, Option.bind_some, hr]; rfl,
      by rwa [List.append_assoc], ?_⟩
    rw [List.countP_cons, List.length_append]
    omega

theorem runCalls_erase {calls : List Dictionary.Call} {rs : List Resp}
    (h : runCalls signed d L calls = some (rs, d', L')) :
    Dictionary.run signed d.erase calls = some (rs, d'.erase) := by
  induction calls generalizing d L rs with
  | nil =>
    cases h
    rfl
  | cons c calls ih =>
    obtain ⟨r, rs', d₁, L₁, hx, hr, rfl⟩ := runCalls_cons h
    simp only [Dictionary.run, exec_erase hx, ih hr, Option.map_some]

/-! ### From creation to destruction -/

/-- A new dictionary has its handle and its block of slots beside what was live. -/
theorem dictionaryCreate_tracks (size : ℕ) (L : Ledger) : ∃ d L',
    dictionaryCreate true true size L = some (some d, L') ∧ Tracks d L' L.live ∧
      d.strays = 0 := by
  have ho : Owns L L.live := List.Perm.refl _
  refine ⟨_, _, rfl, ⟨List.length_replicate, ?_⟩, ?_⟩
  · rw [DictionaryS.blocks, blocks_replicate]
    exact ho.alloc.alloc.perm (List.Perm.swap _ _ _)
  · simp [DictionaryS.strays, DictionaryEntryS.stray, zeroed]

/-- `dictionary_destroy` frees all but the block of slots. -/
theorem dictionaryDestroy_tracks (h : Tracks d L rest) :
    ∃ L', dictionaryDestroy d L = some L' ∧ Owns L' (d.block :: rest) := by
  have ho : Owns L
      (d.entries.flatMap DictionaryEntryS.blocks ++ (d.handle :: d.block :: rest)) := by
    refine h.owns.perm ?_
    rw [List.perm_iff_count]
    intro id
    simp only [DictionaryS.blocks, List.cons_append, List.count_cons, List.count_append]
    omega
  obtain ⟨L₁, hall, ho₁⟩ := Owns.freeAll _ ho
  obtain ⟨L', hfree, ho'⟩ := ho₁.free
  refine ⟨L', ?_, ho'⟩
  rw [dictionaryDestroy, h.take_entries, foldlM_destroyEntry, hall]
  exact hfree

/-- Whatever allocations fail, a dictionary on which the calls are defined never frees a
block that is not live: the calls run with the ids and give the same responses, the live
blocks are those of the dictionary, the lost values and those live before, and
`dictionary_destroy` leaves the block of slots and the lost values behind. At most one
value is lost for each addition whose key could not be duplicated and whose value could. -/
theorem run_frees (signed : Bool) (size : ℕ) (L₀ : Ledger) (calls : List Dictionary.Call)
    (rs : List Resp) (g : Dictionary.DictionaryS)
    (hdef : ((Dictionary.dictionaryCreate true true size).bind fun d =>
      Dictionary.run signed d calls) = some (rs, g)) :
    ∃ d₀ L₁ d L₂ L₃ lost, dictionaryCreate true true size L₀ = some (some d₀, L₁) ∧
      runCalls signed d₀ L₁ calls = some (rs, d, L₂) ∧ d.erase = g ∧
      Owns L₂ (d.blocks ++ (lost ++ L₀.live)) ∧
      dictionaryDestroy d L₂ = some L₃ ∧ Owns L₃ (d.block :: (lost ++ L₀.live)) ∧
      lost.length ≤ calls.countP LosesKey := by
  obtain ⟨d₀, L₁, hc, ht₀, hs₀⟩ := dictionaryCreate_tracks size L₀
  have hrun : Dictionary.run signed d₀.erase calls = some (rs, g) := by
    simpa [dictionaryCreate_erase hc] using hdef
  obtain ⟨rs', d, L₂, lost, hr, ht, hn⟩ :=
    runCalls_kept calls ht₀ (by rw [hrun]; rfl)
  obtain ⟨rfl, rfl⟩ : rs' = rs ∧ d.erase = g := by
    simpa using (runCalls_erase hr).symm.trans hrun
  obtain ⟨L₃, hd, ho⟩ := dictionaryDestroy_tracks ht
  exact ⟨d₀, L₁, d, L₂, L₃, lost, hc, hr, rfl, ht.owns, hd, ho, by omega⟩

/-- The key of the first addition cannot be duplicated, and the second one loses its value. -/
theorem run_frees_lost : ∃ g d₀ L₁ d L₂ L₃ lost,
    dictionaryCreate true true 0 .empty = some (some d₀, L₁) ∧
      runCalls true d₀ L₁ [.add ⟨true, false, true⟩ (some ⟨[0x61], by decide⟩)
          (some ⟨[0x62], by decide⟩), .add .all (some ⟨[0x61], by decide⟩)
          (some ⟨[0x63], by decide⟩)] = some ([.code 0, .code 0], d, L₂) ∧
      d.erase = g ∧ Owns L₂ (d.blocks ++ (lost ++ Ledger.empty.live)) ∧
      dictionaryDestroy d L₂ = some L₃ ∧ Owns L₃ (d.block :: (lost ++ Ledger.empty.live)) ∧
      lost.length ≤ 1 :=
  ⟨_, run_frees true 0 .empty _ _ _ rfl⟩

end Ohmylib.Dictionary.Blocks
