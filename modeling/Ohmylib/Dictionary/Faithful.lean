import Ohmylib.Delimited.Field
import Ohmylib.Dictionary.Map

/-! What the text of a dump tells about the bindings. Nothing in a record is escaped and
a `NULL` value is spelled out, so a value may imitate the end of a record and the start
of the next, and a key may imitate its own end, though for a key the hash in front of it
has to collide. Apart from these the text determines the keys and how their values are
spelled. -/

namespace Ohmylib.Dictionary

open Delimited

variable {signed : Bool} {d e : DictionaryS} {k : CString} {r r' : Record}

/-- What stands behind a key. -/
def keyEnd : List UInt8 := [0x22, 0x3b, 0x22]

/-- What stands behind a value. -/
def valueEnd : List UInt8 := [0x22, 0x0a]

/-- How a value is printed. -/
def valueText (v : Option CString) : List UInt8 := (v.map CString.bytes).getD undefinedText

/-- The text holds the end of a record, the hash of another one and, unless it ends there, the
quote in front of a key. -/
def Forges (t : List UInt8) : Prop :=
  ∃ a h b, t = a ++ valueEnd ++ (hex8 h ++ [0x3b] ++ b) ∧ ∀ c ∈ b.head?, c = 0x22

/-- A key may be read where another one was printed. -/
def Confusable (signed : Bool) (k k' : CString) : Prop :=
  dictionaryHash signed (some k) = dictionaryHash signed (some k') ∧ Early keyEnd k.bytes k'.bytes

instance (signed : Bool) (k k' : CString) : Decidable (Confusable signed k k') := by
  unfold Confusable
  infer_instance

theorem hexDigit_injective : ∀ m < 16, ∀ n < 16, hexDigit m = hexDigit n → m = n := by
  decide

theorem hex8_injective : Function.Injective hex8 := by
  intro h h' heq
  have hdigit := List.map_inj_left.mp heq
  apply UInt32.toNat_inj.mp
  refine eq_of_digits (b := 16) 8 h.toNat_lt h'.toNat_lt fun i hi => ?_
  have hi' := hdigit (7 - i) (List.mem_range.mpr (by omega))
  rw [Nat.sub_sub_self (Nat.le_of_lt_succ hi)] at hi'
  exact hexDigit_injective _ (Nat.mod_lt _ (by decide)) _ (Nat.mod_lt _ (by decide)) hi'

theorem quote_notMem_hex8 (h : UInt32) : (0x22 : UInt8) ∉ hex8 h ++ [0x3b] := by
  have hdigit : ∀ n < 16, hexDigit n ≠ 0x22 := by decide
  intro hq
  rcases List.mem_append.mp hq with hq | hq
  · obtain ⟨i, -, hi⟩ := List.mem_map.mp hq
    exact hdigit _ (Nat.mod_lt _ (by decide)) hi
  · exact absurd hq (by decide)

theorem unbordered_valueEnd : Unbordered valueEnd := by
  intro r hr hp
  match r with
  | [] => exact absurd rfl hr
  | [c] =>
    obtain ⟨t, ht⟩ := hp
    injection ht with _ ht
    injection ht with ht _
    exact absurd ht (by decide)
  | c :: c' :: r =>
    obtain ⟨t, ht⟩ := hp
    injection ht with h₁ ht
    injection ht with h₂ _
    subst h₁ h₂
    exact ⟨r, rfl⟩

theorem text_append (r : Record) (t : List UInt8) : r.text ++ t =
    hex8 r.hash ++ ([0x3b, 0x22] ++
      (r.key.bytes ++ keyEnd ++ (valueText r.val ++ valueEnd ++ t))) := by
  simp only [Record.text, keyEnd, valueEnd, valueText, List.append_assoc]

/-- A value behind which the record seems to end early forges a record. -/
theorem forges_of_early {x y t' : List UInt8} {m : List Record}
    (h : x ++ valueEnd ++ m.flatMap Record.text = y ++ valueEnd ++ t')
    (he : Early valueEnd x y) : Forges y := by
  obtain ⟨s, rfl, hm⟩ := early_split unbordered_valueEnd h he
  cases m with
  | nil =>
    have := congrArg List.length hm
    simp [valueEnd] at this
  | cons r m =>
    rw [List.flatMap_cons, text_append, ← List.singleton_append, List.append_assoc,
      ← List.append_assoc] at hm
    have hm' : hex8 r.hash ++ [0x3b] ++ (0x22 :: (r.key.bytes ++ keyEnd ++
        (valueText r.val ++ valueEnd ++ m.flatMap Record.text))) = s ++ 0x22 :: 0x0a :: t' := by
      simpa [valueEnd] using hm
    obtain ⟨b, rfl⟩ := append_of_notMem (quote_notMem_hex8 r.hash) hm'
    refine ⟨x, r.hash, b, rfl, fun c hc => ?_⟩
    -- what follows the semicolon is the quote of the key
    obtain ⟨b, rfl⟩ := List.head?_eq_some_iff.mp hc
    rw [List.append_assoc _ (c :: b), List.append_cancel_left_eq] at hm'
    exact (List.cons.inj hm').1.symm

/-- What a record shows. -/
def Record.shown (r : Record) : CString × List UInt8 := (r.key, valueText r.val)

/-- A record is known from a text of records that starts with it. -/
theorem shown_unique {m m' : List Record}
    (hk : r.hash = r'.hash → ¬ Early keyEnd r.key.bytes r'.key.bytes ∧
      ¬ Early keyEnd r'.key.bytes r.key.bytes)
    (hv : ¬ Forges (valueText r.val)) (hv' : ¬ Forges (valueText r'.val))
    (h : r.text ++ m.flatMap Record.text = r'.text ++ m'.flatMap Record.text) :
    r.shown = r'.shown ∧ m.flatMap Record.text = m'.flatMap Record.text := by
  rw [text_append, text_append] at h
  obtain ⟨hhash, hrest⟩ := List.append_inj h (by simp [hex8])
  have hfields := List.append_cancel_left hrest
  obtain ⟨hk₁, hk₂⟩ := hk (hex8_injective hhash)
  rcases field_unique hfields with ⟨hkey, hvalue⟩ | he | he
  · rcases field_unique hvalue with ⟨hval, htail⟩ | he | he
    · have hkey' : r.key = r'.key := by
        cases hr : r.key
        cases hr' : r'.key
        rw [hr, hr'] at hkey
        simpa using hkey
      exact ⟨Prod.ext hkey' hval, htail⟩
    · exact absurd (forges_of_early hvalue he) hv'
    · exact absurd (forges_of_early hvalue.symm he) hv
  · exact absurd he hk₁
  · exact absurd he hk₂

/-- A text that is too short for the end of a record and a hash forges nothing. -/
theorem not_forges_of_length_lt {t : List UInt8} (ht : t.length < 11) : ¬ Forges t := by
  rintro ⟨a, h, b, rfl, -⟩
  simp only [valueEnd, hex8, List.length_append, List.length_cons, List.length_nil,
    List.length_map, List.length_range] at ht
  omega

/-- No separator is imitated: the keys of the two dictionaries are not confusable, and
no value of either forges a record. -/
structure Plain (signed : Bool) (d e : DictionaryS) : Prop where
  keys : ∀ k ∈ d.keys, ∀ k' ∈ e.keys, ¬ Confusable signed k k' ∧ ¬ Confusable signed k' k
  left : ∀ k v, d.stored k = some (some v) → ¬ Forges v.bytes
  right : ∀ k v, e.stored k = some (some v) → ¬ Forges v.bytes

/-- Where a record comes from. -/
theorem mem_records (hd : Sane signed d) (hr : r ∈ d.entries.filterMap DictionaryEntryS.record) :
    r.key ∈ d.keys ∧ r.hash = dictionaryHash signed (some r.key) ∧
      d.stored r.key = some r.val := by
  have hmem : r ∈ (d.entries.filterMap DictionaryEntryS.record).filter (fun r' => r'.key = r.key) :=
    List.mem_filter.mpr ⟨hr, by simp⟩
  rw [filter_records hd, List.mem_map] at hmem
  obtain ⟨v, hv, hrv⟩ := hmem
  have hs : d.stored r.key = some v := Option.mem_toList.mp hv
  refine ⟨?_, ?_, ?_⟩
  · by_contra hk
    rw [stored_eq_none_iff.mpr hk] at hs
    cases hs
  · rw [← hrv]
  · rw [hs, ← hrv]

theorem not_forges_of_stored (h : ∀ k v, d.stored k = some (some v) → ¬ Forges v.bytes)
    {v : Option CString} (hs : d.stored k = some v) : ¬ Forges (valueText v) := by
  cases v with
  | none => exact not_forges_of_length_lt (by decide)
  | some v => exact h k v hs

/-- The spelled value under a key, from what the records show. -/
theorem stored_of_shown (hd : Sane signed d) (k : CString) : (d.stored k).map valueText =
    ((((d.entries.filterMap DictionaryEntryS.record).map Record.shown).filter
      fun p => p.1 = k).map Prod.snd).head? := by
  rw [List.filter_map]
  have hrecords := filter_records hd k
  have hkeys : (fun p => decide (p.1 = k)) ∘ Record.shown = fun r : Record => decide (r.key = k) :=
    rfl
  rw [hkeys, hrecords]
  cases d.stored k <;> rfl

/-- Two dictionaries in which no separator is imitated and that are dumped alike hold
the same keys, with values that are spelled alike: a `NULL` value is spelled
`undefined`. -/
theorem dump_faithful {d₀ e₀ : DictionaryS} {h₁ h₂ s₁ s₂ : Bool} {size₁ size₂ : ℕ}
    {cs cs' : List Call} {rs rs' : List Resp} (hd₀ : dictionaryCreate h₁ s₁ size₁ = some d₀)
    (he₀ : dictionaryCreate h₂ s₂ size₂ = some e₀) (hd : run signed d₀ cs = some (rs, d))
    (he : run signed e₀ cs' = some (rs', e)) (hp : Plain signed d e)
    (hdump : dictionaryDump d = dictionaryDump e) (k : CString) :
    (d.stored k).map valueText = (e.stored k).map valueText := by
  have hsd : Sane signed d := run_sane (dictionaryCreate_valid signed hd₀).1.toSane hd
  have hse : Sane signed e := run_sane (dictionaryCreate_valid signed he₀).1.toSane he
  rw [dictionaryDump, dictionaryDump, dumpRecords_eq hsd, dumpRecords_eq hse] at hdump
  have hshown : (d.entries.filterMap DictionaryEntryS.record).map Record.shown =
      (e.entries.filterMap DictionaryEntryS.record).map Record.shown := by
    refine map_eq_of_flatMap_eq text_ne_nil (fun r hr r' hr' m m' h => ?_) hdump
    obtain ⟨hk, hh, hs⟩ := mem_records hsd hr
    obtain ⟨hk', hh', hs'⟩ := mem_records hse hr'
    refine shown_unique (fun heq => ?_) (not_forges_of_stored hp.left hs)
      (not_forges_of_stored hp.right hs') h
    rw [hh, hh'] at heq
    obtain ⟨hc, hc'⟩ := hp.keys _ hk _ hk'
    exact ⟨fun h => hc ⟨heq, h⟩, fun h => hc' ⟨heq.symm, h⟩⟩
  rw [stored_of_shown hsd, stored_of_shown hse, hshown]

/-- The dictionary that calls leave, from a new one. -/
def after (signed : Bool) (cs : List Call) : Option DictionaryS :=
  (dictionaryCreate true true 0).bind fun d => (run signed d cs).map Prod.snd

theorem run_of_after {cs : List Call} (h : after signed cs = some d) : ∃ d₀ rs,
    dictionaryCreate true true 0 = some d₀ ∧ run signed d₀ cs = some (rs, d) := by
  obtain ⟨d₀, hd₀, hr⟩ := Option.bind_eq_some_iff.mp h
  obtain ⟨⟨rs, d'⟩, hr', rfl⟩ := Option.map_eq_some_iff.mp hr
  exact ⟨d₀, rs, hd₀, hr'⟩

/-- A check of the two dictionaries that calls leave. -/
theorem any_after_iff (P : DictionaryS → DictionaryS → Prop) [∀ d e, Decidable (P d e)]
    (cs cs' : List Call) :
    ((after signed cs).any fun d => (after signed cs').any fun e => P d e) = true ↔
      ∃ d e, after signed cs = some d ∧ after signed cs' = some e ∧ P d e := by
  cases hd : after signed cs <;> cases he : after signed cs' <;> simp

/-- The calls lead to two dictionaries that are dumped alike and differ under a key. -/
def Ambiguous (signed : Bool) (cs cs' : List Call) (k : CString) : Prop :=
  ∃ d e, after signed cs = some d ∧ after signed cs' = some e ∧
    dictionaryDump d = dictionaryDump e ∧ d.stored k ≠ e.stored k

instance (signed : Bool) (cs cs' : List Call) (k : CString) :
    Decidable (Ambiguous signed cs cs' k) :=
  decidable_of_iff _ (any_after_iff
    (fun d e => dictionaryDump d = dictionaryDump e ∧ d.stored k ≠ e.stored k) cs cs')

/-- Where the keys are told apart and every value is too short to forge a record, no separator
is imitated. -/
theorem plain_of_short
    (hk : ∀ k ∈ d.keys, ∀ k' ∈ e.keys, ¬ Confusable signed k k' ∧ ¬ Confusable signed k' k)
    (hv : ∀ x ∈ d.entries ++ e.entries, ∀ v ∈ x.val, v.bytes.length < 11) : Plain signed d e where
  keys := hk
  left k v hs := by
    obtain ⟨x, hx, hxv⟩ := Option.map_eq_some_iff.mp hs
    exact not_forges_of_length_lt (hv x (List.mem_append_left _ (Slots.mem_of_lookup hx)) v hxv)
  right k v hs := by
    obtain ⟨x, hx, hxv⟩ := Option.map_eq_some_iff.mp hs
    exact not_forges_of_length_lt (hv x (List.mem_append_right _ (Slots.mem_of_lookup hx)) v hxv)

/-- Two histories that leave the keys `a"` and `b;"`: the first `NULL` and `x";"y`, the second
`undefined` and `x";"y`. -/
theorem dump_faithful_histories : ∃ d e,
    after true [.add .all (some (.ofBytes [0x61, 0x22])) none,
      .add .all (some (.ofBytes [0x62, 0x3b, 0x22]))
        (some (.ofBytes [0x78, 0x22, 0x3b, 0x22, 0x79]))] = some d ∧
    after true [.add .all (some (.ofBytes [0x63])) (some (.ofBytes [0x7a])),
      .add .all (some (.ofBytes [0x62, 0x3b, 0x22])) (some (.ofBytes [0x22, 0x0a])),
      .del (some (.ofBytes [0x63])),
      .add .all (some (.ofBytes [0x61, 0x22])) (some (.ofBytes undefinedText)),
      .add .all (some (.ofBytes [0x62, 0x3b, 0x22]))
        (some (.ofBytes [0x78, 0x22, 0x3b, 0x22, 0x79]))] = some e ∧
    d ≠ e ∧ ∀ k, (d.stored k).map valueText = (e.stored k).map valueText := by
  refine ((any_after_iff (fun d e => d ≠ e ∧ dictionaryDump d = dictionaryDump e ∧
    (∀ k ∈ d.keys, ∀ k' ∈ e.keys, ¬ Confusable true k k' ∧ ¬ Confusable true k' k) ∧
      ∀ x ∈ d.entries ++ e.entries, ∀ v ∈ x.val, v.bytes.length < 11) _ _).mp ?_).imp fun d =>
        Exists.imp fun e ⟨hd, he, hne, hdump, hk, hv⟩ => ⟨hd, he, hne, ?_⟩
  · decide +kernel
  · obtain ⟨d₀, rs, hd₀, hrun⟩ := run_of_after hd
    obtain ⟨e₀, rs', he₀, hrun'⟩ := run_of_after he
    exact dump_faithful hd₀ he₀ hrun hrun' (plain_of_short hk hv) hdump

/-- Three ways to print two different dictionaries alike: a `NULL` value and the string
`undefined`; a value that holds a whole record; and the keys `5mlc` and `5mlc";"dbd`,
whose hashes collide. -/
theorem dump_ambiguous :
    Ambiguous true [.add .all (some (.ofBytes [0x61])) none]
      [.add .all (some (.ofBytes [0x61])) (some (.ofBytes undefinedText))] (.ofBytes [0x61]) ∧
    Ambiguous true
      [.add .all (some (.ofBytes [0x61])) (some (.ofBytes [0x78])),
        .add .all (some (.ofBytes [0x62])) (some (.ofBytes [0x79]))]
      [.add .all (some (.ofBytes [0x61])) (some (.ofBytes ([0x78] ++ valueEnd ++
        hex8 (dictionaryHash true (some (.ofBytes [0x62]))) ++ [0x3b, 0x22, 0x62] ++ keyEnd ++
          [0x79])))] (.ofBytes [0x62]) ∧
    Ambiguous true
      [.add .all (some (.ofBytes [0x35, 0x6d, 0x6c, 0x63]))
        (some (.ofBytes ([0x64, 0x62, 0x64] ++ keyEnd ++ [0x78])))]
      [.add .all (some (.ofBytes ([0x35, 0x6d, 0x6c, 0x63] ++ keyEnd ++ [0x64, 0x62, 0x64])))
        (some (.ofBytes [0x78]))] (.ofBytes [0x35, 0x6d, 0x6c, 0x63]) := by
  decide +kernel

end Ohmylib.Dictionary
