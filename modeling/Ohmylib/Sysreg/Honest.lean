import Ohmylib.Sysreg.Model

/-! When the readers of `lib/sysreg.c` may be believed. `fread` reports a failure as a
count of zero, which is no negative `int`, so none of the error branches of
`sysreg_read_info` is ever taken, and `sysreg_read_scratch` tests `read` for a failure
but not for its count. A short file passes for a full one in both. -/

namespace Ohmylib.Sysreg

open Files

variable {files : Path → File} {i : SysregInfoS} {m m' : Member} {ms : List Member} {ret : ℤ}

theorem get_set_self (i : SysregInfoS) (bytes : Vector UInt8 4) (m : Member) :
    (i.set bytes m).get m = bytes := by
  cases m <;> rfl

theorem get_set_ne (i : SysregInfoS) (bytes : Vector UInt8 4) (h : m' ≠ m) :
    (i.set bytes m).get m' = i.get m' := by
  cases m <;> cases m' <;> first | rfl | exact absurd rfl h

/-- The test for an error never succeeds. -/
theorem toInt_fread_nonneg (file : File) (old : Vector UInt8 4) : 0 ≤ toInt (fread file old).1 := by
  have hle := fread_le file old
  rw [toInt_of_lt (by omega)]
  exact Int.natCast_nonneg _

theorem readMembers_cons_opens (h : (files m.path).opens = true) :
    readMembers files (m :: ms) ret i =
      let read := fread (files m.path) (i.get m)
      let rest := readMembers files ms (toInt read.1) (i.set read.2 m)
      { rest with log := .opened m.path :: .closed m.path :: rest.log } := by
  rw [readMembers, if_pos h]
  exact if_neg (not_lt.mpr (toInt_fread_nonneg _ _))

theorem readMembers_cons_cannotOpen (h : (files m.path).opens = false) :
    readMembers files (m :: ms) ret i = { ret := -1, info := i, log := [] } := by
  rw [readMembers, if_neg (Bool.eq_false_iff.mp h)]

/-- Whatever the files do, each is closed as often as it is opened. -/
theorem readMembers_bracketed (files : Path → File) (ms : List Member) (ret : ℤ)
    (i : SysregInfoS) : Bracketed (readMembers files ms ret i).log := by
  induction ms generalizing ret i with
  | nil => exact bracketed_nil
  | cons m ms ih =>
    cases ho : (files m.path).opens with
    | false =>
      rw [readMembers_cons_cannotOpen ho]
      exact bracketed_nil
    | true =>
      rw [readMembers_cons_opens ho]
      exact (ih _ _).bracket m.path

/-- With a file that cannot be opened the value is negative. -/
theorem readMembers_cannotOpen (h : ∃ m ∈ ms, (files m.path).opens = false) :
    (readMembers files ms ret i).ret = -1 := by
  induction ms generalizing ret i with
  | nil =>
    obtain ⟨m, hm, -⟩ := h
    cases hm
  | cons m ms ih =>
    cases ho : (files m.path).opens with
    | false => rw [readMembers_cons_cannotOpen ho]
    | true =>
      rw [readMembers_cons_opens ho]
      apply ih
      obtain ⟨m', hm', hc⟩ := h
      rcases List.mem_cons.mp hm' with rfl | hm'
      · rw [ho] at hc
        cases hc
      · exact ⟨m', hm', hc⟩

/-- With files that can all be opened the value is not negative, and each member is as
`fread` left it. -/
theorem readMembers_opens (h : ∀ m ∈ ms, (files m.path).opens = true) (hn : ms.Nodup)
    (hret : 0 ≤ ret) : 0 ≤ (readMembers files ms ret i).ret ∧
      ∀ m, (readMembers files ms ret i).info.get m =
        if m ∈ ms then (fread (files m.path) (i.get m)).2 else i.get m := by
  induction ms generalizing ret i with
  | nil => exact ⟨hret, fun m => by simp [readMembers]⟩
  | cons m ms ih =>
    obtain ⟨hm, hms⟩ := List.nodup_cons.mp hn
    obtain ⟨hr, hi⟩ := ih (fun m hm => h m (List.mem_cons_of_mem _ hm)) hms
      (i := i.set (fread (files m.path) (i.get m)).2 m)
      (toInt_fread_nonneg (files m.path) (i.get m))
    rw [readMembers_cons_opens (h m List.mem_cons_self)]
    refine ⟨hr, fun m' => (hi m').trans ?_⟩
    by_cases hmm : m' = m
    · rw [hmm, if_neg hm, if_pos List.mem_cons_self, get_set_self]
    · simp only [get_set_ne _ _ hmm, List.mem_cons, hmm, false_or]

/-- `sysreg_read_info` never reports success with stale data: it returns a negative
value, or each member was overwritten with bytes of its file; and it leaves no file
open. -/
structure InfoHonest (files : Path → File) (i : SysregInfoS) : Prop where
  honest : (0 ≤ (sysregReadInfo files i).ret ∧
    ∀ m, Filled (files m.path) ((sysregReadInfo files i).info.get m)) ∨
      (sysregReadInfo files i).ret < 0
  closed : Bracketed (sysregReadInfo files i).log

/-- The same of `sysreg_read_scratch`. -/
structure ScratchHonest (files : Path → File) (retval : Vector UInt8 4)
    (val : Option (Vector UInt8 4)) : Prop where
  honest : ((sysregReadScratch files retval val).ret = 0 ∧ (files .scratch).Delivers 4 ∧
    ∀ v, (sysregReadScratch files retval val).val = some v → Filled (files .scratch) v) ∨
      (sysregReadScratch files retval val).ret < 0
  closed : Bracketed (sysregReadScratch files retval val).log

theorem mem_members (m : Member) : m ∈ [Member.project, .board, .version, .datetime] := by
  cases m <;> decide

theorem infoHonest_iff (files : Path → File) (i : SysregInfoS) :
    InfoHonest files i ↔
      (∃ m : Member, (files m.path).opens = false) ∨ ∀ m : Member, (files m.path).Delivers 4 := by
  by_cases ho : ∃ m : Member, (files m.path).opens = false
  · obtain ⟨m, hm⟩ := ho
    have hret : (sysregReadInfo files i).ret = -1 := readMembers_cannotOpen ⟨m, mem_members m, hm⟩
    refine iff_of_true ⟨.inr ?_, readMembers_bracketed _ _ _ _⟩ (.inl ⟨m, hm⟩)
    rw [hret]
    decide
  · have hall : ∀ m : Member, (files m.path).opens = true := fun m => by
      rw [← Bool.not_eq_false]
      exact fun hm => ho ⟨m, hm⟩
    obtain ⟨hret, hinfo⟩ := readMembers_opens (i := i) (fun m _ => hall m)
      (by decide : [Member.project, .board, .version, .datetime].Nodup) le_rfl
    have hget : ∀ m, (sysregReadInfo files i).info.get m = (fread (files m.path) (i.get m)).2 :=
      fun m => (hinfo m).trans (if_pos (mem_members m))
    rw [or_iff_right ho]
    constructor
    · rintro ⟨⟨-, hf⟩ | hneg, -⟩
      · exact fun m => (hf m).delivers
      · exact absurd hret (not_le.mpr hneg)
    · intro hd
      refine ⟨.inl ⟨hret, fun m => ?_⟩, readMembers_bracketed _ _ _ _⟩
      rw [hget]
      exact (filled_fread_iff _ _).mpr (hd m)

/-- A file that can be read gives the value 0, however short it is. -/
theorem sysregReadScratch_holds {content : List UInt8} (h : files .scratch = .holds content)
    (retval : Vector UInt8 4) (val : Option (Vector UInt8 4)) :
    sysregReadScratch files retval val =
      { ret := 0
        val := val.map fun _ => overwrite content retval
        log := [.opened .scratch, .closed .scratch] } := by
  have hn : ¬ ((min 4 content.length : ℕ) : ℤ) < 0 := not_lt.mpr (Int.natCast_nonneg _)
  simp only [sysregReadScratch, h, File.opens, Files.read, ↓reduceIte]
  exact if_neg hn

theorem scratchHonest_iff (files : Path → File) (retval : Vector UInt8 4)
    (val : Option (Vector UInt8 4)) : ScratchHonest files retval val ↔
      ∀ content, files .scratch = .holds content → 4 ≤ content.length := by
  have hclosed := bracketed_nil.bracket Path.scratch
  cases hf : files .scratch with
  | cannotOpen =>
    refine iff_of_true ⟨.inr ?_, ?_⟩ (fun _ h => nomatch h)
    · simp [sysregReadScratch, hf, File.opens]
    · simp [sysregReadScratch, hf, File.opens, bracketed_nil]
  | cannotRead =>
    refine iff_of_true ⟨.inr ?_, ?_⟩ (fun _ h => nomatch h)
    · simp [sysregReadScratch, hf, File.opens, Files.read]
    · simpa [sysregReadScratch, hf, File.opens, Files.read] using hclosed
  | holds content =>
    have hrun := sysregReadScratch_holds hf retval val
    constructor
    · rintro ⟨⟨-, ⟨content', hc, hle⟩, -⟩ | hneg, -⟩ _ ⟨⟩
      · rw [hf] at hc
        cases hc
        exact hle
      · rw [hrun] at hneg
        exact absurd hneg (lt_irrefl 0)
    · intro h
      have hle : 4 ≤ content.length := h content rfl
      refine ⟨.inl ?_, ?_⟩
      · rw [hrun]
        refine ⟨rfl, ⟨content, hf, hle⟩, fun v hv => ?_⟩
        obtain ⟨_, -, rfl⟩ := Option.map_eq_some_iff.mp hv
        exact ⟨content, hf, overwrite_eq_take hle retval⟩
      · rw [hrun]
        exact hclosed

/-- `sysreg_read_info` is honest exactly when one of its files cannot be opened or all
four are long enough, and `sysreg_read_scratch` exactly when its file, if it can be
read, is. -/
theorem sysreg_honest_iff (files : Path → File) (i : SysregInfoS) (retval : Vector UInt8 4)
    (val : Option (Vector UInt8 4)) :
    (InfoHonest files i ↔
      (∃ m : Member, (files m.path).opens = false) ∨ ∀ m : Member, (files m.path).Delivers 4) ∧
    (ScratchHonest files retval val ↔
      ∀ content, files .scratch = .holds content → 4 ≤ content.length) :=
  ⟨infoHonest_iff files i, scratchHonest_iff files retval val⟩

/-- The files when the module gives no byte. -/
def emptyFiles : Path → File := fun _ => .holds []

/-- With empty files both readers return 0, the structure keeps what it held and the
value is what was on the stack. -/
theorem sysreg_stale :
    (sysregReadInfo emptyFiles ⟨#v[1, 1, 1, 1], #v[2, 2, 2, 2], #v[3, 3, 3, 3], #v[4, 4, 4, 4]⟩).ret
      = 0 ∧
    ¬ InfoHonest emptyFiles ⟨#v[1, 1, 1, 1], #v[2, 2, 2, 2], #v[3, 3, 3, 3], #v[4, 4, 4, 4]⟩ ∧
    sysregReadScratch emptyFiles #v[5, 5, 5, 5] (some #v[6, 6, 6, 6]) =
      { ret := 0, val := some #v[5, 5, 5, 5], log := [.opened .scratch, .closed .scratch] } ∧
    ¬ ScratchHonest emptyFiles #v[5, 5, 5, 5] (some #v[6, 6, 6, 6]) := by
  refine ⟨by decide, ?_, by decide, ?_⟩
  · rw [infoHonest_iff]
    rintro (⟨m, hm⟩ | hd)
    · cases hm
    · obtain ⟨content, hc, hle⟩ := hd .project
      cases hc
      exact absurd hle (by decide)
  · rw [scratchHonest_iff]
    exact fun h => absurd (h [] rfl) (by decide)

end Ohmylib.Sysreg
