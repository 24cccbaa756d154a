import Ohmylib.Printlog.Model

/-! Which bytes the dumps read. Every round of an inner loop reads the byte at its
cursor, also when no byte is left; so a row consumes 16 bytes or reads behind the
buffer, and a dump stays inside exactly when the size is a multiple of 16. -/

namespace Ohmylib.Printlog

open Loop

/-- The buffer with exactly the bytes of `p`. -/
def bufferOf (p : List UInt8) : Buffer := fun k => p[k]?

/-- No read of the call leaves the buffer. -/
def ReadsInside (call : ℕ → Outcome (Stream × Text)) : Prop := ∀ fuel, call fuel ≠ .fault

variable {p : List UInt8} {title : Option Text}

/-! ### `dump` -/

/-- The cursor is as far as the count says. -/
def DumpS.At (size : ℕ) (s : DumpS) : Prop := s.buf + s.len = size

theorem dumpByte_consumes (p : List UInt8) :
    Consumes (DumpS.At p.length) DumpS.len 1 (dumpByte (bufferOf p)) := by
  refine Consumes.of_read (fun s hs => hs) fun s val hs hl => ?_
  rw [if_pos hl]
  unfold DumpS.At at *
  exact ⟨by dsimp only; omega, by dsimp only; omega⟩

theorem dumpRow_consumes (p : List UInt8) :
    Consumes (DumpS.At p.length) DumpS.len 0x10 (dumpRow (bufferOf p) p.length) := by
  have h := (dumpByte_consumes p).forLoop 0x10
  constructor
  · intro s hs hl
    unfold dumpRow
    split_ifs
    · exact h.stuck hs hl
    · exact h.stuck hs hl
  · intro s hs hl
    unfold dumpRow
    split_ifs
    · exact h.next hs hl
    · exact h.next hs hl

theorem dumpText_never_faults_iff (title : Option Text) (p : List UInt8) :
    (∀ fuel, dumpText title (bufferOf p) p.length fuel ≠ .fault) ↔ 0x10 ∣ p.length := by
  simp only [dumpText, Ne, Outcome.map_eq_fault_iff]
  exact (dumpRow_consumes p).never_faults_iff (by decide) (by simp) (Nat.zero_add _)

/-! ### `hexdump` -/

/-- Both cursors are as far as their counts say, with `c` and `t` those of the
character column. -/
def HexdumpS.HexAt (size c t : ℕ) (s : HexdumpS) : Prop :=
  s.hbuf + s.hlen = size ∧ s.cbuf = c ∧ s.tlen = t

/-- The same with `b` and `l` those of the hexadecimal column. -/
def HexdumpS.CharAt (size b l : ℕ) (s : HexdumpS) : Prop :=
  s.cbuf + s.tlen = size ∧ s.hbuf = b ∧ s.hlen = l

/-- Between two rows both columns are at the same byte. -/
def HexdumpS.At (size : ℕ) (s : HexdumpS) : Prop :=
  s.hbuf + s.hlen = size ∧ s.cbuf = s.hbuf ∧ s.tlen = s.hlen

theorem hexCell_consumes (p : List UInt8) (c t : ℕ) :
    Consumes (HexdumpS.HexAt p.length c t) HexdumpS.hlen 1 (hexCell (bufferOf p)) := by
  refine Consumes.of_read (fun s hs => hs.1) fun s val hs hl => ?_
  obtain ⟨hs, hc⟩ := hs
  rw [if_pos hl]
  exact ⟨⟨by dsimp only; omega, hc⟩, by dsimp only; omega⟩

theorem charCell_consumes (p : List UInt8) (b l : ℕ) :
    Consumes (HexdumpS.CharAt p.length b l) HexdumpS.tlen 1 (charCell (bufferOf p) p.length) := by
  refine Consumes.of_read (fun s hs => hs.1) fun s val hs hl => ?_
  obtain ⟨hs, hb⟩ := hs
  dsimp only
  rw [if_pos hl]
  exact ⟨⟨by dsimp only; omega, hb⟩, by dsimp only; omega⟩

theorem hexdumpRow_consumes (p : List UInt8) :
    Consumes (HexdumpS.At p.length) HexdumpS.tlen 0x10 (hexdumpRow (bufferOf p) p.length) := by
  -- the label changes neither cursor
  have hlabel : ∀ s : HexdumpS, ∃ out, (if (p.length - s.tlen) % 0x10 = 0 then
      { s with out := s.out ++ label 4 (p.length - s.tlen) (u32 (p.length - s.tlen)) } else s) =
      { s with out := out } := by
    intro s
    split_ifs
    · exact ⟨_, rfl⟩
    · exact ⟨_, rfl⟩
  constructor
  · rintro s ⟨hs, hc, ht⟩ hl
    obtain ⟨out, hout⟩ := hlabel s
    have hhex := (hexCell_consumes p s.cbuf s.tlen).forLoop 0x10
    have hstuck := hhex.stuck (s := { s with out := out }) ⟨hs, rfl, rfl⟩ (ht ▸ hl)
    rw [hexdumpRow, hout, hstuck, Option.bind_none]
  · rintro s ⟨hs, hc, ht⟩ hl
    obtain ⟨out, hout⟩ := hlabel s
    have hhex := (hexCell_consumes p s.cbuf s.tlen).forLoop 0x10
    obtain ⟨s₁, h₁, ⟨hs₁, hc₁, ht₁⟩, hl₁⟩ :=
      hhex.next (s := { s with out := out }) ⟨hs, rfl, rfl⟩ (ht ▸ hl)
    have hchar := (charCell_consumes p s₁.hbuf s₁.hlen).forLoop 0x10
    dsimp only at hl₁
    obtain ⟨s₂, h₂, ⟨hs₂, hb₂, hh₂⟩, hl₂⟩ :=
      hchar.next (s := { s₁ with out := s₁.out ++ [' ', ' '] })
        ⟨by dsimp only; omega, rfl, rfl⟩ (by dsimp only; omega)
    dsimp only at hl₂
    refine ⟨s₂, by rw [hexdumpRow, hout, h₁, Option.bind_some, h₂], ⟨?_, ?_, ?_⟩, ?_⟩ <;> omega

theorem hexdumpText_never_faults_iff (title : Option Text) (p : List UInt8) :
    (∀ fuel, hexdumpText title (bufferOf p) p.length fuel ≠ .fault) ↔ 0x10 ∣ p.length := by
  simp only [hexdumpText, Ne, Outcome.map_eq_fault_iff]
  exact (hexdumpRow_consumes p).never_faults_iff (by decide) (by simp) ⟨Nat.zero_add _, rfl, rfl⟩

/-- Each of the four dumps stays inside the buffer exactly when its size is a multiple
of 16. -/
theorem reads_inside_iff (p : List UInt8) (title : Option Text) (f : ℕ) :
    (ReadsInside (dump title (bufferOf p) p.length) ↔ 0x10 ∣ p.length) ∧
      (ReadsInside (fdump f title (bufferOf p) p.length) ↔ 0x10 ∣ p.length) ∧
      (ReadsInside (hexdump title (bufferOf p) p.length) ↔ 0x10 ∣ p.length) ∧
      (ReadsInside (fhexdump f title (bufferOf p) p.length) ↔ 0x10 ∣ p.length) := by
  have hdump := dumpText_never_faults_iff title p
  have hhexdump := hexdumpText_never_faults_iff title p
  refine ⟨?_, ?_, ?_, ?_⟩
  · simpa only [ReadsInside, dump, Ne, Outcome.map_eq_fault_iff] using hdump
  · simpa only [ReadsInside, fdump, Ne, Outcome.map_eq_fault_iff] using hdump
  · simpa only [ReadsInside, hexdump, Ne, Outcome.map_eq_fault_iff] using hhexdump
  · simpa only [ReadsInside, fhexdump, Ne, Outcome.map_eq_fault_iff] using hhexdump

/-- A dump of one byte reads the byte behind it. -/
theorem reads_outside : dump none (bufferOf [0x41]) 1 1 = .fault ∧
    ¬ ReadsInside (dump none (bufferOf [0x41]) 1) ∧
    ¬ ReadsInside (fdump 2 none (bufferOf [0x41]) 1) ∧
    ¬ ReadsInside (hexdump none (bufferOf [0x41]) 1) ∧
    ¬ ReadsInside (fhexdump 2 none (bufferOf [0x41]) 1) := by
  exact ⟨rfl, fun h => h 1 rfl, fun h => h 1 rfl, fun h => h 1 rfl, fun h => h 1 rfl⟩

end Ohmylib.Printlog
