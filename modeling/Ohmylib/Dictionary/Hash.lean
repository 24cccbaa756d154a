import Ohmylib.Dictionary.Model
import Ohmylib.Mixing.Word

/-! The hash of `lib/dictionary.c` as a chain of bijections. Every statement of its loop
and of its end loses nothing of the running state, and adding a character loses nothing
of the character, so keys that differ in one character never collide, however `char` is
converted to `unsigned`. -/

namespace Ohmylib.Dictionary

open Function Mixing

variable {signed : Bool}

/-- `h += h << k`. -/
def addShift (k h : UInt32) : UInt32 := h + (h <<< k)

/-- `h ^= h >> k`. -/
def xorShift (k h : UInt32) : UInt32 := h ^^^ (h >>> k)

theorem addShift_injective {k : UInt32} (hk : 0 < (k.toBitVec % 32).toNat) :
    Injective (addShift k) := by
  intro x y h
  have hbits := congrArg UInt32.toBitVec h
  simp only [addShift, UInt32.toBitVec_add, UInt32.toBitVec_shiftLeft,
    BitVec.shiftLeft_eq'] at hbits
  exact UInt32.toBitVec_inj.mp (add_shiftLeft_injective hk hbits)

theorem xorShift_injective {k : UInt32} (hk : 0 < (k.toBitVec % 32).toNat) :
    Injective (xorShift k) := by
  intro x y h
  have hbits := congrArg UInt32.toBitVec h
  simp only [xorShift, UInt32.toBitVec_xor, UInt32.toBitVec_shiftRight,
    BitVec.ushiftRight_eq'] at hbits
  exact UInt32.toBitVec_inj.mp (xor_ushiftRight_injective hk hbits)

/-- The conversion of a character is undone by cutting it to 8 bits. -/
theorem charToUnsigned_toUInt8 (signed : Bool) (c : UInt8) :
    (charToUnsigned signed c).toUInt8 = c := by
  cases signed with
  | false => simp [charToUnsigned]
  | true =>
    apply UInt8.toBitVec_inj.mp
    show (c.toBitVec.signExtend 32).setWidth 8 = c.toBitVec
    apply BitVec.eq_of_getLsbD_eq
    intro i hi
    have hlt : i < 32 := by omega
    simp only [BitVec.getLsbD_setWidth, BitVec.getLsbD_signExtend, hi, hlt, decide_true,
      Bool.true_and, ↓reduceIte]

theorem charToUnsigned_injective (signed : Bool) : Injective (charToUnsigned signed) :=
  LeftInverse.injective (charToUnsigned_toUInt8 signed)

theorem hashStep_eq (signed : Bool) (h : UInt32) (c : UInt8) :
    hashStep signed h c = xorShift 6 (addShift 10 (h + charToUnsigned signed c)) := rfl

theorem hashFinish_eq : hashFinish = addShift 15 ∘ xorShift 11 ∘ addShift 3 := rfl

/-- What a step makes of the sum of state and character. -/
theorem mix_injective : Injective (xorShift 6 ∘ addShift 10) :=
  (xorShift_injective (by decide)).comp (addShift_injective (by decide))

theorem hashStep_injective (signed : Bool) (c : UInt8) :
    Injective fun h => hashStep signed h c := by
  intro h h' heq
  simp only [hashStep_eq] at heq
  exact (UInt32.add_left_inj _).mp (mix_injective heq)

theorem hashStep_char_injective (signed : Bool) (h : UInt32) : Injective (hashStep signed h) := by
  intro c c' heq
  rw [hashStep_eq, hashStep_eq] at heq
  exact charToUnsigned_injective signed ((UInt32.add_right_inj _).mp (mix_injective heq))

theorem hashFinish_injective : Injective hashFinish := by
  rw [hashFinish_eq]
  exact (addShift_injective (by decide)).comp
    ((xorShift_injective (by decide)).comp (addShift_injective (by decide)))

/-- The running state behind the characters of a key. -/
def hashState (signed : Bool) (key : CString) : UInt32 := key.bytes.foldl (hashStep signed) 0

theorem dictionaryHash_eq (signed : Bool) (key : CString) :
    dictionaryHash signed (some key) = hashFinish (hashState signed key) := rfl

/-- A suffix keeps different states apart. -/
theorem hashState_append_ne {key key' : CString} (suffix : CString)
    (h : hashState signed key ≠ hashState signed key') :
    hashState signed (key.append suffix) ≠ hashState signed (key'.append suffix) := by
  simp only [hashState, CString.append, List.foldl_append]
  exact (foldl_injective (hashStep_injective signed) suffix.bytes).ne h

/-- Keys of one length that differ in one position have different hashes, and so have
two keys behind which the same suffix is put, when their running states differ. -/
theorem hash_separates (signed : Bool) :
    (∀ key key' : CString, key.bytes.length = key'.bytes.length →
      (∃! i : ℕ, key.bytes[i]? ≠ key'.bytes[i]?) →
        dictionaryHash signed (some key) ≠ dictionaryHash signed (some key')) ∧
    ∀ key key' suffix : CString, hashState signed key ≠ hashState signed key' →
      hashState signed (key.append suffix) ≠ hashState signed (key'.append suffix) ∧
        dictionaryHash signed (some (key.append suffix)) ≠
          dictionaryHash signed (some (key'.append suffix)) := by
  constructor
  · intro key key' hl hd
    rw [dictionaryHash_eq, dictionaryHash_eq]
    exact hashFinish_injective.ne
      (foldl_ne_of_differ (hashStep_injective signed) (hashStep_char_injective signed) hd hl 0)
  · intro key key' suffix h
    have hne := hashState_append_ne suffix h
    rw [dictionaryHash_eq, dictionaryHash_eq]
    exact ⟨hne, hashFinish_injective.ne hne⟩

/-- With a signed `char`, for characters on either side of the sign. -/
theorem hash_separates_letters :
    dictionaryHash true (some (.ofBytes [0x61, 0xe4])) ≠
      dictionaryHash true (some (.ofBytes [0x61, 0x62])) ∧
    dictionaryHash true (some ((CString.ofBytes [0x61]).append (.ofBytes [0x63]))) ≠
      dictionaryHash true (some ((CString.ofBytes [0xe4]).append (.ofBytes [0x63]))) := by
  constructor
  · refine (hash_separates true).1 _ _ (by decide) ⟨1, by decide, fun i hi => ?_⟩
    match i with
    | 0 => exact absurd rfl hi
    | 1 => rfl
    | i + 2 => exact absurd rfl hi
  · exact ((hash_separates true).2 _ _ _ (by decide)).2

end Ohmylib.Dictionary
