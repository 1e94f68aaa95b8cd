import Wgsl.Library

/-! # Fields of bits

Reading a field of bits of a word and putting one in are inverse to each other. The offset is held
inside the width of a word and the length inside what is left behind it, so fields may be empty and
may reach the highest bit.

* `Library.toNat_field`: where a field lies.
* `Library.testBit_inserted`: the bits of a word with another field.
* `Library.testBit_fieldBits`: the bits of a field that is read.
* `Library.bitField_laws`: what is put in is read back, the rest stays, and putting back what is read
  changes nothing.
-/

namespace Wgsl
set_option autoImplicit false

/-- The integer of a signedness with the given bits. -/
def Value.ofWord (signed : Bool) (w : UInt32) : Value := if signed then .i32 w.toInt32 else .u32 w

theorem Value.unsigned_ofWord (signed : Bool) (w : UInt32) :
    (ofWord signed w).unsigned = .ok w := by
  cases signed
  case true => rfl
  case false => exact congrArg Except.ok UInt32.ofNat_toNat

namespace Library

variable {o c i : Nat} {n w : UInt32}

/-! ## Words by their bits -/

/-- The lowest `c` bits of a word, extended to the width again: with copies of the highest of them,
or with zeros. -/
def lowBits (signed : Bool) (c : Nat) (n : UInt32) : UInt32 :=
  let bits := n.toBitVec.setWidth c
  ⟨if signed then bits.signExtend 32 else bits.setWidth 32⟩

theorem word_ext {a b : UInt32} (h : ∀ i < 32, a.toNat.testBit i = b.toNat.testBit i) : a = b :=
  UInt32.toBitVec_inj.1 (BitVec.eq_of_getLsbD_eq h)

theorem testBit_word_of_le (n : UInt32) (hi : 32 ≤ i) : n.toNat.testBit i = false :=
  BitVec.getLsbD_of_ge n.toBitVec i hi

theorem testBit_bitMask (count : UInt32) (hi : i < 32) :
    (bitMask count).toNat.testBit i = decide (i < count.toNat) := by
  unfold bitMask
  split
  case isTrue h =>
    have reaches : 32 ≤ count.toNat := h
    have ones : (0xffffffff : UInt32).toNat = 2 ^ 32 - 1 := rfl
    rw [ones, Nat.testBit_two_pow_sub_one]
    simp only [decide_eq_decide]
    omega
  case isFalse h =>
    have short : count.toNat < 32 := Nat.lt_of_not_le h
    have ones : (1 <<< count - 1 : UInt32).toNat = 2 ^ count.toNat - 1 := by
      have power : (1 <<< count : UInt32).toNat = 2 ^ count.toNat := by
        rw [UInt32.toNat_shiftLeft, Nat.mod_eq_of_lt short]
        simp only [UInt32.toNat_one, Nat.one_shiftLeft]
        exact Nat.mod_eq_of_lt (Nat.pow_lt_pow_right (by decide) short)
      have positive : (1 : UInt32) ≤ 1 <<< count := by
        rw [UInt32.le_iff_toNat_le, power]
        exact Nat.one_le_two_pow
      rw [UInt32.toNat_sub_of_le _ _ positive, power, UInt32.toNat_one]
    rw [ones, Nat.testBit_two_pow_sub_one]

theorem testBit_shiftedRight (n amount : UInt32) (i : Nat) :
    (shiftedRight n amount).toNat.testBit i = n.toNat.testBit (amount.toNat + i) := by
  unfold shiftedRight
  split
  case isTrue h =>
    have reaches : 32 ≤ amount.toNat := h
    rw [testBit_word_of_le n (by omega)]
    exact Nat.zero_testBit i
  case isFalse h =>
    have short : amount.toNat < 32 := Nat.lt_of_not_le h
    rw [UInt32.toNat_shiftRight, Nat.mod_eq_of_lt short, Nat.testBit_shiftRight]

theorem testBit_shiftedLeft (n amount : UInt32) (hi : i < 32) :
    (shiftedLeft n amount).toNat.testBit i =
      (decide (amount.toNat ≤ i) && n.toNat.testBit (i - amount.toNat)) := by
  unfold shiftedLeft
  split
  case isTrue h =>
    have reaches : 32 ≤ amount.toNat := h
    rw [decide_eq_false (by omega), Bool.false_and]
    exact Nat.zero_testBit i
  case isFalse h =>
    have short : amount.toNat < 32 := Nat.lt_of_not_le h
    rw [UInt32.toNat_shiftLeft, Nat.mod_eq_of_lt short, Nat.testBit_mod_two_pow,
      Nat.testBit_shiftLeft, decide_eq_true hi, Bool.true_and]

theorem testBit_complement (n : UInt32) (hi : i < 32) :
    (~~~n).toNat.testBit i = !n.toNat.testBit i := by
  have h := BitVec.getLsbD_not (x := n.toBitVec) (i := i)
  rw [decide_eq_true hi, Bool.true_and] at h
  exact h

/-! ## Where a field lies -/

/-- Where the field with an offset begins. -/
def fieldStart (offset : UInt32) : Nat := Nat.min offset.toNat 32

/-- How many bits the field has. -/
def fieldLength (offset count : UInt32) : Nat := Nat.min count.toNat (32 - fieldStart offset)

theorem toNat_field (offset count : UInt32) :
    (field offset count).1.toNat = fieldStart offset ∧
      (field offset count).2.toNat = fieldLength offset count := by
  have start : (if 32 < offset then 32 else offset : UInt32).toNat = fieldStart offset := by
    unfold fieldStart
    split
    case isTrue h =>
      have beyond : 32 < offset.toNat := h
      exact (Nat.min_eq_right (Nat.le_of_lt beyond)).symm
    case isFalse h =>
      have within : offset.toNat ≤ 32 := Nat.le_of_not_lt h
      exact (Nat.min_eq_left within).symm
  refine ⟨start, ?_⟩
  unfold field fieldLength
  dsimp only
  generalize (if 32 < offset then 32 else offset : UInt32) = o at start ⊢
  have inside : o.toNat ≤ 32 := start ▸ Nat.min_le_right ..
  have room : (32 - o).toNat = 32 - fieldStart offset := by
    rw [UInt32.toNat_sub_of_le _ _ inside, start]
    rfl
  rw [← room]
  split
  case isTrue h => exact (Nat.min_eq_right (Nat.le_of_lt h)).symm
  case isFalse h => exact (Nat.min_eq_left (Nat.le_of_not_lt h)).symm

theorem fieldEnd_le (offset count : UInt32) : fieldStart offset + fieldLength offset count ≤ 32 := by
  have start : fieldStart offset ≤ 32 := Nat.min_le_right ..
  have length : fieldLength offset count ≤ 32 - fieldStart offset := Nat.min_le_right ..
  omega

/-! ## Putting a field in -/

/-- The word `e` with the lowest bits of `n` in a field. -/
def inserted (offset count e n : UInt32) : UInt32 :=
  let (o, c) := field offset count
  let mask := shiftedLeft (bitMask c) o
  e &&& ~~~mask ||| shiftedLeft n o &&& mask

theorem testBit_inserted (offset count e n : UInt32) (hi : i < 32) :
    (inserted offset count e n).toNat.testBit i =
      if fieldStart offset ≤ i ∧ i < fieldStart offset + fieldLength offset count then
        n.toNat.testBit (i - fieldStart offset)
      else e.toNat.testBit i := by
  obtain ⟨start, length⟩ := toNat_field offset count
  unfold inserted
  dsimp only
  rw [UInt32.toNat_or, UInt32.toNat_and, UInt32.toNat_and, Nat.testBit_or, Nat.testBit_and,
    Nat.testBit_and, testBit_complement _ hi, testBit_shiftedLeft _ _ hi,
    testBit_shiftedLeft _ _ hi, testBit_bitMask _ (by omega), start, length]
  by_cases hstart : fieldStart offset ≤ i
  · by_cases hend : i < fieldStart offset + fieldLength offset count
    · have inField : i - fieldStart offset < fieldLength offset count := by omega
      simp [hstart, hend, inField]
    · have behind : ¬i - fieldStart offset < fieldLength offset count := by omega
      simp [hstart, hend, behind]
  · simp [hstart]

theorem insertBits_ofWord (signed : Bool) (offset count e n : UInt32) :
    insertBits offset count (.ofWord signed e) (.ofWord signed n) =
      .ok (.ofWord signed (inserted offset count e n)) := by
  unfold insertBits
  rw [Value.unsigned_ofWord, Value.unsigned_ofWord]
  cases signed <;> rfl

/-! ## Reading a field -/

/-- The bits of a field of a word, moved down. -/
def fieldBits (offset count w : UInt32) : UInt32 :=
  shiftedRight w (field offset count).1 &&& bitMask (field offset count).2

theorem testBit_fieldBits (offset count w : UInt32) (hi : i < 32) :
    (fieldBits offset count w).toNat.testBit i =
      (decide (i < fieldLength offset count) && w.toNat.testBit (fieldStart offset + i)) := by
  obtain ⟨start, length⟩ := toNat_field offset count
  unfold fieldBits
  rw [UInt32.toNat_and, Nat.testBit_and, testBit_shiftedRight, testBit_bitMask _ hi, start, length,
    Bool.and_comm]

theorem testBit_lowBits_false (n : UInt32) (hi : i < 32) :
    (lowBits false c n).toNat.testBit i = (decide (i < c) && n.toNat.testBit i) := by
  have h := BitVec.getLsbD_setWidth 32 (n.toBitVec.setWidth c) i
  rw [decide_eq_true hi, Bool.true_and, BitVec.getLsbD_setWidth c] at h
  exact h

theorem testBit_lowBits_true (n : UInt32) (hi : i < 32) :
    (lowBits true c n).toNat.testBit i =
      if i < c then n.toNat.testBit i else decide (0 < c) && n.toNat.testBit (c - 1) := by
  have h := BitVec.getLsbD_signExtend (n.toBitVec.setWidth c) (i := i) (v := 32)
  rw [decide_eq_true hi, Bool.true_and] at h
  refine h.trans ?_
  split
  case isTrue hc =>
    rw [BitVec.getLsbD_setWidth, decide_eq_true hc, Bool.true_and]
    rfl
  case isFalse hc =>
    rw [BitVec.msb_eq_getLsbD_last, BitVec.getLsbD_setWidth]
    by_cases positive : 0 < c
    · rw [decide_eq_true (by omega : c - 1 < c), decide_eq_true positive]
      rfl
    · rw [decide_eq_false (by omega : ¬c - 1 < c), decide_eq_false positive]
      rfl

/-- A shift that keeps the sign, by less than the width, is the shift of the bits. -/
theorem toBitVec_shiftRight_of_lt (n : Int32) {s : UInt32} (hs : s.toNat < 32) :
    (n >>> s.toInt32).toBitVec = n.toBitVec.sshiftRight s.toNat := by
  have amount : ∀ k < 32, (BitVec.ofNat 32 k).smod 32#32 = BitVec.ofNat 32 k := by decide
  have same : s.toInt32.toBitVec = BitVec.ofNat 32 s.toNat := (BitVec.ofNat_toNat 32 s.toBitVec).symm
  rw [Int32.toBitVec_shiftRight, same]
  erw [amount _ hs]
  rw [BitVec.sshiftRight_eq', BitVec.toNat_ofNat, Nat.mod_eq_of_lt (by omega)]

/-- The sign goes into all bits behind a field. -/
theorem signExtended_eq (n count : UInt32) (h : count.toNat ≤ 32) :
    (signExtended n count).toUInt32 = lowBits true count.toNat n := by
  apply word_ext
  intro i hi
  rw [testBit_lowBits_true _ hi]
  unfold signExtended
  by_cases empty : count = 0
  · rw [if_pos empty, empty]
    exact Nat.zero_testBit i
  have positive : 0 < count.toNat := Nat.pos_of_ne_zero fun h => empty (UInt32.toNat_inj.1 h)
  have amount : (32 - count).toNat = 32 - count.toNat := UInt32.toNat_sub_of_le _ _ h
  have short : (32 - count).toNat < 32 := by omega
  have shifted : n <<< (32 - count) = shiftedLeft n (32 - count) :=
    (if_neg (Nat.not_le_of_lt short)).symm
  rw [if_neg empty]
  dsimp only
  rw [shifted]
  change ((shiftedLeft n (32 - count)).toInt32 >>> (32 - count).toInt32).toBitVec.getLsbD i = _
  rw [toBitVec_shiftRight_of_lt _ short, BitVec.getLsbD_sshiftRight, BitVec.msb_eq_getLsbD_last,
    decide_eq_false (by omega : ¬32 ≤ i), Bool.not_false, Bool.true_and, amount]
  -- a bit of the field moves up and down again, and the highest bit is that of the field
  split
  case isTrue hc =>
    rw [if_pos (by omega)]
    refine (testBit_shiftedLeft n (32 - count) hc).trans ?_
    rw [amount, decide_eq_true (by omega), Bool.true_and, Nat.add_sub_cancel_left]
  case isFalse hc =>
    rw [if_neg (by omega), decide_eq_true positive, Bool.true_and]
    refine (testBit_shiftedLeft n (32 - count) (by omega : 32 - 1 < 32)).trans ?_
    rw [amount, decide_eq_true (by omega), Bool.true_and]
    congr 1
    omega

/-- A word with the lowest bits of another is extended like it. -/
theorem lowBits_congr {a b : UInt32} (signed : Bool)
    (h : ∀ i < c, a.toNat.testBit i = b.toNat.testBit i) :
    lowBits signed c a = lowBits signed c b := by
  have same : a.toBitVec.setWidth c = b.toBitVec.setWidth c := by
    refine BitVec.eq_of_getLsbD_eq fun i hi => ?_
    rw [BitVec.getLsbD_setWidth, BitVec.getLsbD_setWidth]
    exact congrArg _ (h i hi)
  unfold lowBits
  rw [same]

theorem extractBits_ofWord (signed : Bool) (offset count w : UInt32) :
    extractBits offset count (.ofWord signed w) =
      .ok (.ofWord signed (lowBits signed (fieldLength offset count) (fieldBits offset count w))) := by
  have length := (toNat_field offset count).2
  have inside : (field offset count).2.toNat ≤ 32 := by
    have := fieldEnd_le offset count
    omega
  cases signed
  case false =>
    have kept : lowBits false (fieldLength offset count) (fieldBits offset count w) =
        fieldBits offset count w := by
      apply word_ext
      intro i hi
      rw [testBit_lowBits_false _ hi, testBit_fieldBits _ _ _ hi]
      cases decide (i < fieldLength offset count) <;> rfl
    rw [kept]
    rfl
  case true =>
    rw [← length, ← signExtended_eq _ _ inside]
    rfl

/-! ## The two together -/

theorem call_insertBits (signed : Bool) (e n offset count : UInt32) :
    call? "insertBits" [.ofWord signed e, .ofWord signed n, .u32 offset, .u32 count] =
      some (.ok (.ofWord signed (inserted offset count e n))) := by
  have single : Value.zipComponents (insertBits offset count) (.ofWord signed e) (.ofWord signed n) =
      insertBits offset count (.ofWord signed e) (.ofWord signed n) := by
    cases signed <;> rfl
  change some (do
    let o ← (Value.ofWord false offset).unsigned
    let c ← (Value.ofWord false count).unsigned
    Value.zipComponents (insertBits o c) (.ofWord signed e) (.ofWord signed n)) = _
  rw [Value.unsigned_ofWord, Value.unsigned_ofWord]
  exact congrArg some (single.trans (insertBits_ofWord ..))

theorem call_extractBits (signed : Bool) (w offset count : UInt32) :
    call? "extractBits" [.ofWord signed w, .u32 offset, .u32 count] =
      some (.ok (.ofWord signed
        (lowBits signed (fieldLength offset count) (fieldBits offset count w)))) := by
  have single : (Value.ofWord signed w).mapComponents (extractBits offset count) =
      extractBits offset count (.ofWord signed w) := by
    cases signed <;> rfl
  change some (do
    let o ← (Value.ofWord false offset).unsigned
    let c ← (Value.ofWord false count).unsigned
    (Value.ofWord signed w).mapComponents (extractBits o c)) = _
  rw [Value.unsigned_ofWord, Value.unsigned_ofWord]
  exact congrArg some (single.trans (extractBits_ofWord ..))

/-- What is put in is read back. -/
theorem fieldBits_inserted (offset count e n : UInt32) (hi : i < fieldLength offset count) :
    (fieldBits offset count (inserted offset count e n)).toNat.testBit i = n.toNat.testBit i := by
  have inside := fieldEnd_le offset count
  rw [testBit_fieldBits _ _ _ (by omega), testBit_inserted _ _ _ _ (by omega), if_pos (by omega),
    decide_eq_true hi, Bool.true_and, Nat.add_sub_cancel_left]

/-- Putting back what is read changes nothing. -/
theorem inserted_fieldBits (signed : Bool) (offset count e : UInt32) :
    inserted offset count e
      (lowBits signed (fieldLength offset count) (fieldBits offset count e)) = e := by
  apply word_ext
  intro i hi
  rw [testBit_inserted _ _ _ _ hi]
  split
  case isFalse => rfl
  case isTrue inField =>
    have short : i - fieldStart offset < fieldLength offset count := by omega
    have low : (lowBits signed (fieldLength offset count) (fieldBits offset count e)).toNat.testBit
        (i - fieldStart offset) = (fieldBits offset count e).toNat.testBit (i - fieldStart offset) := by
      cases signed
      case false => rw [testBit_lowBits_false _ (by omega), decide_eq_true short, Bool.true_and]
      case true => rw [testBit_lowBits_true _ (by omega), if_pos short]
    rw [low, testBit_fieldBits _ _ _ (by omega), decide_eq_true short, Bool.true_and]
    congr 1
    omega

/-- Bits of a field that is put in are read back, with the sign of the highest of them if the integers
have one; all other bits stay; and a field that is put back where it was read changes nothing. -/
theorem bitField_laws (signed : Bool) (e n offset count : UInt32) :
    (∃ w,
      call? "insertBits" [.ofWord signed e, .ofWord signed n, .u32 offset, .u32 count] =
        some (.ok (.ofWord signed w)) ∧
      call? "extractBits" [.ofWord signed w, .u32 offset, .u32 count] =
        some (.ok (.ofWord signed (lowBits signed (fieldLength offset count) n))) ∧
      ∀ i < 32, i < fieldStart offset ∨ fieldStart offset + fieldLength offset count ≤ i →
        w.toNat.testBit i = e.toNat.testBit i) ∧
    ∃ w,
      call? "extractBits" [.ofWord signed e, .u32 offset, .u32 count] =
        some (.ok (.ofWord signed w)) ∧
      call? "insertBits" [.ofWord signed e, .ofWord signed w, .u32 offset, .u32 count] =
        some (.ok (.ofWord signed e)) := by
  refine ⟨⟨inserted offset count e n, call_insertBits .., ?_, ?_⟩,
    ⟨lowBits signed (fieldLength offset count) (fieldBits offset count e), call_extractBits .., ?_⟩⟩
  · rw [call_extractBits, lowBits_congr signed fun i => fieldBits_inserted offset count e n]
  · intro i hi outside
    rw [testBit_inserted _ _ _ _ hi, if_neg (by omega)]
  · rw [call_insertBits, inserted_fieldBits]

end Library
end Wgsl
