import Wgsl.Proofs.Number.Rounding

/-! # Halves and the fields of their bits

Narrowing and widening work on the fields of the bits. What they do to the fields is one rounding of the
number that the bits stand for.

* `Half.narrowed`, `Half.widened`: the conversions, by the number.
* `Half.ofSingle_eq_narrowed`, `Half.toSingle_eq_widened`: the fields and the number agree.
* `Half.toSingle_ofSingle`: a single that holds a half-precision number survives being narrowed and
  widened again.
-/

namespace Wgsl.Number.Half
set_option autoImplicit false

open Format (shiftRound)

/-- The half nearest to the number of a single, a tie going to the even neighbour. -/
def narrowed (x : Single) : UInt16 :=
  let sign : Nat := if x.isNegative then 0x8000 else 0
  match x.datum with
  | .nan => (sign + 0x7e00).toUInt16
  | .infinite _ => (sign + 0x7c00).toUInt16
  | .finite _ m q => (sign + Format.half.round m q).toUInt16

/-- The single nearest to the number of a half. -/
def widened (h : UInt16) : Single :=
  let bits := h.toNat
  let sign : Nat := if 0x8000 ≤ bits then 0x80000000 else 0
  match Datum.ofBits .half bits with
  | .nan => ⟨(sign + (0x7fc00000 ||| (bits % 0x400) <<< 13)).toUInt32⟩
  | .infinite _ => ⟨(sign + 0x7f800000).toUInt32⟩
  | .finite _ m q => ⟨(sign + Format.single.round m q).toUInt32⟩

/-! ## Fields -/

theorem or_eq_add {a b i : Nat} (h : b < 2 ^ i) : 2 ^ i * a ||| b = 2 ^ i * a + b :=
  (Nat.two_pow_add_eq_or_of_lt h a).symm

theorem and_low (n i : Nat) : n &&& (2 ^ i - 1) = n % 2 ^ i := Nat.and_two_pow_sub_one_eq_mod n i

theorem shiftRound_eq (m s : Nat) : shiftRound m s = if 2 * (m % 2 ^ s) < 2 ^ s then m / 2 ^ s else
    if 2 ^ s < 2 * (m % 2 ^ s) then m / 2 ^ s + 1 else m / 2 ^ s + m / 2 ^ s % 2 := by
  unfold shiftRound
  rw [twoPow_eq]
  rfl

theorem shiftRound_le (m s : Nat) : shiftRound m s ≤ m / 2 ^ s + 1 := by
  rw [shiftRound_eq]
  split <;> (try split) <;> omega

/-- What a carry adds is what rounding adds to the quotient. -/
theorem toNat_carry {kept rest halfway : UInt32} {m s : Nat} (hs : 1 ≤ s)
    (hkept : kept.toNat % 2 = m / 2 ^ s % 2) (hrest : rest.toNat = m % 2 ^ s)
    (hhalf : halfway.toNat = 2 ^ (s - 1)) :
    m / 2 ^ s + (carry kept rest halfway).toNat = shiftRound m s := by
  have unit : 2 ^ s = 2 * 2 ^ (s - 1) := by
    rw [← pow_succ', Nat.sub_add_cancel hs]
  have odd : (kept &&& 1).toNat = m / 2 ^ s % 2 := by
    rw [UInt32.toNat_and, ← hkept]
    exact Nat.and_one_is_mod _
  have odd_iff : (kept &&& 1 == 1) = decide (m / 2 ^ s % 2 = 1) := by
    rw [Bool.eq_iff_iff, beq_iff_eq, decide_eq_true_iff, ← odd, ← UInt32.toNat_inj]
    rfl
  have above : (halfway < rest) ↔ 2 ^ (s - 1) < m % 2 ^ s := by rw [UInt32.lt_iff_toNat_lt, hrest, hhalf]
  have equal : (rest == halfway) = decide (m % 2 ^ s = 2 ^ (s - 1)) := by
    rw [Bool.eq_iff_iff, beq_iff_eq, decide_eq_true_iff, ← UInt32.toNat_inj, hrest, hhalf]
  rw [shiftRound_eq, carry, odd_iff, equal]
  simp only [Bool.or_eq_true, Bool.and_eq_true, decide_eq_true_eq, above]
  generalize m / 2 ^ s = q
  generalize m % 2 ^ s = r at *
  split <;> split <;> (try split) <;> simp <;> omega

theorem toNat_shift {s : Nat} (hs : s < 32) : s.toUInt32.toNat % 32 = s := by
  have small : s.toUInt32.toNat = s := Nat.mod_eq_of_lt (by omega)
  rw [small, Nat.mod_eq_of_lt hs]

theorem toNat_shiftRight {n : UInt32} {s : Nat} (hs : s < 32) :
    (n >>> s.toUInt32).toNat = n.toNat / 2 ^ s := by
  rw [UInt32.toNat_shiftRight, toNat_shift hs, Nat.shiftRight_eq_div_pow]

theorem toNat_shiftLeft {n : UInt32} {s : Nat} (hs : s < 32) (h : 2 ^ s * n.toNat < 2 ^ 32) :
    (n <<< s.toUInt32).toNat = 2 ^ s * n.toNat := by
  rw [UInt32.toNat_shiftLeft, toNat_shift hs, Nat.shiftLeft_eq, Nat.mul_comm, Nat.mod_eq_of_lt h]

theorem toNat_power {s : Nat} (hs : s < 32) : (1 <<< s.toUInt32 : UInt32).toNat = 2 ^ s := by
  have small : 2 ^ s < 2 ^ 32 := Nat.pow_lt_pow_right (by decide) hs
  rw [toNat_shiftLeft hs (by rwa [UInt32.toNat_one, Nat.mul_one]), UInt32.toNat_one, Nat.mul_one]

theorem toNat_low {n : UInt32} {s : Nat} (hs : s < 32) :
    (n &&& ((1 <<< s.toUInt32) - 1)).toNat = n.toNat % 2 ^ s := by
  have one : (1 : UInt32) ≤ 1 <<< s.toUInt32 := by
    rw [UInt32.le_iff_toNat_le, toNat_power hs]
    exact Nat.one_le_two_pow
  rw [UInt32.toNat_and, UInt32.toNat_sub_of_le _ _ one, toNat_power hs]
  exact and_low _ _

/-- Places are cut off at the end of a word. -/
theorem toNat_cut {n : UInt32} {s : Nat} (hs : 1 ≤ s) (hs' : s < 32) :
    (n >>> s.toUInt32 + carry (n >>> s.toUInt32) (n &&& ((1 <<< s.toUInt32) - 1))
      (1 <<< (s.toUInt32 - 1))).toNat = shiftRound n.toNat s := by
  have quotient := toNat_shiftRight (n := n) hs'
  have halfway : (1 <<< (s.toUInt32 - 1) : UInt32).toNat = 2 ^ (s - 1) := by
    have before : s.toUInt32 - 1 = (s - 1).toUInt32 := by
      have same : s.toUInt32.toNat = s := Nat.mod_eq_of_lt (by omega)
      have one : (1 : UInt32) ≤ s.toUInt32 := by rwa [UInt32.le_iff_toNat_le, same]
      rw [← UInt32.toNat_inj, UInt32.toNat_sub_of_le _ _ one, same]
      exact (Nat.mod_eq_of_lt (by omega)).symm
    rw [before, toNat_power (by omega)]
  have added := toNat_carry hs (congrArg (· % 2) quotient) (toNat_low hs') halfway
  have small : n.toNat / 2 ^ s + 1 < 2 ^ 32 := by
    have unit : 2 ^ 1 ≤ 2 ^ s := Nat.pow_le_pow_right (by decide) hs
    have lt : n.toNat < 2 ^ 32 := n.toNat_lt
    have quotient : n.toNat / 2 ^ s ≤ n.toNat / 2 ^ 1 := Nat.div_le_div_left unit (by decide)
    omega
  have bounded := shiftRound_le n.toNat s
  rw [UInt32.toNat_add, quotient, added, Nat.mod_eq_of_lt (by omega)]

/-! ## Rounding to a half -/

theorem shiftRound_small {m s : Nat} (h : 2 * m < 2 ^ s) : shiftRound m s = 0 := by
  rw [shiftRound_eq, Nat.mod_eq_of_lt (by omega), if_pos h, Nat.div_eq_of_lt (by omega)]

variable {e f : Nat}

theorem log2_significand (hf : f < 2 ^ 23) : (2 ^ 23 + f).log2 = 23 :=
  (Nat.log2_eq_iff (by omega)).2 ⟨by omega, by omega⟩

theorem shiftRound_significand {s : Nat} (hf : f < 2 ^ 23) (hs : 14 ≤ s) :
    shiftRound (2 ^ 23 + f) s ≤ 2 ^ 10 := by
  have unit : 2 ^ 14 ≤ 2 ^ s := Nat.pow_le_pow_right (by decide) hs
  have quotient : (2 ^ 23 + f) / 2 ^ s < 2 ^ 10 :=
    calc (2 ^ 23 + f) / 2 ^ s ≤ (2 ^ 23 + f) / 2 ^ 14 := Nat.div_le_div_left unit (by decide)
      _ < 2 ^ 10 := by omega
  exact (shiftRound_le _ _).trans quotient

/-- In the range of normal halves thirteen places are cut off. -/
theorem round_normal (hf : f < 2 ^ 23) (he : 113 ≤ e) :
    Format.half.round (2 ^ 23 + f) (-149 + (e - 1 : Nat)) =
      min 0x7c00 ((e - 113) * 2 ^ 10 + shiftRound (2 ^ 23 + f) 13) := by
  have place : Format.half.place (2 ^ 23 + f) (-149 + (e - 1 : Nat)) = (e : Int) - 137 := by
    have finest : Format.half.finest = -24 := by decide
    rw [Format.place, log2_significand hf, finest]
    have fractionBits : Format.half.fractionBits = 10 := rfl
    omega
  have cut : ((e : Int) - 137 - (-149 + (e - 1 : Nat))).toNat = 13 := by omega
  have steps : ((e : Int) - 137 - Format.half.finest).toNat = e - 113 := by
    have finest : Format.half.finest = -24 := by decide
    omega
  unfold Format.round
  rw [if_neg (by omega), place]
  dsimp only
  rw [if_neg (by omega), cut, steps]
  rfl

/-- Below them the last place is that of subnormal halves. -/
theorem round_subnormal (hf : f < 2 ^ 23) (he : 1 ≤ e) (he' : e ≤ 112) :
    Format.half.round (2 ^ 23 + f) (-149 + (e - 1 : Nat)) = shiftRound (2 ^ 23 + f) (126 - e) := by
  have finest : Format.half.finest = -24 := by decide
  have place : Format.half.place (2 ^ 23 + f) (-149 + (e - 1 : Nat)) = -24 := by
    rw [Format.place, log2_significand hf, finest]
    have fractionBits : Format.half.fractionBits = 10 := rfl
    omega
  have cut : ((-24 : Int) - (-149 + (e - 1 : Nat))).toNat = 126 - e := by omega
  have bounded := shiftRound_significand hf (show 14 ≤ 126 - e by omega)
  have infinity : Format.half.infinity = 0x7c00 := by decide
  unfold Format.round
  rw [if_neg (by omega), place]
  dsimp only
  rw [if_neg (by omega), cut, finest, infinity]
  simp only [sub_self, Int.toNat_zero, Nat.zero_mul, Nat.zero_add]
  omega

/-- Subnormal singles are too small for any half but zero. -/
theorem round_tiny (hf : f < 2 ^ 23) : Format.half.round f (-149) = 0 := by
  by_cases hz : f = 0
  · rw [hz]
    rfl
  have finest : Format.half.finest = -24 := by decide
  have digits : f.log2 < 23 := (Nat.log2_lt hz).2 hf
  have place : Format.half.place f (-149) = -24 := by
    rw [Format.place, finest]
    have fractionBits : Format.half.fractionBits = 10 := rfl
    omega
  have cut : ((-24 : Int) - -149).toNat = 125 := by decide
  unfold Format.round
  rw [if_neg hz, place]
  dsimp only
  rw [if_neg (by omega), cut, shiftRound_small (by omega), finest]
  rfl

/-! ## Narrowing -/

/-- The exponent field of a single. -/
def exponentOf (x : Single) : Nat := x.bits.toNat / 2 ^ 23 % 2 ^ 8

/-- The fraction field of a single. -/
def fractionOf (x : Single) : Nat := x.bits.toNat % 2 ^ 23

theorem fractionOf_lt (x : Single) : fractionOf x < 2 ^ 23 := Nat.mod_lt _ (by decide)

theorem toNat_exponent (x : Single) : ((x.bits >>> 23) &&& 0xff).toNat = exponentOf x := by
  rw [UInt32.toNat_and, UInt32.toNat_shiftRight]
  exact (and_low _ 8).trans (by rw [Nat.shiftRight_eq_div_pow]; rfl)

theorem toNat_fraction (x : Single) : (x.bits &&& 0x7fffff).toNat = fractionOf x := by
  rw [UInt32.toNat_and]
  exact and_low _ 23

theorem sign_narrow (x : Single) :
    ((x.bits >>> 16) &&& 0x8000).toUInt16 = if x.isNegative then 0x8000 else 0 := by
  have lt : x.bits.toNat < 2 ^ 32 := x.bits.toNat_lt
  have masked : ((x.bits >>> 16) &&& 0x8000).toNat =
      2 ^ 15 * ((x.bits.toNat / 2 ^ 16).testBit 15).toNat := by
    rw [UInt32.toNat_and, UInt32.toNat_shiftRight, Nat.and_comm]
    exact (Nat.two_pow_and _ 15).trans (by rw [Nat.shiftRight_eq_div_pow]; rfl)
  have tested : (x.bits.toNat / 2 ^ 16).testBit 15 = x.isNegative := by
    have weight : Format.single.signWeight = 2 ^ 31 := by decide
    rw [x.isNegative_eq, weight, Nat.testBit_eq_decide_div_mod_eq]
    exact decide_eq_decide.2 (by omega)
  rw [← UInt16.toNat_inj, UInt32.toNat_toUInt16, masked, tested]
  cases x.isNegative <;> rfl

/-- The number of a single by its fields. -/
theorem datum_fields (x : Single) : x.datum =
    if exponentOf x = 0xff then if fractionOf x = 0 then .infinite x.isNegative else .nan
    else .finite x.isNegative (if exponentOf x = 0 then fractionOf x else 2 ^ 23 + fractionOf x)
      (-149 + (exponentOf x - 1 : Nat)) := by
  have weight : Format.single.signWeight = 2 ^ 31 := by decide
  have unit : twoPow Format.single.fractionBits = 2 ^ 23 := by decide
  have top : twoPow Format.single.exponentBits - 1 = 0xff := by decide
  have finest : Format.single.finest = -149 := by decide
  have exponent : x.bits.toNat % 2 ^ 31 / 2 ^ 23 = exponentOf x := by
    unfold exponentOf
    omega
  have fraction : x.bits.toNat % 2 ^ 31 % 2 ^ 23 = fractionOf x := by
    unfold fractionOf
    omega
  have fields := Datum.ofBits_fields .single x.bits.toNat
  rw [← x.isNegative_eq, weight, unit, top, finest, exponent, fraction] at fields
  exact fields

/-- A sign in front of a magnitude. -/
theorem sign_or {a : Bool} {b : UInt16} {n : Nat} (hb : b.toNat = n) (hn : n < 2 ^ 15) :
    (if a then 0x8000 else 0) ||| b = ((if a then 0x8000 else 0) + n).toUInt16 := by
  rw [← UInt16.toNat_inj, UInt16.toNat_or, hb]
  have wide : ∀ k < 2 ^ 16, (k : Nat).toUInt16.toNat = k := fun k hk => Nat.mod_eq_of_lt hk
  cases a
  · exact (Nat.zero_or n).trans ((wide (0 + n) (by omega)).trans (Nat.zero_add n)).symm
  · exact (or_eq_add (a := 1) hn).trans (wide (2 ^ 15 * 1 + n) (by omega)).symm

theorem round_half_le (m : Nat) (q : Int) : Format.half.round m q ≤ 0x7c00 := by
  have infinity : Format.half.infinity = 0x7c00 := by decide
  unfold Format.round
  split
  · exact Nat.zero_le _
  · rw [infinity]
    exact Nat.min_le_left _ _

/-- From this exponent on the carry into the exponent does not come back below infinity. -/
theorem round_large (hf : f < 2 ^ 23) (he : 143 ≤ e) :
    Format.half.round (2 ^ 23 + f) (-149 + (e - 1 : Nat)) = 0x7c00 := by
  have quotient : (2 ^ 23 + f) / 2 ^ 13 ≤ shiftRound (2 ^ 23 + f) 13 := by
    rw [shiftRound_eq]
    split <;> (try split) <;> omega
  rw [round_normal hf (by omega)]
  exact Nat.min_eq_left (by omega)

/-- Singles below half of the least half are too small for any half but zero. -/
theorem round_small (hf : f < 2 ^ 23) (he : e < 102) :
    Format.half.round (if e = 0 then f else 2 ^ 23 + f) (-149 + (e - 1 : Nat)) = 0 := by
  by_cases hz : e = 0
  · rw [if_pos hz, hz]
    exact round_tiny hf
  · have unit : 2 ^ 25 ≤ 2 ^ (126 - e) := Nat.pow_le_pow_right (by decide) (by omega)
    rw [if_neg hz, round_subnormal hf (by omega) (by omega)]
    exact shiftRound_small (by omega)

theorem toNat_significand {g : UInt32} (hg : g.toNat = f) (hf : f < 2 ^ 23) :
    (g ||| 0x800000).toNat = 2 ^ 23 + f := by
  rw [UInt32.toNat_or, hg, Nat.or_comm]
  exact or_eq_add (a := 1) hf

/-- The significand of a single, cut off at the last place of subnormal halves. -/
theorem toNat_subnormal {n : UInt32} (hn : n.toNat = 2 ^ 23 + f) (hf : f < 2 ^ 23) (he : 102 ≤ e)
    (he' : e ≤ 112) :
    (n >>> (126 - e).toUInt32 + carry (n >>> (126 - e).toUInt32)
      (n &&& ((1 <<< (126 - e).toUInt32) - 1)) (1 <<< ((126 - e).toUInt32 - 1))).toNat =
      Format.half.round (2 ^ 23 + f) (-149 + (e - 1 : Nat)) := by
  rw [toNat_cut (by omega) (by omega), hn, round_subnormal hf (by omega) he']

theorem toNat_kept {g : UInt32} (hg : g.toNat = f) (hf : f < 2 ^ 23) (he : e < 143) :
    (((e - 112).toUInt32 <<< 10) ||| (g >>> 13)).toNat = 2 ^ 10 * (e - 112) + f / 2 ^ 13 := by
  have exponent : ((e - 112).toUInt32 <<< 10).toNat = 2 ^ 10 * (e - 112) := by
    have same : (e - 112).toUInt32.toNat = e - 112 := Nat.mod_eq_of_lt (by omega)
    exact (toNat_shiftLeft (s := 10) (by decide) (by omega)).trans (congrArg _ same)
  have quotient : (g >>> 13).toNat = f / 2 ^ 13 := by
    rw [UInt32.toNat_shiftRight, hg]
    exact Nat.shiftRight_eq_div_pow f 13
  rw [UInt32.toNat_or, exponent, quotient]
  exact or_eq_add (by omega)

/-- The exponent of a normal half and the first bits of the fraction, with the rest cut off. -/
theorem toNat_normal {g kept : UInt32} (hg : g.toNat = f) (hf : f < 2 ^ 23) (he : 113 ≤ e)
    (he' : e < 143) (hkept : kept.toNat = 2 ^ 10 * (e - 112) + f / 2 ^ 13) :
    (kept + carry kept (g &&& 0x1fff) 0x1000).toNat =
      Format.half.round (2 ^ 23 + f) (-149 + (e - 1 : Nat)) := by
  have rest : (g &&& 0x1fff).toNat = (2 ^ 23 + f) % 2 ^ 13 := by
    rw [UInt32.toNat_and, hg]
    exact (and_low _ 13).trans (by omega)
  have added := @toNat_carry kept _ 0x1000 _ 13 (by decide)
    (show _ = (2 ^ 23 + f) / 2 ^ 13 % 2 by omega) rest rfl
  have bounded := shiftRound_le (2 ^ 23 + f) 13
  rw [round_normal hf he, Nat.min_eq_right (by omega), UInt32.toNat_add]
  omega

/-- Narrowing the fields narrows the number. -/
theorem ofSingle_eq_narrowed (x : Single) : ofSingle x = narrowed x := by
  have hf := fractionOf_lt x
  have he : exponentOf x < 2 ^ 8 := Nat.mod_lt _ (by decide)
  have fraction := toNat_fraction x
  -- a rounded magnitude fits behind the sign
  have signed : ∀ {bits : UInt32} {m : Nat} {q : Int}, bits.toNat = Format.half.round m q →
      (if x.isNegative then 0x8000 else 0) ||| bits.toUInt16 =
        ((if x.isNegative then 0x8000 else 0) + Format.half.round m q).toUInt16 := by
    intro bits m q h
    have bounded := round_half_le m q
    refine sign_or ?_ (by omega)
    rw [UInt32.toNat_toUInt16, h, Nat.mod_eq_of_lt (by omega)]
  unfold ofSingle narrowed
  rw [sign_narrow, toNat_exponent, datum_fields]
  generalize x.bits &&& 0x7fffff = g at *
  generalize exponentOf x = e at *
  generalize fractionOf x = f at *
  dsimp only
  by_cases top : e = 0xff
  · rw [if_pos (by omega), if_pos top]
    by_cases hz : f = 0
    · have none : g = 0 := UInt32.toNat_inj.1 (fraction.trans hz)
      rw [if_neg (not_not.2 none), if_pos hz]
      cases x.isNegative <;> rfl
    · have some : g ≠ 0 := fun h => hz (by rw [← fraction, h]; rfl)
      rw [if_pos some, if_neg hz]
      cases x.isNegative <;> rfl
  rw [if_neg (by omega), if_neg top]
  dsimp only
  by_cases large : 143 ≤ e
  · have nonzero : e ≠ 0 := by omega
    rw [if_pos (by omega), if_neg nonzero, round_large hf large]
    exact sign_or rfl (by decide)
  rw [if_neg (by omega)]
  by_cases tiny : e < 102
  · rw [if_pos (by omega), if_pos (by omega), round_small hf tiny]
    cases x.isNegative <;> rfl
  have nonzero : e ≠ 0 := by omega
  by_cases low : e ≤ 112
  · have shift : (14 - ((e : Int) - 127 + 15)).toNat = 126 - e := by omega
    rw [if_pos (by omega), if_neg (by omega), if_neg nonzero, shift]
    exact signed (toNat_subnormal (toNat_significand fraction hf) hf (by omega) low)
  · have steps : ((e : Int) - 127 + 15).toNat = e - 112 := by omega
    rw [if_neg (by omega), if_neg nonzero, steps]
    exact signed (toNat_normal fraction hf (by omega) (by omega) (toNat_kept fraction hf (by omega)))

/-! ## Widening -/

/-- A number of few digits is written as it is. -/
theorem round_short {m : Nat} {q : Int} (hm : m ≠ 0) (hd : m.log2 ≤ 10) (hq : -24 ≤ q) (hq' : q ≤ 5) :
    Format.single.round m q = (m.log2 + q + 126).toNat * 2 ^ 23 + m * 2 ^ (23 - m.log2) := by
  have finest : Format.single.finest = -149 := by decide
  have infinity : Format.single.infinity = 0xff * 2 ^ 23 := by decide
  have unit : twoPow Format.single.fractionBits = 2 ^ 23 := by decide
  have place : Format.single.place m q = m.log2 + q - 23 := by
    have fractionBits : Format.single.fractionBits = 23 := rfl
    rw [Format.place, finest]
    omega
  have shift : (q - (m.log2 + q - 23)).toNat = 23 - m.log2 := by omega
  have steps : ((m.log2 : Int) + q - 23 - -149).toNat = (m.log2 + q + 126).toNat := by omega
  have few : m * 2 ^ (23 - m.log2) < 2 ^ 24 := by
    have power : 2 ^ (m.log2 + 1) * 2 ^ (23 - m.log2) = 2 ^ 24 := by
      rw [← Nat.pow_add]
      congr 1
      omega
    rw [← power]
    exact Nat.mul_lt_mul_of_pos_right Nat.lt_log2_self (Nat.two_pow_pos _)
  unfold Format.round
  rw [if_neg hm, place]
  dsimp only
  have power : twoPow (23 - m.log2) = 2 ^ (23 - m.log2) := twoPow_eq _
  rw [if_pos (by omega), shift, finest, steps, infinity, unit, power]
  exact Nat.min_eq_right (by omega)

/-- A sign, an exponent and a fraction in their places. -/
theorem toNat_joined {a b c : UInt32} (ha : a.toNat < 2) (hb : b.toNat < 2 ^ 8) (hc : c.toNat < 2 ^ 10) :
    ((a <<< 31) ||| (b <<< 23) ||| (c <<< 13)).toNat =
      2 ^ 31 * a.toNat + (2 ^ 23 * b.toNat + 2 ^ 13 * c.toNat) := by
  have sign : (a <<< 31).toNat = 2 ^ 31 * a.toNat :=
    toNat_shiftLeft (s := 31) (by decide) (by omega)
  have exponent : (b <<< 23).toNat = 2 ^ 23 * b.toNat :=
    toNat_shiftLeft (s := 23) (by decide) (by omega)
  have fraction : (c <<< 13).toNat = 2 ^ 13 * c.toNat :=
    toNat_shiftLeft (s := 13) (by decide) (by omega)
  rw [UInt32.toNat_or, UInt32.toNat_or, sign, exponent, fraction, Nat.or_assoc,
    or_eq_add (a := b.toNat) (show 2 ^ 13 * c.toNat < 2 ^ 23 by omega)]
  exact or_eq_add (by omega)

/-- The number of a half by its fields. -/
theorem half_fields (h : UInt16) : Datum.ofBits .half h.toNat =
    if h.toNat / 2 ^ 10 % 2 ^ 5 = 0x1f then
      if h.toNat % 2 ^ 10 = 0 then .infinite (decide (0x8000 ≤ h.toNat)) else .nan
    else .finite (decide (0x8000 ≤ h.toNat))
      (if h.toNat / 2 ^ 10 % 2 ^ 5 = 0 then h.toNat % 2 ^ 10 else 2 ^ 10 + h.toNat % 2 ^ 10)
      (-24 + (h.toNat / 2 ^ 10 % 2 ^ 5 - 1 : Nat)) := by
  have weight : Format.half.signWeight = 0x8000 := by decide
  have unit : twoPow Format.half.fractionBits = 2 ^ 10 := by decide
  have top : twoPow Format.half.exponentBits - 1 = 0x1f := by decide
  have finest : Format.half.finest = -24 := by decide
  have exponent : h.toNat % 0x8000 / 2 ^ 10 = h.toNat / 2 ^ 10 % 2 ^ 5 := by omega
  have fraction : h.toNat % 0x8000 % 2 ^ 10 = h.toNat % 2 ^ 10 := by omega
  have fields := Datum.ofBits_fields .half h.toNat
  rw [weight, unit, top, finest, exponent, fraction] at fields
  exact fields

theorem single_eq {bits : UInt32} {n : Nat} (h : bits.toNat = n) : (⟨bits⟩ : Single) = ⟨n.toUInt32⟩ := by
  rw [← h]
  exact congrArg Single.mk UInt32.ofNat_toNat.symm

theorem normalized_range {f : Nat} (hf : f < 2 ^ 10) (hz : f ≠ 0) :
    2 ^ 10 ≤ f * 2 ^ (10 - f.log2) ∧ f * 2 ^ (10 - f.log2) < 2 ^ 11 := by
  have digits : f.log2 < 10 := (Nat.log2_lt hz).2 hf
  have power : 2 ^ f.log2 * 2 ^ (10 - f.log2) = 2 ^ 10 := by
    rw [← Nat.pow_add]
    congr 1
    omega
  constructor
  · rw [← power]
    exact Nat.mul_le_mul_right _ (Nat.log2_self_le hz)
  · calc f * 2 ^ (10 - f.log2) < 2 ^ (f.log2 + 1) * 2 ^ (10 - f.log2) :=
          Nat.mul_lt_mul_of_pos_right Nat.lt_log2_self (Nat.two_pow_pos _)
      _ = 2 ^ 11 := by rw [Nat.pow_succ, Nat.mul_right_comm, power, ← Nat.pow_succ]

/-- The first bit of a subnormal fraction becomes the hidden bit. -/
theorem toNat_normalized {c : UInt32} {f : Nat} (hc : c.toNat = f) (hf : f < 2 ^ 10) (hz : f ≠ 0) :
    (127 - 15 - (leadingZeros c - 21) + 1).toNat = f.log2 + 103 ∧
      ((c <<< (leadingZeros c - 21)) &&& 0x3ff).toNat = f * 2 ^ (10 - f.log2) - 2 ^ 10 := by
  have digits : f.log2 < 10 := (Nat.log2_lt hz).2 hf
  obtain ⟨least, most⟩ := normalized_range hf hz
  have log : c.log2.toNat = f.log2 := by rw [← hc]; rfl
  have zeros : (leadingZeros c).toNat = 31 - f.log2 := by
    rw [leadingZeros, UInt32.toNat_sub_of_le, log]
    · rfl
    · rw [UInt32.le_iff_toNat_le, log]
      exact digits.le.trans (by decide)
  have shift : leadingZeros c - 21 = (10 - f.log2).toUInt32 := by
    rw [← UInt32.toNat_inj, UInt32.toNat_sub_of_le, zeros]
    · exact (show 31 - f.log2 - 21 = 10 - f.log2 by omega).trans (Nat.mod_eq_of_lt (by omega)).symm
    · rw [UInt32.le_iff_toNat_le, zeros]
      exact (show 21 ≤ 31 - f.log2 by omega)
  rw [shift]
  have placed : (c <<< (10 - f.log2).toUInt32).toNat = f * 2 ^ (10 - f.log2) := by
    rw [toNat_shiftLeft (by omega) (by rw [hc, Nat.mul_comm]; omega), hc, Nat.mul_comm]
  constructor
  · have same : (10 - f.log2).toUInt32.toNat = 10 - f.log2 := Nat.mod_eq_of_lt (by omega)
    have below : (10 - f.log2).toUInt32 ≤ 127 - 15 := by
      rw [UInt32.le_iff_toNat_le, same]
      exact (show 10 - f.log2 ≤ 112 by omega)
    rw [UInt32.toNat_add, UInt32.toNat_sub_of_le _ _ below, same]
    exact (show (112 - (10 - f.log2) + 1) % 2 ^ 32 = f.log2 + 103 by omega)
  · rw [UInt32.toNat_and, placed]
    exact (and_low _ 10).trans (by omega)

/-- The magnitude of a subnormal half, with its first bit taken for the hidden one. -/
theorem round_fraction {f : Nat} (hf : f < 2 ^ 10) (hz : f ≠ 0) : Format.single.round f (-24) =
    2 ^ 23 * (f.log2 + 103) + 2 ^ 13 * (f * 2 ^ (10 - f.log2) - 2 ^ 10) := by
  have digits : f.log2 < 10 := (Nat.log2_lt hz).2 hf
  have place : ((f.log2 : Int) + -24 + 126).toNat = f.log2 + 102 := by omega
  obtain ⟨least, most⟩ := normalized_range hf hz
  have moved : f * 2 ^ (23 - f.log2) = 2 ^ 13 * (f * 2 ^ (10 - f.log2)) := by
    have split : 23 - f.log2 = 13 + (10 - f.log2) := by omega
    rw [split, Nat.pow_add]
    ring
  rw [round_short hz (by omega) (le_refl (-24)) (by decide), place]
  omega

/-- The magnitude of a normal half: the exponent takes the other bias. -/
theorem round_biased {e f : Nat} (hf : f < 2 ^ 10) (he : 1 ≤ e) (he' : e < 0x1f) :
    Format.single.round (2 ^ 10 + f) (-24 + (e - 1 : Nat)) = 2 ^ 23 * (e + 112) + 2 ^ 13 * f := by
  have digits : (2 ^ 10 + f).log2 = 10 := (Nat.log2_eq_iff (by omega)).2 ⟨by omega, by omega⟩
  have place : ((10 : Nat) + (-24 + ((e - 1 : Nat) : Int)) + 126).toNat = e + 111 := by omega
  rw [round_short (by omega) (by omega) (by omega) (by omega), digits, place]
  omega

theorem toNat_biased {b : UInt32} {e : Nat} (hb : b.toNat = e) (he : e < 2 ^ 5) :
    (b + 127 - 15).toNat = e + 112 := by
  have sum : (b + 127).toNat = e + 127 := by
    rw [UInt32.toNat_add, hb]
    exact Nat.mod_eq_of_lt (by simp; omega)
  rw [UInt32.toNat_sub_of_le, sum]
  · rfl
  · rw [UInt32.le_iff_toNat_le, sum]
    exact (show 15 ≤ e + 127 by omega)

/-- The sign field of a half. -/
theorem toNat_signOf (h : UInt16) : (h >>> 15).toUInt32.toNat = h.toNat / 2 ^ 15 := by
  rw [UInt16.toNat_toUInt32, UInt16.toNat_shiftRight]
  exact Nat.shiftRight_eq_div_pow _ 15

/-- The exponent field of a half. -/
theorem toNat_exponentOf (h : UInt16) :
    ((h >>> 10) &&& 0x1f).toUInt32.toNat = h.toNat / 2 ^ 10 % 2 ^ 5 := by
  rw [UInt16.toNat_toUInt32, UInt16.toNat_and, UInt16.toNat_shiftRight]
  exact (and_low _ 5).trans (congrArg (· % 2 ^ 5) (Nat.shiftRight_eq_div_pow _ 10))

/-- The fraction field of a half. -/
theorem toNat_fractionOf (h : UInt16) : (h &&& 0x3ff).toUInt32.toNat = h.toNat % 2 ^ 10 := by
  rw [UInt16.toNat_toUInt32, UInt16.toNat_and]
  exact and_low _ 10

/-- Widening the fields widens the number. -/
theorem toSingle_eq_widened (h : UInt16) : toSingle h = widened h := by
  have wide : h.toNat < 2 ^ 16 := h.toNat_lt
  have hf : h.toNat % 2 ^ 10 < 2 ^ 10 := Nat.mod_lt _ (by decide)
  have he : h.toNat / 2 ^ 10 % 2 ^ 5 < 2 ^ 5 := Nat.mod_lt _ (by decide)
  have sign := toNat_signOf h
  have exponent := toNat_exponentOf h
  have fraction := toNat_fractionOf h
  have one : h.toNat / 2 ^ 15 < 2 := by omega
  have signed : (if 0x8000 ≤ h.toNat then 0x80000000 else 0) = 2 ^ 31 * (h.toNat / 2 ^ 15) := by
    split <;> omega
  have kept : h.toNat % 0x400 = h.toNat % 2 ^ 10 := rfl
  unfold toSingle widened
  dsimp only
  rw [half_fields, signed, kept]
  generalize (h >>> 15).toUInt32 = a at *
  generalize ((h >>> 10) &&& 0x1f).toUInt32 = b at *
  generalize (h &&& 0x3ff).toUInt32 = c at *
  generalize h.toNat / 2 ^ 15 = s at *
  generalize h.toNat / 2 ^ 10 % 2 ^ 5 = e at *
  generalize h.toNat % 2 ^ 10 = f at *
  have zero_iff : c = 0 ↔ f = 0 := by rw [← UInt32.toNat_inj, fraction]; rfl
  have low_iff : b = 0 ↔ e = 0 := by rw [← UInt32.toNat_inj, exponent]; rfl
  have top_iff : b = 0x1f ↔ e = 0x1f := by rw [← UInt32.toNat_inj, exponent]; rfl
  simp only [zero_iff, low_iff, top_iff]
  have high : (a <<< 31).toNat = 2 ^ 31 * s :=
    (toNat_shiftLeft (s := 31) (by decide) (by omega)).trans (congrArg _ sign)
  by_cases low : e = 0
  · have least : (-24 : Int) + (e - 1 : Nat) = -24 := by omega
    have bounded : e ≠ 0x1f := by omega
    rw [if_pos low, if_neg bounded, if_pos low, least]
    dsimp only
    by_cases hz : f = 0
    · rw [if_pos hz, hz, Format.round, if_pos rfl]
      exact single_eq high
    · obtain ⟨hidden, rest⟩ := toNat_normalized fraction hf hz
      have digits : f.log2 < 10 := (Nat.log2_lt hz).2 hf
      obtain ⟨-, most⟩ := normalized_range hf hz
      rw [if_neg hz, round_fraction hf hz]
      refine single_eq ?_
      rw [toNat_joined (by omega) (by omega) (by omega), sign, hidden, rest]
  rw [if_neg low]
  by_cases top : e = 0x1f
  · rw [if_pos top, if_pos top]
    by_cases hz : f = 0
    · rw [if_pos hz, if_pos hz]
      refine single_eq ?_
      rw [UInt32.toNat_or, high]
      exact or_eq_add (by decide)
    · rw [if_neg hz, if_neg hz]
      refine single_eq ?_
      have placed : (c <<< 13).toNat = f <<< 13 := by
        rw [Nat.shiftLeft_eq, Nat.mul_comm]
        exact (toNat_shiftLeft (s := 13) (by decide) (by omega)).trans (congrArg _ fraction)
      rw [UInt32.toNat_or, UInt32.toNat_or, high, Nat.or_assoc, placed]
      exact or_eq_add (Nat.or_lt_two_pow (by decide) (by rw [Nat.shiftLeft_eq]; omega))
  · have biased := toNat_biased exponent he
    rw [if_neg top, if_neg top, if_neg low]
    dsimp only
    rw [round_biased hf (by omega) (by omega)]
    refine single_eq ?_
    rw [toNat_joined (by omega) (by omega) (by omega), sign, biased, fraction]

/-! ## There and back -/

/-- The single is a number that half precision can hold. -/
def Holds (x : Single) : Prop := ∃ h : UInt16, x.datum.SameNumber (.ofBits .half h.toNat)

theorem ofSingle_eq {x : Single} {h : UInt16}
    (same : x.datum.SameNumber (.ofBits .half h.toNat)) : ofSingle x = h := by
  have hlt : h.toNat < 2 * Format.half.signWeight := h.toNat_lt
  have hw : Format.half.signWeight = 0x8000 := by decide
  have hback : h.toNat.toUInt16 = h := UInt16.ofNat_toNat
  have hsplit := sign_add_magnitude hlt
  rw [ofSingle_eq_narrowed]
  unfold narrowed
  obtain ⟨a, hx, hh⟩ | ⟨a, m, q, n, r, hx, hh, hmag⟩ := same.cases
  · have hneg : x.isNegative = a := by rw [x.isNegative_eq, (Datum.sign_of_infinite hx).2]
    obtain ⟨hinf, ha⟩ := Datum.sign_of_infinite hh
    have hbits : Format.half.infinity = 0x7c00 := by decide
    rw [hinf, hbits, hw] at hsplit
    simp only [hx, hneg, ha, hw, decide_eq_true_eq]
    rw [hsplit, hback]
  · have hneg : x.isNegative = a := by rw [x.isNegative_eq, Datum.sign_of_finite hx]
    have hsum := Datum.round_of_ofBits hh
    rw [hsplit, hw, ← Format.round_congr .half hmag] at hsum
    simp only [hx, hneg]
    rw [hsum, hback]

instance (x : Single) : Decidable (Holds x) :=
  decidable_of_iff (x.datum.SameNumber (.ofBits .half (ofSingle x).toNat))
    ⟨fun same => ⟨_, same⟩, fun ⟨_, same⟩ => by rw [ofSingle_eq same]; exact same⟩

theorem toSingle_eq {x : Single} {h : UInt16}
    (same : x.datum.SameNumber (.ofBits .half h.toNat)) : toSingle h = x := by
  have hlt : x.bits.toNat < 2 * Format.single.signWeight := x.bits.toNat_lt
  have hw : Format.single.signWeight = 0x80000000 := by decide
  have hhalf : Format.half.signWeight = 0x8000 := by decide
  have hback : x.bits.toNat.toUInt32 = x.bits := UInt32.ofNat_toNat
  have hsplit := sign_add_magnitude hlt
  rw [toSingle_eq_widened]
  unfold widened
  obtain ⟨a, hx, hh⟩ | ⟨a, m, q, n, r, hx, hh, hmag⟩ := same.cases
  · obtain ⟨hinf, hsign⟩ := Datum.sign_of_infinite hx
    have hbits : Format.single.infinity = 0x7f800000 := by decide
    have hcond : 0x8000 ≤ h.toNat ↔ 0x80000000 ≤ x.bits.toNat := by
      have := (Datum.sign_of_infinite hh).2
      rw [hsign] at this
      simpa [hhalf, hw] using this.symm
    rw [hinf, hbits, hw] at hsplit
    simp only [hh, hcond]
    rw [hsplit, hback]
  · have hsum := Datum.round_of_ofBits hx
    have hcond : 0x8000 ≤ h.toNat ↔ a = true := by
      rw [Datum.sign_of_finite hh]
      simp [hhalf]
    rw [hsplit, hw, Format.round_congr .single hmag] at hsum
    simp only [hh, hcond]
    rw [hsum, hback]

/-- A half-precision number in a single survives being narrowed and widened again. -/
theorem toSingle_ofSingle {x : Single} (h : Holds x) : toSingle (ofSingle x) = x := by
  obtain ⟨bits, same⟩ := h
  rw [ofSingle_eq same]
  exact toSingle_eq same

end Wgsl.Number.Half
