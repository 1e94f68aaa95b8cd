import Mathlib.Data.Nat.Bitwise
import Mathlib.Tactic.Ring
import Wgsl.Number.Half

/-! # Exact rounding

What rounding does to numbers that a format can hold.

* `Format.round_congr`: the rounded bits depend on the number `m * 2 ^ q` alone, not on the pair.
* `Format.round_decode`: finite bits that are read and rounded again come back.
* `Datum.ofBits_fields`: the number that bits stand for, by their exponent and fraction.
-/

namespace Wgsl.Number
set_option autoImplicit false

namespace Format

/-! ## Quotients by powers of two -/

theorem twoPow_pos (n : Nat) : 0 < twoPow n := by
  rw [twoPow_eq]
  exact Nat.pow_pos (by decide)

theorem twoPow_add (a b : Nat) : twoPow (a + b) = twoPow a * twoPow b := by
  simp only [twoPow_eq]
  exact Nat.pow_add 2 a b

/-- A common power of two may be taken out of number and unit. -/
theorem shiftRound_mul_twoPow (m s k : Nat) :
    shiftRound (m * twoPow k) (s + k) = shiftRound m s := by
  have hk := twoPow_pos k
  have hq : m * twoPow k / twoPow (s + k) = m / twoPow s := by
    rw [twoPow_add, Nat.mul_div_mul_right _ _ hk]
  have hr : m * twoPow k % twoPow (s + k) = m % twoPow s * twoPow k := by
    rw [twoPow_add, Nat.mul_mod_mul_right]
  have hlt : 2 * (m % twoPow s * twoPow k) < twoPow s * twoPow k ↔ 2 * (m % twoPow s) < twoPow s := by
    rw [← Nat.mul_assoc]
    exact Nat.mul_lt_mul_right hk
  have hgt : twoPow s * twoPow k < 2 * (m % twoPow s * twoPow k) ↔ twoPow s < 2 * (m % twoPow s) := by
    rw [← Nat.mul_assoc]
    exact Nat.mul_lt_mul_right hk
  unfold shiftRound
  simp only [hq, hr]
  rw [twoPow_add]
  simp only [hlt, hgt]

@[simp] theorem shiftRound_zero (m : Nat) : shiftRound m 0 = m := by
  simp [shiftRound, twoPow, Nat.mod_one]

/-- A multiple of the unit is not rounded. -/
theorem shiftRound_exact (m s : Nat) : shiftRound (m * twoPow s) s = m := by
  have h := shiftRound_mul_twoPow m 0 s
  rw [Nat.zero_add, shiftRound_zero] at h
  exact h

theorem log2_mul_twoPow {m : Nat} (hm : m ≠ 0) (k : Nat) :
    (m * twoPow k).log2 = m.log2 + k := by
  have hk : m * twoPow k ≠ 0 := Nat.mul_ne_zero hm (twoPow_pos k).ne'
  apply (Nat.log2_eq_iff hk).mpr
  have h := (Nat.log2_eq_iff hm).mp rfl
  have e : ∀ n, twoPow n = 2 ^ n := twoPow_eq
  rw [e]
  constructor
  · rw [Nat.pow_add]
    exact Nat.mul_le_mul_right _ h.1
  · have hs : m.log2 + k + 1 = m.log2 + 1 + k := by omega
    rw [hs, Nat.pow_add]
    exact Nat.mul_lt_mul_of_pos_right h.2 (Nat.pow_pos (by decide))

/-! ## Rounding sees the number alone -/

theorem place_mul_twoPow (f : Format) {m : Nat} (hm : m ≠ 0) (q : Int) (k : Nat) :
    f.place (m * twoPow k) (q - k) = f.place m q := by
  unfold place
  rw [log2_mul_twoPow hm]
  congr 1
  push_cast
  ring

/-- Bringing the last place down by `k` keeps the rounded bits. -/
theorem round_mul_twoPow (f : Format) (m : Nat) (q : Int) (k : Nat) :
    f.round (m * twoPow k) (q - k) = f.round m q := by
  by_cases hm : m = 0
  · simp [round, hm]
  have hmk : m * twoPow k ≠ 0 := Nat.mul_ne_zero hm (twoPow_pos k).ne'
  unfold round
  rw [if_neg hm, if_neg hmk, place_mul_twoPow f hm]
  generalize f.place m q = u
  dsimp only
  congr 2
  by_cases hq : u ≤ q
  · rw [if_pos hq]
    by_cases hqk : u ≤ q - k
    · rw [if_pos hqk, Nat.mul_assoc, ← twoPow_add]
      congr 2
      omega
    · -- the last place lies between the two, so what is cut off is zero
      rw [if_neg hqk]
      have hs : (u - (q - k)).toNat + (q - u).toNat = k := by omega
      have e : m * twoPow k = m * twoPow (q - u).toNat * twoPow (u - (q - k)).toNat := by
        rw [Nat.mul_assoc, ← twoPow_add, Nat.add_comm, hs]
      rw [e, shiftRound_exact]
  · rw [if_neg hq, if_neg (by omega)]
    have hs : (u - (q - k)).toNat = (u - q).toNat + k := by omega
    rw [hs, shiftRound_mul_twoPow]

/-- Two pairs that stand for the same number. -/
def SameMagnitude (m : Nat) (q : Int) (n : Nat) (r : Int) : Prop :=
  m * twoPow (q - min q r).toNat = n * twoPow (r - min q r).toNat

instance (m : Nat) (q : Int) (n : Nat) (r : Int) : Decidable (SameMagnitude m q n r) :=
  inferInstanceAs (Decidable (_ = _))

theorem round_congr (f : Format) {m n : Nat} {q r : Int} (h : SameMagnitude m q n r) :
    f.round m q = f.round n r := by
  have hm := round_mul_twoPow f m q (q - min q r).toNat
  have hn := round_mul_twoPow f n r (r - min q r).toNat
  have eq : q - ((q - min q r).toNat : Int) = min q r := by omega
  have er : r - ((r - min q r).toNat : Int) = min q r := by omega
  rw [eq] at hm
  rw [er] at hn
  rw [← hm, ← hn, h]

/-! ## Reading and rounding -/

theorem log2_lt_of_lt_twoPow {m k : Nat} (hm : m ≠ 0) (h : m < twoPow k) : m.log2 < k := by
  rw [twoPow_eq] at h
  exact (Nat.log2_lt hm).mpr h

theorem round_decode (f : Format) {bits : Nat} (h : bits < f.infinity) :
    f.round (f.decode bits).1 (f.decode bits).2 = bits := by
  have hsplit := Nat.div_add_mod bits (twoPow f.fractionBits)
  have hfrac := Nat.mod_lt bits (twoPow_pos f.fractionBits)
  rw [Nat.mul_comm] at hsplit
  unfold decode
  by_cases he : bits / twoPow f.fractionBits = 0
  · rw [he, Nat.zero_mul, Nat.zero_add] at hsplit
    simp only [he, if_true]
    by_cases hz : bits % twoPow f.fractionBits = 0
    · rw [hz]
      rw [hz] at hsplit
      simp [round, hsplit]
    · have hl := log2_lt_of_lt_twoPow hz hfrac
      have hu : f.place (bits % twoPow f.fractionBits) f.finest = f.finest := by
        unfold place
        omega
      have hone : twoPow 0 = 1 := rfl
      simp only [round, hz, if_false, hu, le_refl, if_true, sub_self, Int.toNat_zero, hone,
        Nat.mul_one, Nat.zero_mul, Nat.zero_add]
      simp only [hsplit]
      exact Nat.min_eq_right (Nat.le_of_lt h)
  · simp only [he, if_false]
    generalize hE : bits / twoPow f.fractionBits = e at *
    generalize bits % twoPow f.fractionBits = fraction at *
    have hne : twoPow f.fractionBits + fraction ≠ 0 := by
      have := twoPow_pos f.fractionBits
      omega
    have hl : (twoPow f.fractionBits + fraction).log2 = f.fractionBits := by
      apply (Nat.log2_eq_iff hne).mpr
      have et : twoPow f.fractionBits = 2 ^ f.fractionBits := twoPow_eq _
      rw [et] at hfrac ⊢
      rw [Nat.pow_succ]
      omega
    have hu : f.place (twoPow f.fractionBits + fraction) (f.finest + (e - 1 : Nat)) =
        f.finest + (e - 1 : Nat) := by
      unfold place
      omega
    have hsum : (e - 1) * twoPow f.fractionBits + (twoPow f.fractionBits + fraction) = bits := by
      obtain ⟨d, rfl⟩ : ∃ d, e = d + 1 := ⟨e - 1, by omega⟩
      rw [Nat.add_sub_cancel, ← hsplit, Nat.succ_mul]
      omega
    have hexp : (f.finest + (e - 1 : Nat) - f.finest).toNat = e - 1 := by omega
    simp only [round, hne, if_false, hu, le_refl, if_true, sub_self, Int.toNat_zero, hexp]
    have hone : twoPow 0 = 1 := rfl
    rw [hone, Nat.mul_one, hsum]
    exact Nat.min_eq_right (Nat.le_of_lt h)

end Format

/-! ## Halves inside singles -/

namespace Datum

/-- Two data that are one number; a NaN is no number. -/
def SameNumber : Datum → Datum → Prop
  | .infinite a, .infinite b => a = b
  | .finite a m q, .finite b n r => a = b ∧ Format.SameMagnitude m q n r
  | _, _ => False

instance (d e : Datum) : Decidable (d.SameNumber e) :=
  match d, e with
  | .infinite a, .infinite b => inferInstanceAs (Decidable (a = b))
  | .finite a m q, .finite b n r => inferInstanceAs (Decidable (a = b ∧ Format.SameMagnitude m q n r))
  | .infinite _, .finite .. | .infinite _, .nan | .finite .., .infinite _ | .finite .., .nan
  | .nan, .infinite _ | .nan, .finite .. | .nan, .nan => isFalse id

theorem SameNumber.cases {d e : Datum} (h : d.SameNumber e) :
    (∃ a, d = .infinite a ∧ e = .infinite a) ∨
      ∃ a m q n r, d = .finite a m q ∧ e = .finite a n r ∧ Format.SameMagnitude m q n r := by
  cases d <;> cases e <;> simp only [SameNumber] at h
  · exact .inl ⟨_, rfl, by rw [h]⟩
  · obtain ⟨rfl, hm⟩ := h
    exact .inr ⟨_, _, _, _, _, rfl, rfl, hm⟩

/-- A number of a format is written again with the bits it was read from. -/
theorem round_of_ofBits {f : Format} {bits m : Nat} {q : Int} {negative : Bool}
    (h : ofBits f bits = .finite negative m q) :
    (if negative then f.signWeight else 0) + f.round m q =
      (if f.signWeight ≤ bits then f.signWeight else 0) + bits % f.signWeight := by
  unfold ofBits at h
  by_cases hm : bits % f.signWeight < f.infinity
  · simp only [hm, if_true, finite.injEq] at h
    obtain ⟨rfl, rfl, rfl⟩ := h
    rw [Format.round_decode f hm]
    simp
  · simp only [hm, if_false] at h
    split at h <;> cases h

/-- The number that bits stand for, by their fields. -/
theorem ofBits_fields (f : Format) (bits : Nat) :
    let exponent := bits % f.signWeight / twoPow f.fractionBits
    let fraction := bits % f.signWeight % twoPow f.fractionBits
    let negative := decide (f.signWeight ≤ bits)
    ofBits f bits =
      if exponent = twoPow f.exponentBits - 1 then if fraction = 0 then .infinite negative else .nan
      else .finite negative (if exponent = 0 then fraction else twoPow f.fractionBits + fraction)
        (f.finest + (exponent - 1 : Nat)) := by
  intro exponent fraction negative
  have unit := Format.twoPow_pos f.fractionBits
  have magnitude : exponent * twoPow f.fractionBits + fraction = bits % f.signWeight :=
    Nat.div_add_mod' _ _
  have few : fraction < twoPow f.fractionBits := Nat.mod_lt _ unit
  have small : exponent < twoPow f.exponentBits := by
    refine Nat.div_lt_of_lt_mul ?_
    rw [← Format.twoPow_add, Nat.add_comm]
    exact Nat.mod_lt _ (Format.twoPow_pos _)
  unfold ofBits
  dsimp only
  by_cases top : exponent = twoPow f.exponentBits - 1
  · have infinity : bits % f.signWeight = f.infinity + fraction := by rw [← magnitude, top]; rfl
    rw [if_pos top, infinity, if_neg (by omega)]
    by_cases hz : fraction = 0
    · rw [if_pos hz, if_pos (by omega)]
    · rw [if_neg hz, if_neg (by omega)]
  · have finite : bits % f.signWeight < f.infinity := by
      rw [← magnitude, Format.infinity]
      calc exponent * twoPow f.fractionBits + fraction < (exponent + 1) * twoPow f.fractionBits := by
            rw [Nat.succ_mul]
            omega
        _ ≤ (twoPow f.exponentBits - 1) * twoPow f.fractionBits := Nat.mul_le_mul_right _ (by omega)
    rw [if_neg top, if_pos finite]
    have decoded : f.decode (bits % f.signWeight) = (if exponent = 0 then fraction
        else twoPow f.fractionBits + fraction, f.finest + (exponent - 1 : Nat)) := by
      unfold Format.decode
      by_cases he : exponent = 0
      · rw [if_pos he, if_pos he, he]
        exact congrArg (Prod.mk _) (add_zero _).symm
      · rw [if_neg he, if_neg he]
    rw [decoded]

theorem sign_of_infinite {f : Format} {bits : Nat} {negative : Bool}
    (h : ofBits f bits = .infinite negative) :
    bits % f.signWeight = f.infinity ∧ negative = decide (f.signWeight ≤ bits) := by
  unfold ofBits at h
  by_cases hm : bits % f.signWeight < f.infinity
  · simp only [hm, if_true] at h
    cases h
  · simp only [hm, if_false] at h
    split at h
    · cases h
      exact ⟨by assumption, rfl⟩
    · cases h

theorem sign_of_finite {f : Format} {bits m : Nat} {q : Int} {negative : Bool}
    (h : ofBits f bits = .finite negative m q) : negative = decide (f.signWeight ≤ bits) := by
  unfold ofBits at h
  by_cases hm : bits % f.signWeight < f.infinity
  · simp only [hm, if_true, finite.injEq] at h
    exact h.1.symm
  · simp only [hm, if_false] at h
    split at h <;> cases h

end Datum

theorem Single.isNegative_eq (x : Single) :
    x.isNegative = decide (Format.single.signWeight ≤ x.bits.toNat) := by
  have hlt : x.bits.toNat < 4294967296 := x.bits.toNat_lt
  have hand : (x.bits &&& 0x80000000).toNat = (x.bits.toNat.testBit 31).toNat * 2147483648 := by
    rw [UInt32.toNat_and]
    have h := Nat.two_pow_and x.bits.toNat 31
    rw [Nat.and_comm, Nat.mul_comm] at h
    exact h
  have hzero : x.bits &&& 0x80000000 = 0 ↔ x.bits.toNat.testBit 31 = false := by
    rw [← UInt32.toNat_inj, hand]
    cases x.bits.toNat.testBit 31 <;> simp
  have htest : x.bits.toNat.testBit 31 = decide (2147483648 ≤ x.bits.toNat) := by
    rw [Nat.testBit_eq_decide_div_mod_eq]
    congr 1
    apply propext
    constructor <;> intro h <;> omega
  have hw : Format.single.signWeight = 2147483648 := by decide
  rw [hw, ← htest, Single.isNegative, Bool.eq_iff_iff, bne_iff_ne, ne_eq, hzero, Bool.not_eq_false]

/-- Bits are their sign and their magnitude. -/
theorem sign_add_magnitude {n w : Nat} (h : n < 2 * w) :
    (if w ≤ n then w else 0) + n % w = n := by
  split
  · rw [Nat.mod_eq_sub_mod (by assumption), Nat.mod_eq_of_lt (by omega)]
    omega
  · rw [Nat.mod_eq_of_lt (by omega)]
    omega

end Wgsl.Number
