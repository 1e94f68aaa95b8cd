import Mathlib.Algebra.Order.Field.Power
import Mathlib.Data.Rat.Floor
import Mathlib.Tactic.Linarith
import Mathlib.Tactic.Positivity
import Mathlib.Tactic.FieldSimp
import Wgsl.Proofs.Number.Halves

/-! # Rounding to the nearest

The numbers of a format lie on a grid that gets coarser with every power of two. Rounding picks the
grid point that is nearest to a number, and of two that are equally near the even one; a number
halfway to the power of two behind the greatest finite number, or more, becomes infinite.

* `Format.magnitude`: the number that magnitude bits stand for. It grows with the bits.
* `Format.unlimited`: the rounded bits as if there were no greatest number.
* `Format.unlimited_closest`: no other bits are closer, and other bits that are as close make the
  rounded ones even.
* `Half.neighbours_succ`: consecutive bits are neighbouring halves.
* `Half.nearest_even`: narrowing a single rounds to the nearest half, and widening a half is exact.
-/

namespace Wgsl.Number
set_option autoImplicit false

namespace Format

variable (f : Format)

/-! ## The numbers of a format -/

/-- The number that magnitude bits stand for. The bits of infinity stand for the power of two that
would come behind the greatest finite number. -/
def magnitude (bits : Nat) : ℚ := (f.decode bits).1 * 2 ^ (f.decode bits).2

/-- The bits of a significand, which may be one carry too large, at a place above the finest. -/
theorem magnitude_significand {k n : Nat} (hn : n ≤ 2 * twoPow f.fractionBits)
    (hk : k = 0 ∨ twoPow f.fractionBits ≤ n) :
    f.magnitude (k * twoPow f.fractionBits + n) = n * 2 ^ (f.finest + k) := by
  have hP := twoPow_pos f.fractionBits
  unfold magnitude decode
  generalize twoPow f.fractionBits = P at *
  obtain below | carried | hidden : n < P ∨ n = 2 * P ∨ (P ≤ n ∧ n < 2 * P) := by omega
  · obtain rfl : k = 0 := hk.resolve_right (Nat.not_le_of_lt below)
    simp [Nat.div_eq_of_lt below, Nat.mod_eq_of_lt below]
  · have split : k * P + n = (k + 2) * P := by rw [carried]; ring
    have quotient : (k + 2) * P / P = k + 2 := Nat.mul_div_cancel _ hP
    have rest : (k + 2) * P % P = 0 := Nat.mul_mod_left _ _
    rw [split]
    simp only [quotient, rest, Nat.add_eq_zero_iff, OfNat.ofNat_ne_zero, and_false, if_false,
      Nat.add_zero, carried]
    have place : f.finest + ((k + 2 - 1 : Nat) : Int) = f.finest + k + 1 := by omega
    rw [place, zpow_add_one₀ (by norm_num)]
    push_cast
    ring
  · have split : k * P + n = (n - P) + (k + 1) * P := by
      rw [Nat.succ_mul]
      omega
    have small : n - P < P := by omega
    have quotient : ((n - P) + (k + 1) * P) / P = k + 1 := by
      rw [Nat.add_mul_div_right _ _ hP, Nat.div_eq_of_lt small, Nat.zero_add]
    have rest : ((n - P) + (k + 1) * P) % P = n - P := by
      rw [Nat.add_mul_mod_self_right, Nat.mod_eq_of_lt small]
    rw [split]
    simp only [quotient, rest, Nat.add_eq_zero_iff, Nat.one_ne_zero, and_false, if_false,
      Nat.add_sub_cancel, Nat.add_sub_cancel' hidden.1]

/-- Bits are a significand at a place. -/
theorem exists_significand (bits : Nat) : ∃ k n, bits = k * twoPow f.fractionBits + n ∧
    n < 2 * twoPow f.fractionBits ∧ (k = 0 ∨ twoPow f.fractionBits ≤ n) := by
  have hP := twoPow_pos f.fractionBits
  generalize twoPow f.fractionBits = P at *
  have split := Nat.div_add_mod bits P
  have small := Nat.mod_lt bits hP
  by_cases h : bits / P = 0
  · rw [h] at split
    exact ⟨0, bits, by omega, by omega, .inl rfl⟩
  · obtain ⟨k, hk⟩ := Nat.exists_eq_succ_of_ne_zero h
    rw [hk, Nat.mul_comm, Nat.succ_mul] at split
    exact ⟨k, P + bits % P, by omega, by omega, .inr (by omega)⟩

theorem magnitude_strictMono : StrictMono f.magnitude := by
  refine strictMono_nat_of_lt_succ fun bits => ?_
  obtain ⟨k, n, rfl, hn, hk⟩ := f.exists_significand bits
  rw [Nat.add_assoc, f.magnitude_significand (by omega) hk,
    f.magnitude_significand (by omega) (hk.imp_right (by omega))]
  have unit : (0 : ℚ) < 2 ^ (f.finest + k) := by positivity
  push_cast
  linarith

theorem magnitude_zero : f.magnitude 0 = 0 := by
  have h := f.magnitude_significand (k := 0) (n := 0) (Nat.zero_le _) (.inl rfl)
  simpa using h

/-! ## The nearest multiple of the last place -/

theorem cast_twoPow (n : Nat) : (twoPow n : ℚ) = 2 ^ n := by
  rw [twoPow_eq]
  exact Nat.cast_pow 2 n

/-- A quotient by a power of two is rounded to the nearest integer, halfway to the even one. -/
theorem shiftRound_near (m s : Nat) :
    |(shiftRound m s : ℚ) - m / 2 ^ s| ≤ 1 / 2 ∧
      (|(shiftRound m s : ℚ) - m / 2 ^ s| = 1 / 2 → shiftRound m s % 2 = 0) := by
  have positive := twoPow_pos s
  have unit : (0 : ℚ) < twoPow s := by exact_mod_cast positive
  have split := Nat.div_add_mod m (twoPow s)
  have small := Nat.mod_lt m positive
  rw [← cast_twoPow]
  unfold shiftRound
  dsimp only
  generalize twoPow s = d at *
  generalize m / d = n at *
  generalize m % d = r at *
  have quotient : (m : ℚ) / d = n + r / d := by
    rw [← split]
    push_cast
    field_simp
  have rest : (r : ℚ) / d < 1 := (div_lt_one unit).2 (by exact_mod_cast small)
  have rest_nonneg : (0 : ℚ) ≤ r / d := by positivity
  rw [quotient]
  split
  case isTrue h =>
    have low : (r : ℚ) / d < 1 / 2 := by
      rw [div_lt_div_iff₀ unit two_pos]
      exact_mod_cast (by omega : r * 2 < 1 * d)
    rw [sub_add_cancel_left, abs_neg, abs_of_nonneg rest_nonneg]
    exact ⟨low.le, fun h => absurd h low.ne⟩
  split
  case isTrue h =>
    have high : 1 / 2 < (r : ℚ) / d := by
      rw [div_lt_div_iff₀ two_pos unit]
      exact_mod_cast (by omega : 1 * d < r * 2)
    have distance : ((n + 1 : Nat) : ℚ) - (n + r / d) = 1 - r / d := by
      push_cast
      ring
    rw [distance, abs_of_nonneg (by linarith)]
    exact ⟨by linarith, fun h => by linarith⟩
  case isFalse =>
    have half : (r : ℚ) / d = 1 / 2 := by
      rw [div_eq_div_iff unit.ne' two_ne_zero]
      exact_mod_cast (by omega : r * 2 = 1 * d)
    have even : (n + n % 2) % 2 = 0 := by omega
    refine ⟨?_, fun _ => even⟩
    rw [half]
    obtain h | h := Nat.mod_two_eq_zero_or_one n
    · rw [h]
      norm_num
    · rw [h]
      push_cast
      norm_num [abs_le]

/-- How many last places there are in the number that is written in the format. -/
def significand (m : Nat) (q : Int) : Nat :=
  if f.place m q ≤ q then m * twoPow (q - f.place m q).toNat
  else shiftRound m (f.place m q - q).toNat

/-- The number in last places. -/
def scaled (m : Nat) (q : Int) : ℚ := m * 2 ^ (q - f.place m q)

variable {m : Nat} {q : Int}

theorem scaled_mul (m : Nat) (q : Int) : f.scaled m q * 2 ^ f.place m q = m * 2 ^ q := by
  rw [scaled, mul_assoc, ← zpow_add₀ two_ne_zero, sub_add_cancel]

theorem significand_near (m : Nat) (q : Int) :
    |(f.significand m q : ℚ) - f.scaled m q| ≤ 1 / 2 ∧
      (|(f.significand m q : ℚ) - f.scaled m q| = 1 / 2 → f.significand m q % 2 = 0) := by
  unfold significand scaled
  generalize f.place m q = u
  split
  case isTrue h =>
    have exact_ : ((m * twoPow (q - u).toNat : Nat) : ℚ) = m * 2 ^ (q - u) := by
      rw [Nat.cast_mul, cast_twoPow, ← zpow_natCast, Int.toNat_of_nonneg (by omega)]
    rw [exact_, sub_self, abs_zero]
    exact ⟨by norm_num, fun h => by norm_num at h⟩
  case isFalse h =>
    have quotient : (m : ℚ) * 2 ^ (q - u) = m / 2 ^ (u - q).toNat := by
      have places : q - u = -((u - q).toNat : Int) := by omega
      rw [places, zpow_neg, zpow_natCast, div_eq_mul_inv]
    rw [quotient]
    exact shiftRound_near m _

/-- The number has no more binary digits in front of the last place than the format. -/
theorem scaled_lt (m : Nat) (q : Int) : f.scaled m q < 2 * twoPow f.fractionBits := by
  have digits : (m : ℚ) < 2 ^ (m.log2 + 1) := by exact_mod_cast Nat.lt_log2_self
  have coarse : (m.log2 : Int) + q - f.fractionBits ≤ f.place m q := le_max_left _ _
  calc f.scaled m q < 2 ^ (m.log2 + 1) * 2 ^ (q - f.place m q) :=
        mul_lt_mul_of_pos_right digits (by positivity)
    _ = (2 : ℚ) ^ ((m.log2 + 1 : Nat) + (q - f.place m q)) := by
        rw [zpow_add₀ two_ne_zero, zpow_natCast]
    _ ≤ 2 ^ ((1 : Int) + f.fractionBits) := zpow_le_zpow_right₀ (by norm_num) (by push_cast; omega)
    _ = 2 * twoPow f.fractionBits := by
        rw [cast_twoPow, zpow_add₀ two_ne_zero, zpow_one, zpow_natCast]

/-- Behind the finest place it has all binary digits of the format. -/
theorem le_scaled (hm : m ≠ 0) (h : f.finest < f.place m q) :
    (twoPow f.fractionBits : ℚ) ≤ f.scaled m q := by
  have digits : (2 : ℚ) ^ m.log2 ≤ m := by exact_mod_cast Nat.log2_self_le hm
  have coarse : f.place m q = m.log2 + q - f.fractionBits := by
    unfold place at h ⊢
    omega
  calc (twoPow f.fractionBits : ℚ) = 2 ^ (m.log2 + (q - f.place m q)) := by
        rw [cast_twoPow, ← zpow_natCast]
        congr 1
        omega
    _ = 2 ^ m.log2 * 2 ^ (q - f.place m q) := by rw [zpow_add₀ two_ne_zero, zpow_natCast]
    _ ≤ f.scaled m q := mul_le_mul_of_nonneg_right digits (by positivity)

/-- The rounded bits as if there were no greatest number. -/
def unlimited (m : Nat) (q : Int) : Nat :=
  if m = 0 then 0
  else (f.place m q - f.finest).toNat * twoPow f.fractionBits + f.significand m q

theorem round_eq_min (m : Nat) (q : Int) : f.round m q = min f.infinity (f.unlimited m q) := by
  unfold round unlimited
  split
  · exact (Nat.min_eq_right (Nat.zero_le _)).symm
  · rfl

theorem magnitude_unlimited (hm : m ≠ 0) :
    f.magnitude (f.unlimited m q) = f.significand m q * 2 ^ f.place m q := by
  obtain ⟨near, -⟩ := f.significand_near m q
  rw [abs_le] at near
  have above : f.finest ≤ f.place m q := le_max_right _ _
  have place : f.finest + ((f.place m q - f.finest).toNat : Int) = f.place m q := by omega
  have small : f.significand m q ≤ 2 * twoPow f.fractionBits := by
    have lt : (f.significand m q : ℚ) < (2 * twoPow f.fractionBits + 1 : Nat) := by
      push_cast
      linarith [f.scaled_lt m q]
    exact Nat.lt_succ_iff.1 (by exact_mod_cast lt)
  have full : (f.place m q - f.finest).toNat = 0 ∨ twoPow f.fractionBits ≤ f.significand m q := by
    by_cases h : f.finest < f.place m q
    · have lt : (twoPow f.fractionBits : ℚ) < (f.significand m q + 1 : Nat) := by
        push_cast
        linarith [f.le_scaled hm h]
      exact .inr (Nat.lt_succ_iff.1 (by exact_mod_cast lt))
    · exact .inl (by omega)
  rw [unlimited, if_neg hm, f.magnitude_significand small full, place]

/-! ## No other number is closer -/

/-- An integer at most a half away is nearest; if another one is as near it is a half away. -/
theorem nearest_of_near {n j : Nat} {x : ℚ} (h : |(n : ℚ) - x| ≤ 1 / 2) :
    |(n : ℚ) - x| ≤ |(j : ℚ) - x| ∧
      (j ≠ n → |(j : ℚ) - x| = |(n : ℚ) - x| → |(n : ℚ) - x| = 1 / 2) := by
  by_cases hj : j = n
  · rw [hj]
    exact ⟨le_refl _, fun h => absurd rfl h⟩
  have apart : (1 : ℚ) ≤ |(j : ℚ) - n| := by
    have : (1 : Int) ≤ |(j : Int) - n| := Int.one_le_abs (by omega)
    exact_mod_cast this
  have between : |(j : ℚ) - n| ≤ |(j : ℚ) - x| + |(n : ℚ) - x| := by
    rw [abs_sub_comm (n : ℚ) x]
    exact abs_sub_le _ _ _
  exact ⟨by linarith, fun _ e => by linarith⟩

/-- Numbers of the format that are large enough are whole numbers of last places; a smaller one is
farther away than the least of these. -/
theorem magnitude_multiple (hm : m ≠ 0) (bits : Nat) :
    (∃ j : Nat, f.magnitude bits = j * 2 ^ f.place m q) ∨
      |(twoPow f.fractionBits : ℚ) * 2 ^ f.place m q - m * 2 ^ q| <
        |f.magnitude bits - m * 2 ^ q| := by
  obtain ⟨k, n, rfl, hn, hk⟩ := f.exists_significand bits
  have above : f.finest ≤ f.place m q := le_max_right _ _
  rw [f.magnitude_significand (by omega) hk]
  by_cases coarse : f.place m q ≤ f.finest + k
  · refine .inl ⟨n * twoPow (f.finest + k - f.place m q).toNat, ?_⟩
    have power : (2 : ℚ) ^ (f.finest + k - f.place m q).toNat = 2 ^ (f.finest + k - f.place m q) := by
      rw [← zpow_natCast, Int.toNat_of_nonneg (by omega)]
    rw [Nat.cast_mul, cast_twoPow, power, mul_assoc, ← zpow_add₀ two_ne_zero, sub_add_cancel]
  · right
    have least : (twoPow f.fractionBits : ℚ) * 2 ^ f.place m q ≤ m * 2 ^ q := by
      rw [← f.scaled_mul m q]
      exact mul_le_mul_of_nonneg_right (f.le_scaled hm (by omega)) (by positivity)
    have smaller : (n : ℚ) * 2 ^ (f.finest + k) < twoPow f.fractionBits * 2 ^ f.place m q := by
      have digits : (n : ℚ) < 2 * twoPow f.fractionBits := by exact_mod_cast hn
      calc (n : ℚ) * 2 ^ (f.finest + k) < 2 * twoPow f.fractionBits * 2 ^ (f.finest + k) :=
            mul_lt_mul_of_pos_right digits (by positivity)
        _ = twoPow f.fractionBits * 2 ^ (f.finest + k + 1) := by
            rw [zpow_add_one₀ two_ne_zero]
            ring
        _ ≤ twoPow f.fractionBits * 2 ^ f.place m q :=
            mul_le_mul_of_nonneg_left (zpow_le_zpow_right₀ (by norm_num) (by omega)) (by positivity)
    rw [abs_of_nonpos (by linarith), abs_of_nonpos (by linarith)]
    linarith

/-- No bits stand for a number that is closer than that of the rounded ones, and if others are as close
the rounded ones are even. -/
theorem unlimited_closest (hf : 0 < f.fractionBits) (m : Nat) (q : Int) (bits : Nat) :
    |f.magnitude (f.unlimited m q) - m * 2 ^ q| ≤ |f.magnitude bits - m * 2 ^ q| ∧
      (bits ≠ f.unlimited m q →
        |f.magnitude bits - m * 2 ^ q| = |f.magnitude (f.unlimited m q) - m * 2 ^ q| →
        f.unlimited m q % 2 = 0) := by
  by_cases hm : m = 0
  · have nothing : f.unlimited m q = 0 := if_pos hm
    rw [nothing, hm, f.magnitude_zero]
    simp
  obtain ⟨near, tie⟩ := f.significand_near m q
  have unit : (0 : ℚ) < 2 ^ f.place m q := by positivity
  -- distances in last places
  have distance : ∀ j : Nat, |(j : ℚ) * 2 ^ f.place m q - m * 2 ^ q| =
      |(j : ℚ) - f.scaled m q| * 2 ^ f.place m q := by
    intro j
    rw [← f.scaled_mul m q, ← sub_mul, abs_mul, abs_of_pos unit]
  rw [f.magnitude_unlimited hm, distance]
  obtain ⟨j, hj⟩ | farther := f.magnitude_multiple (q := q) hm bits
  · rw [hj, distance]
    obtain ⟨closest, halfway⟩ := nearest_of_near (j := j) near
    refine ⟨mul_le_mul_of_nonneg_right closest unit.le, fun hbits same => ?_⟩
    have hne : j ≠ f.significand m q := by
      rintro rfl
      exact hbits (f.magnitude_strictMono.injective (hj.trans (f.magnitude_unlimited hm).symm))
    have even := tie (halfway hne (mul_right_cancel₀ unit.ne' same))
    have base : twoPow f.fractionBits % 2 = 0 := by
      obtain ⟨k, hk⟩ := Nat.exists_eq_succ_of_ne_zero hf.ne'
      rw [hk, twoPow_eq]
      exact Nat.mul_mod_left _ _
    rw [unlimited, if_neg hm, Nat.add_mod, Nat.mul_mod, base, even]
    rfl
  · rw [distance] at farther
    obtain ⟨closest, -⟩ := nearest_of_near (j := twoPow f.fractionBits) near
    have strictly := lt_of_le_of_lt (mul_le_mul_of_nonneg_right closest unit.le) farther
    exact ⟨strictly.le, fun _ same => absurd same strictly.ne'⟩

/-- A number with few enough digits is kept. -/
theorem magnitude_unlimited_of_place_le (h : f.place m q ≤ q) :
    f.magnitude (f.unlimited m q) = m * 2 ^ q := by
  by_cases hm : m = 0
  · have nothing : f.unlimited m q = 0 := if_pos hm
    rw [nothing, hm, f.magnitude_zero]
    simp
  rw [f.magnitude_unlimited hm, significand, if_pos h, Nat.cast_mul, cast_twoPow, ← zpow_natCast,
    Int.toNat_of_nonneg (by omega), mul_assoc, ← zpow_add₀ two_ne_zero, sub_add_cancel]

/-- The bits are those of infinity or beyond exactly if the number is at least halfway from the greatest
finite number to the power of two behind it. -/
theorem infinity_le_unlimited (hf : 0 < f.fractionBits) (even : f.infinity % 2 = 0)
    (positive : 0 < f.infinity) (m : Nat) (q : Int) :
    f.infinity ≤ f.unlimited m q ↔
      f.magnitude (f.infinity - 1) + f.magnitude f.infinity ≤ 2 * (m * 2 ^ q) := by
  obtain ⟨below, -⟩ := f.unlimited_closest hf m q (f.infinity - 1)
  obtain ⟨above, tie⟩ := f.unlimited_closest hf m q f.infinity
  have order := f.magnitude_strictMono (Nat.sub_lt positive one_pos)
  have monotone := f.magnitude_strictMono.monotone
  generalize (m : ℚ) * 2 ^ q = v at *
  constructor
  · intro beyond
    have far := monotone beyond
    by_contra near
    rw [abs_of_nonneg (by linarith)] at below
    rcases abs_cases (f.magnitude (f.infinity - 1) - v) with ⟨h, -⟩ | ⟨h, -⟩ <;> linarith
  · intro far
    by_contra finite
    have low := monotone (show f.unlimited m q ≤ f.infinity - 1 by omega)
    have distance : |f.magnitude (f.unlimited m q) - v| = v - f.magnitude (f.unlimited m q) := by
      rw [abs_of_nonpos (by linarith), neg_sub]
    rw [distance] at above tie
    rcases abs_cases (f.magnitude f.infinity - v) with ⟨h, -⟩ | ⟨h, -⟩
    · -- halfway the greatest finite number would have been chosen, but it is odd
      have greatest : f.magnitude (f.unlimited m q) = f.magnitude (f.infinity - 1) := by linarith
      have bits := f.magnitude_strictMono.injective greatest
      have chosen := tie (by omega) (by linarith)
      omega
    · linarith

theorem decode_fst_lt (bits : Nat) : (f.decode bits).1 < 2 * twoPow f.fractionBits := by
  have small := Nat.mod_lt bits (twoPow_pos f.fractionBits)
  unfold decode
  dsimp only
  split <;> dsimp only <;> omega

theorem finest_le_decode (bits : Nat) : f.finest ≤ (f.decode bits).2 := by
  unfold decode
  dsimp only
  split <;> dsimp only <;> omega

end Format

/-! ## Signed numbers -/

/-- The factor of a sign. -/
def signFactor (negative : Bool) : ℚ := if negative then -1 else 1

/-- The number that a finite datum stands for. -/
def Datum.value : Datum → ℚ
  | .finite negative m q => signFactor negative * (m * 2 ^ q)
  | _ => 0

/-- The number that a single stands for. -/
def Single.value (x : Single) : ℚ := x.datum.value

theorem Datum.ofBits_finite {f : Format} {bits : Nat} (h : bits % f.signWeight < f.infinity) :
    ofBits f bits = .finite (decide (f.signWeight ≤ bits)) (f.decode (bits % f.signWeight)).1
      (f.decode (bits % f.signWeight)).2 :=
  if_pos h

theorem Datum.value_ofBits {f : Format} {bits : Nat} (h : bits % f.signWeight < f.infinity) :
    (ofBits f bits).value =
      signFactor (decide (f.signWeight ≤ bits)) * f.magnitude (bits % f.signWeight) := by
  rw [ofBits_finite h]
  rfl

theorem abs_signFactor_mul (a : Bool) (x : ℚ) : |signFactor a * x| = |x| := by
  cases a <;> simp [signFactor]

/-- No number of either sign is closer than the rounded one, and if others are as close the rounded bits
are even. -/
theorem Format.signed_closest (f : Format) (hf : 0 < f.fractionBits) (a c : Bool) (m : Nat) (q : Int)
    (bits : Nat) :
    let rounded := signFactor a * f.magnitude (f.unlimited m q)
    let other := signFactor c * f.magnitude bits
    let x := signFactor a * (m * 2 ^ q)
    |rounded - x| ≤ |other - x| ∧
      (other ≠ rounded → |other - x| = |rounded - x| → f.unlimited m q % 2 = 0) := by
  have distance : ∀ y z : ℚ, |signFactor a * y - signFactor a * z| = |y - z| := fun y z => by
    rw [← mul_sub, abs_signFactor_mul]
  obtain ⟨closest, tie⟩ := f.unlimited_closest hf m q bits
  dsimp only
  by_cases same : c = a
  · rw [same, distance, distance]
    refine ⟨closest, fun hne => tie ?_⟩
    rintro rfl
    exact hne rfl
  · -- the numbers of the other sign are no closer than zero
    have positive : 0 ≤ f.magnitude bits := f.magnitude_zero ▸ f.magnitude_strictMono.monotone (zero_le)
    have nonneg : (0 : ℚ) ≤ m * 2 ^ q := by positivity
    obtain ⟨zero, even⟩ := f.unlimited_closest hf m q 0
    rw [f.magnitude_zero, zero_sub, abs_neg, abs_of_nonneg nonneg] at zero even
    have opposite : |signFactor c * f.magnitude bits - signFactor a * (m * 2 ^ q)| =
        f.magnitude bits + m * 2 ^ q := by
      have turned : signFactor c = -signFactor a := by
        cases a <;> cases c <;> simp [signFactor] at same ⊢
      rw [turned, neg_mul, ← neg_add', abs_neg, ← mul_add, abs_signFactor_mul,
        abs_of_nonneg (by linarith)]
    rw [opposite, distance]
    refine ⟨by linarith, fun hne hsame => even ?_ (by linarith)⟩
    have nothing : f.magnitude bits = 0 := by linarith
    intro h
    rw [nothing, ← h, f.magnitude_zero] at hne
    simp at hne

namespace Half

/-- The number that a half stands for. -/
def value (h : UInt16) : ℚ := (Datum.ofBits .half h.toNat).value

/-- Whether the sign bit is set. -/
def isNegative (h : UInt16) : Bool := decide (0x8000 ≤ h.toNat)

/-- The exponent bits are not all set. -/
def IsFinite (h : UInt16) : Prop := h.toNat % 0x8000 < 0x7c00

instance (h : UInt16) : Decidable (IsFinite h) := inferInstanceAs (Decidable (_ < _))

/-- Two finite halves with none between them. -/
structure Neighbours (a b : UInt16) : Prop where
  finite_left : IsFinite a
  finite_right : IsFinite b
  lt : value a < value b
  none_between : ∀ h, IsFinite h → value h ≤ value a ∨ value b ≤ value h

theorem value_eq {h : UInt16} (hh : IsFinite h) :
    value h = signFactor (isNegative h) * Format.half.magnitude (h.toNat % 0x8000) :=
  Datum.value_ofBits (f := .half) hh

theorem isFinite_iff (x : Single) :
    x.isFinite = true ↔ x.bits.toNat % Format.single.signWeight < Format.single.infinity := by
  have weight : Format.single.signWeight = 2 ^ 31 := by decide
  have infinity : Format.single.infinity = (0x7f800000 : UInt32).toNat := by decide
  have masked : (x.bits &&& 0x7fffffff).toNat = x.bits.toNat % 2 ^ 31 := by
    have ones : (0x7fffffff : UInt32).toNat = 2 ^ 31 - 1 := rfl
    rw [UInt32.toNat_and, ones, Nat.and_two_pow_sub_one_eq_mod]
  rw [weight, infinity, ← masked]
  exact decide_eq_true_iff

theorem datum_finite {x : Single} (h : x.isFinite = true) : ∃ m q,
    x.datum = .finite (decide (0x80000000 ≤ x.bits.toNat)) m q :=
  ⟨_, _, Datum.ofBits_finite ((isFinite_iff x).1 h)⟩

variable {x : Single} {a : Bool} {m : Nat} {q : Int}

theorem round_le_infinity (m : Nat) (q : Int) : Format.half.round m q ≤ 0x7c00 := by
  rw [Format.round_eq_min]
  exact Nat.min_le_left _ _

/-- The sign bit and the rounded magnitude. -/
theorem toNat_ofSingle (hx : x.datum = .finite a m q) :
    (ofSingle x).toNat = (if a then 0x8000 else 0) + Format.half.round m q := by
  have sign : x.isNegative = a := by rw [x.isNegative_eq, Datum.sign_of_finite hx]
  have small := round_le_infinity m q
  rw [ofSingle_eq_narrowed]
  unfold narrowed
  simp only [hx, sign]
  refine Nat.mod_eq_of_lt ?_
  split <;> omega

theorem isNegative_ofSingle (hx : x.datum = .finite a m q) : isNegative (ofSingle x) = a := by
  have small := round_le_infinity m q
  unfold isNegative
  rw [toNat_ofSingle hx]
  cases a
  · exact decide_eq_false (by simp; omega)
  · exact decide_eq_true (Nat.le_add_right _ _)

theorem magnitude_ofSingle (hx : x.datum = .finite a m q) :
    (ofSingle x).toNat % 0x8000 = min 0x7c00 (Format.half.unlimited m q) := by
  have small := round_le_infinity m q
  have rounded : Format.half.round m q = min 0x7c00 (Format.half.unlimited m q) :=
    Format.round_eq_min _ _ _
  rw [toNat_ofSingle hx, ← rounded]
  split <;> omega

/-- Halfway from the greatest finite half to the power of two behind it. -/
theorem overflows_iff (m : Nat) (q : Int) :
    0x7c00 ≤ Format.half.unlimited m q ↔ (65520 : ℚ) ≤ m * 2 ^ q := by
  have threshold := Format.half.infinity_le_unlimited (by decide) (by decide) (by decide) m q
  have infinity : Format.half.infinity = 0x7c00 := by decide
  have greatest : Format.half.magnitude 0x7bff = 65504 := by
    have decoded : Format.half.decode 0x7bff = (2047, 5) := by decide
    rw [Format.magnitude, decoded]
    norm_num
  have behind : Format.half.magnitude 0x7c00 = 65536 := by
    have decoded : Format.half.decode 0x7c00 = (1024, 6) := by decide
    rw [Format.magnitude, decoded]
    norm_num
  rw [infinity] at threshold
  norm_num only [greatest, behind] at threshold
  rw [threshold]
  constructor <;> intro h <;> linarith

/-- Below the threshold the half is that of the rounded bits. -/
theorem value_ofSingle (hx : x.datum = .finite a m q) (small : (m : ℚ) * 2 ^ q < 65520) :
    IsFinite (ofSingle x) ∧ (ofSingle x).toNat % 0x8000 = Format.half.unlimited m q ∧
      value (ofSingle x) = signFactor a * Format.half.magnitude (Format.half.unlimited m q) := by
  have below : Format.half.unlimited m q < 0x7c00 := by
    rw [← not_le, overflows_iff]
    exact not_le.2 small
  have bits := magnitude_ofSingle hx
  rw [Nat.min_eq_right below.le] at bits
  have finite : IsFinite (ofSingle x) := by
    rw [IsFinite, bits]
    exact below
  exact ⟨finite, bits, by rw [value_eq finite, isNegative_ofSingle hx, bits]⟩

/-- Singles have room for the digits of a half. -/
theorem single_unlimited {h : UInt16} (finite : IsFinite h) :
    let d := Format.half.decode (h.toNat % 0x8000)
    Format.single.magnitude (Format.single.unlimited d.1 d.2) =
        Format.half.magnitude (h.toNat % 0x8000) ∧
      Format.single.unlimited d.1 d.2 < Format.single.infinity := by
  intro d
  have few : d.1 < 2 ^ 11 := Format.decode_fst_lt .half _
  have coarse : -24 ≤ d.2 := Format.finest_le_decode .half _
  have digits : d.1.log2 ≤ 10 := by
    by_cases zero : d.1 = 0
    · simp [zero]
    · exact Nat.lt_succ_iff.1 ((Nat.log2_lt zero).2 few)
  have place : Format.single.place d.1 d.2 ≤ d.2 := by
    have fractionBits : Format.single.fractionBits = 23 := rfl
    have finest : Format.single.finest = -149 := by decide
    unfold Format.place
    omega
  have kept := Format.magnitude_unlimited_of_place_le .single place
  refine ⟨kept, Format.single.magnitude_strictMono.lt_iff_lt.1 ?_⟩
  rw [kept]
  have behind : Format.half.magnitude 0x7c00 = 65536 := by
    have decoded : Format.half.decode 0x7c00 = (1024, 6) := by decide
    rw [Format.magnitude, decoded]
    norm_num
  have greatest : Format.single.magnitude Format.single.infinity = 2 ^ 128 := by
    have decoded : Format.single.decode Format.single.infinity = (2 ^ 23, 105) := by decide
    rw [Format.magnitude, decoded]
    norm_num
  calc (d.1 : ℚ) * 2 ^ d.2 < Format.half.magnitude 0x7c00 :=
        Format.half.magnitude_strictMono finite
    _ < Format.single.magnitude Format.single.infinity := by
        rw [behind, greatest]
        norm_num

/-- Widening keeps the sign and the number. -/
theorem value_toSingle {h : UInt16} (finite : IsFinite h) :
    (toSingle h).isFinite = true ∧ (toSingle h).value = value h ∧
      (0x80000000 ≤ (toSingle h).bits.toNat ↔ 0x8000 ≤ h.toNat) := by
  obtain ⟨same, small⟩ := single_unlimited finite
  generalize hd : Format.half.decode (h.toNat % 0x8000) = d at same small
  have datum : Datum.ofBits .half h.toNat = .finite (isNegative h) d.1 d.2 := by
    rw [← hd]
    exact Datum.ofBits_finite finite
  have weight : Format.single.signWeight = 0x80000000 := by decide
  have infinity : Format.single.infinity = 0x7f800000 := by decide
  have rounded : Format.single.round d.1 d.2 = Format.single.unlimited d.1 d.2 := by
    rw [Format.round_eq_min, Nat.min_eq_right small.le]
  have bits : (toSingle h).bits.toNat =
      (if 0x8000 ≤ h.toNat then 0x80000000 else 0) + Format.single.unlimited d.1 d.2 := by
    rw [toSingle_eq_widened]
    unfold widened
    simp only [datum, rounded]
    refine Nat.mod_eq_of_lt ?_
    split <;> omega
  rw [infinity] at small
  generalize Format.single.unlimited d.1 d.2 = magnitude at *
  have rest : (toSingle h).bits.toNat % 0x80000000 = magnitude := by
    rw [bits]
    split <;> omega
  have sign : 0x80000000 ≤ (toSingle h).bits.toNat ↔ 0x8000 ≤ h.toNat := by
    rw [bits]
    split <;> omega
  have single : (toSingle h).bits.toNat % Format.single.signWeight < Format.single.infinity := by
    rw [weight, rest, infinity]
    exact small
  refine ⟨(isFinite_iff _).2 single, ?_, sign⟩
  have negative : decide (Format.single.signWeight ≤ (toSingle h).bits.toNat) = isNegative h := by
    rw [weight]
    exact decide_eq_decide.2 sign
  have value_single := Datum.value_ofBits single
  rw [negative, weight, rest, same] at value_single
  rw [value_eq finite]
  exact value_single

/-- Behind each half comes the one with the next bits. -/
theorem neighbours_succ {n : Nat} (hn : n + 1 < 0x7c00) :
    Neighbours (UInt16.ofNat n) (UInt16.ofNat (n + 1)) := by
  have bits : ∀ k < 0x7c00, IsFinite (UInt16.ofNat k) ∧
      value (UInt16.ofNat k) = Format.half.magnitude k := by
    intro k hk
    have same : (UInt16.ofNat k).toNat = k := Nat.mod_eq_of_lt (by omega)
    have rest : k % 0x8000 = k := Nat.mod_eq_of_lt (by omega)
    have finite : IsFinite (UInt16.ofNat k) := by rwa [IsFinite, same, rest]
    have positive : isNegative (UInt16.ofNat k) = false := by
      rw [isNegative, same]
      exact decide_eq_false (by omega)
    refine ⟨finite, ?_⟩
    rw [value_eq finite, positive, same, rest]
    exact one_mul _
  obtain ⟨finite, value_left⟩ := bits n (by omega)
  obtain ⟨finite', value_right⟩ := bits (n + 1) hn
  have monotone := Format.half.magnitude_strictMono
  refine ⟨finite, finite', ?_, fun k hk => ?_⟩
  · rw [value_left, value_right]
    exact monotone (Nat.lt_succ_self n)
  rw [value_left, value_right, value_eq hk]
  have nonneg : ∀ j, 0 ≤ Format.half.magnitude j := fun j =>
    Format.half.magnitude_zero ▸ monotone.monotone (Nat.zero_le j)
  cases isNegative k
  · obtain below | above := Nat.lt_or_ge n (k.toNat % 0x8000)
    · exact .inr ((one_mul (Format.half.magnitude _)).symm ▸ monotone.monotone below)
    · exact .inl ((one_mul (Format.half.magnitude _)).symm ▸ monotone.monotone above)
  · refine .inl (le_trans ?_ (nonneg n))
    have turned : signFactor true = -1 := rfl
    rw [turned, neg_one_mul]
    exact neg_nonpos.2 (nonneg _)

/-- Narrowing a finite single keeps the sign. Below the midpoint of the greatest finite half and the
power of two behind it no half is closer, and of two neighbours that are equally close the even one is
taken; from there on the half is infinite. Widening a finite half gives its number. -/
theorem nearest_even :
    (∀ x : Single, x.isFinite = true →
      (0x8000 ≤ (ofSingle x).toNat ↔ 0x80000000 ≤ x.bits.toNat) ∧
      (|x.value| < 65520 → IsFinite (ofSingle x) ∧
        (∀ k, IsFinite k → |value (ofSingle x) - x.value| ≤ |value k - x.value|) ∧
        ∀ a b, Neighbours a b → x.value = (value a + value b) / 2 → (ofSingle x).toNat % 2 = 0) ∧
      (65520 ≤ |x.value| → (ofSingle x).toNat % 0x8000 = 0x7c00)) ∧
    ∀ h : UInt16, IsFinite h →
      (toSingle h).isFinite = true ∧ (toSingle h).value = value h ∧
        (0x80000000 ≤ (toSingle h).bits.toNat ↔ 0x8000 ≤ h.toNat) := by
  refine ⟨fun x finite => ?_, fun h finite => value_toSingle finite⟩
  obtain ⟨m, q, hx⟩ := datum_finite finite
  have number : x.value = signFactor (decide (0x80000000 ≤ x.bits.toNat)) * (m * 2 ^ q) := by
    rw [Single.value, hx]
    rfl
  have size : |x.value| = m * 2 ^ q := by
    rw [number, abs_signFactor_mul, abs_of_nonneg (by positivity)]
  refine ⟨?_, fun small => ?_, fun large => ?_⟩
  · exact decide_eq_decide.1 (isNegative_ofSingle hx)
  · rw [size] at small
    obtain ⟨kept, bits, value_half⟩ := value_ofSingle hx small
    -- the distances of the rounded half, and what a half at the same distance means
    have nearest : ∀ k, IsFinite k → |value (ofSingle x) - x.value| ≤ |value k - x.value| ∧
        (value k ≠ value (ofSingle x) →
          |value k - x.value| = |value (ofSingle x) - x.value| → (ofSingle x).toNat % 2 = 0) := by
      intro k hk
      obtain ⟨closest, tie⟩ := Format.signed_closest .half (by decide) _ (isNegative k) m q
        (k.toNat % 0x8000)
      rw [← number, ← value_half, ← value_eq hk] at closest tie
      refine ⟨closest, fun hne same => ?_⟩
      have even := tie hne same
      rw [← bits] at even
      omega
    refine ⟨kept, fun k hk => (nearest k hk).1, fun a b neighbours middle => ?_⟩
    have order := neighbours.lt
    have left : |value a - x.value| = (value b - value a) / 2 := by
      rw [middle, abs_of_nonpos (by linarith)]
      ring
    have right : |value b - x.value| = (value b - value a) / 2 := by
      rw [middle, abs_of_nonneg (by linarith)]
      ring
    obtain ⟨near_left, tie_left⟩ := nearest a neighbours.finite_left
    obtain ⟨near_right, tie_right⟩ := nearest b neighbours.finite_right
    have bounds := abs_le.1 near_left
    rw [left] at bounds near_left tie_left
    rw [right] at near_right tie_right
    rcases neighbours.none_between _ kept with below | above
    · have equal : value (ofSingle x) = value a := by linarith
      refine tie_right (by linarith [equal]) ?_
      rw [equal, left]
    · have equal : value (ofSingle x) = value b := by linarith
      refine tie_left (by rw [equal]; exact order.ne) ?_
      rw [equal, right]
  · rw [size, ← overflows_iff] at large
    rw [magnitude_ofSingle hx, Nat.min_eq_left large]

/-- The number halfway between the least two positive halves goes to the second of them. -/
theorem nearest_even_halfway :
    (ofSingle ⟨0x33c00000⟩).toNat % 2 = 0 ∧ (toSingle 0x0001).value = value 0x0001 := by
  refine ⟨?_, (nearest_even.2 0x0001 (by decide)).2.1⟩
  obtain ⟨-, small, -⟩ := nearest_even.1 ⟨0x33c00000⟩ (by decide)
  have middle : Single.value ⟨0x33c00000⟩ = 3 / 2 ^ 25 := by
    have datum : Single.datum ⟨0x33c00000⟩ = .finite false (3 * 2 ^ 22) (-47) := by decide
    rw [Single.value, datum]
    norm_num [Datum.value, signFactor]
  have least : value 0x0001 = 1 / 2 ^ 24 ∧ value 0x0002 = 2 / 2 ^ 24 := by
    have first : Datum.ofBits .half 1 = .finite false 1 (-24) := by decide
    have second : Datum.ofBits .half 2 = .finite false 2 (-24) := by decide
    constructor
    · exact (congrArg Datum.value first).trans (by norm_num [Datum.value, signFactor])
    · exact (congrArg Datum.value second).trans (by norm_num [Datum.value, signFactor])
  obtain ⟨-, -, even⟩ := small (by rw [middle]; norm_num [abs_of_pos])
  refine even 0x0001 0x0002 (neighbours_succ (n := 1) (by decide)) ?_
  rw [middle, least.1, least.2]
  norm_num

end Half

end Wgsl.Number
