import Mathlib.Algebra.Order.Ring.Int
import Mathlib.Data.List.Basic
import Wgsl.Builtin
import Wgsl.Const
import Wgsl.Library

/-! # Constants at run time

A folded constant and the value that a shader computes for the same operands. A folded integer has
sixty-four bits, an integer of a shader thirty-two. As long as what is folded fits, operators and
functions give the same on both sides.

* `Constant.Becomes`: the value at run time of a constant.
* `Value.unary_becomes`, `Value.binary_becomes`, `Library.call_becomes`: what operators and functions
  make of such values.
-/

namespace Wgsl
set_option autoImplicit false

namespace Constant

/-- The value at run time of a constant. A float has none here. -/
inductive Becomes : Constant → Value → Prop where
  | bool (b : Bool) : Becomes (.bool b) (.bool b)
  | int (n : Int32) : Becomes (.int n.toInt64) (.i32 n)

/-- The constant is no integer of more than thirty-two bits. -/
def Fits : Constant → Prop
  | .int n => -2 ^ 31 ≤ n.toInt ∧ n.toInt < 2 ^ 31
  | _ => True

variable {c : Constant} {v : Value}

theorem toInt64_toInt32 {n : Int64} (h : (Constant.int n).Fits) : n.toInt32.toInt64 = n := by
  refine Int64.toInt_inj.1 ?_
  rw [Int32.toInt_toInt64, Int64.toInt_toInt32]
  exact Int.bmod_eq_of_le (by have := h.1; omega) (by have := h.2; omega)

theorem Becomes.of_fits {n : Int64} {k : Int32} (h : (Constant.int n).Fits) (hk : n.toInt32 = k) :
    (Constant.int n).Becomes (.i32 k) := by
  rw [← toInt64_toInt32 h, hk]
  exact .int k

/-- What counts as true is the same at run time. -/
theorem Becomes.truth (h : c.Becomes v) : v.truth = .ok c.toBool := by
  cases h with
  | bool b => rfl
  | int n =>
    have zero : (n != 0) = (n.toInt64 != 0) := by
      rw [Bool.eq_iff_iff]
      simp only [bne_iff_ne, ne_eq, ← Int32.toInt_inj, ← Int64.toInt_inj, Int32.toInt_toInt64]
      rfl
    exact congrArg Except.ok zero

/-- A constant that is a natural number of thirty-two bits is the same number at run time. -/
theorem Becomes.unsigned (h : c.Becomes v) {n : UInt32} (hn : c.toUInt32? = some n) :
    v.unsigned = .ok n := by
  cases h with
  | bool b => cases b <;> exact congrArg Except.ok (Option.some.inj hn)
  | int k =>
    simp only [toUInt32?, toInt64, Int32.toInt_toInt64] at hn
    split at hn
    · rename_i hrange
      cases hn
      have hk : 0 ≤ k := Int32.le_iff_toInt_le.2 hrange.1
      refine congrArg Except.ok (UInt32.toNat_inj.1 ?_)
      rw [Int32.toNat_toUInt32_of_le hk]
      exact (UInt32.toNat_ofNat_of_lt' (by change k.toInt.toNat < _; omega)).symm
    · cases hn

end Constant

open Constant

variable {c c' d : Constant} {v v' : Value}

/-! ## Operators -/

namespace Value

theorem unary_becomes {op : UnaryOp} (hc : Constant.unary? op c = some d) (h : c.Becomes v)
    (hf : d.Fits) : ∃ w, Value.unary op v = .ok w ∧ d.Becomes w := by
  cases h with
  | bool b =>
    cases op <;> cases hc
    exact ⟨_, rfl, .bool _⟩
  | int n =>
    cases op <;> cases hc
    · exact ⟨_, rfl, .of_fits hf (by rw [Int64.toInt32_neg, Int32.toInt32_toInt64])⟩
    · exact ⟨_, rfl, .of_fits hf (by rw [Int64.toInt32_not, Int32.toInt32_toInt64])⟩

theorem boolBinary_becomes {op : BinaryOp} {a b : Bool} (hc : Constant.boolBinary? op a b = some c) :
    ∃ w, Value.boolBinary op a b = .ok w ∧ c.Becomes w := by
  cases op <;> cases hc <;> exact ⟨_, rfl, .bool _⟩

/-- Comparisons of integers. -/
theorem compared_becomes {op : BinaryOp} {a b : Int32}
    (hc : Constant.intBinary? op a.toInt64 b.toInt64 = some c)
    (hop : op ∈ [BinaryOp.equal, .notEqual, .less, .lessEqual, .greater, .greaterEqual]) :
    ∃ w, Value.compared op (some (compare a.toInt b.toInt)) = .ok w ∧ c.Becomes w := by
  have eq : (a.toInt64 == b.toInt64) = decide (compare a.toInt b.toInt = .eq) := by
    rw [Bool.beq_eq_decide_eq, decide_eq_decide, compare_eq_iff_eq, ← Int64.toInt_inj, Int32.toInt_toInt64,
      Int32.toInt_toInt64]
  have lt : decide (a.toInt64 < b.toInt64) = decide (compare a.toInt b.toInt = .lt) := by
    rw [decide_eq_decide, compare_lt_iff_lt, Int32.toInt64_lt, Int32.lt_iff_toInt_lt]
  have le : decide (a.toInt64 ≤ b.toInt64) = decide (compare a.toInt b.toInt ≠ .gt) := by
    rw [decide_eq_decide, compare_le_iff_le, Int32.toInt64_le, Int32.le_iff_toInt_le]
  have gt : decide (b.toInt64 < a.toInt64) = decide (compare a.toInt b.toInt = .gt) := by
    rw [decide_eq_decide, compare_gt_iff_gt, Int32.toInt64_lt, Int32.lt_iff_toInt_lt]
  have ge : decide (b.toInt64 ≤ a.toInt64) = decide (compare a.toInt b.toInt ≠ .lt) := by
    rw [decide_eq_decide, compare_ge_iff_ge, Int32.toInt64_le, Int32.le_iff_toInt_le]
  have ne : (a.toInt64 != b.toInt64) = decide (compare a.toInt b.toInt ≠ .eq) := by
    rw [bne, eq, decide_not]
  simp only [List.mem_cons, List.not_mem_nil, or_false] at hop
  rcases hop with rfl | rfl | rfl | rfl | rfl | rfl <;> cases hc
  · exact ⟨_, rfl, eq ▸ .bool _⟩
  · exact ⟨_, rfl, ne ▸ .bool _⟩
  · exact ⟨_, rfl, lt ▸ .bool _⟩
  · exact ⟨_, rfl, le ▸ .bool _⟩
  · exact ⟨_, rfl, gt ▸ .bool _⟩
  · exact ⟨_, rfl, ge ▸ .bool _⟩

/-- A quotient that fits is the quotient at run time. -/
theorem toInt64_div {a b : Int32} (hf : (Constant.int (a.toInt64 / b.toInt64)).Fits) :
    (a / b).toInt64 = a.toInt64 / b.toInt64 := by
  by_cases hb : b = -1
  · refine Int32.toInt64_div_of_ne_left a b ?_
    rintro rfl
    subst hb
    exact absurd hf.2 (by decide)
  · exact Int32.toInt64_div_of_ne_right a b hb

/-- Operators other than shifts on integers. -/
theorem signedBinary_becomes {op : BinaryOp} {a b : Int32}
    (hc : Constant.intBinary? op a.toInt64 b.toInt64 = some c) (hf : c.Fits)
    (hl : op ≠ .shiftLeft) (hr : op ≠ .shiftRight) :
    ∃ w, Value.signedBinary op a b = .ok w ∧ c.Becomes w := by
  have narrow : ∀ n : Int32, n.toInt64.toInt32 = n := Int32.toInt32_toInt64
  cases op with
  | shiftLeft => exact absurd rfl hl
  | shiftRight => exact absurd rfl hr
  | logicalAnd | logicalOr => cases hc
  | equal | notEqual | less | lessEqual | greater | greaterEqual => exact compared_becomes hc (by decide)
  | add =>
    cases hc
    exact ⟨_, rfl, .of_fits hf (by rw [Int64.toInt32_add, narrow, narrow])⟩
  | subtract =>
    cases hc
    exact ⟨_, rfl, .of_fits hf (by rw [Int64.toInt32_sub, narrow, narrow])⟩
  | multiply =>
    cases hc
    exact ⟨_, rfl, .of_fits hf (by rw [Int64.toInt32_mul, narrow, narrow])⟩
  | bitAnd =>
    cases hc
    exact ⟨_, rfl, .of_fits hf (by rw [Int64.toInt32_and, narrow, narrow])⟩
  | bitOr =>
    cases hc
    exact ⟨_, rfl, .of_fits hf (by rw [Int64.toInt32_or, narrow, narrow])⟩
  | bitXor =>
    cases hc
    exact ⟨_, rfl, .of_fits hf (by rw [Int64.toInt32_xor, narrow, narrow])⟩
  | divide =>
    simp only [Constant.intBinary?] at hc
    split at hc
    · rename_i hdivides
      cases hc
      have hb : b ≠ 0 := by
        rintro rfl
        cases hdivides
      refine ⟨_, rfl, ?_⟩
      rw [if_neg hb, ← toInt64_div hf]
      exact .int _
    · cases hc
  | modulo =>
    simp only [Constant.intBinary?] at hc
    split at hc
    · rename_i hdivides
      cases hc
      have hb : b ≠ 0 := by
        rintro rfl
        cases hdivides
      refine ⟨_, rfl, ?_⟩
      rw [if_neg hb, ← Int32.toInt64_mod]
      exact .int _
    · cases hc

/-! ### Shifts -/

/-- An amount below the width is the same on both sides. -/
theorem shiftAmount {b : Int32} (h : 0 ≤ b.toInt ∧ b.toInt < 32) :
    ∃ k < 32, Constant.shiftAmount? b.toInt64 = some (Int64.ofNat k) ∧
      b.toUInt32 &&& 31 = UInt32.ofNat k := by
  have amounts : ∀ k < 32, Constant.shiftAmount? (Int32.ofNat k).toInt64 = some (Int64.ofNat k) ∧
      (Int32.ofNat k).toUInt32 &&& 31 = UInt32.ofNat k := by decide
  have hb : Int32.ofNat b.toInt.toNat = b := by
    refine Int32.toInt_inj.1 ?_
    rw [Int32.toInt_ofNat_of_lt (by omega)]
    omega
  refine ⟨b.toInt.toNat, by omega, ?_⟩
  have := amounts b.toInt.toNat (by omega)
  rwa [hb] at this

theorem smod_ofNat : ∀ k < 32, (Int64.ofNat k).toBitVec.smod 64 = BitVec.ofNat 64 k := by decide

theorem signExtend_shiftLeft (x : BitVec 32) {k : Nat} (h : k < 32) :
    ((x.signExtend 64) <<< k).signExtend 32 = x <<< k := by
  rw [BitVec.signExtend_eq_setWidth_of_le _ (by decide)]
  ext i hi
  have inside : i - k < 32 := by omega
  simp only [BitVec.getElem_setWidth, BitVec.getLsbD_shiftLeft, BitVec.getElem_shiftLeft,
    BitVec.getLsbD_signExtend, if_pos inside, BitVec.getLsbD_eq_getElem inside]
  simp only [show i < 64 by omega, show i - k < 64 by omega, decide_true, Bool.true_and]

theorem toInt32_shiftLeft (a : Int32) {k : Nat} (h : k < 32) :
    (a.toInt64 <<< Int64.ofNat k).toInt32 = (a.toUInt32 <<< UInt32.ofNat k).toInt32 := by
  have amount : ∀ k < 32, (UInt32.ofNat k).toBitVec % 32 = BitVec.ofNat 32 k := by decide
  have left : (a.toInt64 <<< Int64.ofNat k).toInt32.toBitVec =
      ((a.toBitVec.signExtend 64) <<< k).signExtend 32 := by
    rw [Int64.toBitVec_toInt32, Int64.toBitVec_shiftLeft, smod_ofNat k h, Int32.toBitVec_toInt64,
      BitVec.shiftLeft_eq', BitVec.toNat_ofNat, Nat.mod_eq_of_lt (by omega)]
  have right : (a.toUInt32 <<< UInt32.ofNat k).toInt32.toBitVec = a.toBitVec <<< k := by
    change (a.toUInt32 <<< UInt32.ofNat k).toBitVec = _
    rw [UInt32.toBitVec_shiftLeft, amount k h, BitVec.shiftLeft_eq', BitVec.toNat_ofNat,
      Nat.mod_eq_of_lt (by omega)]
    rfl
  exact Int32.toBitVec_inj.1 (by rw [left, right, signExtend_shiftLeft _ h])

theorem toInt64_shiftRight (a : Int32) {k : Nat} (h : k < 32) :
    (a >>> (UInt32.ofNat k).toInt32).toInt64 = a.toInt64 >>> Int64.ofNat k := by
  have amount : ∀ k < 32, (UInt32.ofNat k).toInt32.toBitVec.smod 32 = BitVec.ofNat 32 k := by decide
  refine Int64.toInt_inj.1 ?_
  rw [Int32.toInt_toInt64, ← Int32.toInt_toBitVec, ← Int64.toInt_toBitVec, Int32.toBitVec_shiftRight,
    Int64.toBitVec_shiftRight, smod_ofNat k h, amount k h, Int32.toBitVec_toInt64, BitVec.sshiftRight',
    BitVec.sshiftRight', BitVec.toInt_sshiftRight, BitVec.toInt_sshiftRight,
    BitVec.toInt_signExtend_of_le (by decide), BitVec.toNat_ofNat, BitVec.toNat_ofNat,
    Nat.mod_eq_of_lt (by omega), Nat.mod_eq_of_lt (by omega)]

theorem shift_becomes {op : BinaryOp} (hop : op = .shiftLeft ∨ op = .shiftRight) {a b : Int32}
    (hc : Constant.intBinary? op a.toInt64 b.toInt64 = some c) (hf : c.Fits)
    (hb : 0 ≤ b.toInt ∧ b.toInt < 32) :
    ∃ w, Value.scalarBinary op (.i32 a) (.i32 b) = .ok w ∧ c.Becomes w := by
  obtain ⟨k, hk, folded, found⟩ := shiftAmount hb
  rcases hop with rfl | rfl
  · simp only [Constant.intBinary?, folded, Option.map_some, Option.some.injEq] at hc
    subst hc
    refine ⟨.i32 (a.toUInt32 <<< UInt32.ofNat k).toInt32, ?_, .of_fits hf (toInt32_shiftLeft a hk)⟩
    rw [← found]
    rfl
  · simp only [Constant.intBinary?, folded, Option.map_some, Option.some.injEq] at hc
    subst hc
    refine ⟨.i32 (a >>> (UInt32.ofNat k).toInt32), ?_, ?_⟩
    · rw [← found]
      rfl
    · rw [← toInt64_shiftRight a hk]
      exact .int _

/-! ### All binary operators -/

theorem promote_i32 (a b : Int32) : promote (.i32 a) (.i32 b) = .ok (.signed a b) := by
  have kept : promote (.i32 a) (.i32 b) = .ok (.signed (.ofInt a.toInt) (.ofInt b.toInt)) := rfl
  rw [kept, Int32.ofInt_toInt, Int32.ofInt_toInt]

/-- An operator other than a shift is applied to two booleans, or to two signed integers. -/
theorem binary_eq {op : BinaryOp} (hl : op ≠ .shiftLeft) (hr : op ≠ .shiftRight) :
    (∀ a b, Value.binary op (.bool a) (.bool b) = Value.boolBinary op a b) ∧
      ∀ a b, Value.binary op (.i32 a) (.i32 b) = Value.signedBinary op a b := by
  have signed : ∀ a b, Value.binary op (.i32 a) (.i32 b) = scalarBinary op (.i32 a) (.i32 b) :=
    fun _ _ => rfl
  cases op with
  | shiftLeft => exact absurd rfl hl
  | shiftRight => exact absurd rfl hr
  | _ =>
    refine ⟨fun _ _ => rfl, fun a b => ?_⟩
    rw [signed, scalarBinary, promote_i32]
    · rfl
    all_goals nofun

/-- The operands of a shift by less than thirty-two bits, or of another operator. -/
theorem binary_becomes {op : BinaryOp} (hc : Constant.binary? op c c' = some d) (h : c.Becomes v)
    (h' : c'.Becomes v') (hf : d.Fits)
    (hs : op = .shiftLeft ∨ op = .shiftRight → ∀ n, c' = .int n → 0 ≤ n.toInt ∧ n.toInt < 32) :
    ∃ w, Value.binary op v v' = .ok w ∧ d.Becomes w := by
  cases h with
  | bool a =>
    cases h' with
    | bool b =>
      obtain ⟨w, hw, hd⟩ : ∃ w, boolBinary op a b = .ok w ∧ d.Becomes w := boolBinary_becomes hc
      refine ⟨w, ?_, hd⟩
      rw [← hw]
      exact (binary_eq (by rintro rfl; cases hc) (by rintro rfl; cases hc)).1 a b
    | int n => cases op <;> cases hc
  | int a =>
    cases h' with
    | bool b => cases op <;> cases hc
    | int b =>
      by_cases hop : op = .shiftLeft ∨ op = .shiftRight
      · have small := hs hop _ rfl
        rw [Int32.toInt_toInt64] at small
        exact shift_becomes hop hc hf small
      · obtain ⟨w, hw, hd⟩ := signedBinary_becomes hc hf (fun e => hop (.inl e)) (fun e => hop (.inr e))
        refine ⟨w, ?_, hd⟩
        rw [← hw]
        exact (binary_eq (fun e => hop (.inl e)) (fun e => hop (.inr e))).2 a b

end Value

/-! ## Functions -/

namespace Library

theorem min_i32 (a b : Int32) : Library.min (.i32 a) (.i32 b) = .ok (.i32 (if b < a then b else a)) := by
  have chosen : Library.min (.i32 a) (.i32 b) =
      if a.toInt ≤ b.toInt then .ok (.i32 a) else .ok (.i32 b) := rfl
  rw [chosen]
  by_cases h : b < a
  · rw [if_pos h, if_neg (Int.not_le.2 (Int32.lt_iff_toInt_lt.1 h))]
  · rw [if_neg h, if_pos (Int.not_lt.1 fun hlt => h (Int32.lt_iff_toInt_lt.2 hlt))]

theorem max_i32 (a b : Int32) : Library.max (.i32 a) (.i32 b) = .ok (.i32 (if a < b then b else a)) := by
  have chosen : Library.max (.i32 a) (.i32 b) =
      if b.toInt ≤ a.toInt then .ok (.i32 a) else .ok (.i32 b) := rfl
  rw [chosen]
  by_cases h : a < b
  · rw [if_pos h, if_neg (Int.not_le.2 (Int32.lt_iff_toInt_lt.1 h))]
  · rw [if_neg h, if_pos (Int.not_lt.1 fun hlt => h (Int32.lt_iff_toInt_lt.2 hlt))]

theorem clamp_i32 {x lo hi : Int32} (h : ¬ hi < lo) : Library.clamp (.i32 x) (.i32 lo) (.i32 hi) =
    .ok (.i32 (if x < lo then lo else if hi < x then hi else x)) := by
  have steps : Library.clamp (.i32 x) (.i32 lo) (.i32 hi) =
      Library.max (.i32 x) (.i32 lo) >>= fun v => Library.min v (.i32 hi) := rfl
  rw [steps, max_i32]
  refine (min_i32 _ _).trans ?_
  by_cases hx : x < lo
  · rw [if_pos hx, if_pos hx, if_neg h]
  · rw [if_neg hx, if_neg hx]

theorem abs_i32 (a : Int32) : Library.abs (.i32 a) = .ok (.i32 (if a < 0 then -a else a)) := rfl

theorem select_of_truth {f t condition : Value} {b : Bool} (h : condition.truth = .ok b) :
    Library.select f t condition = .ok (if b then t else f) := by
  cases condition with
  | vector items => cases h
  | _ => exact congrArg (fun r : Run Bool => do return if ← r then t else f) h

/-- The functions that constant expressions may call. -/
def folded : List String := ["min", "max", "abs", "clamp", "select"]

/-- A function with a value on constants has the same value at run time. Those on numbers must be
given integers. -/
theorem call_becomes {name : String} {args : List Constant} {values : List Value}
    (hc : (Constant.call name args).run = .ok (some d)) (h : List.Forall₂ Becomes args values)
    (hints : name ≠ "select" → ∀ a ∈ args, ∃ n, a = .int n) (hf : d.Fits) :
    Builtin.checkArity name values.length = .ok () ∧
      ∃ w, Library.call? name values = some (.ok w) ∧ d.Becomes w := by
  unfold Constant.call at hc
  split at hc
  · -- `min` of integers
    cases hc
    obtain _ | ⟨_ | ⟨a⟩, _ | ⟨_ | ⟨b⟩, _ | _⟩⟩ := h
    refine ⟨rfl, _, congrArg some (min_i32 a b), ?_⟩
    simp only [Int32.toInt64_lt, ← apply_ite Int32.toInt64]
    exact .int _
  · -- `max` of integers
    cases hc
    obtain _ | ⟨_ | ⟨a⟩, _ | ⟨_ | ⟨b⟩, _ | _⟩⟩ := h
    refine ⟨rfl, _, congrArg some (max_i32 a b), ?_⟩
    simp only [Int32.toInt64_lt, ← apply_ite Int32.toInt64]
    exact .int _
  · rename_i a b other
    obtain ⟨n, rfl⟩ := hints (by decide) a (by simp)
    obtain ⟨k, rfl⟩ := hints (by decide) b (by simp)
    exact (other n k rfl rfl).elim
  · rename_i a b other
    obtain ⟨n, rfl⟩ := hints (by decide) a (by simp)
    obtain ⟨k, rfl⟩ := hints (by decide) b (by simp)
    exact (other n k rfl rfl).elim
  · -- `abs` of an integer
    cases hc
    obtain _ | ⟨_ | ⟨a⟩, _ | _⟩ := h
    refine ⟨rfl, _, congrArg some (abs_i32 a), .of_fits hf ?_⟩
    have sign : a.toInt64 < 0 ↔ a < 0 := Int32.toInt64_lt (b := 0)
    simp only [sign, apply_ite Int64.toInt32, Int64.toInt32_neg, Int32.toInt32_toInt64]
  · rename_i a other
    obtain ⟨n, rfl⟩ := hints (by decide) a (by simp)
    exact (other n rfl).elim
  · -- `clamp` of integers
    split at hc
    · cases hc
    · rename_i hrange
      cases hc
      obtain _ | ⟨_ | ⟨x⟩, _ | ⟨_ | ⟨lo⟩, _ | ⟨_ | ⟨hi⟩, _ | _⟩⟩⟩ := h
      rw [Int32.toInt64_lt] at hrange
      refine ⟨rfl, _, congrArg some (clamp_i32 hrange), ?_⟩
      simp only [Int32.toInt64_lt, ← apply_ite Int32.toInt64]
      exact .int _
  · rename_i x lo hi other
    obtain ⟨a, rfl⟩ := hints (by decide) x (by simp)
    obtain ⟨b, rfl⟩ := hints (by decide) lo (by simp)
    obtain ⟨c, rfl⟩ := hints (by decide) hi (by simp)
    exact (other a b c rfl rfl rfl).elim
  · obtain _ | ⟨hf', _ | ⟨ht, _ | ⟨hcond, _ | _⟩⟩⟩ := h
    cases hc
    refine ⟨rfl, _, congrArg some (select_of_truth hcond.truth), ?_⟩
    split
    · exact ht
    · exact hf'
  · cases hc

end Library

theorem Builtin.arity_of_checkArity {name : String} {b : Builtin} {n : Nat}
    (hb : Builtin.find? name = some b) (h : Builtin.checkArity name n = .ok ()) :
    b.minArgs ≤ n ∧ n ≤ b.maxArgs := by
  unfold checkArity at h
  rw [hb] at h
  dsimp only at h
  split at h
  · cases h
  · split at h
    · cases h
    · omega

namespace Library

/-- Such a function has an outcome whenever the number of its arguments is right. -/
theorem call?_of_arity {name : String} {args : List Value} (hname : name ∈ folded)
    (h : Builtin.checkArity name args.length = .ok ()) : ∃ outcome, call? name args = some outcome := by
  simp only [folded, List.mem_cons, List.not_mem_nil, or_false] at hname
  rcases hname with rfl | rfl | rfl | rfl | rfl
  · obtain ⟨least, most⟩ := Builtin.arity_of_checkArity (b := ⟨"min", .numeric, 2, 2⟩) rfl h
    obtain ⟨a, b, rfl⟩ := List.length_eq_two.1 (Nat.le_antisymm most least)
    exact ⟨_, rfl⟩
  · obtain ⟨least, most⟩ := Builtin.arity_of_checkArity (b := ⟨"max", .numeric, 2, 2⟩) rfl h
    obtain ⟨a, b, rfl⟩ := List.length_eq_two.1 (Nat.le_antisymm most least)
    exact ⟨_, rfl⟩
  · obtain ⟨least, most⟩ := Builtin.arity_of_checkArity (b := ⟨"abs", .numeric, 1, 1⟩) rfl h
    obtain ⟨a, rfl⟩ := List.length_eq_one_iff.1 (Nat.le_antisymm most least)
    exact ⟨_, rfl⟩
  · obtain ⟨least, most⟩ := Builtin.arity_of_checkArity (b := ⟨"clamp", .numeric, 3, 3⟩) rfl h
    obtain ⟨a, b, c, rfl⟩ := List.length_eq_three.1 (Nat.le_antisymm most least)
    exact ⟨_, rfl⟩
  · obtain ⟨least, most⟩ := Builtin.arity_of_checkArity (b := ⟨"select", .numeric, 3, 3⟩) rfl h
    obtain ⟨a, b, c, rfl⟩ := List.length_eq_three.1 (Nat.le_antisymm most least)
    exact ⟨_, rfl⟩

end Library

end Wgsl
