import Wgsl.Proofs.Memory.Reading
import Wgsl.Value.Operator

/-! # Values without a truth

A function that discards gives no value, and the expression around the call goes on without one.
This module follows such values through operators.

* `Value.Hollow`: values that are no condition, among them the one that stands for nothing.
* `Value.hollow_binary`, `Value.hollow_unary`: operators make such values of such values.
-/

namespace Wgsl
set_option autoImplicit false

/-- A value without a truth: nothing at all, or a vector. Operators make such values of them. -/
inductive Value.Hollow : Value → Prop
  | void : Hollow .void
  | vector (items : List Value) : Hollow (.vector items)

namespace Value

variable {v w : Value} {op : BinaryOp}

theorem truth_hollow (h : v.Hollow) (b : Bool) : v.truth ≠ .ok b := by
  cases h <;> nofun

theorem hollow_of_map {x : Run (List Value)} (h : vector <$> x = .ok v) : v.Hollow := by
  cases x with
  | error e => cases h
  | ok items =>
    cases h
    exact .vector items

theorem hollow_mapComponents {f : Value → Run Value} {u : Value} (h : v.Hollow)
    (hf : ∀ u, f .void ≠ .ok u) (hu : mapComponents f v = .ok u) : u.Hollow := by
  cases h with
  | void => exact absurd hu (hf u)
  | vector items => exact hollow_of_map hu

theorem hollow_unary {op : UnaryOp} {u : Value} (h : v.Hollow) (hu : unary op v = .ok u) :
    u.Hollow := by
  have component : ∀ u, scalarUnary op .void ≠ .ok u := by cases op <;> nofun
  have mapped : mapComponents (scalarUnary op) v = .ok u := by
    cases h <;> cases op <;> exact hu
  exact hollow_mapComponents h component mapped

/-- No scalar operator applies to a value that is missing. -/
theorem scalarBinary_void_left (r u : Value) : scalarBinary op .void r ≠ .ok u := by
  have shifted : ∀ left, (r.unsigned >>= fun n => shift left .void (n &&& 31)) ≠ .ok u := by
    cases r.unsigned <;> nofun
  have paired : ∀ k : Pair → Run Value, (promote .void r >>= k) ≠ .ok u := by
    cases r <;> nofun
  cases op
  case shiftLeft => exact shifted true
  case shiftRight => exact shifted false
  all_goals exact paired _

theorem scalarBinary_void_right (l u : Value) : scalarBinary op l .void ≠ .ok u := by
  have paired : ∀ k : Pair → Run Value, (promote l .void >>= k) ≠ .ok u := by
    cases l <;> nofun
  cases op
  case shiftLeft => nofun
  case shiftRight => nofun
  all_goals exact paired _

theorem hollow_zipComponents {f : Value → Value → Run Value} {l r u : Value}
    (h : l.Hollow ∨ r.Hollow) (hf : ∀ v, f .void v ≠ .ok u ∧ f v .void ≠ .ok u)
    (hu : zipComponents f l r = .ok u) : u.Hollow := by
  unfold zipComponents at hu
  split at hu
  · split at hu
    · exact hollow_of_map hu
    · cases hu
  · exact hollow_of_map hu
  · exact hollow_of_map hu
  · rename_i hl hr _
    obtain h | h := h
    · cases h with
      | void => exact absurd hu (hf r).1
      | vector items => exact (hl items rfl).elim
    · cases h with
      | void => exact absurd hu (hf l).2
      | vector items => exact (hr items rfl).elim

theorem not_isScalar_hollow (h : v.Hollow) : v.isScalar = false := by cases h <;> rfl

theorem not_hollow_matrix {columns : List (List Number.Single)} : ¬(matrix columns).Hollow := nofun

/-- Of the operators for a matrix only products apply to hollow values, and they are vectors. -/
theorem hollow_matrixBinary {l r u : Value} (h : l.Hollow ∨ r.Hollow)
    (hu : matrixBinary op l r = .ok u) : u.Hollow := by
  have either : ∀ {a b : List (List Number.Single)}, ¬((matrix a).Hollow ∨ (matrix b).Hollow) :=
    fun h => h.elim not_hollow_matrix not_hollow_matrix
  unfold matrixBinary at hu
  split at hu
  case h_1 =>
    obtain ⟨numbers, -, hu⟩ := Run.bind_ok hu
    split at hu
    · cases hu
    · cases hu
      exact .vector _
  case h_2 =>
    obtain ⟨numbers, -, hu⟩ := Run.bind_ok hu
    obtain ⟨sums, -, hu⟩ := Run.bind_ok hu
    cases hu
    exact .vector _
  case h_4 =>
    rw [if_neg (by rw [not_isScalar_hollow (h.resolve_left not_hollow_matrix)]; nofun)] at hu
    cases hu
  case h_5 =>
    rw [if_neg (by rw [not_isScalar_hollow (h.resolve_right not_hollow_matrix)]; nofun)] at hu
    cases hu
  all_goals first | exact (either h).elim | cases hu

theorem hollow_binary {l r u : Value} (h : l.Hollow ∨ r.Hollow) (hu : binary op l r = .ok u) :
    u.Hollow := by
  unfold binary at hu
  split at hu
  · exact hollow_matrixBinary h hu
  · exact hollow_matrixBinary h hu
  · exact hollow_zipComponents h
      (fun v => ⟨scalarBinary_void_left v u, scalarBinary_void_right v u⟩) hu

end Value

end Wgsl
