import Wgsl.Library
import Wgsl.Proofs.Value.Rectangular

/-! # Matrices are read inside their bounds

Products, transposes and determinants read the entries of matrices by position. Beside them stand
the same functions with reads that are checked; on rectangles no check fails.

* `Library.ensures_call?`: the built-in functions make rectangles of rectangles.
* `Checked`: a computation in which a read out of range has no outcome.
* `Checked.binary_eq`, `Checked.call?_eq`: on rectangles the checked operators and functions come to
  what the unchecked ones come to.
-/

namespace Wgsl
set_option autoImplicit false

open Number (Single)
open Run (Ensures ensures_pure ensures_throw ensures_all ensures_next ensures_mapM)
open Value (Rectangle Rectangular)

/-! ## What the library makes -/

namespace Library

variable {a b c v : Value}

theorem ensures_overSingles (f : Single → Single) (v : Value) : Ensures Rectangular (overSingles f v) := by
  refine Value.ensures_mapComponents (fun c => ?_) v
  exact (ensures_all _).map fun _ _ => trivial

theorem ensures_overPairs (f : Single → Single → Single) (a b : Value) :
    Ensures Rectangular (overPairs f a b) := by
  refine Value.ensures_zipComponents (fun x y => ?_) a b
  exact ensures_next _ fun _ => ensures_next _ fun _ => ensures_pure trivial

theorem ensures_overTriples (f : Single → Single → Single → Single) (a b c : Value) :
    Ensures Rectangular (overTriples f a b c) := by
  have each : ∀ a b c : Value, Ensures Rectangular
      (do return .f32 (f (← a.number) (← b.number) (← c.number)) : Run Value) := fun a b c =>
    ensures_next _ fun _ => ensures_next _ fun _ => ensures_next _ fun _ => ensures_pure trivial
  unfold overTriples zipThree
  split
  · exact each a b c
  · refine Value.ensures_vector (Run.ensures_values fun i => ?_)
    exact ensures_next _ fun _ => ensures_next _ fun _ => ensures_next _ fun _ => each _ _ _

theorem ensures_overWords (f : UInt32 → UInt32) (v : Value) : Ensures Rectangular (overWords f v) := by
  refine Value.ensures_mapComponents (fun c => ?_) v
  cases c <;> first | exact ensures_pure trivial | exact ensures_throw _

theorem ensures_widened (chosen other : Value) (h : chosen.Rectangular) :
    Ensures Rectangular (widened chosen other) := by
  unfold widened
  split <;> first | exact Value.ensures_convert _ _ | exact ensures_pure h

/-- The greater and the smaller of two values are numbers. -/
theorem ensures_extreme (greater : Bool) (ha : a.Rectangular) (hb : b.Rectangular) :
    Ensures Rectangular (extreme greater a b) := by
  have chosen : ∀ {p : Prop} [Decidable p],
      Ensures Rectangular (if p then widened a b else widened b a) := by
    intro p _
    split
    · exact ensures_widened a b ha
    · exact ensures_widened b a hb
  have single : Ensures Rectangular (extremeSingle greater a b) := by
    refine ensures_next _ fun x => ensures_next _ fun y => ?_
    split
    · exact ensures_pure trivial
    · exact chosen
  unfold extreme
  split
  · exact single
  · exact single
  · exact ensures_next _ fun x => ensures_next _ fun y => chosen

theorem ensures_zipRectangular {f : Value → Value → Run Value} (ha : a.Rectangular)
    (hb : b.Rectangular)
    (hf : ∀ x y, x.Rectangular → y.Rectangular → Ensures Rectangular (f x y)) :
    Ensures Rectangular (Value.zipComponents f a b) := by
  unfold Value.zipComponents
  split
  · split
    · refine Value.ensures_vector (ensures_mapM fun pair hp => ?_)
      exact hf _ _ (Value.rectangular_vector.1 ha _ (List.of_mem_zip hp).1)
        (Value.rectangular_vector.1 hb _ (List.of_mem_zip hp).2)
    · exact ensures_throw _
  · exact Value.ensures_vector (ensures_mapM fun x hx => hf x _ (Value.rectangular_vector.1 ha x hx) hb)
  · exact Value.ensures_vector (ensures_mapM fun y hy => hf _ y ha (Value.rectangular_vector.1 hb y hy))
  · exact hf a b ha hb

theorem ensures_clamp (ha : a.Rectangular) (hb : b.Rectangular) (hc : c.Rectangular) :
    Ensures Rectangular (clamp a b c) := by
  refine (ensures_zipRectangular ha hb fun _ _ => ensures_extreme true).bind fun v hv => ?_
  exact ensures_zipRectangular hv hc fun _ _ => ensures_extreme false

theorem ensures_select (ha : a.Rectangular) (hb : b.Rectangular) (c : Value) :
    Ensures Rectangular (select a b c) := by
  unfold select
  split
  · dsimp only
    split
    · refine Value.ensures_vector (ensures_mapM fun item hitem => ensures_next _ fun chosen => ?_)
      obtain ⟨hf, ht⟩ := List.of_mem_zip (List.of_mem_zip hitem).2
      refine ensures_pure ?_
      cases chosen
      · exact ha.components _ hf
      · exact hb.components _ ht
    · exact ensures_throw _
  · refine ensures_next _ fun chosen => ensures_pure ?_
    cases chosen
    · exact ha
    · exact hb

theorem ensures_dot (ha : a.Rectangular) (hb : b.Rectangular) : Ensures Rectangular (dot a b) := by
  refine (Value.ensures_binary .multiply ha hb).bind fun product hproduct => ?_
  have parts := hproduct.components
  split
  · exact ensures_throw _
  · rename_i first rest hparts
    rw [hparts, List.forall_mem_cons] at parts
    exact Run.ensures_foldlM parts.1 fun sum x hsum hx => Value.ensures_binary .add hsum (parts.2 x hx)

theorem ensures_reflect (ha : a.Rectangular) (hb : b.Rectangular) :
    Ensures Rectangular (reflect a b) := by
  refine ensures_next _ fun d => ensures_next _ fun d => ?_
  refine (Value.ensures_binary .multiply hb (Value.rectangular_f32 _)).bind fun scaled hscaled => ?_
  exact Value.ensures_binary .subtract ha hscaled

theorem ensures_faceForward (ha : a.Rectangular) (b c : Value) :
    Ensures Rectangular (faceForward a b c) := by
  refine ensures_next _ fun d => ensures_next _ fun d => ?_
  split
  · exact ensures_pure ha
  · exact Value.ensures_unary .negate ha

theorem ensures_refract (ha : a.Rectangular) (hb : b.Rectangular) (eta : Single) :
    Ensures Rectangular (refract a b eta) := by
  refine ensures_next _ fun d => ensures_next _ fun d => ?_
  dsimp only
  split
  · exact ensures_overSingles _ a
  · refine (Value.ensures_binary .multiply ha (Value.rectangular_f32 _)).bind fun x hx => ?_
    refine (Value.ensures_binary .multiply hb (Value.rectangular_f32 _)).bind fun y hy => ?_
    exact Value.ensures_binary .subtract hx hy

theorem ensures_transpose (ha : a.Rectangular) : Ensures Rectangular (transpose a) := by
  unfold transpose
  split
  · exact ensures_pure (Rectangle.rows ha)
  · exact ensures_throw _

theorem ensures_frexp (v : Value) : Ensures Rectangular (frexp v) := by
  refine (ensures_overSingles _ v).bind fun fract hfract => ?_
  have exponents : Ensures Rectangular
      (v.mapComponents fun c => (fun x => .i32 (splitSingle x).2) <$> c.number) := by
    refine Value.ensures_mapComponents (fun c => ?_) v
    exact (ensures_all _).map fun _ _ => trivial
  refine exponents.bind fun exp hexp => ?_
  exact ensures_pure (Value.rectangular_struct.2
    (List.forall_mem_cons.2 ⟨hfract, List.forall_mem_singleton.2 hexp⟩))

theorem ensures_modf (v : Value) : Ensures Rectangular (modf v) := by
  refine (ensures_overSingles _ v).bind fun fract hfract => ?_
  refine (ensures_overSingles _ v).bind fun whole hwhole => ?_
  exact ensures_pure (Value.rectangular_struct.2
    (List.forall_mem_cons.2 ⟨hfract, List.forall_mem_singleton.2 hwhole⟩))

theorem ensures_packing? {name : String} {f : Value → Run Value} (h : packing? name = some f) (v : Value) :
    Ensures Rectangular (f v) := by
  have packed : ∀ width (g : Single → UInt32), Ensures Rectangular (pack width g v) := fun _ _ =>
    ensures_next _ fun _ => ensures_pure trivial
  have joined : ∀ g : Value → Run UInt32, Ensures Rectangular (packIntegers g v) := fun _ =>
    ensures_next _ fun _ => ensures_pure trivial
  have unpacked : ∀ width (g : UInt32 → Value), (∀ n, (g n).Rectangular) →
      Ensures Rectangular (unpack width g v) := fun _ g hg =>
    ensures_next _ fun _ => ensures_pure (Value.rectangular_vector.2 fun u hu => by
      obtain ⟨n, -, rfl⟩ := List.mem_map.1 hu
      exact hg n)
  unfold packing? at h
  split at h <;> cases h
  · exact packed 8 _
  · exact packed 8 _
  · exact packed 16 _
  · exact packed 16 _
  · exact packed 16 _
  · exact joined Value.unsigned
  · exact joined Value.unsigned
  · exact joined clampedSigned
  · exact joined clampedUnsigned
  · exact unpacked 8 (snorm 8) fun _ => Value.rectangular_f32 _
  · exact unpacked 8 (unorm 8) fun _ => Value.rectangular_f32 _
  · exact unpacked 8 (fun n => .i32 (.ofInt (signedField 8 n))) fun _ => trivial
  · exact unpacked 8 .u32 fun _ => trivial
  · exact unpacked 16 (snorm 16) fun _ => Value.rectangular_f32 _
  · exact unpacked 16 (unorm 16) fun _ => Value.rectangular_f32 _
  · exact unpacked 16 (fun n => .f32 (Number.Half.toSingle n.toUInt16)) fun _ => Value.rectangular_f32 _

theorem ensures_nullary? {name : String} {r : Run Value} (h : nullary? name = some r) :
    Ensures Rectangular r := by
  unfold nullary? at h
  split at h <;> cases h <;> exact ensures_pure trivial

theorem ensures_otherUnary? {name : String} {r : Run Value} (ha : a.Rectangular)
    (h : otherUnary? name a = some r) : Ensures Rectangular r := by
  have numbers : ∀ {f : Value → Run Value}, (∀ c, Ensures Rectangular (f c)) →
      Ensures Rectangular (a.mapComponents f) := fun hf => Value.ensures_mapComponents hf a
  unfold otherUnary? at h
  split at h <;> cases h
  case h_1 =>
    refine numbers fun c => ?_
    cases c <;> first | exact ensures_pure trivial | exact (ensures_all _).map fun _ _ => trivial
  case h_2 =>
    refine numbers fun c => ?_
    cases c <;> first | exact ensures_pure trivial | exact (ensures_all _).map fun _ _ => trivial
  case h_3 => exact ensures_next _ fun _ => ensures_pure trivial
  case h_4 => exact ensures_next _ fun _ => ensures_pure trivial
  case h_5 => exact ensures_frexp a
  case h_6 => exact ensures_modf a
  case h_11 =>
    refine numbers fun c => ?_
    cases c <;> first | exact ensures_pure trivial | exact ensures_throw _
  case h_13 => exact (ensures_all _).map fun _ _ => trivial
  case h_14 => exact ensures_next _ fun n => ensures_overSingles _ a
  case h_15 => exact ensures_transpose ha
  case h_16 =>
    unfold determinant
    repeat' split
    all_goals first | exact ensures_pure trivial | exact ensures_throw _
  case h_19 => exact numbers fun c => ensures_pure (Value.rectangular_zero _)
  case h_20 => exact numbers fun c => Value.ensures_convert _ _
  case h_21 =>
    refine ensures_next _ fun held => ensures_pure (Value.rectangular_vector.2 fun v hv => ?_)
    simp only [List.mem_cons, List.not_mem_nil, or_false] at hv
    obtain rfl | rfl | rfl | rfl := hv <;> trivial
  all_goals first | exact ensures_overWords _ a | exact ensures_pure trivial | exact ensures_pure ha

theorem ensures_unary? {name : String} {r : Run Value} (ha : a.Rectangular)
    (h : unary? name a = some r) : Ensures Rectangular r := by
  unfold unary? at h
  split at h
  · cases h
    exact ensures_overSingles _ a
  · split at h
    · cases h
      exact ensures_packing? ‹_› a
    · exact ensures_otherUnary? ha h

theorem ensures_binary? {name : String} {r : Run Value} (ha : a.Rectangular) (hb : b.Rectangular)
    (h : binary? name a b = some r) : Ensures Rectangular r := by
  unfold binary? at h
  split at h <;> cases h
  case h_4 =>
    refine Value.ensures_zipComponents (fun x n => ?_) a b
    exact ensures_next _ fun _ => ensures_next _ fun _ => ensures_pure trivial
  case h_5 => exact ensures_zipRectangular ha hb fun _ _ => ensures_extreme true
  case h_6 => exact ensures_zipRectangular ha hb fun _ _ => ensures_extreme false
  case h_7 => exact ensures_dot ha hb
  case h_8 => exact (ensures_all _).map fun _ _ => trivial
  case h_9 =>
    refine ensures_next _ fun xs => ensures_next _ fun ys => ?_
    split
    · exact ensures_pure (Value.rectangular_ofSingles _)
    · exact ensures_throw _
  case h_10 => exact ensures_reflect ha hb
  case h_11 => exact ensures_next _ fun _ => ensures_next _ fun _ => ensures_pure trivial
  case h_12 => exact ensures_next _ fun _ => ensures_next _ fun _ => ensures_pure trivial
  all_goals first | exact ensures_overPairs _ a b | exact ensures_pure ha

theorem ensures_ternary? {name : String} {r : Run Value} (ha : a.Rectangular) (hb : b.Rectangular)
    (hc : c.Rectangular) (h : ternary? name a b c = some r) : Ensures Rectangular r := by
  unfold ternary? at h
  split at h <;> cases h
  case h_1 => exact ensures_clamp ha hb hc
  case h_5 => exact ensures_select ha hb c
  case h_6 => exact ensures_faceForward ha b c
  case h_7 => exact ensures_next _ fun eta => ensures_refract ha hb eta
  case h_8 =>
    refine ensures_next _ fun offset => ensures_next _ fun count => ?_
    refine Value.ensures_mapComponents (fun v => ?_) a
    cases v <;> first | exact ensures_pure trivial | exact ensures_throw _
  all_goals exact ensures_overTriples _ a b c

theorem ensures_quaternary? {name : String} {d : Value} {r : Run Value}
    (h : quaternary? name a b c d = some r) : Ensures Rectangular r := by
  unfold quaternary? at h
  split at h <;> cases h
  refine ensures_next _ fun offset => ensures_next _ fun count => ?_
  refine Value.ensures_zipComponents (fun v new => ?_) a b
  refine ensures_next _ fun kept => ensures_next _ fun bits => ?_
  cases v <;> exact ensures_pure trivial

/-- Every function of the library makes rectangles of rectangles. -/
theorem ensures_call? {name : String} {args : List Value} {r : Run Value}
    (hargs : ∀ v ∈ args, v.Rectangular) (h : call? name args = some r) : Ensures Rectangular r := by
  rcases args with _ | ⟨a, _ | ⟨b, _ | ⟨c, _ | ⟨d, _ | ⟨e, rest⟩⟩⟩⟩⟩
  · exact ensures_nullary? h
  · exact ensures_unary? (hargs a (by simp)) h
  · exact ensures_binary? (hargs a (by simp)) (hargs b (by simp)) h
  · exact ensures_ternary? (hargs a (by simp)) (hargs b (by simp)) (hargs c (by simp)) h
  · exact ensures_quaternary? h
  · cases h

end Library

/-! ## Checked reads -/

/-- A computation that may raise an error, and in which a read out of range has no outcome at all. -/
abbrev Checked (α : Type) := ExceptT RunError Option α

namespace Checked

variable {α β : Type}

/-- A computation that reads nothing out of range. -/
def ofRun (r : Run α) : Checked α := ExceptT.mk (some r)

/-- A checked read. -/
def read (entry : Option α) : Checked α := ExceptT.lift entry

/-- One row of a matrix, if every column reaches down to it. -/
def row? (columns : List (List Single)) (r : Nat) : Option (List Single) :=
  columns.mapM fun column => column[r]?

/-- All rows of a matrix. -/
def rows? (columns : List (List Single)) : Option (List (List Single)) :=
  (List.range (Value.rowCount columns)).mapM (row? columns)

/-- A binary operator of which one operand is a matrix. Products read the rows of the first one. -/
def matrixBinary (op : BinaryOp) (l r : Value) : Checked Value :=
  match op, l, r with
  | .multiply, .matrix m, .vector v => do
    let v ← ofRun (v.mapM Value.number)
    if v.length ≠ m.length then throw (RunCause.vectorLength m.length v.length).unplaced
    let rows ← read (rows? m)
    return .ofSingles (rows.map fun row => Value.sumOfProducts row v)
  | .multiply, .matrix a, .matrix b =>
    if a.length = Value.rowCount b then do
      let rows ← read (rows? a)
      return .matrix (b.map fun column => rows.map fun row => Value.sumOfProducts row column)
    else throw (.mismatch "matrix shapes do not compose")
  | _, _, _ => ofRun (Value.matrixBinary op l r)

/-- A binary operator. -/
def binary (op : BinaryOp) (l r : Value) : Checked Value :=
  match l, r with
  | .matrix _, _ => matrixBinary op l r
  | _, .matrix _ => matrixBinary op l r
  | _, _ => ofRun (Value.binary op l r)

/-- The sum of the products of components. -/
def dot (a b : Value) : Checked Value := do
  match (← binary .multiply a b).components with
  | [] => throw (.mismatch "dot of empty vectors")
  | first :: rest => rest.foldlM (binary .add) first

/-- A vector thrown back at a surface with the given normal. -/
def reflect (v normal : Value) : Checked Value := do
  let d ← ofRun (← dot normal v).number
  let scaled ← binary .multiply normal (.f32 (Library.two * d))
  binary .subtract v scaled

/-- A vector turned against the incident one. -/
def faceForward (v incident normal : Value) : Checked Value := do
  let d ← ofRun (← dot incident normal).number
  if d.lt .zero then return v else ofRun (Value.unary .negate v)

/-- A vector broken at a surface. -/
def refract (v normal : Value) (eta : Single) : Checked Value := do
  let d ← ofRun (← dot normal v).number
  let k := Single.one - eta * eta * (Single.one - d * d)
  if k.lt .zero then ofRun (Library.overSingles (fun _ => .zero) v)
  else
    let a ← binary .multiply v (.f32 eta)
    let b ← binary .multiply normal (.f32 (eta * d + Library.sqrt k))
    binary .subtract a b

/-- Rows and columns exchanged. -/
def transpose : Value → Checked Value
  | .matrix columns => do return .matrix (← read (rows? columns))
  | v => throw (.mismatch ("transpose expects a matrix, found " ++ v.typeName))

/-- An entry of a matrix. -/
def entry? (columns : List (List Single)) (c r : Nat) : Option Single := do
  let column ← columns[c]?
  column[r]?

/-- A column without its first entry. -/
def tail? : List Single → Option (List Single)
  | [] => none
  | _ :: rest => some rest

/-- The determinant of a matrix of the given size. -/
def determinantOf? : Nat → List (List Single) → Option Single
  | 0, _ => some .one
  | 1, m => entry? m 0 0
  | 2, m => do
    return (← entry? m 0 0) * (← entry? m 1 1) - (← entry? m 1 0) * (← entry? m 0 1)
  | n + 3, m => do
    let terms ← (List.range (n + 3)).mapM fun c => do
      let minor ← (m.eraseIdx c).mapM tail?
      let sign := if c % 2 = 0 then Single.one else -Single.one
      return sign * (← entry? m c 0) * (← determinantOf? (n + 2) minor)
    return Value.sum terms

def determinant : Value → Checked Value
  | .matrix columns =>
    if columns.all fun c => decide (c.length = columns.length) then do
      return .f32 (← read (determinantOf? columns.length columns))
    else throw (.mismatch "determinant expects a square matrix")
  | v => throw (.mismatch ("determinant expects a matrix, found " ++ v.typeName))

/-- The built-in functions without memory. Those that read matrices are checked. -/
def call? (name : String) (args : List Value) : Option (Checked Value) :=
  match name, args with
  | "dot", [a, b] => some (dot a b)
  | "reflect", [a, b] => some (reflect a b)
  | "faceForward", [a, b, c] => some (faceForward a b c)
  | "refract", [a, b, c] => some do refract a b (← ofRun c.number)
  | "transpose", [a] => some (transpose a)
  | "determinant", [a] => some (determinant a)
  | _, _ => (Library.call? name args).map ofRun

/-! ## No check fails -/

theorem ofRun_bind {r : Run α} {f : α → Checked β} {g : α → Run β}
    (h : ∀ a, r = .ok a → f a = ofRun (g a)) : (ofRun r >>= f) = ofRun (r >>= g) := by
  cases r with
  | error e => rfl
  | ok a => exact h a rfl

theorem bind_of_eq {x : Checked α} {r : Run α} {f : α → Checked β} {g : α → Run β} (hx : x = ofRun r)
    (h : ∀ a, r = .ok a → f a = ofRun (g a)) : (x >>= f) = ofRun (r >>= g) := hx ▸ ofRun_bind h

theorem mapM_some {f : α → Option β} {g : α → β} {as : List α} (h : ∀ a ∈ as, f a = some (g a)) :
    as.mapM f = some (as.map g) := by
  induction as with
  | nil => rfl
  | cons a as ih =>
    rw [List.mapM_cons, h a List.mem_cons_self, ih fun b hb => h b (List.mem_cons_of_mem _ hb)]
    rfl

theorem getElem?_getD {column : List Single} {r : Nat} (h : r < column.length) :
    column[r]? = some (column.getD r .zero) := by
  rw [List.getD_eq_getElem?_getD, List.getElem?_eq_getElem h, Option.getD_some]

/-- Every column of a rectangle reaches down to its rows. -/
theorem rows?_eq {columns : List (List Single)} (h : Rectangle columns) :
    rows? columns = some (Value.rows columns) := by
  refine mapM_some fun r hr => mapM_some fun column hc => getElem?_getD ?_
  rw [h.even column hc]
  exact List.mem_range.1 hr

theorem matrixBinary_eq (op : BinaryOp) {l r : Value} (hl : l.Rectangular) :
    matrixBinary op l r = ofRun (Value.matrixBinary op l r) := by
  unfold matrixBinary
  split
  · refine ofRun_bind fun v _ => ?_
    split
    · rfl
    · rw [rows?_eq hl]
      rfl
  · rename_i a b
    change _ = ofRun (if a.length = Value.rowCount b then _ else _)
    split
    · rw [rows?_eq hl]
      rfl
    · rfl
  · rfl

/-- On rectangles an operator reads nothing out of range. -/
theorem binary_eq (op : BinaryOp) {l r : Value} (hl : l.Rectangular) :
    binary op l r = ofRun (Value.binary op l r) := by
  unfold binary
  split
  · exact matrixBinary_eq op hl
  · cases l <;> exact matrixBinary_eq op hl
  · rfl

variable {a b c v normal : Value}

theorem foldlM_eq {parts : List Value} {first : Value} (hfirst : first.Rectangular)
    (hparts : ∀ x ∈ parts, x.Rectangular) :
    parts.foldlM (binary .add) first = ofRun (parts.foldlM (Value.binary .add) first) := by
  induction parts generalizing first with
  | nil => rfl
  | cons x parts ih =>
    obtain ⟨hx, hrest⟩ := List.forall_mem_cons.1 hparts
    rw [List.foldlM_cons, List.foldlM_cons]
    refine bind_of_eq (binary_eq .add hfirst) fun sum hsum => ?_
    exact ih (Value.ensures_binary .add hfirst hx sum hsum) hrest

theorem dot_eq (ha : a.Rectangular) (hb : b.Rectangular) : dot a b = ofRun (Library.dot a b) := by
  refine bind_of_eq (binary_eq .multiply ha) fun product hproduct => ?_
  have parts := (Value.ensures_binary .multiply ha hb product hproduct).components
  cases hparts : product.components with
  | nil => rfl
  | cons first rest =>
    rw [hparts, List.forall_mem_cons] at parts
    exact foldlM_eq parts.1 parts.2

theorem reflect_eq (hv : v.Rectangular) (hn : normal.Rectangular) :
    reflect v normal = ofRun (Library.reflect v normal) := by
  refine bind_of_eq (dot_eq hn hv) fun d _ => ofRun_bind fun d _ => ?_
  refine bind_of_eq (binary_eq .multiply hn) fun scaled _ => binary_eq .subtract hv

theorem faceForward_eq (hb : b.Rectangular) (hc : c.Rectangular) :
    faceForward a b c = ofRun (Library.faceForward a b c) := by
  refine bind_of_eq (dot_eq hb hc) fun d _ => ofRun_bind fun d _ => ?_
  split <;> rfl

theorem refract_eq (hv : v.Rectangular) (hn : normal.Rectangular) (eta : Single) :
    refract v normal eta = ofRun (Library.refract v normal eta) := by
  refine bind_of_eq (dot_eq hn hv) fun d _ => ofRun_bind fun d _ => ?_
  dsimp only
  split
  · rfl
  · refine bind_of_eq (binary_eq .multiply hv) fun x hx => ?_
    refine bind_of_eq (binary_eq .multiply hn) fun y _ => ?_
    exact binary_eq .subtract (Value.ensures_binary .multiply hv (Value.rectangular_f32 _) x hx)

theorem transpose_eq (ha : a.Rectangular) : transpose a = ofRun (Library.transpose a) := by
  cases a with
  | matrix columns =>
    rw [transpose, rows?_eq ha]
    rfl
  | _ => rfl

theorem entry?_eq {m : List (List Single)} {n i r : Nat} (hm : m.length = n)
    (h : ∀ column ∈ m, column.length = n) (hc : i < n) (hr : r < n) :
    entry? m i r = some (Library.entry m i r) := by
  have inside : i < m.length := hm ▸ hc
  unfold entry? Library.entry
  rw [List.getElem?_eq_getElem inside, List.getD_eq_getElem _ _ inside]
  exact getElem?_getD (h _ (List.getElem_mem inside) ▸ hr)

/-- Expanding along the first row goes from a square to smaller squares. -/
theorem determinantOf?_eq : ∀ (n : Nat) (m : List (List Single)), m.length = n →
    (∀ column ∈ m, column.length = n) → determinantOf? n m = some (Library.determinantOf n m)
  | 0, _, _, _ => rfl
  | 1, m, hm, h => entry?_eq hm h Nat.zero_lt_one Nat.zero_lt_one
  | 2, m, hm, h => by
    have entries : ∀ i < 2, ∀ r < 2, entry? m i r = some (Library.entry m i r) := fun i hi r hr =>
      entry?_eq hm h hi hr
    rw [determinantOf?, entries 0 (by decide) 0 (by decide), entries 1 (by decide) 1 (by decide),
      entries 1 (by decide) 0 (by decide), entries 0 (by decide) 1 (by decide)]
    rfl
  | n + 3, m, hm, h => by
    rw [determinantOf?, Library.determinantOf]
    refine (congrArg (· >>= _) (mapM_some fun c hc => ?_)).trans rfl
    have inside : c < n + 3 := List.mem_range.1 hc
    have tails : (m.eraseIdx c).mapM tail? = some (Library.minor m c) := by
      refine mapM_some fun column hcolumn => ?_
      have nonempty := h column (List.mem_of_mem_eraseIdx hcolumn)
      cases column with
      | nil => cases nonempty
      | cons x rest => rfl
    have smaller : determinantOf? (n + 2) (Library.minor m c) =
        some (Library.determinantOf (n + 2) (Library.minor m c)) := by
      refine determinantOf?_eq (n + 2) _ ?_ fun column hcolumn => ?_
      · rw [Library.minor, List.length_map, List.length_eraseIdx_of_lt (hm ▸ inside), hm]
        rfl
      · obtain ⟨old, hold, rfl⟩ := List.mem_map.1 hcolumn
        rw [List.length_drop, h old (List.mem_of_mem_eraseIdx hold)]
        rfl
    rw [tails, entry?_eq hm h inside (Nat.zero_lt_succ _)]
    dsimp only [bind, Option.bind]
    rw [smaller]
    rfl

theorem determinant_eq (a : Value) : determinant a = ofRun (Library.determinant a) := by
  cases a with
  | matrix columns =>
    unfold determinant Library.determinant
    dsimp only
    split
    · rename_i square
      have even : ∀ column ∈ columns, column.length = columns.length := fun column hc =>
        of_decide_eq_true (List.all_eq_true.1 square column hc)
      rw [determinantOf?_eq _ columns rfl even]
      rfl
    · rfl
  | _ => rfl

/-- On rectangles no function of the library reads out of range. -/
theorem call?_eq {name : String} {args : List Value} (h : ∀ v ∈ args, v.Rectangular) :
    call? name args = (Library.call? name args).map ofRun := by
  unfold call?
  split
  · exact congrArg some (dot_eq (h _ (by simp)) (h _ (by simp)))
  · exact congrArg some (reflect_eq (h _ (by simp)) (h _ (by simp)))
  · exact congrArg some (faceForward_eq (h _ (by simp)) (h _ (by simp)))
  · exact congrArg some (ofRun_bind fun eta _ => refract_eq (h _ (by simp)) (h _ (by simp)) eta)
  · exact congrArg some (transpose_eq (h _ (by simp)))
  · exact congrArg some (determinant_eq _)
  · rfl

end Checked

end Wgsl
