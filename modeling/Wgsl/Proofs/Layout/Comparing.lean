import Wgsl.Proofs.Layout.Transparent

/-! # Layouts in words beside exact ones

As long as nothing has been noted, layouts in words of thirty-two bits are the exact ones. What is noted
does not fit in exact arithmetic either: until then, sizes and alignments in words are never greater.
This takes alignments that are powers of two, for greater ones are then multiples of smaller ones.

* `Noted.Compares`: two computations end alike, and what they settle on is related.
* `Rules.Meets`: a layout in words beside the exact one.
* `Rules.compares_typeInfo`, `Rules.compares_structInfo`: types and structures, over names that meet.
* `Rules.compares_named`: the layouts of a name meet, by induction on the rank of the name.
-/

namespace Wgsl
set_option autoImplicit false

/-! ## Rounding up -/

namespace Arithmetic

/-- The least multiple of `k` that is at least `n`; `n` itself if `k` is zero. -/
def multiple (k n : Nat) : Nat := if k = 0 then n else (n + k - 1) / k * k

theorem le_multiple (k n : Nat) : n ≤ multiple k n := by
  unfold multiple
  split
  · exact Nat.le_refl n
  · have hdiv := Nat.div_add_mod (n + k - 1) k
    have hmod := Nat.mod_lt (n + k - 1) (Nat.pos_of_ne_zero ‹k ≠ 0›)
    rw [Nat.mul_comm] at hdiv
    omega

theorem multiple_le {k n m : Nat} (hk : 0 < k) (hdvd : k ∣ m) (hn : n ≤ m) : multiple k n ≤ m := by
  obtain ⟨q, rfl⟩ := hdvd
  have fewer : (n + k - 1) / k < q + 1 := by
    refine Nat.div_lt_of_lt_mul ?_
    rw [Nat.mul_succ]
    omega
  rw [multiple, if_neg (Nat.ne_of_gt hk), Nat.mul_comm]
  exact Nat.mul_le_mul_left k (Nat.le_of_lt_succ fewer)

theorem dvd_multiple {k : Nat} (hk : 0 < k) (n : Nat) : k ∣ multiple k n := by
  rw [multiple, if_neg (Nat.ne_of_gt hk)]
  exact Nat.dvd_mul_left _ _

/-- Rounding up more to a multiple of the alignment gives no less. -/
theorem multiple_mono {k k' n n' : Nat} (hk : 0 < k') (hdvd : k ∣ k') (hn : n ≤ n') :
    multiple k n ≤ multiple k' n' :=
  multiple_le (Nat.pos_of_dvd_of_pos hdvd hk) (hdvd.trans (dvd_multiple hk n'))
    (hn.trans (le_multiple k' n'))

/-- A checked number is that number, or it does not fit. -/
def Checks (checked : Option Nat) (n : Nat) : Prop :=
  checked = some n ∨ checked = none ∧ sizeLimit ≤ n

theorem checks_fit (n : Nat) : Checks (words.fit n) n := by
  by_cases h : n < sizeLimit
  · exact .inl (if_pos h)
  · exact .inr ⟨if_neg h, Nat.le_of_not_lt h⟩

theorem checks_roundUp (k n : Nat) : Checks (words.roundUp? k n) (multiple k n) := by
  unfold roundUp? multiple
  split
  · exact .inl rfl
  · exact checks_fit _

theorem roundUp_exact (k n : Nat) : exact.roundUp? k n = some (multiple k n) := by
  unfold roundUp? multiple
  split <;> rfl

end Arithmetic

open Arithmetic

/-- Two powers of two, the first at most the second. -/
structure Powers (a b : Nat) : Prop where
  left : a.isPowerOfTwo
  right : b.isPowerOfTwo
  le : a ≤ b

namespace Powers

variable {a b c d : Nat}

theorem refl (h : a.isPowerOfTwo) : Powers a a := ⟨h, h, Nat.le_refl a⟩

theorem pos (h : Powers a b) : 0 < b := by
  obtain ⟨k, rfl⟩ := h.right
  exact Nat.pow_pos (by decide)

theorem dvd (h : Powers a b) : a ∣ b := by
  obtain ⟨i, rfl⟩ := h.left
  obtain ⟨j, rfl⟩ := h.right
  exact Nat.pow_dvd_pow 2 ((Nat.pow_le_pow_iff_right (by decide)).1 h.le)

theorem greater (h : Powers a b) (h' : Powers c d) : Powers (max a c) (max b d) := by
  refine ⟨?_, ?_, max_le_max h.le h'.le⟩
  · obtain e | e := max_choice a c <;> rw [e]
    exacts [h.left, h'.left]
  · obtain e | e := max_choice b d <;> rw [e]
    exacts [h.right, h'.right]

theorem le_greater (h : Powers a b) (h' : Powers c d) : Powers a (max b d) :=
  ⟨h.left, (h.greater h').right, h.le.trans (le_max_left b d)⟩

end Powers

/-! ## Two computations -/

/-- Either computation fails like the other, or what they settle on is related. -/
def Noted.Compares {α : Type} (x y : Noted α) (R : α → List String → α → Prop) : Prop :=
  (∃ f, x = .error f ∧ y = .error f) ∨
    ∃ a notes b more, x = .ok (a, notes) ∧ y = .ok (b, more) ∧ R a notes b

namespace Noted

variable {α β : Type} {x y : Noted α} {f g : α → Noted β} {R R' : α → List String → α → Prop}
  {S : β → List String → β → Prop}

theorem compares_pure {a b : α} (h : R a [] b) : Compares (pure a) (pure b) R :=
  .inr ⟨a, [], b, [], rfl, rfl, h⟩

theorem Compares.bind (hx : Compares x y R)
    (hf : ∀ a notes b, R a notes b → Compares (f a) (g b) fun c more d => S c (notes ++ more) d) :
    Compares (x >>= f) (y >>= g) S := by
  obtain ⟨fault, rfl, rfl⟩ | ⟨a, notes, b, more, rfl, rfl, hab⟩ := hx
  · exact .inl ⟨fault, rfl, rfl⟩
  · rw [bind_eq rfl, bind_eq rfl]
    obtain ⟨fault, e, e'⟩ | ⟨c, second, d, rest, e, e', hcd⟩ := hf a notes b hab
    · exact .inl ⟨fault, by rw [e]; rfl, by rw [e']; rfl⟩
    · exact .inr ⟨c, notes ++ second, d, more ++ rest, by rw [e]; rfl, by rw [e']; rfl, hcd⟩

/-- What the second computation settles on may be used for the relation. -/
theorem Compares.imp (hx : Compares x y R)
    (h : ∀ a notes b more, y = .ok (b, more) → R a notes b → R' a notes b) : Compares x y R' := by
  obtain fails | ⟨a, notes, b, more, e, e', hab⟩ := hx
  · exact .inl fails
  · exact .inr ⟨a, notes, b, more, e, e', h a notes b more e' hab⟩

end Noted

open Noted

/-! ## Types that exceed -/

/-- The stride of an array or the offset of a member needs more than thirty-two bits. -/
def TypeShape.Exceeds : TypeShape → Prop
  | .array _ _ stride => sizeLimit ≤ stride
  | .struct _ members _ _ => ∃ m ∈ members, sizeLimit ≤ m.offset
  | _ => False

/-- The size, the stride or the offset of a member needs more than thirty-two bits. -/
def TypeInfo.Exceeds (t : TypeInfo) : Prop := sizeLimit ≤ t.size ∨ t.shape.Exceeds

instance (shape : TypeShape) : Decidable shape.Exceeds :=
  match shape with
  | .array _ _ stride => inferInstanceAs (Decidable (sizeLimit ≤ stride))
  | .struct _ members _ _ => inferInstanceAs (Decidable (∃ m ∈ members, sizeLimit ≤ m.offset))
  | .scalar _ => inferInstanceAs (Decidable False)
  | .handle => inferInstanceAs (Decidable False)
  | .template _ _ _ _ => inferInstanceAs (Decidable False)

instance (t : TypeInfo) : Decidable t.Exceeds :=
  inferInstanceAs (Decidable (sizeLimit ≤ t.size ∨ t.shape.Exceeds))

namespace Layouts

/-- A structure or a type of the program that is called by the name and exceeds in exact arithmetic. -/
inductive Exceeding (l : Layouts) (nodes : List Node) (name : String) : Prop where
  | struct {info : TypeInfo} {notes : List String} :
    Rules.structInfo .exact l name = .ok (some info, notes) → info.Exceeds → Exceeding l nodes name
  | type {t : TypeExpr} {info : TypeInfo} {notes : List String} : Node.type t ∈ nodes → t.text = name →
    Rules.typeInfo .exact l t = .ok (info, notes) → info.Exceeds → Exceeding l nodes name

/-- A scalar by its name, which no declaration has taken, or an alias of one. -/
inductive IsScalar (l : Layouts) : TypeExpr → Prop where
  | name {id : NodeId} {attributes : List Attribute} {name : String} {kind : ScalarKind} :
    l.structs.find? name = none → l.aliases.find? name = none → ScalarKind.ofName? name = some kind →
    IsScalar l (.named id attributes name)
  | alias_ {id : NodeId} {attributes : List Attribute} {name : String} {target : TypeExpr} :
    l.structs.find? name = none → l.aliases.find? name = some target → IsScalar l target →
    IsScalar l (.named id attributes name)

/-- The parameter of a vector or matrix is a scalar. If none is written it is a float. -/
def ScalarParam (l : Layouts) : Option TypeExpr → Prop
  | none => l.structs.find? ScalarKind.f32.name = none ∧ l.aliases.find? ScalarKind.f32.name = none
  | some t => l.IsScalar t

/-- The parameters of all vectors and matrices are scalars. -/
def ScalarParams (l : Layouts) (nodes : List Node) : Prop :=
  ∀ id attributes base param access space,
    Node.type (.template id attributes base param access space) ∈ nodes →
      hasComponents base = true → l.ScalarParam param

/-- Every alignment that is written for a member is a power of two. -/
def PowerAligned (l : Layouts) : Prop :=
  ∀ name decl m n notes, l.structs.find? name = some decl → m ∈ decl.members →
    Rules.attributeNumber? l m.attributes "align" = .ok (some n, notes) → n = 0 ∨ n.isPowerOfTwo

/-- The exact size and alignment of a vector fit. -/
def VectorFits (l : Layouts) (kind : ScalarKind) (length : Nat) : Prop :=
  ∀ info notes, Rules.vector .exact l kind length = .ok (info, notes) →
    info.size < sizeLimit ∧ info.align < sizeLimit

end Layouts

namespace Rules

variable {l : Layouts} {P : Prop} {reports : String → Prop}

/-! ## Parts -/

/-- A layout in words beside the exact one: they are the same if nothing is noted; the first is not
greater, and what is noted is reported. -/
structure Meets (P : Prop) (reports : String → Prop) (w : TypeInfo) (notes : List String)
    (e : TypeInfo) : Prop where
  exact : notes = [] → w = e
  size : P → w.size ≤ e.size
  align : P → Powers w.align e.align
  reported : P → ∀ name ∈ notes, reports name

theorem Meets.imp {reports' : String → Prop} {w e : TypeInfo} {notes : List String}
    (h : Meets P reports w notes e) (hr : ∀ name, reports name → reports' name) :
    Meets P reports' w notes e :=
  ⟨h.exact, h.size, h.align, fun hp name hn => hr name (h.reported hp name hn)⟩

theorem attributeNumber?_notes {attributes : List Attribute} {name : String} {n? : Option Nat}
    {notes : List String} (h : attributeNumber? l attributes name = .ok (n?, notes)) : notes = [] := by
  unfold attributeNumber? at h
  split at h
  · rename_i arg hfound
    cases hfold : Expr.foldUInt32 l.constants arg with
    | error fault =>
      rw [hfold] at h
      cases h
    | ok n =>
      rw [hfold] at h
      cases h
      rfl
  · cases h
    rfl

theorem compares_attributeNumber? (attributes : List Attribute) (name : String) :
    Compares (attributeNumber? l attributes name) (attributeNumber? l attributes name)
      fun n? notes m? => notes = [] ∧ n? = m? ∧ attributeNumber? l attributes name = .ok (n?, []) := by
  cases h : attributeNumber? l attributes name with
  | error fault => exact .inl ⟨fault, rfl, rfl⟩
  | ok r =>
    obtain ⟨n?, notes⟩ := r
    obtain rfl := attributeNumber?_notes h
    exact .inr ⟨n?, [], n?, [], rfl, rfl, rfl, rfl, rfl⟩

theorem compares_sizeOr {name : String} {checked : Option Nat} {n m : Nat} (h : Checks checked n) :
    Compares (sizeOr name checked) (sizeOr name (some m)) fun w notes e =>
      e = m ∧ (notes = [] → w = n ∧ checked.isSome) ∧
        (n ≤ m → w ≤ m ∧ ∀ other ∈ notes, other = name ∧ sizeLimit ≤ m) := by
  obtain rfl | ⟨rfl, hn⟩ := h
  · exact compares_pure ⟨rfl, fun _ => ⟨rfl, rfl⟩, fun hnm => ⟨hnm, nofun⟩⟩
  · refine .inr ⟨saturatedSize, [name], m, [], rfl, rfl, rfl, nofun, fun hnm => ?_⟩
    refine ⟨(Nat.sub_le _ _).trans (hn.trans hnm), fun other ho => ⟨?_, hn.trans hnm⟩⟩
    exact List.mem_singleton.1 ho

/-! ## Arrays -/

/-- A number in words beside the exact one: they are the same if nothing has been noted before or is noted
here, and what is noted here is the one name, with an exact number that does not fit. -/
def Numbers (P : Prop) (text : String) (before : List String) (n : Nat) (noted : List String) (m : Nat) :
    Prop :=
  (before = [] → noted = [] → n = m) ∧ (P → n ≤ m ∧ ∀ name ∈ noted, name = text ∧ sizeLimit ≤ m)

theorem Numbers.refl (text : String) (before : List String) (n : Nat) : Numbers P text before n [] n :=
  ⟨fun _ _ => rfl, fun _ => ⟨Nat.le_refl n, nofun⟩⟩

theorem numbers_sizeOr {text : String} {before : List String} {checked : Option Nat} {n m : Nat}
    (h : Checks checked n) (hsame : before = [] → n = m) (hle : P → n ≤ m) :
    Compares (sizeOr text checked) (sizeOr text (some m)) (Numbers P text before) := by
  refine (compares_sizeOr h).imp fun w noted e _ _ ⟨he, hfit, hnoted⟩ => ?_
  subst he
  exact ⟨fun none none' => (hfit none').1.trans (hsame none), fun hp => hnoted (hle hp)⟩

section

variable {text : String} {attributes : List Attribute} {w e : TypeInfo} {notes : List String}
  {count : Option Nat}

/-- An array of elements that meet: its name is noted if the exact size or stride exceeds. -/
theorem meets_array (h : Meets P reports w notes e) {s s' size size' : Nat} {noted more : List String}
    (hs : Numbers P text notes s noted s') (hsize : Numbers P text (notes ++ noted) size more size') :
    Meets P (fun name => reports name ∨ name = text ∧
        (TypeInfo.mk text attributes size' e.align (.array e count s')).Exceeds)
      (.mk text attributes size w.align (.array w count s)) (notes ++ (noted ++ more))
      (.mk text attributes size' e.align (.array e count s')) := by
  refine ⟨fun none => ?_, fun hp => (hsize.2 hp).1, h.align, fun hp name hname => ?_⟩
  · obtain ⟨none, later⟩ := List.append_eq_nil_iff.1 none
    obtain ⟨none', none''⟩ := List.append_eq_nil_iff.1 later
    have earlier : notes ++ noted = [] := by rw [none, none', List.append_nil]
    rw [h.exact none, hs.1 none none', hsize.1 earlier none'']
  · obtain hname | hname := List.mem_append.1 hname
    · exact .inl (h.reported hp name hname)
    obtain hname | hname := List.mem_append.1 hname
    · obtain ⟨rfl, hlimit⟩ := (hs.2 hp).2 name hname
      exact .inr ⟨rfl, .inr hlimit⟩
    · obtain ⟨rfl, hlimit⟩ := (hsize.2 hp).2 name hname
      exact .inr ⟨rfl, .inl hlimit⟩

theorem compares_sizedArray (h : Meets P reports w notes e) {s s' : Nat} {noted : List String}
    (hs : Numbers P text notes s noted s') : Compares (do
      let size ← match count with
        | some n => sizeOr text (words.fit (n * s))
        | none => pure 0
      return TypeInfo.mk text attributes size w.align (.array w count s)) (do
      let size ← match count with
        | some n => sizeOr text (Arithmetic.exact.fit (n * s'))
        | none => pure 0
      return TypeInfo.mk text attributes size e.align (.array e count s'))
      fun w' more e' => Meets P (fun name => reports name ∨ name = text ∧ e'.Exceeds) w'
        (notes ++ (noted ++ more)) e' := by
  cases count with
  | none => exact (compares_pure (Numbers.refl text (notes ++ noted) 0)).bind fun size more size' hsize =>
      compares_pure (by rw [List.append_nil]; exact meets_array h hs hsize)
  | some n =>
    have checked : Compares (sizeOr text (words.fit (n * s))) (sizeOr text (some (n * s')))
        (Numbers P text (notes ++ noted)) := by
      refine numbers_sizeOr (checks_fit _) (fun none => ?_) fun hp => Nat.mul_le_mul_left n (hs.2 hp).1
      obtain ⟨none, none'⟩ := List.append_eq_nil_iff.1 none
      rw [hs.1 none none']
    exact checked.bind fun size more size' hsize =>
      compares_pure (by rw [List.append_nil]; exact meets_array h hs hsize)

theorem compares_arrayInfo (h : Meets P reports w notes e) :
    Compares (arrayInfo .words l text attributes w count) (arrayInfo .exact l text attributes e count)
      fun w' more e' => Meets P (fun name => reports name ∨ name = text ∧ e'.Exceeds) w'
        (notes ++ more) e' := by
  refine (compares_attributeNumber? attributes "stride").bind fun n? noted m? hnumber => ?_
  obtain ⟨rfl, rfl, _⟩ := hnumber
  cases n? with
  | some stride =>
    exact (compares_pure (Numbers.refl text notes stride)).bind fun s noted s' hs =>
      compares_sizedArray h hs
  | none =>
    dsimp only
    rw [roundUp_exact]
    refine Compares.bind (numbers_sizeOr (checks_roundUp _ _) (fun none => ?_) fun hp => ?_)
      fun s noted s' hs => compares_sizedArray h hs
    · rw [h.exact none]
    · exact multiple_mono (h.align hp).pos (h.align hp).dvd (h.size hp)

end

/-! ## Vectors and matrices -/

theorem size_le_four (kind : ScalarKind) : kind.size ≤ 4 := by cases kind <;> decide

theorem vectorAlign_le {length size : Nat} (h : size ≤ 4) : (if length = 2 then 2 else 4) * size ≤ 16 := by
  have four : (if length = 2 then 2 else 4) ≤ 4 := by split <;> decide
  exact Nat.mul_le_mul four h

/-- The vectors of scalars that can be spelled fit. -/
theorem vectorInfo_words {base : String} {length : Nat} {element : TypeInfo} (hlength : length ≤ 4)
    (hsize : element.size ≤ 4) :
    vectorInfo words base length element = vectorInfo exact base length element := by
  have size : length * element.size < sizeLimit :=
    Nat.lt_of_le_of_lt (Nat.mul_le_mul hlength hsize) (by decide)
  have align : (if length = 2 then 2 else 4) * element.size < sizeLimit :=
    Nat.lt_of_le_of_lt (vectorAlign_le hsize) (by decide)
  unfold vectorInfo
  rw [show words.wrap (length * element.size) = length * element.size from Nat.mod_eq_of_lt size,
    show words.wrap ((if length = 2 then 2 else 4) * element.size) = _ from Nat.mod_eq_of_lt align]
  rfl

theorem vectorLength?_le {base : String} {length : Nat} (h : vectorLength? base = some length) :
    length ≤ 4 := by
  unfold vectorLength? at h
  split at h <;> cases h <;> decide

theorem matrixShape?_le {base : String} {columns rows : Nat} (h : matrixShape? base = some (columns, rows)) :
    columns ≤ 4 ∧ rows ≤ 4 := by
  unfold matrixShape? at h
  split at h <;> cases h <;> decide

theorem multiple_le_add (k n : Nat) : multiple k n ≤ n + k := by
  unfold multiple
  split
  · exact Nat.le_add_right n k
  · exact (Nat.div_mul_le_self _ _).trans (Nat.sub_le _ _)

theorem matrixInfo_words {text base : String} {attributes : List Attribute} {columns rows : Nat}
    {element : TypeInfo} {access space : Option String} (hcolumns : columns ≤ 4) (hrows : rows ≤ 4)
    (hsize : element.size ≤ 4) :
    matrixInfo words text base attributes columns rows element access space =
      matrixInfo exact text base attributes columns rows element access space := by
  unfold matrixInfo
  rw [vectorInfo_words hrows hsize]
  have size : (vectorInfo exact ("vec" ++ toString rows) rows element).size ≤ 16 :=
    Nat.mul_le_mul hrows hsize
  have align : (vectorInfo exact ("vec" ++ toString rows) rows element).align ≤ 16 :=
    vectorAlign_le hsize
  generalize vectorInfo exact ("vec" ++ toString rows) rows element = column at size align
  have stride : multiple column.align column.size ≤ 32 :=
    (multiple_le_add _ _).trans (Nat.add_le_add size align)
  have fits : words.roundUp? column.align column.size = some (multiple column.align column.size) := by
    refine (checks_roundUp _ _).resolve_right fun ⟨_, hlimit⟩ => ?_
    exact absurd (hlimit.trans stride) (by decide)
  have whole : columns * multiple column.align column.size < sizeLimit :=
    Nat.lt_of_le_of_lt (Nat.mul_le_mul hcolumns stride) (by decide)
  dsimp only
  rw [fits, roundUp_exact]
  exact congrArg (fun n => TypeInfo.mk text attributes n column.align _) (Nat.mod_eq_of_lt whole)

theorem powers_vector {rows : Nat} (kind : ScalarKind) {n : Nat} (hn : n = kind.size) :
    ((if rows = 2 then 2 else 4) * n).isPowerOfTwo := by
  subst hn
  split <;> cases kind <;> first | exact ⟨2, rfl⟩ | exact ⟨3, rfl⟩ | exact ⟨4, rfl⟩

variable {rank : String → Nat} {nodes : List Node}

section

variable (hr : l.Ranked rank)

include hr

/-- Scalars are laid out alike in words and exactly. -/
theorem scalar_typeInfo {t : TypeExpr} (h : l.IsScalar t) : ∃ (info : TypeInfo) (kind : ScalarKind),
    info.size = kind.size ∧ ∀ A, typeInfo A l t = .ok (info, []) := by
  have annotated : ∀ (id : NodeId) (attributes : List Attribute) (info : TypeInfo),
      (if attributes.isEmpty then info else annotatedInfo id attributes info).size = info.size := by
    intro id attributes info
    split
    · rfl
    · obtain ⟨name, own, size, align, shape⟩ := info
      cases shape <;> rfl
  induction h with
  | @name id attributes name kind hstruct halias hkind =>
    refine ⟨_, kind, annotated id attributes (.scalar kind), fun A => ?_⟩
    have found : named A l name = .ok (.scalar kind, []) := by
      rw [named_eq hr, structInfo, hstruct, pure_bind]
      dsimp only
      rw [halias, TypeInfo.ofName, hkind]
      rfl
    rw [typeInfo, typeInfoOf, found]
    rfl
  | @alias_ id attributes name target hstruct htarget _ ih =>
    obtain ⟨info, kind, hsize, hinfo⟩ := ih
    refine ⟨_, kind, (annotated id attributes info).trans hsize, fun A => ?_⟩
    have found : named A l name = .ok (info, []) := by
      rw [named_eq hr, structInfo, hstruct, pure_bind]
      dsimp only
      rw [htarget]
      exact hinfo A
    rw [typeInfo, typeInfoOf, found]
    rfl

theorem scalar_componentOf {param : Option TypeExpr} (h : l.ScalarParam param) :
    ∃ (info : TypeInfo) (kind : ScalarKind), info.size = kind.size ∧
      ∀ A, componentOf A l (named A l) param = .ok (info, []) := by
  cases param with
  | some t => exact scalar_typeInfo hr h
  | none =>
    refine ⟨.scalar .f32, .f32, rfl, fun A => ?_⟩
    rw [componentOf, named_eq hr, structInfo, h.1, pure_bind]
    dsimp only
    rw [h.2]
    rfl

/-! ## Types -/

/-- The layouts of a name in words and exactly meet. -/
def NameMeets (l : Layouts) (nodes : List Node) (P : Prop) (name : String) : Prop :=
  Compares (named .words l name) (named .exact l name) (Meets P (l.Exceeding nodes))

omit hr in
theorem meets_annotatedInfo {id : NodeId} {attributes : List Attribute} {w e : TypeInfo}
    {notes : List String} (h : Meets P reports w notes e) :
    Meets P reports (annotatedInfo id attributes w) notes (annotatedInfo id attributes e) := by
  have kept : ∀ info : TypeInfo, (annotatedInfo id attributes info).size = info.size ∧
      (annotatedInfo id attributes info).align = info.align := by
    rintro ⟨name, own, size, align, shape⟩
    cases shape <;> exact ⟨rfl, rfl⟩
  refine ⟨fun none => congrArg _ (h.exact none), fun hp => ?_, fun hp => ?_, h.reported⟩
  · rw [(kept w).1, (kept e).1]
    exact h.size hp
  · rw [(kept w).2, (kept e).2]
    exact h.align hp

omit hr in
/-- Only an atomic has the size and alignment of its parameter. -/
theorem meets_otherInfo {text base : String} {attributes : List Attribute} {access space : Option String}
    {w e : TypeInfo} {notes : List String} (h : Meets P reports w notes e) :
    Meets P reports (otherInfo text base attributes (some w) access space) notes
      (otherInfo text base attributes (some e) access space) := by
  by_cases hatomic : base = "atomic"
  · subst hatomic
    exact ⟨fun none => by rw [h.exact none], h.size, h.align, h.reported⟩
  · have plain : ∀ info : TypeInfo, otherInfo text base attributes (some info) access space =
        .mk text attributes 0 1 (.template base (some info) access space) := by
      intro info
      rw [otherInfo]
      exact fun _ he _ => hatomic he
    rw [plain, plain]
    exact ⟨fun none => by rw [h.exact none], fun _ => Nat.le_refl 0, fun _ => .refl ⟨0, rfl⟩, h.reported⟩

variable (hscalar : l.ScalarParams nodes)

include hscalar

/-- A vector or matrix of scalars is laid out alike in words and exactly. -/
theorem compares_template {id : NodeId} {attributes : List Attribute} {base : String}
    {param : Option TypeExpr} {access space : Option String}
    (ht : Node.type (.template id attributes base param access space) ∈ nodes)
    (hother : hasComponents base = false → ∀ text : String, Compares (do
        let found ← paramInfoOf .words l (named .words l) param
        return otherInfo text base attributes found access space) (do
        let found ← paramInfoOf .exact l (named .exact l) param
        return otherInfo text base attributes found access space) (Meets P (l.Exceeding nodes))) :
    Compares (typeInfo .words l (.template id attributes base param access space))
      (typeInfo .exact l (.template id attributes base param access space))
      (Meets P (l.Exceeding nodes)) := by
  have components := fun hbase => scalar_componentOf hr (hscalar _ _ _ _ _ _ ht hbase)
  have alike : ∀ {info : TypeInfo}, info.align.isPowerOfTwo →
      Compares (pure info) (pure info) (Meets P (l.Exceeding nodes)) := fun hpower =>
    compares_pure ⟨fun _ => rfl, fun _ => Nat.le_refl _, fun _ => .refl hpower, nofun⟩
  rw [typeInfo, typeInfo, typeInfoOf, typeInfoOf]
  unfold templateInfo
  split
  · rename_i length hlength
    obtain ⟨info, kind, hsize, hinfo⟩ := components (by rw [hasComponents, hlength]; rfl)
    rw [hinfo, hinfo]
    change Compares (pure _) (pure _) _
    rw [vectorInfo_words (vectorLength?_le hlength) (hsize ▸ size_le_four kind)]
    exact alike (powers_vector kind hsize)
  · rename_i hlength
    split
    · rename_i columns rows hshape
      obtain ⟨info, kind, hsize, hinfo⟩ := components (by rw [hasComponents, hlength, hshape]; rfl)
      obtain ⟨hcolumns, hrows⟩ := matrixShape?_le hshape
      rw [hinfo, hinfo]
      change Compares (pure _) (pure _) _
      rw [matrixInfo_words hcolumns hrows (hsize ▸ size_le_four kind)]
      exact alike (powers_vector kind hsize)
    · rename_i hshape
      exact hother (by rw [hasComponents, hlength, hshape]; rfl) _

end

mutual

/-- The layouts of a type meet if those of the names in it do. -/
theorem compares_typeInfo (hr : l.Ranked rank) (hscalar : l.ScalarParams nodes) : ∀ t : TypeExpr,
    t.nodes ⊆ nodes → (∀ name ∈ t.lookups, NameMeets l nodes P name) →
    Compares (typeInfo .words l t) (typeInfo .exact l t) (Meets P (l.Exceeding nodes))
  | .named id attributes name, _, hnames => by
    rw [typeInfo, typeInfo, typeInfoOf, typeInfoOf]
    refine (hnames name List.mem_cons_self).bind fun w notes e h => compares_pure ?_
    rw [List.append_nil]
    split
    · exact h
    · exact meets_annotatedInfo h
  | .array id attributes element count countExpr, ht, hnames => by
    have inside : Node.type (.array id attributes element count countExpr) ∈ nodes :=
      ht (TypeExpr.mem_nodes _)
    have hinner : TypeExpr.paramNodes element ⊆ nodes := fun n hn =>
      ht (List.mem_cons_of_mem _ (List.mem_append_left _ (List.mem_append_right _ hn)))
    have arrays : Compares (typeInfo .words l (.array id attributes element count countExpr))
        (typeInfo .exact l (.array id attributes element count countExpr)) fun w notes e =>
          Meets P (fun name => l.Exceeding nodes name ∨
            name = (TypeExpr.array id attributes element count countExpr).text ∧ e.Exceeds) w notes e := by
      rw [typeInfo, typeInfo, typeInfoOf, typeInfoOf]
      exact (compares_componentOf hr hscalar element hinner hnames).bind fun w notes e => compares_arrayInfo
    refine arrays.imp fun w notes e more he h => h.imp fun name hname => ?_
    obtain hname | ⟨rfl, hexceeds⟩ := hname
    · exact hname
    · exact .type inside rfl he hexceeds
  | .template id attributes base param access space, ht, hnames => by
    have inside : Node.type (.template id attributes base param access space) ∈ nodes :=
      ht (TypeExpr.mem_nodes _)
    have hinner : TypeExpr.paramNodes param ⊆ nodes := fun n hn =>
      ht (List.mem_cons_of_mem _ (List.mem_append_right _ hn))
    refine compares_template hr hscalar inside fun hbase text => ?_
    rw [TypeExpr.lookups, if_neg (Bool.eq_false_iff.1 hbase)] at hnames
    cases param with
    | none =>
      refine compares_pure ⟨fun _ => rfl, fun _ => Nat.le_refl _, fun _ => .refl ?_, nofun⟩
      refine ⟨0, ?_⟩
      rw [otherInfo]
      · rfl
      · exact fun _ _ h => nomatch h
    | some t =>
      rw [paramInfoOf, paramInfoOf, bind_assoc, bind_assoc]
      refine (compares_typeInfo hr hscalar t hinner hnames).bind fun w notes e h => ?_
      rw [pure_bind, pure_bind]
      refine compares_pure ?_
      rw [List.append_nil]
      exact meets_otherInfo h

theorem compares_componentOf (hr : l.Ranked rank) (hscalar : l.ScalarParams nodes) :
    ∀ t? : Option TypeExpr, TypeExpr.paramNodes t? ⊆ nodes →
    (∀ name ∈ TypeExpr.componentLookups t?, NameMeets l nodes P name) →
    Compares (componentOf .words l (named .words l) t?) (componentOf .exact l (named .exact l) t?)
      (Meets P (l.Exceeding nodes))
  | none, _, hnames => hnames _ List.mem_cons_self
  | some t, ht, hnames => compares_typeInfo hr hscalar t ht hnames

end

/-! ## Structures -/

/-- Members placed in words beside exactly placed ones. Once an offset or an end did not fit, the exact
end does not fit either. -/
structure Places (P : Prop) (reports : String → Prop) (w : LayoutM.Placement) (notes : List String)
    (e : LayoutM.Placement) : Prop where
  fits : e.overflowed = false
  exact : notes = [] → w.overflowed = false → w = e
  next : P → w.overflowed = false → w.next ≤ e.next
  limit : P → w.overflowed = true → sizeLimit ≤ e.next
  align : P → Powers (max w.align 1) (max e.align 1)
  reported : P → ∀ name ∈ notes, reports name

theorem placeMember_exact {p : LayoutM.Placement} (h : p.overflowed = false) (name : String)
    (type : TypeInfo) (size align : Nat) : placeMember .exact p name type size align =
      { members := .mk name type (multiple align p.next) size align :: p.members
        align := max p.align align
        next := multiple align p.next + size
        overflowed := false } := by
  rw [placeMember, h, roundUp_exact]
  rfl

/-- In words a member is placed like this, or it does not fit: then what was in front of it did not fit
already, or its offset or its end does not. -/
theorem placeMember_words (p : LayoutM.Placement) (name : String) (type : TypeInfo) (size align : Nat) :
    p.overflowed = false ∧ placeMember .words p name type size align =
      { members := .mk name type (multiple align p.next) size align :: p.members
        align := max p.align align
        next := multiple align p.next + size
        overflowed := false } ∨
    (placeMember .words p name type size align).overflowed = true ∧
      ((placeMember .words p name type size align).align = p.align ∨
        (placeMember .words p name type size align).align = max p.align align) ∧
      (p.overflowed = false → sizeLimit ≤ multiple align p.next + size) := by
  cases hover : p.overflowed with
  | true =>
    refine .inr ?_
    rw [placeMember, hover]
    exact ⟨rfl, .inl rfl, nofun⟩
  | false =>
    rw [placeMember, hover, if_neg Bool.false_ne_true]
    obtain hoffset | ⟨hoffset, hlimit⟩ := checks_roundUp align p.next
    · obtain hnext | ⟨hnext, hlimit⟩ := checks_fit (multiple align p.next + size)
      · refine .inl ⟨rfl, ?_⟩
        rw [hoffset]
        dsimp only
        rw [hnext]
      · refine .inr ?_
        rw [hoffset]
        dsimp only
        rw [hnext]
        exact ⟨rfl, .inr rfl, fun _ => hlimit⟩
    · refine .inr ?_
      rw [hoffset]
      exact ⟨rfl, .inl rfl, fun _ => hlimit.trans (Nat.le_add_right _ _)⟩

/-- One more member. -/
theorem Places.member {w e : LayoutM.Placement} {notes more : List String} (h : Places P reports w notes e)
    (name : String) {tw te : TypeInfo} {sw se aw ae : Nat}
    (hsame : notes ++ more = [] → tw = te ∧ sw = se ∧ aw = ae) (hsize : P → sw ≤ se)
    (halign : P → Powers aw ae) (hmore : P → ∀ other ∈ more, reports other) :
    Places P reports (placeMember .words w name tw sw aw) (notes ++ more)
      (placeMember .exact e name te se ae) := by
  rw [placeMember_exact h.fits]
  have reported : P → ∀ other ∈ notes ++ more, reports other := fun hp other ho =>
    (List.mem_append.1 ho).elim (h.reported hp other) (hmore hp other)
  -- the exact end is no less
  have ends : P → w.overflowed = false → multiple aw w.next + sw ≤ multiple ae e.next + se := fun hp hw =>
    Nat.add_le_add (multiple_mono (halign hp).pos (halign hp).dvd (h.next hp hw)) (hsize hp)
  have aligned : P → Powers (max (max w.align aw) 1) (max (max e.align ae) 1) := fun hp => by
    rw [max_right_comm, max_right_comm e.align]
    exact (h.align hp).greater (halign hp)
  obtain ⟨hfits, hplaced⟩ | ⟨hover, halone, hlimit⟩ := placeMember_words w name tw sw aw
  · rw [hplaced]
    refine ⟨rfl, fun none _ => ?_, fun hp _ => ends hp hfits, nofun, aligned, reported⟩
    obtain ⟨rfl, rfl, rfl⟩ := hsame none
    rw [h.exact (List.append_eq_nil_iff.1 none).1 hfits]
  · refine ⟨rfl, fun _ hw => ?_, fun _ hw => ?_, fun hp _ => ?_, fun hp => ?_, reported⟩
    · rw [hover] at hw
      cases hw
    · rw [hover] at hw
      cases hw
    · cases hw : w.overflowed with
      | false => exact (hlimit hw).trans (ends hp hw)
      | true => exact (h.limit hp hw).trans ((le_multiple ae e.next).trans (Nat.le_add_right _ _))
    · obtain ealign | ealign := halone <;> rw [ealign]
      · dsimp only
        rw [max_right_comm]
        exact (h.align hp).le_greater (halign hp)
      · exact aligned hp

/-- Laying out one more member. -/
theorem compares_addMember {decl : StructDecl} {m : Field} {key : String}
    (hdecl : l.structs.find? key = some decl) (hm : m ∈ decl.members)
    (htype : Compares (typeInfo .words l m.type) (typeInfo .exact l m.type)
      (Meets l.PowerAligned reports))
    {w e : LayoutM.Placement} {notes : List String} (h : Places l.PowerAligned reports w notes e) :
    Compares (addMember .words l (named .words l) w m) (addMember .exact l (named .exact l) e m)
      fun w' more e' => Places l.PowerAligned reports w' (notes ++ more) e' := by
  unfold addMember
  refine htype.bind fun tw more te ht => ?_
  refine (compares_attributeNumber? m.attributes "align").bind fun a? none a' ⟨hnone, ha, halign⟩ => ?_
  subst hnone ha
  refine (compares_attributeNumber? m.attributes "size").bind fun s? none s' ⟨hnone, hs, _⟩ => ?_
  subst hnone hs
  refine compares_pure ?_
  rw [List.append_nil, List.append_nil, List.append_nil]
  refine h.member m.name (fun none => ?_) (fun hp => max_le_max_left _ (ht.size hp)) (fun hp => ?_) ht.reported
  · rw [ht.exact (List.append_eq_nil_iff.1 none).2]
    exact ⟨rfl, rfl, rfl⟩
  · cases a? with
    | none =>
      rw [Option.getD_none, Nat.zero_max, Nat.zero_max]
      exact ht.align hp
    | some a =>
      rw [Option.getD_some]
      obtain rfl | hpower := hp key decl m a [] hdecl hm halign
      · rw [Nat.zero_max, Nat.zero_max]
        exact ht.align hp
      · exact (Powers.refl hpower).greater (ht.align hp)

/-- The size of a structure: its name is noted if the exact size exceeds. -/
theorem compares_structSize {decl : StructDecl} {w e : LayoutM.Placement} {notes : List String}
    (h : Places P reports w notes e) : Compares (do
      let size ← sizeOr decl.name (if w.overflowed then none else words.roundUp? (max w.align 1) w.next)
      return TypeInfo.mk decl.name decl.attributes size (max w.align 1)
        (.struct (.declared decl.name) w.members.reverse decl.startLine decl.endLine)) (do
      let size ← sizeOr decl.name (if e.overflowed then none else exact.roundUp? (max e.align 1) e.next)
      return TypeInfo.mk decl.name decl.attributes size (max e.align 1)
        (.struct (.declared decl.name) e.members.reverse decl.startLine decl.endLine))
      fun w' more e' => Meets P (fun name => reports name ∨ name = decl.name ∧ e'.Exceeds) w'
        (notes ++ more) e' := by
  let size := if w.overflowed then sizeLimit else multiple (max w.align 1) w.next
  have checks : Checks (if w.overflowed then none else words.roundUp? (max w.align 1) w.next) size := by
    dsimp only [size]
    split
    · exact .inr ⟨rfl, Nat.le_refl _⟩
    · exact checks_roundUp _ _
  have below : P → size ≤ multiple (max e.align 1) e.next := by
    intro hp
    dsimp only [size]
    split
    · exact (h.limit hp ‹_›).trans (le_multiple _ _)
    · refine multiple_mono (h.align hp).pos (h.align hp).dvd (h.next hp ?_)
      exact Bool.not_eq_true _ ▸ ‹¬w.overflowed = true›
  rw [h.fits, if_neg Bool.false_ne_true, roundUp_exact]
  refine (compares_sizeOr checks).bind fun size' more e' ⟨he, hfit, hle⟩ => compares_pure ?_
  subst he
  rw [List.append_nil]
  refine ⟨fun none => ?_, fun hp => (hle (below hp)).1, h.align, fun hp name hname => ?_⟩
  · obtain ⟨none, none'⟩ := List.append_eq_nil_iff.1 none
    obtain ⟨rfl, hsome⟩ := hfit none'
    have placed : w.overflowed = false := by
      cases hw : w.overflowed with
      | false => rfl
      | true =>
        rw [hw] at hsome
        cases hsome
    have same : size = multiple (max w.align 1) w.next := by
      dsimp only [size]
      rw [placed, if_neg Bool.false_ne_true]
    rw [same, h.exact none placed]
  · obtain hname | hname := List.mem_append.1 hname
    · exact .inl (h.reported hp name hname)
    · obtain ⟨rfl, hlimit⟩ := (hle (below hp)).2 name hname
      exact .inr ⟨rfl, .inl hlimit⟩

/-- The layouts of a structure meet if those of the types of its members do. -/
theorem compares_structInfo {name : String} {decl : StructDecl} (hdecl : l.structs.find? name = some decl)
    (hname : decl.name = name) (htypes : ∀ m ∈ decl.members,
      Compares (typeInfo .words l m.type) (typeInfo .exact l m.type)
        (Meets l.PowerAligned (l.Exceeding nodes))) :
    Compares (structInfo .words l name) (structInfo .exact l name) fun w? notes e? =>
      ∃ w e, w? = some w ∧ e? = some e ∧ Meets l.PowerAligned (l.Exceeding nodes) w notes e := by
  have placed : ∀ (members : List Field) w notes e, (∀ m ∈ members, m ∈ decl.members) →
      Places l.PowerAligned (l.Exceeding nodes) w notes e →
      Compares (members.foldlM (addMember .words l (named .words l)) w)
        (members.foldlM (addMember .exact l (named .exact l)) e) fun w' more e' =>
          Places l.PowerAligned (l.Exceeding nodes) w' (notes ++ more) e' := by
    intro members
    induction members with
    | nil =>
      intro w notes e _ h
      exact compares_pure (by rwa [List.append_nil])
    | cons m members ih =>
      intro w notes e hsub h
      rw [List.foldlM_cons, List.foldlM_cons]
      have inside := hsub m List.mem_cons_self
      refine (compares_addMember hdecl inside (htypes m inside) h).bind fun w' more e' h' => ?_
      refine (ih w' _ e' (fun m' hm' => hsub m' (List.mem_cons_of_mem m hm')) h').imp
        fun w'' rest e'' _ _ h'' => ?_
      rwa [← List.append_assoc]
  have empty : Places l.PowerAligned (l.Exceeding nodes) {} [] {} :=
    ⟨rfl, fun _ _ => rfl, fun _ _ => Nat.le_refl _, nofun, fun _ => .refl ⟨0, rfl⟩, nofun⟩
  have laid : Compares (structInfoOf .words l (named .words l) decl)
      (structInfoOf .exact l (named .exact l) decl) fun w notes e => Meets l.PowerAligned
        (fun other => l.Exceeding nodes other ∨ other = decl.name ∧ e.Exceeds) w notes e :=
    (placed decl.members {} [] {} (fun _ => id) empty).bind fun w more e h => compares_structSize h
  rw [structInfo, structInfo, hdecl]
  refine Compares.imp (R := fun w? notes e? => ∃ w e, w? = some w ∧ e? = some e ∧ Meets l.PowerAligned
      (fun other => l.Exceeding nodes other ∨ other = decl.name ∧ e.Exceeds) w notes e) ?_ ?_
  · exact laid.bind fun w notes e h => compares_pure ⟨w, e, rfl, rfl, by rwa [List.append_nil]⟩
  · rintro _ notes _ more he ⟨w, e, rfl, rfl, h⟩
    refine ⟨w, e, rfl, rfl, h.imp fun other ho => ?_⟩
    obtain ho | ⟨rfl, hexceeds⟩ := ho
    · exact ho
    · have laid : structInfo .exact l decl.name = .ok (some e, more) := by
        rw [structInfo, hname, hdecl]
        exact he
      exact .struct laid hexceeds

/-! ## Names -/

variable (hw : LayoutM.Written l nodes rank) (hscalar : l.ScalarParams nodes)
  (hdeclared : ∀ name decl, l.structs.find? name = some decl → decl.name = name)

include hw hscalar hdeclared

/-- The layouts of a name meet. By induction on the rank of the name. -/
theorem compares_named (name : String) : NameMeets l nodes l.PowerAligned name := by
  induction hrank : rank name using Nat.strong_induction_on generalizing name with
  | _ k ih =>
    subst hrank
    have inner : ∀ other, l.Refers name other → NameMeets l nodes l.PowerAligned other :=
      fun other hrefers => ih _ (hw.ranked.refers name other hrefers) other rfl
    unfold NameMeets
    rw [named_eq hw.ranked, named_eq hw.ranked]
    cases hdecl : l.structs.find? name with
    | some decl =>
      have types : ∀ m ∈ decl.members, Compares (typeInfo .words l m.type) (typeInfo .exact l m.type)
          (Meets l.PowerAligned (l.Exceeding nodes)) := fun m hm =>
        compares_typeInfo hw.ranked hscalar m.type (hw.members name decl hdecl m hm)
          fun other ho => inner other (.struct decl m hdecl hm ho)
      refine (compares_structInfo hdecl (hdeclared name decl hdecl) types).bind fun w? notes e? h => ?_
      obtain ⟨w, e, rfl, rfl, h⟩ := h
      exact compares_pure (by rwa [List.append_nil])
    | none =>
      rw [structInfo, structInfo, hdecl, pure_bind, pure_bind]
      dsimp only
      cases htarget : l.aliases.find? name with
      | some target =>
        exact compares_typeInfo hw.ranked hscalar target (hw.targets name target htarget)
          fun other ho => inner other (.alias_ target hdecl htarget ho)
      | none =>
        refine compares_pure ⟨fun _ => rfl, fun _ => Nat.le_refl _, fun _ => .refl ?_,
          fun _ _ hmem => absurd hmem List.not_mem_nil⟩
        unfold TypeInfo.ofName
        cases ScalarKind.ofName? name with
        | none => exact ⟨0, rfl⟩
        | some kind => cases kind <;> first | exact ⟨2, rfl⟩ | exact ⟨1, rfl⟩

end Rules

end Wgsl
