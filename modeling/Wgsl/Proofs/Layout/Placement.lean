import Mathlib
import Wgsl.Layout.Cache

/-! # What laying out settles

The rules of layout as a property of a laid-out type, and the proof that every answer of a module's
layouts has it as long as no size was too large.

* `TypeInfo.WellLaid`: sizes, alignments, strides and offsets fit together.
* `Layouts.Query`: the questions that can be asked, in any order, of one memory of layouts.
* `Layouts.wellLaid_of_answer`: each answer is well laid.

The memory only ever remembers answers, so what is remembered is well laid too. Once a size did not
fit nothing is promised any more; that state is never left, because the list of such types only
grows.
-/

namespace Wgsl
set_option autoImplicit false

/-! ## Well-laid types -/

/-- The alignment of a structure: the greatest of those of its members, and at least one. -/
def MemberInfo.Greatest (members : List MemberInfo) (align : Nat) : Prop :=
  align = (members.map MemberInfo.align).foldr max 1

mutual

/-- The size, the alignment and all that lies inside a type fit together. -/
def TypeInfo.WellLaid : TypeInfo → Prop
  | .mk _ _ size align shape => TypeShape.WellLaid size align shape

def TypeShape.WellLaid (size align : Nat) : TypeShape → Prop
  | .scalar kind => size = kind.size ∧ align = kind.size
  | .handle => True
  | .array element count stride =>
    TypeInfo.WellLaid element ∧ align = element.align ∧
      ∀ n, count = some n → size = n * stride ∧ size < sizeLimit
  | .struct _ members _ _ =>
    ∃ finish, MemberInfo.Placed members 0 finish ∧ checkedRoundUp align finish = some size ∧
      MemberInfo.Greatest members align
  | .template base param _ _ =>
    TypeInfo.ParamWellLaid param ∧
      (∀ n, vectorLength? base = some n → ∃ e, param = some e ∧ size = n * e.size % sizeLimit ∧
        align = (if n = 2 then 2 else 4) * e.size % sizeLimit) ∧
      (∀ c r, matrixShape? base = some (c, r) → ∃ e, param = some e ∧
        align = (if r = 2 then 2 else 4) * e.size % sizeLimit ∧
        size = c * roundUp align (r * e.size % sizeLimit) % sizeLimit) ∧
      ∀ e, base = "atomic" → param = some e → size = e.size ∧ align = e.align

def TypeInfo.ParamWellLaid : Option TypeInfo → Prop
  | none => True
  | some t => TypeInfo.WellLaid t

/-- Members that follow each other from the byte `next` up to the byte `finish`, each at the first
multiple of its alignment. -/
def MemberInfo.Placed : List MemberInfo → Nat → Nat → Prop
  | [], next, finish => next = finish
  | .mk _ type offset size align :: rest, next, finish =>
    TypeInfo.WellLaid type ∧ type.align ≤ align ∧ type.size ≤ size ∧
      checkedRoundUp align next = some offset ∧ offset + size < sizeLimit ∧
      MemberInfo.Placed rest (offset + size) finish

end

theorem MemberInfo.Placed.append {members more : List MemberInfo} {next middle finish : Nat}
    (h : MemberInfo.Placed members next middle) (h' : MemberInfo.Placed more middle finish) :
    MemberInfo.Placed (members ++ more) next finish := by
  induction members generalizing next with
  | nil =>
    have e : next = middle := by simpa only [MemberInfo.Placed] using h
    rw [e]
    exact h'
  | cons m rest ih =>
    obtain ⟨name, type, offset, size, align⟩ := m
    simp only [MemberInfo.Placed, List.cons_append] at h ⊢
    obtain ⟨hw, ha, hs, ho, hl, hr⟩ := h
    exact ⟨hw, ha, hs, ho, hl, ih hr⟩

/-- The greatest alignment does not depend on the order of the members. -/
theorem MemberInfo.Greatest.reverse {members : List MemberInfo} {align : Nat}
    (h : MemberInfo.Greatest members align) : MemberInfo.Greatest members.reverse align := by
  unfold MemberInfo.Greatest at h ⊢
  rw [List.map_reverse, h]
  exact ((List.reverse_perm _).foldr_eq 1).symm

/-! ## Sizes that fit -/

theorem checkedSize_eq_some {n k : Nat} (h : checkedSize n = some k) : n = k ∧ k < sizeLimit := by
  unfold checkedSize at h
  split at h
  · cases h
    exact ⟨rfl, by assumption⟩
  · cases h

theorem checkedSize_of_lt {n : Nat} (h : n < sizeLimit) : checkedSize n = some n := if_pos h

/-- A number rounded up is no smaller. -/
theorem le_of_checkedRoundUp {k n r : Nat} (h : checkedRoundUp k n = some r) : n ≤ r := by
  unfold checkedRoundUp at h
  split at h
  · cases h
    exact Nat.le_refl n
  · obtain ⟨rfl, -⟩ := checkedSize_eq_some h
    have hk : 0 < k := by omega
    have hdiv := Nat.div_add_mod (n + k - 1) k
    have hmod := Nat.mod_lt (n + k - 1) hk
    rw [Nat.mul_comm] at hdiv
    omega

theorem lt_of_checkedRoundUp {k n r : Nat} (h : checkedRoundUp k n = some r) (hn : n < sizeLimit) :
    r < sizeLimit := by
  unfold checkedRoundUp at h
  split at h
  · cases h
    exact hn
  · exact (checkedSize_eq_some h).2

theorem le_roundUp {k n : Nat} (h : n < sizeLimit) : n ≤ roundUp k n := by
  unfold roundUp
  cases hr : checkedRoundUp k n with
  | some r => exact le_of_checkedRoundUp hr
  | none =>
    simp only [Option.getD_none, saturatedSize]
    omega

/-! ## Computations on layouts -/

/-- Everything remembered is well laid, as long as every size has fitted. -/
structure Layouts.Remembers (l : Layouts) : Prop where
  byNode : ∀ id t, l.byNode.lookup id = some t → t.WellLaid
  byStruct : ∀ name t, l.byStruct.find? name = some t → t.WellLaid
  byName : ∀ name t, l.byName.find? name = some t → t.WellLaid

def Layouts.Sound (l : Layouts) : Prop := l.oversized = [] → l.Remembers

/-- Under the assumption `p` a computation keeps what is remembered well laid and gives something
with the property `Q`. The list of sizes that did not fit never shrinks, whatever holds of `p`. -/
structure Lays {α : Type} (p : Prop) (x : LayoutM α) (Q : α → Prop) : Prop where
  grows : ∀ l a l', x.run l = .ok (a, l') → l'.oversized = [] → l.oversized = []
  sound : p → ∀ l a l', x.run l = .ok (a, l') → l.Sound → l'.Sound ∧ (l'.oversized = [] → Q a)

namespace Lays

variable {α β : Type} {p : Prop} {x : LayoutM α} {P : α → Prop} {Q : β → Prop}

theorem pure {a : α} (h : p → P a) : Lays p (Pure.pure a : LayoutM α) P where
  grows l b l' e := by
    cases e
    exact id
  sound hp l b l' e hl := by
    cases e
    exact ⟨hl, fun _ => h hp⟩

theorem bind {f : α → LayoutM β} (hx : Lays p x P) (hf : ∀ a, Lays (p ∧ P a) (f a) Q) :
    Lays p (x >>= f) Q := by
  have split : ∀ l b l', (x >>= f).run l = .ok (b, l') →
      ∃ a m, x.run l = .ok (a, m) ∧ (f a).run m = .ok (b, l') := by
    intro l b l' e
    simp only [StateT.run_bind] at e
    cases h : x.run l with
    | error _ => rw [h] at e; cases e
    | ok r => rw [h] at e; exact ⟨r.1, r.2, rfl, e⟩
  constructor
  · intro l b l' e hl'
    obtain ⟨a, m, h1, h2⟩ := split l b l' e
    exact hx.grows l a m h1 ((hf a).grows m b l' h2 hl')
  · intro hp l b l' e hl
    obtain ⟨a, m, h1, h2⟩ := split l b l' e
    obtain ⟨hm, ha⟩ := hx.sound hp l a m h1 hl
    by_cases hz : m.oversized = []
    · exact (hf a).sound ⟨hp, ha hz⟩ m b l' h2 hm
    · have hz' : l'.oversized ≠ [] := fun h => hz ((hf a).grows m b l' h2 h)
      exact ⟨fun h => absurd h hz', fun h => absurd h hz'⟩

theorem weaken {q : Prop} {P' : α → Prop} (hx : Lays q x P') (hq : p → q) (hP : p → ∀ a, P' a → P a) :
    Lays p x P where
  grows := hx.grows
  sound hp l a l' e hl := by
    obtain ⟨h1, h2⟩ := hx.sound (hq hp) l a l' e hl
    exact ⟨h1, fun h => hP hp a (h2 h)⟩

/-- A change that touches nothing remembered and no size. -/
theorem changed {f : Layouts → Layouts} (ho : ∀ l, (f l).oversized = l.oversized)
    (hn : ∀ l, (f l).byNode = l.byNode) (hs : ∀ l, (f l).byStruct = l.byStruct)
    (hb : ∀ l, (f l).byName = l.byName) : Lays p (modify f : LayoutM PUnit) fun _ => True where
  grows l a l' e h := by
    cases e
    rw [← ho]
    exact h
  sound _ l a l' e hl := by
    cases e
    refine ⟨fun h => ?_, fun _ => trivial⟩
    obtain ⟨h1, h2, h3⟩ := hl (by rw [← ho]; exact h)
    exact ⟨by rw [hn]; exact h1, by rw [hs]; exact h2, by rw [hb]; exact h3⟩

/-- A computation that reads the state first is one for every state that it may find. -/
theorem reading {f : Layouts → LayoutM α} (h : ∀ l, Lays p (f l) P) : Lays p (get >>= f) P where
  grows l a l' e := (h l).grows l a l' e
  sound hp l a l' e := (h l).sound hp l a l' e

/-- A number computed apart from the state. -/
theorem computed (e : Except Fault α) : Lays p (liftM e : LayoutM α) fun _ => True where
  grows l a l' h := by
    cases e with
    | error _ => cases h
    | ok b => cases h; exact id
  sound _ l a l' h hl := by
    cases e with
    | error _ => cases h
    | ok b => cases h; exact ⟨hl, fun _ => trivial⟩

end Lays

/-! ## One type -/

namespace LayoutM

variable {p : Prop}

theorem lays_overflow {Q : Nat → Prop} (name : String) : Lays p (overflow name) Q := by
  have noted : ∀ l n l', (overflow name).run l = .ok (n, l') → l'.oversized ≠ [] := by
    intro l n l' e
    cases e
    dsimp only
    split
    · intro h
      rename_i hc
      rw [h] at hc
      cases hc
    · simp
  exact ⟨fun l n l' e h => absurd h (noted l n l' e),
    fun _ l n l' e _ => ⟨fun h => absurd h (noted l n l' e), fun h => absurd h (noted l n l' e)⟩⟩

/-- A size that is taken is the one that was offered. -/
theorem lays_sizeOr (name : String) (size : Option Nat) :
    Lays p (sizeOr name size) fun n => size = some n := by
  cases size with
  | some n => exact Lays.pure fun _ => rfl
  | none => exact lays_overflow name

theorem lays_attributeNumber? (attributes : List Attribute) (name : String) :
    Lays p (attributeNumber? attributes name) fun _ => True := by
  unfold attributeNumber?
  split
  · exact Lays.reading fun l => (Lays.computed _).bind fun n => Lays.pure fun _ => trivial
  · exact Lays.pure fun _ => trivial

/-- How a computation that lays out names behaves. -/
abbrev LaysNames (p : Prop) (named : String → LayoutM TypeInfo) : Prop :=
  ∀ name, Lays p (named name) TypeInfo.WellLaid

theorem vectorInfo_wellLaid {base : String} {length : Nat} {element : TypeInfo}
    (hb : vectorLength? base = some length) (he : element.WellLaid) :
    (vectorInfo base length element).WellLaid := by
  have hm : matrixShape? base = none := by
    unfold vectorLength? at hb
    split at hb <;> first | rfl | cases hb
  have ha : base ≠ "atomic" := by
    rintro rfl
    cases hb
  simp only [vectorInfo, TypeInfo.WellLaid, TypeShape.WellLaid, TypeInfo.ParamWellLaid, hb, hm]
  refine ⟨he, ?_, ?_, fun e h => absurd h ha⟩
  · intro n hn
    cases hn
    exact ⟨element, rfl, rfl, rfl⟩
  · intro c r h
    cases h

/-- The alignment and the size of the columns make those of a matrix. -/
theorem matrix_wellLaid {text base : String} {attributes : List Attribute} {columns rows : Nat}
    {element : TypeInfo} {access space : Option String}
    (hv : vectorLength? base = none) (hm : matrixShape? base = some (columns, rows))
    (he : element.WellLaid) :
    (TypeInfo.mk text attributes
      (columns * roundUp (vectorInfo ("vec" ++ toString rows) rows element).align
        (vectorInfo ("vec" ++ toString rows) rows element).size % sizeLimit)
      (vectorInfo ("vec" ++ toString rows) rows element).align
      (.template base (some element) access space)).WellLaid := by
  have ha : base ≠ "atomic" := by
    rintro rfl
    cases hm
  simp only [TypeInfo.WellLaid, TypeShape.WellLaid, TypeInfo.ParamWellLaid, hv, hm]
  refine ⟨he, ?_, ?_, fun e h => absurd h ha⟩
  · intro n h
    cases h
  · intro c r h
    cases h
    exact ⟨element, rfl, rfl, rfl⟩

theorem lays_component {named : String → LayoutM TypeInfo} (hn : LaysNames p named)
    (param : Option TypeInfo) : (p → TypeInfo.ParamWellLaid param) →
      Lays p (match param with
        | some t => pure t
        | none => scalarOf named .f32 : LayoutM TypeInfo) TypeInfo.WellLaid := by
  intro hp
  cases param with
  | some t => exact Lays.pure hp
  | none => exact hn _

theorem lays_templateInfo {named : String → LayoutM TypeInfo} (hn : LaysNames p named)
    (text base : String) (attributes : List Attribute) (param : Option TypeInfo)
    (access space : Option String) (hp : p → TypeInfo.ParamWellLaid param) :
    Lays p (templateInfo named text base attributes param access space) TypeInfo.WellLaid := by
  have component := lays_component hn param hp
  unfold templateInfo
  dsimp only
  split
  · rename_i length hv
    refine component.bind fun element => Lays.pure fun h => ?_
    exact vectorInfo_wellLaid hv h.2
  · rename_i hv
    split
    · rename_i columns rows hm
      exact component.bind fun element => Lays.pure fun h => matrix_wellLaid hv hm h.2
    · rename_i hm
      apply Lays.pure
      intro h
      simp only [TypeInfo.WellLaid, TypeShape.WellLaid, hv, hm]
      refine ⟨hp h, fun n e => (nomatch e), fun c r e => (nomatch e), fun e hb he => ?_⟩
      subst hb he
      exact ⟨rfl, rfl⟩

theorem lays_arrayInfo (text : String) (attributes : List Attribute) (element : TypeInfo)
    (count : Option Nat) (he : p → element.WellLaid) :
    Lays p (arrayInfo text attributes element count) TypeInfo.WellLaid := by
  have laid : ∀ stride size, (∀ n, count = some n → checkedSize (n * stride) = some size) → p →
      (TypeInfo.mk text attributes size element.align (.array element count stride)).WellLaid := by
    intro stride size hsize h
    refine ⟨he h, rfl, fun n hn => ?_⟩
    obtain ⟨rfl, hlt⟩ := checkedSize_eq_some (hsize n hn)
    exact ⟨rfl, hlt⟩
  -- what follows a settled stride depends on the count alone
  have sized : ∀ (q : Prop) (c : LayoutM Nat) (stride : Nat), (q → p) →
      Lays q c (fun size => ∀ n, count = some n → checkedSize (n * stride) = some size) →
      Lays q (c >>= fun size => pure (TypeInfo.mk text attributes size element.align
        (.array element count stride))) TypeInfo.WellLaid := by
    intro q c stride hq hc
    exact hc.bind fun size => Lays.pure fun h => laid stride size h.2 (hq h.1)
  have counted : ∀ (q : Prop) (n stride : Nat), count = some n →
      Lays q (sizeOr text (checkedSize (n * stride)))
        fun size => ∀ n, count = some n → checkedSize (n * stride) = some size := by
    intro q n stride hn
    refine (lays_sizeOr text _).weaken id fun _ size h k hk => ?_
    cases hn.symm.trans hk
    exact h
  have endless : ∀ (q : Prop) (stride : Nat), count = none → Lays q (pure 0 : LayoutM Nat)
      fun size => ∀ n, count = some n → checkedSize (n * stride) = some size := by
    intro q stride hn
    refine Lays.pure fun _ n hk => ?_
    cases hn.symm.trans hk
  unfold arrayInfo
  refine (lays_attributeNumber? attributes "stride").bind fun written => ?_
  cases written with
  | some stride =>
    cases count with
    | some n => exact sized _ _ stride (fun h => h.1) (counted _ n stride rfl)
    | none => exact sized _ _ stride (fun h => h.1) (endless _ stride rfl)
  | none =>
    refine (lays_sizeOr text _).bind fun stride => ?_
    cases count with
    | some n => exact sized _ _ stride (fun h => h.1.1) (counted _ n stride rfl)
    | none => exact sized _ _ stride (fun h => h.1.1) (endless _ stride rfl)

/-- Another name, other attributes and another identity leave a type well laid. -/
theorem lays_annotatedInfo (id : NodeId) (attributes : List Attribute) (shared : TypeInfo)
    (hs : p → shared.WellLaid) :
    Lays p (annotatedInfo id attributes shared) TypeInfo.WellLaid := by
  obtain ⟨name, old, size, align, shape⟩ := shared
  unfold annotatedInfo
  dsimp only [TypeInfo.shape]
  split
  · refine (Lays.changed ?_ ?_ ?_ ?_).bind fun _ => Lays.pure fun h => hs h.1
    all_goals
      intro l
      split <;> rfl
  · exact Lays.pure hs

theorem lays_remembering (id : NodeId) {layOut : LayoutM TypeInfo}
    (h : Lays p layOut TypeInfo.WellLaid) : Lays p (remembering id layOut) TypeInfo.WellLaid := by
  have store : ∀ info, Lays (p ∧ info.WellLaid)
      (do modify fun l => { l with byNode := (id, info) :: l.byNode }
          return info : LayoutM TypeInfo) TypeInfo.WellLaid := by
    intro info
    refine ⟨fun l a l' e => by cases e; exact fun h => h, fun hi l a l' e hl => ?_⟩
    cases e
    refine ⟨fun ho => ?_, fun _ => hi.2⟩
    obtain ⟨h1, h2, h3⟩ := hl ho
    refine ⟨fun other t hf => ?_, h2, h3⟩
    simp only [List.lookup_cons] at hf
    split at hf
    · cases hf
      exact hi.2
    · exact h1 other t hf
  have fresh := h.bind store
  refine ⟨fun l a l' e ho => ?_, fun hp l a l' e hl => ?_⟩
  · simp only [remembering, StateT.run_bind, StateT.run_get, pure_bind] at e
    split at e
    · cases e
      exact ho
    · exact fresh.grows l a l' e ho
  · simp only [remembering, StateT.run_bind, StateT.run_get, pure_bind] at e
    split at e
    · rename_i hf
      cases e
      exact ⟨hl, fun ho => (hl ho).byNode id _ hf⟩
    · exact fresh.sound hp l a l' e hl

mutual

/-- Each type node is laid out well if names are. -/
theorem lays_typeInfoOf {named : String → LayoutM TypeInfo} (hn : LaysNames p named) :
    ∀ t : TypeExpr, Lays p (typeInfoOf named t) TypeInfo.WellLaid
  | .named id attributes name => by
    rw [typeInfoOf]
    refine lays_remembering id ((hn name).bind fun shared => ?_)
    split
    · exact Lays.pure fun h => h.2
    · exact lays_annotatedInfo id attributes shared fun h => h.2
  | .array id attributes element count countExpr => by
    rw [typeInfoOf]
    refine lays_remembering id ((lays_paramInfoOf hn element).bind fun param => ?_)
    cases param with
    | some element' => exact lays_arrayInfo _ attributes element' _ fun h => h.2
    | none =>
      refine ((hn _).weaken (fun h => h.1) fun _ _ h => h).bind fun element' => ?_
      exact lays_arrayInfo _ attributes element' _ fun h => h.2
  | .template id attributes base param access space => by
    rw [typeInfoOf]
    refine lays_remembering id ((lays_paramInfoOf hn param).bind fun param' => ?_)
    exact lays_templateInfo (fun name => (hn name).weaken (fun h => h.1) fun _ _ h => h) _ base
      attributes param' access space fun h => h.2

theorem lays_paramInfoOf {named : String → LayoutM TypeInfo} (hn : LaysNames p named) :
    ∀ t : Option TypeExpr, Lays p (paramInfoOf named t) TypeInfo.ParamWellLaid
  | none => by
    rw [paramInfoOf]
    exact Lays.pure fun _ => trivial
  | some t => by
    rw [paramInfoOf]
    exact (lays_typeInfoOf hn t).bind fun info => Lays.pure fun h => h.2

end

/-! ## Structures -/

/-- The members placed so far follow each other up to the first free byte, and the greatest of their
alignments is known. -/
def Placement.Fits (placed : Placement) : Prop :=
  placed.overflowed = false → MemberInfo.Placed placed.members.reverse 0 placed.next ∧
    MemberInfo.Greatest placed.members (max placed.align 1)

theorem Placement.Fits.place {placed : Placement} (h : placed.Fits) (name : String) {type : TypeInfo}
    {size align : Nat} (ht : type.WellLaid) (ha : type.align ≤ align) (hs : type.size ≤ size) :
    (placeMember placed name type size align).Fits := by
  intro ho
  unfold placeMember at ho ⊢
  cases hover : placed.overflowed with
  | true =>
    simp only [hover, if_true] at ho
    cases ho
  | false =>
    simp only [hover, Bool.false_eq_true, if_false] at ho ⊢
    cases hr : checkedRoundUp align placed.next with
    | none =>
      simp only [hr] at ho
      cases ho
    | some offset =>
      simp only [hr] at ho ⊢
      cases hc : checkedSize (offset + size) with
      | none =>
        simp only [hc] at ho
        cases ho
      | some next =>
        obtain ⟨rfl, hlt⟩ := checkedSize_eq_some hc
        obtain ⟨hplaced, hgreatest⟩ := h hover
        constructor
        · simp only [List.reverse_cons]
          refine hplaced.append ?_
          simp only [MemberInfo.Placed]
          exact ⟨ht, ha, hs, hr, hlt, trivial⟩
        · unfold MemberInfo.Greatest at hgreatest ⊢
          simp only [List.map_cons, List.foldr_cons, ← hgreatest, MemberInfo.align]
          omega

/-- One more member of a structure. -/
theorem lays_member {named : String → LayoutM TypeInfo} (hn : LaysNames p named) (placed : Placement)
    (hf : p → placed.Fits) (m : Field) :
    Lays p (do
      let type ← typeInfoOf named m.type
      let align := max ((← attributeNumber? m.attributes "align").getD 0) type.align
      let size := max ((← attributeNumber? m.attributes "size").getD 0) type.size
      return placeMember placed m.name type size align : LayoutM Placement) Placement.Fits := by
  refine (lays_typeInfoOf hn m.type).bind fun type => ?_
  refine (lays_attributeNumber? m.attributes "align").bind fun align => ?_
  refine (lays_attributeNumber? m.attributes "size").bind fun size => Lays.pure fun h => ?_
  obtain ⟨⟨⟨hp, ht⟩, -⟩, -⟩ := h
  exact (hf hp).place m.name ht (Nat.le_max_right ..) (Nat.le_max_right ..)

theorem lays_members {named : String → LayoutM TypeInfo} (hn : LaysNames p named)
    (members : List Field) (placed : Placement) (hf : p → placed.Fits) :
    Lays p (members.foldlM (fun (placed : Placement) (m : Field) => do
      let type ← typeInfoOf named m.type
      let align := max ((← attributeNumber? m.attributes "align").getD 0) type.align
      let size := max ((← attributeNumber? m.attributes "size").getD 0) type.size
      return placeMember placed m.name type size align) placed : LayoutM Placement)
      Placement.Fits := by
  induction members generalizing p placed with
  | nil => exact Lays.pure hf
  | cons m rest ih =>
    rw [List.foldlM_cons]
    refine (lays_member hn placed hf m).bind fun next => ?_
    exact ih (fun name => (hn name).weaken (fun h => h.1) fun _ _ h => h) next fun h => h.2

theorem lays_structInfoOf {named : String → LayoutM TypeInfo} (hn : LaysNames p named)
    (decl : StructDecl) : Lays p (structInfoOf named decl) TypeInfo.WellLaid := by
  unfold structInfoOf
  have start : p → ({} : Placement).Fits := fun _ _ => ⟨rfl, rfl⟩
  refine (lays_members hn decl.members {} start).bind fun placed => ?_
  refine (lays_sizeOr decl.name _).bind fun size => Lays.pure fun h => ?_
  obtain ⟨⟨-, hfits⟩, hsize⟩ := h
  cases ho : placed.overflowed with
  | true =>
    rw [ho] at hsize
    cases hsize
  | false =>
    rw [ho] at hsize
    obtain ⟨hplaced, hgreatest⟩ := hfits ho
    exact ⟨placed.next, hplaced, hsize, hgreatest.reverse⟩

/-- An answer that may be missing. -/
abbrev FoundWellLaid (found : Option TypeInfo) : Prop := ∀ t, found = some t → t.WellLaid

theorem handle_wellLaid (name : String) : (TypeInfo.handle name).WellLaid := trivial

theorem lays_structInfoWith {named : String → LayoutM TypeInfo} (hn : LaysNames p named)
    (name : String) : Lays p (structInfoWith named name) FoundWellLaid := by
  -- what follows once the structure has to be laid out
  have fresh : ∀ decl, Lays p (do
      let info ← structInfoOf named decl
      modify fun l => { l with
        inProgress := l.inProgress.erase name
        byStruct := l.byStruct.insert name info }
      return some info : LayoutM (Option TypeInfo)) FoundWellLaid := by
    intro decl
    refine (lays_structInfoOf hn decl).bind fun info => ?_
    refine ⟨fun l a l' e => by cases e; exact fun h => h, fun hi l a l' e hl => ?_⟩
    cases e
    refine ⟨fun ho => ?_, fun _ t ht => by cases ht; exact hi.2⟩
    obtain ⟨h1, h2, h3⟩ := hl ho
    refine ⟨h1, fun other t hf => ?_, h3⟩
    dsimp only at hf
    by_cases hne : other = name
    · rw [hne, Table.find?_insert_self] at hf
      cases hf
      exact hi.2
    · rw [Table.find?_insert_of_ne _ _ hne] at hf
      exact h2 other t hf
  refine ⟨fun l a l' e ho => ?_, fun hp l a l' e hl => ?_⟩
  · simp only [structInfoWith, StateT.run_bind, StateT.run_get, pure_bind] at e
    split at e
    · cases e
      exact ho
    · split at e
      · cases e
        exact ho
      · split at e
        · cases e
          exact ho
        · exact (fresh _).grows { l with inProgress := name :: l.inProgress } a l' e ho
  · simp only [structInfoWith, StateT.run_bind, StateT.run_get, pure_bind] at e
    split at e
    · rename_i hf
      cases e
      exact ⟨hl, fun ho t ht => by cases ht; exact (hl ho).byStruct name _ hf⟩
    · split at e
      · cases e
        exact ⟨hl, fun _ t ht => by cases ht⟩
      · split at e
        · cases e
          exact ⟨hl, fun _ t ht => by cases ht; exact handle_wellLaid name⟩
        · exact (fresh _).sound hp { l with inProgress := name :: l.inProgress } a l' e
            fun ho => ⟨(hl ho).byNode, (hl ho).byStruct, (hl ho).byName⟩

/-! ## Names -/

theorem scalar_wellLaid (kind : ScalarKind) : (TypeInfo.scalar kind).WellLaid := ⟨rfl, rfl⟩

/-- What is remembered by name, or settled and remembered from now on. -/
theorem lays_byName (name : String) {settle : LayoutM TypeInfo} (h : Lays p settle TypeInfo.WellLaid) :
    Lays p (do
      match (← get).byName.find? name with
      | some info => return info
      | none =>
        let info ← settle
        modify fun l => { l with byName := l.byName.insert name info }
        return info : LayoutM TypeInfo) TypeInfo.WellLaid := by
  have store : ∀ info, Lays (p ∧ info.WellLaid)
      (do modify fun l => { l with byName := l.byName.insert name info }
          return info : LayoutM TypeInfo) TypeInfo.WellLaid := by
    intro info
    refine ⟨fun l a l' e => by cases e; exact fun h => h, fun hi l a l' e hl => ?_⟩
    cases e
    refine ⟨fun ho => ?_, fun _ => hi.2⟩
    obtain ⟨h1, h2, h3⟩ := hl ho
    refine ⟨h1, h2, fun other t hf => ?_⟩
    dsimp only at hf
    by_cases hne : other = name
    · rw [hne, Table.find?_insert_self] at hf
      cases hf
      exact hi.2
    · rw [Table.find?_insert_of_ne _ _ hne] at hf
      exact h3 other t hf
  have fresh := h.bind store
  refine ⟨fun l a l' e ho => ?_, fun hp l a l' e hl => ?_⟩
  · simp only [StateT.run_bind, StateT.run_get, pure_bind] at e
    split at e
    · cases e
      exact ho
    · exact fresh.grows l a l' e ho
  · simp only [StateT.run_bind, StateT.run_get, pure_bind] at e
    split at e
    · rename_i hf
      cases e
      exact ⟨hl, fun ho => (hl ho).byName name _ hf⟩
    · exact fresh.sound hp l a l' e hl

theorem lays_namedWithin (depth : Nat) : LaysNames p (namedWithin depth) := by
  induction depth with
  | zero => exact fun name => Lays.pure fun _ => handle_wellLaid name
  | succ depth ih =>
    intro name
    rw [namedWithin]
    refine (lays_structInfoWith ih name).bind fun found => ?_
    cases found with
    | some info => exact Lays.pure fun h => h.2 info rfl
    | none =>
      refine Lays.reading fun l => ?_
      split
      · exact (lays_typeInfoOf ih _).weaken (fun h => h.1) fun _ _ h => h
      · refine (lays_byName name (Lays.pure fun _ => ?_))
        cases ScalarKind.ofName? name with
        | some kind => exact scalar_wellLaid kind
        | none => exact handle_wellLaid name

theorem lays_nesting : Lays p nesting fun _ => True :=
  Lays.reading fun _ => Lays.pure fun _ => trivial

theorem lays_named : LaysNames p named := fun name =>
  lays_nesting.bind fun depth => lays_namedWithin depth name

theorem lays_typeInfo (t : TypeExpr) : Lays p (typeInfo t) TypeInfo.WellLaid :=
  lays_nesting.bind fun depth => lays_typeInfoOf (lays_namedWithin depth) t

theorem lays_structInfo (name : String) : Lays p (structInfo name) FoundWellLaid :=
  lays_nesting.bind fun depth => lays_structInfoWith (lays_namedWithin depth) name

/-- The name of a vector generator tells its length. -/
theorem eq_of_vectorLength? {length n : Nat} (h : vectorLength? ("vec" ++ toString length) = some n) :
    length = n := by
  have digits : ∀ k, "vec" ++ toString length = "vec" ++ toString k → length = k := fun k e =>
    Nat.repr_injective ((String.append_right_inj "vec").mp e)
  unfold vectorLength? at h
  split at h <;> cases h
  · exact digits 2 (by assumption)
  · exact digits 3 (by assumption)
  · exact digits 4 (by assumption)

/-- A vector of any length; if there is no generator for it, only its element counts. -/
theorem vector_wellLaid (length : Nat) {element : TypeInfo} (he : element.WellLaid) :
    (vectorInfo ("vec" ++ toString length) length element).WellLaid := by
  cases hv : vectorLength? ("vec" ++ toString length) with
  | some n =>
    have e := eq_of_vectorLength? hv
    subst e
    exact vectorInfo_wellLaid hv he
  | none =>
    have first : ("vec" ++ toString length).toList.head? = some 'v' := by
      rw [String.toList_append]
      rfl
    have hm : matrixShape? ("vec" ++ toString length) = none := by
      unfold matrixShape?
      split
      all_goals first | rfl | (rename_i e; rw [e] at first; cases first)
    have ha : "vec" ++ toString length ≠ "atomic" := by
      intro e
      rw [e] at first
      cases first
    simp only [vectorInfo, TypeInfo.WellLaid, TypeShape.WellLaid, hv, hm]
    exact ⟨he, fun n e => (nomatch e), fun c r e => (nomatch e), fun e h => absurd h ha⟩

theorem lays_vector (kind : ScalarKind) (length : Nat) :
    Lays p (vector kind length) TypeInfo.WellLaid := by
  have settle : Lays p (do return vectorInfo ("vec" ++ toString length) length (← scalar kind))
      TypeInfo.WellLaid :=
    (lays_named kind.name).bind fun element => Lays.pure fun h => vector_wellLaid length h.2
  have h := lays_byName ("vec" ++ toString length ++ "<" ++ kind.name ++ ">") settle
  simp only [bind_assoc, pure_bind] at h
  exact h

end LayoutM

/-! ## Any sequence of questions -/

namespace Layouts

/-- A question to the layouts of a module. -/
inductive Query where
  | type (t : TypeExpr)
  | struct (name : String)
  | named (name : String)
  | vector (kind : ScalarKind) (length : Nat)

/-- The answer to a question; only a structure may be missing. -/
def Query.answer : Query → LayoutM (Option TypeInfo)
  | .type t => some <$> LayoutM.typeInfo t
  | .struct name => LayoutM.structInfo name
  | .named name => some <$> LayoutM.named name
  | .vector kind length => some <$> LayoutM.vector kind length

/-- The answers to questions asked one after another. -/
def answers (queries : List Query) : LayoutM (List (Option TypeInfo)) := queries.mapM Query.answer

theorem lays_answer (p : Prop) (q : Query) : Lays p q.answer LayoutM.FoundWellLaid := by
  have found : ∀ {x : LayoutM TypeInfo}, Lays p x TypeInfo.WellLaid →
      Lays p (some <$> x) LayoutM.FoundWellLaid := by
    intro x hx
    rw [map_eq_pure_bind]
    refine hx.bind fun info => Lays.pure fun h t e => ?_
    cases e
    exact h.2
  cases q with
  | type t => exact found (LayoutM.lays_typeInfo t)
  | struct name => exact LayoutM.lays_structInfo name
  | named name => exact found (LayoutM.lays_named name)
  | vector kind length => exact found (LayoutM.lays_vector kind length)

theorem lays_answers (p : Prop) (queries : List Query) :
    Lays p (answers queries) fun found => ∀ t, some t ∈ found → t.WellLaid := by
  unfold answers
  induction queries generalizing p with
  | nil => exact Lays.pure fun _ t h => by cases h
  | cons q rest ih =>
    rw [List.mapM_cons]
    refine (lays_answer p q).bind fun first => (ih _).bind fun later => Lays.pure fun h t ht => ?_
    rcases List.mem_cons.mp ht with e | hmem
    · exact h.1.2 t e.symm
    · exact h.2 t hmem

/-- No declaration lays anything out. -/
structure Empty (l : Layouts) : Prop where
  byNode : l.byNode = []
  byStruct : l.byStruct = []
  byName : l.byName = []
  oversized : l.oversized = []

theorem empty_ofProgram (p : Program) : (ofProgram p).Empty := by
  have noted : ∀ (l : Layouts) v, l.Empty → (ofProgram.note l v).Empty := by
    intro l v h
    unfold ofProgram.note
    split
    · exact ⟨h.byNode, h.byStruct, h.byName, h.oversized⟩
    · exact h
  refine List.foldlRecOn p.declarations _ ⟨rfl, rfl, rfl, rfl⟩ fun l h d _ => ?_
  split
  · exact ⟨h.byNode, h.byStruct, h.byName, h.oversized⟩
  · exact ⟨h.byNode, h.byStruct, h.byName, h.oversized⟩
  · exact noted l _ h
  · exact noted l _ h
  · exact h

theorem sound_ofProgram (p : Program) : (ofProgram p).Sound := by
  obtain ⟨byNode, byStruct, byName, -⟩ := empty_ofProgram p
  refine fun _ => ⟨fun id t h => ?_, fun name t h => ?_, fun name t h => ?_⟩
  · rw [byNode] at h
    cases h
  · rw [byStruct] at h
    cases h
  · rw [byName] at h
    cases h

/-- Whatever is asked of the layouts of a program and in whatever order, as long as every size fits
each answer is well laid. -/
theorem wellLaid_of_answer {p : Program} {queries : List Query} {found : List (Option TypeInfo)}
    {l : Layouts} (h : (answers queries).run (ofProgram p) = .ok (found, l)) (hl : l.errors = [])
    {t : TypeInfo} (ht : some t ∈ found) : t.WellLaid := by
  have ho : l.oversized = [] := by simpa only [errors, List.map_eq_nil_iff] using hl
  obtain ⟨-, hfound⟩ := (lays_answers True queries).sound trivial _ _ _ h (sound_ofProgram p)
  exact hfound ho t ht

end Layouts

end Wgsl
