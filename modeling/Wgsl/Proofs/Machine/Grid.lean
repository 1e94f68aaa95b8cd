import Mathlib.Tactic
import Wgsl.Proofs.Layout.Laying
import Wgsl.Proofs.Machine.Returning
import Wgsl.Proofs.Machine.Surroundings
import Wgsl.Proofs.Scope.Lookup

/-! # The grid of a dispatch

The invocations of a dispatch are numbered, and a number is taken apart twice: into the place of a
workgroup in the grid and a place in that workgroup. Each place is the digits of a number in mixed
radix, the digit along x the lowest.

* `Extent.position_index`, `Extent.index_position`: a place and its number determine each other.
* `Extent.rank_lt_rank`: numbers order the places by their digits, the highest first.
* `DispatchPlan.invocation_numberOf`: every pair of places is that of one number.
* `Exec.Restarted`: the variables that are declared again, one after another.
* `Exec.beginInvocation_ok`: what beginning an invocation leaves behind.
* `Machine.Told`: what an invocation is told about its place.
* `Exec.Passes`: a run through the invocations comes to one, and begins, runs and ends it.
* `Exec.invocations_enumerate`: a dispatch runs through the grid once, in order.
* `Exec.beginInvocation_wide`: the number in a workgroup wraps where it does not fit a word.
-/

namespace Wgsl
set_option autoImplicit false

attribute [ext] Extent

/-! ## Places and their numbers -/

namespace Extent

variable {e p q : Extent} {m n : Nat}

/-- Each coordinate is below the size along its axis. -/
def Holds (e p : Extent) : Prop := p.x < e.x ∧ p.y < e.y ∧ p.z < e.z

instance (e p : Extent) : Decidable (e.Holds p) := inferInstanceAs (Decidable (_ ∧ _))

/-- The number of a place, counted along x first. -/
def index (e p : Extent) : Nat := p.x + e.x * (p.y + e.y * p.z)

/-- The coordinates, the slowest first. -/
def rank (p : Extent) : List Nat := [p.z, p.y, p.x]

/-- The place behind another, coordinate by coordinate. -/
def shift (p q : Extent) : Extent := ⟨p.x + q.x, p.y + q.y, p.z + q.z⟩

/-- The places along each axis, as many times as another extent says. -/
def scale (e p : Extent) : Extent := ⟨p.x * e.x, p.y * e.y, p.z * e.z⟩

theorem index_position (e : Extent) (n : Nat) : e.index (e.position n) = n := by
  have inner : n / e.x % e.y + e.y * (n / (e.x * e.y)) = n / e.x := by
    rw [← Nat.div_div_eq_div_mul, Nat.mod_add_div]
  rw [index, position, inner, Nat.mod_add_div]

theorem position_index (h : e.Holds p) : e.position (e.index p) = p := by
  obtain ⟨hx, hy, -⟩ := h
  have px : 0 < e.x := Nat.zero_lt_of_lt hx
  have py : 0 < e.y := Nat.zero_lt_of_lt hy
  have row : e.index p / e.x = p.y + e.y * p.z := by
    rw [index, Nat.add_mul_div_left _ _ px, Nat.div_eq_of_lt hx, Nat.zero_add]
  have column : e.index p % e.x = p.x := by
    rw [index, Nat.add_mul_mod_self_left, Nat.mod_eq_of_lt hx]
  rw [position, column, ← Nat.div_div_eq_div_mul, row, Nat.add_mul_mod_self_left,
    Nat.mod_eq_of_lt hy, Nat.add_mul_div_left _ _ py, Nat.div_eq_of_lt hy, Nat.zero_add]

theorem holds_position (h : n < e.volume) : e.Holds (e.position n) := by
  unfold volume at h
  have pz : 0 < e.z := Nat.pos_of_ne_zero fun hz => by simp [hz] at h
  have py : 0 < e.y := Nat.pos_of_ne_zero fun hy => by simp [hy] at h
  have px : 0 < e.x := Nat.pos_of_ne_zero fun hx => by simp [hx] at h
  exact ⟨Nat.mod_lt _ px, Nat.mod_lt _ py, Nat.div_lt_of_lt_mul h⟩

theorem index_lt (h : e.Holds p) : e.index p < e.volume := by
  obtain ⟨hx, hy, hz⟩ := h
  have plane : p.y + e.y * p.z < e.y * e.z :=
    calc p.y + e.y * p.z < e.y + e.y * p.z := Nat.add_lt_add_right hy _
      _ = e.y * (p.z + 1) := by ring
      _ ≤ e.y * e.z := Nat.mul_le_mul_left _ hz
  calc e.index p < e.x + e.x * (p.y + e.y * p.z) := Nat.add_lt_add_right hx _
    _ = e.x * (p.y + e.y * p.z + 1) := by ring
    _ ≤ e.x * (e.y * e.z) := Nat.mul_le_mul_left _ plane
    _ = e.volume := (Nat.mul_assoc _ _ _).symm

/-- Two numbers are ordered by their quotients, and by their remainders where those agree. -/
theorem lt_of_digits {b : Nat} (h : m < n) : m / b < n / b ∨ m / b = n / b ∧ m % b < n % b := by
  obtain hlt | heq := Nat.lt_or_eq_of_le (Nat.div_le_div_right (c := b) (Nat.le_of_lt h))
  · exact .inl hlt
  · have hm := Nat.mod_add_div m b
    have hn := Nat.mod_add_div n b
    rw [heq] at hm
    exact .inr ⟨heq, by omega⟩

/-- A number determines its digits. -/
theorem eq_of_digits {b c d c' d' : Nat} (hd : d < b) (hd' : d' < b)
    (h : c * b + d = c' * b + d') : c = c' ∧ d = d' := by
  have pos : 0 < b := Nat.zero_lt_of_lt hd
  have quotient : c = c' := by
    have hq := congrArg (· / b) h
    simpa only [Nat.mul_comm _ b, Nat.mul_add_div pos, Nat.div_eq_of_lt hd, Nat.div_eq_of_lt hd',
      Nat.add_zero] using hq
  rw [quotient] at h
  exact ⟨quotient, Nat.add_left_cancel h⟩

/-- A higher number has the higher place, the slowest coordinate counting first. -/
theorem rank_lt_rank (h : m < n) : (e.position m).rank < (e.position n).rank := by
  simp only [rank, position, ← Nat.div_div_eq_div_mul, List.cons_lt_cons_iff]
  obtain hlt | ⟨heq, hx⟩ := lt_of_digits (b := e.x) h
  · obtain hz | ⟨hz, hy⟩ := lt_of_digits (b := e.y) hlt
    · exact .inl hz
    · exact .inr ⟨hz, .inl hy⟩
  · exact .inr ⟨by rw [heq], .inr ⟨by rw [heq], .inl hx⟩⟩

end Extent

/-! ## The numbers of the invocations -/

/-- The coordinates of an invocation, the slowest first. -/
def Invocation.rank (i : Invocation) : List Nat := i.workgroup.rank ++ i.localPosition.rank

namespace DispatchPlan

variable {plan : DispatchPlan} {i j : Nat} {w l : Extent}

/-- The number of the invocation at a place in a workgroup. -/
def numberOf (plan : DispatchPlan) (w l : Extent) : Nat :=
  plan.workgroupSize.index l + plan.invocationsPerWorkgroup * plan.workgroups.index w

/-- The workgroup of an invocation is not that of the one before. -/
def Opens (plan : DispatchPlan) (i : Nat) : Prop :=
  i = 0 ∨ (plan.invocation i).workgroup ≠ (plan.invocation (i - 1)).workgroup

instance (plan : DispatchPlan) (i : Nat) : Decidable (plan.Opens i) :=
  inferInstanceAs (Decidable (_ ∨ _))

/-- The number of invocations is one that a word can hold. -/
def Counted (plan : DispatchPlan) : Prop :=
  plan.workgroups.volume * plan.workgroupSize.volume < countLimit

instance (plan : DispatchPlan) : Decidable plan.Counted := inferInstanceAs (Decidable (_ < _))

theorem lt_of_lt_invocationCount (h : i < plan.invocationCount) :
    i < plan.workgroups.volume * plan.invocationsPerWorkgroup :=
  Nat.lt_of_lt_of_le h (Nat.mod_le _ _)

theorem perWorkgroup_pos (h : i < plan.invocationCount) : 0 < plan.invocationsPerWorkgroup :=
  Nat.pos_of_ne_zero fun hz => by
    have below := lt_of_lt_invocationCount h
    rw [hz] at below
    exact absurd below (Nat.not_lt_zero _)

theorem workgroup_lt (h : i < plan.invocationCount) :
    i / plan.invocationsPerWorkgroup < plan.workgroups.volume :=
  Nat.div_lt_of_lt_mul (Nat.mul_comm _ _ ▸ lt_of_lt_invocationCount h)

theorem invocation_holds (h : i < plan.invocationCount) :
    plan.workgroups.Holds (plan.invocation i).workgroup ∧
      plan.workgroupSize.Holds (plan.invocation i).localPosition :=
  ⟨Extent.holds_position (workgroup_lt h), Extent.holds_position
    (Nat.lt_of_lt_of_le (Nat.mod_lt _ (perWorkgroup_pos h)) (Nat.mod_le _ _))⟩

/-- Where there is a workgroup, its size is counted as it is. -/
theorem Counted.perWorkgroup (hc : plan.Counted) (hw : plan.workgroups.Holds w) :
    plan.invocationsPerWorkgroup = plan.workgroupSize.volume := by
  have some_ : 1 ≤ plan.workgroups.volume := Nat.zero_lt_of_lt (Extent.index_lt hw)
  refine Nat.mod_eq_of_lt (Nat.lt_of_le_of_lt ?_ hc)
  exact Nat.le_mul_of_pos_left _ some_

theorem Counted.invocationCount (hc : plan.Counted) (hw : plan.workgroups.Holds w) :
    plan.invocationCount = plan.workgroups.volume * plan.invocationsPerWorkgroup := by
  refine Nat.mod_eq_of_lt ?_
  rw [hc.perWorkgroup hw]
  exact hc

theorem numberOf_invocation (i : Nat) :
    plan.numberOf (plan.invocation i).workgroup (plan.invocation i).localPosition = i := by
  simp only [numberOf, invocation, Extent.index_position]
  exact Nat.mod_add_div _ _

theorem numberOf_lt (hc : plan.Counted) (hw : plan.workgroups.Holds w)
    (hl : plan.workgroupSize.Holds l) : plan.numberOf w l < plan.invocationCount := by
  have group : plan.workgroups.index w + 1 ≤ plan.workgroups.volume := Extent.index_lt hw
  have inside : plan.workgroupSize.index l < plan.invocationsPerWorkgroup :=
    hc.perWorkgroup hw ▸ Extent.index_lt hl
  calc plan.numberOf w l
      < plan.invocationsPerWorkgroup + plan.invocationsPerWorkgroup * plan.workgroups.index w :=
        Nat.add_lt_add_right inside _
    _ = (plan.workgroups.index w + 1) * plan.invocationsPerWorkgroup := by ring
    _ ≤ plan.workgroups.volume * plan.invocationsPerWorkgroup := Nat.mul_le_mul_right _ group
    _ = plan.invocationCount := (hc.invocationCount hw).symm

theorem invocation_numberOf (hc : plan.Counted) (hw : plan.workgroups.Holds w)
    (hl : plan.workgroupSize.Holds l) :
    (plan.invocation (plan.numberOf w l)).workgroup = w ∧
      (plan.invocation (plan.numberOf w l)).localPosition = l := by
  have below : plan.workgroupSize.index l < plan.invocationsPerWorkgroup :=
    hc.perWorkgroup hw ▸ Extent.index_lt hl
  have group : plan.numberOf w l / plan.invocationsPerWorkgroup = plan.workgroups.index w := by
    rw [numberOf, Nat.add_mul_div_left _ _ (Nat.zero_lt_of_lt below), Nat.div_eq_of_lt below,
      Nat.zero_add]
  have inside : plan.numberOf w l % plan.invocationsPerWorkgroup = plan.workgroupSize.index l := by
    rw [numberOf, Nat.add_mul_mod_self_left, Nat.mod_eq_of_lt below]
  simp only [invocation, group, inside]
  exact ⟨Extent.position_index hw, Extent.position_index hl⟩

/-- Later invocations have higher places, those of the workgroups counting first. -/
theorem rank_lt_rank (h : i < j) : (plan.invocation i).rank < (plan.invocation j).rank := by
  obtain hlt | ⟨heq, hlt⟩ := Extent.lt_of_digits (b := plan.invocationsPerWorkgroup) h
  · have outer := Extent.rank_lt_rank (e := plan.workgroups) hlt
    simp only [Invocation.rank, invocation, Extent.rank, List.cons_append, List.nil_append,
      List.cons_lt_cons_iff, List.not_lt_nil, and_false, or_false] at outer ⊢
    tauto
  · have inner := Extent.rank_lt_rank (e := plan.workgroupSize) hlt
    simp only [Invocation.rank, invocation, heq, Extent.rank, List.cons_append, List.nil_append,
      List.cons_lt_cons_iff, Nat.lt_irrefl, false_or, true_and] at inner ⊢
    exact inner

/-- The place in the whole grid. -/
theorem globalPosition_eq (i : Nat) : (plan.invocation i).globalPosition =
    (plan.workgroupSize.scale (plan.invocation i).workgroup).shift
      (plan.invocation i).localPosition := rfl

theorem localIndex_eq (i : Nat) : (plan.invocation i).localIndex =
    plan.workgroupSize.index (plan.invocation i).localPosition :=
  (Extent.index_position _ _).symm

/-- The place in the whole grid tells the place of the workgroup and the place in it. -/
theorem globalPosition_injective (hi : i < plan.invocationCount) (hj : j < plan.invocationCount)
    (h : (plan.invocation i).globalPosition = (plan.invocation j).globalPosition) : i = j := by
  obtain ⟨-, xi, yi, zi⟩ := invocation_holds hi
  obtain ⟨-, xj, yj, zj⟩ := invocation_holds hj
  simp only [globalPosition_eq, Extent.shift, Extent.scale, Extent.mk.injEq] at h
  obtain ⟨hx, hy, hz⟩ := h
  obtain ⟨wx, lx⟩ := Extent.eq_of_digits xi xj hx
  obtain ⟨wy, ly⟩ := Extent.eq_of_digits yi yj hy
  obtain ⟨wz, lz⟩ := Extent.eq_of_digits zi zj hz
  have group : (plan.invocation i).workgroup = (plan.invocation j).workgroup :=
    Extent.ext wx wy wz
  have inside : (plan.invocation i).localPosition = (plan.invocation j).localPosition :=
    Extent.ext lx ly lz
  rw [← plan.numberOf_invocation i, group, inside, numberOf_invocation]

/-- A workgroup opens where counting in it starts over. -/
theorem localIndex_eq_zero_iff (i : Nat) : (plan.invocation i).localIndex = 0 ↔ plan.Opens i := by
  have same : ∀ k, (plan.invocation k).workgroup = plan.workgroups.position
      (k / plan.invocationsPerWorkgroup) := fun _ => rfl
  have distinct : ∀ a b, plan.workgroups.position a = plan.workgroups.position b → a = b :=
    fun a b hab => by rw [← plan.workgroups.index_position a, hab, Extent.index_position]
  rw [Opens, same, same]
  change i % plan.invocationsPerWorkgroup = 0 ↔ _
  cases i with
  | zero => simp
  | succ k =>
    rw [Nat.add_sub_cancel, Nat.succ_div, ← Nat.dvd_iff_mod_eq_zero]
    constructor
    · intro hdvd
      refine .inr fun heq => ?_
      have := distinct _ _ heq
      rw [if_pos hdvd] at this
      omega
    · rintro (hz | hne)
      · cases hz
      · by_contra hdvd
        rw [if_neg hdvd] at hne
        exact hne rfl

end DispatchPlan

/-! ## Beginning an invocation -/

section

variable {α β : Type}

/-- A computation that looks at layouts and scopes only, and leaves all but layouts as it is. -/
def Exec.ReadsScopes (x : Exec α) : Prop :=
  ∀ m m', m'.layouts = m.layouts → m'.scopes = m.scopes →
    (∃ f, x m = .error f ∧ x m' = .error f) ∨
      ∃ a l, x m = .ok (a, { m with layouts := l }) ∧ x m' = .ok (a, { m' with layouts := l })

namespace Exec

theorem ReadsScopes.scopes {x : Exec α} (hx : ReadsScopes x) {m m' : Machine} {a : α}
    (h : x m = .ok (a, m')) : m'.scopes = m.scopes := by
  obtain ⟨f, hf, -⟩ | ⟨b, l, hb, -⟩ := hx m m rfl rfl
  · rw [h] at hf
    cases hf
  · rw [h] at hb
    cases hb
    rfl

theorem readsScopes_pure (a : α) : ReadsScopes (pure a) :=
  fun m _ hl _ => .inr ⟨a, m.layouts, rfl, hl ▸ rfl⟩

theorem ReadsScopes.bind {x : Exec α} {f : α → Exec β} (hx : ReadsScopes x)
    (hf : ∀ a, ReadsScopes (f a)) : ReadsScopes (x >>= f) := by
  intro m m' hl hs
  obtain ⟨e, he, he'⟩ | ⟨a, l, ha, ha'⟩ := hx m m' hl hs
  · exact .inl ⟨e, bind_of_error he, bind_of_error he'⟩
  · rw [bind_of_ok ha, bind_of_ok ha']
    exact hf a _ _ rfl hs

theorem readsScopes_layout (x : LayoutM α) : ReadsScopes (layout x) := by
  intro m m' hl _
  unfold layout
  rw [hl]
  cases x.run m.layouts with
  | error e => exact .inl ⟨e, rfl, rfl⟩
  | ok r => exact .inr ⟨r.1, r.2, rfl, rfl⟩

end Exec

namespace Eval

theorem readsScopes_pure (a : α) : Exec.ReadsScopes (pure a : Eval α).run :=
  Exec.readsScopes_pure _

theorem readsScopes_lift (r : Run α) : Exec.ReadsScopes (liftM r : Eval α).run := by
  cases r with
  | ok a => exact Exec.readsScopes_pure _
  | error e => exact Exec.readsScopes_pure _

theorem readsScopes_bind {x : Eval α} {f : α → Eval β} (hx : Exec.ReadsScopes x.run)
    (hf : ∀ a, Exec.ReadsScopes (f a).run) : Exec.ReadsScopes (x >>= f).run := by
  rw [ExceptT.run_bind]
  refine hx.bind fun r => ?_
  cases r with
  | ok a => exact hf a
  | error e => exact Exec.readsScopes_pure _

theorem readsScopes_mapM {f : β → Eval α} {items : List β}
    (h : ∀ b ∈ items, Exec.ReadsScopes (f b).run) : Exec.ReadsScopes (items.mapM f).run := by
  induction items with
  | nil => exact readsScopes_pure _
  | cons b items ih =>
    rw [List.mapM_cons]
    refine readsScopes_bind (h b List.mem_cons_self) fun a => ?_
    refine readsScopes_bind (ih fun c hc => h c (List.mem_cons_of_mem _ hc)) fun as => ?_
    exact readsScopes_pure _

theorem readsScopes_typeInfo (t : TypeExpr) : Exec.ReadsScopes (typeInfo t).run :=
  (Exec.readsScopes_layout _).bind fun _ => Exec.readsScopes_pure _

theorem readsScopes_get {f : Machine → Eval α}
    (hf : ∀ m m', m'.scopes = m.scopes → f m' = f m) (h : ∀ m, Exec.ReadsScopes (f m).run) :
    Exec.ReadsScopes (get >>= f : Eval α).run := by
  intro m m' hl hs
  rw [get_bind_run, get_bind_run, hf m m' hs]
  exact h m m m' hl hs

theorem readsScopes_builtinValue (scope : ScopeId) (name : String) :
    Exec.ReadsScopes (builtinValue scope name).run := by
  refine readsScopes_get (fun m m' hs => by rw [hs]) fun m => ?_
  split
  · exact Exec.readsScopes_pure _
  · exact Exec.readsScopes_pure _

/-- Finding out the value of an argument, by induction on how deep structures nest. -/
theorem readsScopes_argument (s : Shader) (scope : ScopeId) (depth : Nat)
    (attributes : List Attribute) (type : TypeExpr) :
    Exec.ReadsScopes (argument s scope depth attributes type).run := by
  induction depth generalizing attributes type with
  | zero =>
    rw [argument]
    exact readsScopes_pure _
  | succ depth ih =>
    rw [argument]
    refine readsScopes_bind (readsScopes_typeInfo type) fun t => ?_
    split
    · exact readsScopes_bind (readsScopes_builtinValue _ _) fun v => readsScopes_lift _
    · split
      · refine readsScopes_bind (readsScopes_mapM fun m _ => ?_) fun fields => readsScopes_pure _
        exact readsScopes_bind (ih m.attributes m.type) fun v => readsScopes_pure _
      · exact readsScopes_pure _

end Eval

end

/-- The position that three numbers of a shader spell. -/
def Value.position? : Value → Option Extent
  | .vector [.u32 x, .u32 y, .u32 z] => some ⟨x.toNat, y.toNat, z.toNat⟩
  | _ => none

/-- The position that a name of a scope is bound to. -/
def Machine.position? (m : Machine) (scope : ScopeId) (name : String) : Option Extent :=
  match m.scopes.findIn? scope name with
  | some (.value v) => v.position?
  | _ => none

/-- A scope binds the built-in values of an invocation. -/
def Machine.Offers (m : Machine) (scope : ScopeId) (i : Invocation) (workgroups : Extent) : Prop :=
  ∀ b ∈ i.builtins workgroups, m.scopes.findIn? scope b.1 = some (.value b.2)

/-- Variables of the module are declared again, one after another: each is bound to the value of its
initializer or, where that fails, to nothing of use. -/
inductive Exec.Restarted (s : Shader) : List VarDecl → Machine → Machine → Prop
  | nil (m : Machine) : Restarted s [] m m
  | value {v : VarDecl} {vars : List VarDecl} {m m₁ m' : Machine} {a : Value} :
    (Eval.initialValue s (Eval.call s) ScopeArena.root v).run m = .ok (.ok a, m₁) →
    Restarted s vars (m₁.bind ScopeArena.root v.name (.value a)) m' →
    Restarted s (v :: vars) m m'
  | failed {v : VarDecl} {vars : List VarDecl} {m m₁ m' : Machine} {e : RunError} :
    (Eval.initialValue s (Eval.call s) ScopeArena.root v).run m = .ok (.error e, m₁) →
    Restarted s vars { m₁.bind ScopeArena.root v.name (.value .void) with
      diagnostics := m₁.diagnostics.push (e.at_ v.line) } m' →
    Restarted s (v :: vars) m m'

namespace Exec

variable {s : Shader} {plan : DispatchPlan} {i : Nat} {scope : ScopeId} {m m' : Machine}

theorem restarted_of_forM {vars : List VarDecl}
    (h : (vars.forM fun v => reporting v.line (Eval.declare s (Eval.call s) ScopeArena.root v)) m =
      .ok (⟨⟩, m')) : Restarted s vars m m' := by
  induction vars generalizing m with
  | nil =>
    cases h
    exact .nil _
  | cons v vars ih =>
    rw [List.forM_eq_forM, List.forM_cons] at h
    obtain ⟨⟨⟩, m₂, hv, h⟩ := bind_ok h
    obtain ⟨outcome, m₃, hdeclare, hreport⟩ := bind_ok hv
    obtain ⟨value, m₁, hvalue, hbind⟩ := bind_ok hdeclare
    cases value with
    | ok a =>
      cases hbind
      cases hreport
      exact .value hvalue (ih h)
    | error e =>
      cases hbind
      cases hreport
      exact .failed hvalue (ih h)

/-- The variables that are declared again: the workgroup variables where a workgroup opens, and all
others. -/
theorem restarted_of_resetVariables (h : resetVariables s ((plan.invocation i).localIndex = 0) m =
    .ok (⟨⟩, m')) :
    Restarted s (m.moduleVars.filter fun v => v.storage ≠ some "workgroup" ∨ plan.Opens i) m m' := by
  obtain ⟨n, m₁, hget, h⟩ := bind_ok h
  cases hget
  have again : decide ((plan.invocation i).localIndex = 0) = decide (plan.Opens i) :=
    decide_eq_decide.2 (plan.localIndex_eq_zero_iff i)
  have same : (fun v : VarDecl => decide ((plan.invocation i).localIndex = 0) ||
      v.storage != some "workgroup") =
      fun v => decide (v.storage ≠ some "workgroup" ∨ plan.Opens i) := by
    funext v
    rw [again, Bool.decide_or, Bool.or_comm]
    by_cases hv : v.storage = some "workgroup" <;> simp [hv]
  rw [← same]
  exact restarted_of_forM h

theorem bindArgument_ok {entry : Function} {arg : Field}
    (h : bindArgument s entry scope arg m = .ok (⟨⟩, m')) :
    ∃ v, m'.scopes = m.scopes.insert scope arg.name (.value v) := by
  obtain ⟨outcome, m₁, hvalue, h⟩ := bind_ok h
  rw [← (Eval.readsScopes_argument s scope _ _ _).scopes hvalue]
  cases outcome with
  | ok v =>
    cases h
    exact ⟨v, rfl⟩
  | error e =>
    cases h
    exact ⟨.void, rfl⟩

/-- Binding the arguments touches none but their names. -/
theorem bindArguments_ok {entry : Function} {args : List Field}
    (h : args.forM (bindArgument s entry scope) m = .ok (⟨⟩, m')) {k : ScopeId} {name : String}
    (apart : k ≠ scope ∨ name ∉ args.map Field.name) :
    m'.scopes.findIn? k name = m.scopes.findIn? k name := by
  induction args generalizing m with
  | nil =>
    cases h
    rfl
  | cons arg args ih =>
    rw [List.forM_eq_forM, List.forM_cons] at h
    obtain ⟨⟨⟩, m₁, harg, h⟩ := bind_ok h
    obtain ⟨v, hv⟩ := bindArgument_ok harg
    rw [List.map_cons, List.mem_cons, not_or] at apart
    rw [ih h (apart.imp_right And.right), hv,
      ScopeArena.findIn?_insert_of_ne (apart.imp_right And.left)]

/-- Binding values of different names in an open scope. -/
theorem bindValues_ok {values : List (String × Value)} (distinct : (values.map Prod.fst).Nodup)
    (hopen : scope < m.scopes.depth)
    (h : (values.forM fun b => bind scope b.1 (.value b.2)) m = .ok (⟨⟩, m')) :
    (∀ b ∈ values, m'.scopes.findIn? scope b.1 = some (.value b.2)) ∧
      ∀ k name, k ≠ scope ∨ name ∉ values.map Prod.fst →
        m'.scopes.findIn? k name = m.scopes.findIn? k name := by
  induction values generalizing m with
  | nil =>
    cases h
    exact ⟨fun _ hb => absurd hb List.not_mem_nil, fun _ _ _ => rfl⟩
  | cons b values ih =>
    rw [List.forM_eq_forM, List.forM_cons] at h
    obtain ⟨⟨⟩, m₁, hb, h⟩ := bind_ok h
    cases hb
    rw [List.map_cons, List.nodup_cons] at distinct
    obtain ⟨bound, kept⟩ := ih distinct.2 (ScopeArena.depth_insert.symm ▸ hopen) h
    refine ⟨fun c hc => ?_, fun k name apart => ?_⟩
    · obtain rfl | hc := List.mem_cons.1 hc
      · rw [kept scope c.1 (.inr distinct.1)]
        exact ScopeArena.findIn?_insert_self hopen
      · exact bound c hc
    · rw [List.map_cons, List.mem_cons, not_or] at apart
      rw [kept k name (apart.imp_right And.right)]
      exact ScopeArena.findIn?_insert_of_ne (apart.imp_right And.left)

/-- What beginning an invocation leaves behind: variables of the module are declared again, and a
scope of its own on top of what was open binds the built-in values. -/
theorem beginInvocation_ok (named : ∀ a ∈ plan.entry.args, a.name ∉ Invocation.builtinNames)
    (h : beginInvocation s plan i m = .ok (scope, m')) :
    m'.Offers scope (plan.invocation i) plan.workgroups ∧
      ∃ m₁, Restarted s (m.moduleVars.filter fun v => v.storage ≠ some "workgroup" ∨ plan.Opens i)
        m m₁ ∧ scope = m₁.scopes.depth ∧
        ∀ k < scope, ∀ name, m'.scopes.findIn? k name = m₁.scopes.findIn? k name := by
  have hnames := Invocation.builtins_names (plan.invocation i) plan.workgroups
  unfold beginInvocation at h
  unfold Machine.Offers
  generalize (plan.invocation i).builtins plan.workgroups = builtins at h hnames ⊢
  obtain ⟨_, m₁, hreset, h⟩ := bind_ok h
  obtain ⟨_, m₂, hflag, h⟩ := bind_ok h
  obtain ⟨scope', m₃, hpush, h⟩ := bind_ok h
  obtain ⟨_, m₄, hvalues, h⟩ := bind_ok h
  obtain ⟨_, m₅, hargs, hend⟩ := bind_ok h
  cases hflag
  obtain ⟨rfl, rfl⟩ : scope' = scope ∧ m₅ = m' := by
    cases hend
    exact ⟨rfl, rfl⟩
  obtain ⟨rfl, hscopes⟩ : scope' = m₁.scopes.depth ∧
      m₃.scopes = (m₁.scopes.push ScopeArena.root).1 := by
    cases hpush
    exact ⟨rfl, rfl⟩
  have hopen : m₁.scopes.depth < m₃.scopes.depth := by
    rw [hscopes, ScopeArena.depth_push]
    exact Nat.lt_succ_self _
  obtain ⟨bound, kept⟩ := bindValues_ok (by rw [hnames]; decide) hopen hvalues
  refine ⟨fun b hb => ?_, m₁, restarted_of_resetVariables hreset, rfl, fun k hk name => ?_⟩
  · have free : b.1 ∉ plan.entry.args.map Field.name := fun hmem => by
      obtain ⟨a, ha, hname⟩ := List.mem_map.1 hmem
      exact named a ha (hnames ▸ hname ▸ List.mem_map_of_mem hb)
    rw [bindArguments_ok hargs (.inr free)]
    exact bound b hb
  · rw [bindArguments_ok hargs (.inl (Nat.ne_of_lt hk)), kept k name (.inl (Nat.ne_of_lt hk)),
      hscopes, ScopeArena.findIn?_push]

/-- A run of some invocations and then of more is one of all of them. -/
theorem runInvocations_add (first second start : Nat) :
    runInvocations s plan (first + second) start = runInvocations s plan first start >>= fun _ =>
      runInvocations s plan second (start + first) := by
  induction first generalizing start with
  | zero =>
    rw [Nat.zero_add]
    rfl
  | succ first ih =>
    rw [Nat.succ_add, runInvocations, runInvocations, ih, bind_assoc, Nat.add_right_comm]
    rfl

end Exec

/-! ## The whole grid -/

/-- Every number that a place needs is one that the shader can hold. -/
theorem Extent.position?_value {p : Extent} (h : (⟨2 ^ 32, 2 ^ 32, 2 ^ 32⟩ : Extent).Holds p) :
    p.value.position? = some p := by
  obtain ⟨hx, hy, hz⟩ := h
  simp only [value, toList, List.map_cons, List.map_nil, Value.position?, Nat.toUInt32,
    UInt32.toNat_ofNat', Nat.mod_eq_of_lt hx, Nat.mod_eq_of_lt hy, Nat.mod_eq_of_lt hz]

/-- A dispatch whose count and positions fit the numbers that they are kept in. -/
structure DispatchPlan.Sized (plan : DispatchPlan) : Prop where
  counted : plan.Counted
  narrow : ∀ i < plan.invocationCount,
    (⟨2 ^ 32, 2 ^ 32, 2 ^ 32⟩ : Extent).Holds (plan.invocation i).globalPosition
  /-- No argument has the name of a built-in value; no text spells one. -/
  named : ∀ a ∈ plan.entry.args, a.name ∉ Invocation.builtinNames

theorem DispatchPlan.Sized.narrow_parts {plan : DispatchPlan} (h : plan.Sized) {i : Nat}
    (hi : i < plan.invocationCount) :
    (⟨2 ^ 32, 2 ^ 32, 2 ^ 32⟩ : Extent).Holds (plan.invocation i).workgroup ∧
      (⟨2 ^ 32, 2 ^ 32, 2 ^ 32⟩ : Extent).Holds (plan.invocation i).localPosition := by
  obtain ⟨gx, gy, gz⟩ := h.narrow i hi
  obtain ⟨-, lx, ly, lz⟩ := invocation_holds hi
  -- along one axis the sum bounds both parts, since the workgroup has some extent
  have axis : ∀ {a b size bound : Nat}, b < size → a * size + b < bound → a < bound ∧ b < bound := by
    intro a b size bound hb hsum
    have grow : a * 1 ≤ a * size := Nat.mul_le_mul_left a (Nat.zero_lt_of_lt hb)
    omega
  exact ⟨⟨(axis lx gx).1, (axis ly gy).1, (axis lz gz).1⟩,
    ⟨(axis lx gx).2, (axis ly gy).2, (axis lz gz).2⟩⟩

/-- What the invocation at a place `l` of the workgroup at a place `w` is told: both places, the one
in the whole grid that they add up to, and the number of `l` in the workgroup. The number is one of
32 bits, so it wraps in a workgroup of more invocations than there are such numbers. -/
structure Machine.Told (m : Machine) (scope : ScopeId) (size w l : Extent) : Prop where
  workgroup : m.position? scope "@workgroup_id" = some w
  inside : m.position? scope "@local_invocation_id" = some l
  whole : m.position? scope "@global_invocation_id" = some ((size.scale w).shift l)
  number : ∃ n : UInt32,
    m.scopes.findIn? scope "@local_invocation_index" = some (.value (.u32 n)) ∧
    n.toNat = (l.x + l.y * size.x + l.z * size.x * size.y) % 2 ^ 32 ∧
    (size.volume ≤ 2 ^ 32 → n.toNat = l.x + l.y * size.x + l.z * size.x * size.y)

namespace Exec

variable {s : Shader} {plan : DispatchPlan} {i : Nat} {scope : ScopeId} {m m' : Machine}

/-- An invocation is told its place when it begins. -/
theorem told_of_beginInvocation (hp : plan.Sized) (hi : i < plan.invocationCount)
    (h : beginInvocation s plan i m = .ok (scope, m')) :
    m'.Told scope plan.workgroupSize (plan.invocation i).workgroup
      (plan.invocation i).localPosition := by
  obtain ⟨offers, -⟩ := beginInvocation_ok hp.named h
  obtain ⟨group, inside⟩ := hp.narrow_parts hi
  obtain ⟨hw, hl⟩ := DispatchPlan.invocation_holds hi
  have told : ∀ {name : String} {p : Extent}, (⟨2 ^ 32, 2 ^ 32, 2 ^ 32⟩ : Extent).Holds p →
      (name, p.value) ∈ (plan.invocation i).builtins plan.workgroups →
      m'.position? scope name = some p := by
    intro name p fits hmem
    rw [Machine.position?, offers _ hmem]
    exact Extent.position?_value fits
  have number : (plan.invocation i).localIndex = (plan.invocation i).localPosition.x +
      (plan.invocation i).localPosition.y * plan.workgroupSize.x +
      (plan.invocation i).localPosition.z * plan.workgroupSize.x * plan.workgroupSize.y := by
    rw [DispatchPlan.localIndex_eq, Extent.index]
    ring
  have word : (plan.invocation i).localIndex.toUInt32.toNat =
      (plan.invocation i).localIndex % 2 ^ 32 := UInt32.toNat_ofNat'
  refine ⟨told group ?_, told inside ?_, told (hp.narrow i hi) ?_,
    (plan.invocation i).localIndex.toUInt32, ?_, ?_, fun small => ?_⟩
  · simp [Invocation.builtins]
  · simp [Invocation.builtins]
  · simp [Invocation.builtins, DispatchPlan.globalPosition_eq]
  · exact offers ("@local_invocation_index", _) (by simp [Invocation.builtins])
  · rw [word, number]
  · have below : (plan.invocation i).localIndex < 2 ^ 32 := by
      rw [DispatchPlan.localIndex_eq]
      exact Nat.lt_of_lt_of_le (Extent.index_lt hl) small
    rw [word, Nat.mod_eq_of_lt below, number]

/-- A run through the invocations comes to one: it begins it, runs the body of the entry point in the
scope that it has got, ends it and goes on behind it. -/
def Passes (s : Shader) (plan : DispatchPlan) (m : Machine) (i : Nat) : Prop :=
  ∃ before scope begun flow ended after, runInvocations s plan i 0 m = .ok ((), before) ∧
    beginInvocation s plan i before = .ok (scope, begun) ∧
    Eval.stmts s (Eval.call s) scope plan.entry.body begun = .ok (flow, ended) ∧
    endInvocation scope ended = .ok ((), after) ∧
    runInvocations s plan (i + 1) 0 m = .ok ((), after)

/-- A run that returns has come through all invocations. -/
theorem passes_of_runInvocations {count : Nat} (h : runInvocations s plan count 0 m = .ok ((), m'))
    (hi : i < count) : Passes s plan m i := by
  obtain ⟨rest, rfl⟩ := Nat.exists_eq_add_of_lt hi
  rw [Nat.add_assoc, runInvocations_add, Nat.zero_add] at h
  obtain ⟨⟨⟩, before, hbefore, h⟩ := bind_ok h
  obtain ⟨⟨⟩, after, hafter, -⟩ := bind_ok h
  have next : runInvocations s plan (i + 1) 0 m = .ok ((), after) := by
    rw [runInvocations_add, bind_of_ok hbefore, Nat.zero_add]
    exact bind_of_ok hafter
  obtain ⟨scope, begun, hbegun, hrun⟩ := bind_ok hafter
  obtain ⟨flow, ended, hended, hend⟩ := bind_ok hrun
  exact ⟨before, scope, begun, flow, ended, after, hbefore, hbegun, hended, hend, next⟩

end Exec

/-- A dispatch runs through its grid once, in order. There are positions `w i` of a workgroup and
`l i` within it such that every pair of positions belongs to one number and the pairs rise with it.
Invocation `i` is told these positions when it begins. The variables of workgroups are declared again
exactly where `w i` changes; the rest always are. A run that returns has come through all of these
invocations, and a run returns if the types of the program can be laid out. -/
theorem Exec.invocations_enumerate (s : Shader) {plan : DispatchPlan} (hp : plan.Sized) :
    ∃ w l : Nat → Extent,
      (∀ i < plan.invocationCount, plan.workgroups.Holds (w i) ∧ plan.workgroupSize.Holds (l i)) ∧
      (∀ p q, plan.workgroups.Holds p → plan.workgroupSize.Holds q →
        ∃! i, i < plan.invocationCount ∧ w i = p ∧ l i = q) ∧
      (∀ i j, i < j → j < plan.invocationCount →
        (w i).rank ++ (l i).rank < (w j).rank ++ (l j).rank) ∧
      (∀ i < plan.invocationCount, ∀ j < plan.invocationCount, i ≠ j →
        (plan.workgroupSize.scale (w i)).shift (l i) ≠
          (plan.workgroupSize.scale (w j)).shift (l j)) ∧
      (∀ i < plan.invocationCount, ∀ (m m' : Machine) (scope : ScopeId),
        beginInvocation s plan i m = .ok (scope, m') →
        m'.Told scope plan.workgroupSize (w i) (l i) ∧
        ∃ m₁, Restarted s (m.moduleVars.filter fun v =>
            v.storage ≠ some "workgroup" ∨ i = 0 ∨ w i ≠ w (i - 1)) m m₁ ∧
          scope = m₁.scopes.depth ∧
          ∀ k < scope, ∀ name, m'.scopes.findIn? k name = m₁.scopes.findIn? k name) ∧
      (∀ m m', runInvocations s plan plan.invocationCount 0 m = .ok ((), m') →
        ∀ i < plan.invocationCount, Passes s plan m i) ∧
      ∀ (source : String) (p : Program) (layouts : Layouts) (entry : String),
        Program.ofSource source = .ok p → Shader.ofProgram p = .ok (s, layouts) →
        p.LaysOut layouts → s.function? entry = some plan.entry →
        ∀ m, m.Prepared layouts p.nodes →
          ∃ m', runInvocations s plan plan.invocationCount 0 m = .ok ((), m') := by
  refine ⟨fun i => (plan.invocation i).workgroup, fun i => (plan.invocation i).localPosition,
    fun i hi => DispatchPlan.invocation_holds hi, fun p q hw hl => ?_,
    fun i j hij _ => DispatchPlan.rank_lt_rank hij,
    fun i hi j hj hne heq => hne (DispatchPlan.globalPosition_injective hi hj heq),
    fun i hi m m' scope h => ?_, fun m m' h i hi => passes_of_runInvocations h hi,
    fun source p layouts entry hsource hshader hl hentry m hm => ?_⟩
  · refine ⟨plan.numberOf p q, ⟨DispatchPlan.numberOf_lt hp.counted hw hl,
      DispatchPlan.invocation_numberOf hp.counted hw hl⟩, ?_⟩
    rintro i ⟨-, rfl, rfl⟩
    exact (DispatchPlan.numberOf_invocation i).symm
  · exact ⟨told_of_beginInvocation hp hi h, (beginInvocation_ok hp.named h).2⟩
  · obtain ⟨⟨⟩, m', h, -⟩ := returns_runInvocations hsource hshader hl hentry _ 0 m hm
    exact ⟨m', h⟩

/-- A dispatch with a different extent along each axis. -/
def DispatchPlan.uneven (f : Function) : DispatchPlan := ⟨f, ⟨2, 3, 1⟩, ⟨4, 1, 2⟩⟩

/-- A program whose invocations are told their place and share a variable. -/
def unevenSource : String :=
  "var<workgroup> v: u32; fn f(@builtin(local_invocation_index) i: u32) \x7b v = i; \x7d"

/-- Loads a program all of whose types can be laid out and finds its function `f`. Gives the names of
the arguments. -/
def Program.entry? (source : String) : Except Fault (Option (List String)) := do
  let p ← ofSource source
  let (s, l) ← Shader.ofProgram p
  return if p.LaysOut l then (s.function? "f").map fun f => f.args.map Field.name else none

theorem Program.of_entry? {source : String} {names : List String}
    (h : entry? source = .ok (some names)) : ∃ p s l f, ofSource source = .ok p ∧
      Shader.ofProgram p = .ok (s, l) ∧ p.LaysOut l ∧ s.function? "f" = some f ∧
      f.args.map Field.name = names := by
  obtain ⟨p, hsource, h⟩ := Fault.bind_ok h
  obtain ⟨⟨s, l⟩, hp, h⟩ := Fault.bind_ok h
  have found := Except.ok.inj h
  split at found
  · rename_i hl
    obtain ⟨f, hf, hnames⟩ := Option.map_eq_some_iff.1 found
    exact ⟨p, s, l, f, hsource, hp, hl, hf, hnames⟩
  · cases found

/-- A run through this program begins the last invocation of the last workgroup, which is told so. -/
theorem Exec.invocations_enumerate_uneven : ∃ p s layouts f,
    Program.ofSource unevenSource = .ok p ∧ Shader.ofProgram p = .ok (s, layouts) ∧
      p.LaysOut layouts ∧ s.function? "f" = some f ∧ (DispatchPlan.uneven f).Sized ∧
      let m : Machine := { layouts, moduleVars := p.values .var }
      m.Prepared layouts p.nodes ∧ ∃ i < 48, ∃ before scope begun,
        runInvocations s (.uneven f) i 0 m = .ok ((), before) ∧
        beginInvocation s (.uneven f) i before = .ok (scope, begun) ∧
        begun.Told scope ⟨4, 1, 2⟩ ⟨1, 2, 0⟩ ⟨3, 0, 1⟩ := by
  have found : Program.entry? unevenSource = .ok (some ["i"]) := by decide +kernel
  obtain ⟨p, s, layouts, f, hsource, hp, hl, hf, hnames⟩ := Program.of_entry? found
  have sized : (DispatchPlan.uneven f).Sized := by
    -- where the invocations stand does not depend on what they run
    have narrow : ∀ i < (DispatchPlan.uneven default).invocationCount,
        (⟨2 ^ 32, 2 ^ 32, 2 ^ 32⟩ : Extent).Holds
          ((DispatchPlan.uneven default).invocation i).globalPosition := by decide +kernel
    have counted : (DispatchPlan.uneven default).Counted := by decide +kernel
    refine ⟨counted, narrow, fun a ha => ?_⟩
    have name : a.name = "i" := List.mem_singleton.1 (hnames ▸ List.mem_map_of_mem ha)
    rw [name]
    decide
  have prepared : Machine.Prepared layouts p.nodes { layouts, moduleVars := p.values .var } :=
    ⟨LayoutM.coherent_self _ _, Program.typed_of_values fun _ h => h⟩
  obtain ⟨w, l, -, once, -, -, begins, passes, returns⟩ := invocations_enumerate s sized
  have group : (⟨2, 3, 1⟩ : Extent).Holds ⟨1, 2, 0⟩ := by decide
  have inside : (⟨4, 1, 2⟩ : Extent).Holds ⟨3, 0, 1⟩ := by decide
  obtain ⟨i, ⟨hi, hw, hinside⟩, -⟩ := once ⟨1, 2, 0⟩ ⟨3, 0, 1⟩ group inside
  obtain ⟨m', run⟩ := returns unevenSource p layouts "f" hsource hp hl hf _ prepared
  obtain ⟨before, scope, begun, -, -, -, hbefore, hbegun, -⟩ := passes _ m' run i hi
  have told := (begins i hi before begun scope hbegun).1
  rw [hw, hinside] at told
  exact ⟨p, s, layouts, f, hsource, hp, hl, hf, sized, prepared, i, hi, before, scope, begun, hbefore,
    hbegun, told⟩

/-! ### A workgroup of more invocations than a word can number -/

/-- A dispatch of one workgroup, whose invocations are a row more than there are words of 32 bits. -/
def DispatchPlan.wide (f : Function) : DispatchPlan := ⟨f, ⟨1, 1, 1⟩, ⟨65536, 65537, 1⟩⟩

/-- Its positions are narrow all the same. -/
theorem DispatchPlan.sized_wide {f : Function}
    (named : ∀ a ∈ f.args, a.name ∉ Invocation.builtinNames) : (wide f).Sized := by
  have counted : (wide default).Counted := by decide +kernel
  refine ⟨counted, fun i hi => ?_, named⟩
  obtain ⟨⟨wx, wy, wz⟩, lx, ly, lz⟩ := invocation_holds hi
  have axis : ∀ {w l size : Nat}, w < 1 → l < size → size ≤ 65537 → w * size + l < 2 ^ 32 := by
    intro w l size hw hl hsize
    rw [Nat.lt_one_iff.1 hw]
    omega
  have x : (65536 : Nat) ≤ 65537 := by decide
  have z : (1 : Nat) ≤ 65537 := by decide
  exact ⟨axis wx lx x, axis wy ly (Nat.le_refl _), axis wz lz z⟩

/-- The number of the shader that a name of a scope is bound to. -/
def Machine.word? (m : Machine) (scope : ScopeId) (name : String) : Option UInt32 :=
  match m.scopes.findIn? scope name with
  | some (.value (.u32 n)) => some n
  | _ => none

theorem Machine.find_of_word? {m : Machine} {name : String} {n : UInt32} {scope : ScopeId}
    (h : m.word? scope name = some n) : m.scopes.findIn? scope name = some (.value (.u32 n)) := by
  unfold word? at h
  split at h
  · cases h
    assumption
  · cases h

/-- Begins the invocation behind those that a word can number. Gives what it is told. -/
def Exec.wide : Except Fault (Option (Option Extent × Option UInt32)) := do
  let p ← Program.ofSource "fn f() \x7b \x7d"
  let (s, l) ← Shader.ofProgram p
  match s.function? "f" with
  | none => return none
  | some f =>
    let (scope, m) ← beginInvocation s (.wide f) (2 ^ 32) { layouts := l }
    return if f.args = [] then
      some (m.position? scope "@local_invocation_id", m.word? scope "@local_invocation_index")
      else none

/-- An invocation that is told to be the first of its workgroup, where it is another: `2 ^ 32` others
come before it. -/
theorem Exec.beginInvocation_wide : ∃ p s l f scope m q,
    Program.ofSource "fn f() \x7b \x7d" = .ok p ∧ Shader.ofProgram p = .ok (s, l) ∧
      s.function? "f" = some f ∧ (DispatchPlan.wide f).Sized ∧
      2 ^ 32 < (DispatchPlan.wide f).invocationCount ∧
      beginInvocation s (.wide f) (2 ^ 32) { layouts := l } = .ok (scope, m) ∧
      m.position? scope "@local_invocation_id" = some q ∧
      m.scopes.findIn? scope "@local_invocation_index" = some (.value (.u32 0)) ∧
      q.x + q.y * 65536 + q.z * 65536 * 65537 = 2 ^ 32 := by
  have told : wide = .ok (some (some ⟨0, 65536, 0⟩, some 0)) := by decide +kernel
  obtain ⟨p, hsource, h⟩ := Fault.bind_ok told
  obtain ⟨⟨s, l⟩, hp, h⟩ := Fault.bind_ok h
  cases hf : s.function? "f" with
  | none =>
    simp only [hf] at h
    cases h
  | some f =>
    simp only [hf] at h
    obtain ⟨⟨scope, m⟩, hbegun, h⟩ := Fault.bind_ok h
    have found := Except.ok.inj h
    split at found
    · rename_i hargs
      simp only [Option.some.injEq, Prod.mk.injEq] at found
      have sized : (DispatchPlan.wide f).Sized :=
        DispatchPlan.sized_wide fun a ha => absurd (hargs ▸ ha) List.not_mem_nil
      have more : 2 ^ 32 < (DispatchPlan.wide default).invocationCount := by decide +kernel
      exact ⟨p, s, l, f, scope, m, ⟨0, 65536, 0⟩, hsource, hp, hf, sized, more, hbegun, found.1,
        Machine.find_of_word? found.2, rfl⟩
    · cases found

end Wgsl
