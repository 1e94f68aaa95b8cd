import Mathlib
import Wgsl.Proofs.Machine.Surroundings
import Wgsl.Proofs.Reflect.Resources

/-! # The resources of a function are the names that stand unbound

Reflection lists a resource for a function if a body that the function gets to mentions the name
where no local name holds. That is told by one scan of each body, and the scopes of a scan are those
of a run but for two: a `continuing` part is scanned apart from the body whose names it sees, and the
update of a `for` in front of the body that it comes behind.

* `Stmt.Unbound`: a name stands in a statement where it is not bound, for either kind of scopes.
* `Stmt.clear_iff`: a scan meets the name exactly there, by induction over the syntax.
* `Stmt.unbound_mono`: where the two kinds agree.
* `Program.Reaches`: functions that call one another.
* `Reflection.resources_unbound`: what is listed for a function.
-/

namespace Wgsl
set_option autoImplicit false

/-! ## Unbound names -/

/-- Where names hold in loops. -/
structure LoopScopes where
  /-- What the body of a `loop` declares holds in its `continuing` part. -/
  continuing : Prop
  /-- What the update of a `for` declares holds in its body. -/
  update : Prop

namespace LoopScopes

/-- When statements are run, a `continuing` part sees the names of the body, and an update comes
behind the body. -/
def run : LoopScopes := ⟨True, False⟩

/-- When a body is scanned, every block is by itself, and a header is read as it is written. -/
def scan : LoopScopes := ⟨False, True⟩

end LoopScopes

/-- The name is that of a variable in the expression. -/
def Expr.Uses (x : String) (e : Expr) : Prop := .variable_ x ∈ e.mentions

/-- The name is that of a variable in the statement. What the statement declares holds only behind
it. -/
def SimpleStmt.Uses (x : String) (st : SimpleStmt) : Prop := .variable_ x ∈ st.mentions

mutual

/-- The name stands in the statement where no declaration in it holds. -/
def Stmt.Unbound (k : LoopScopes) (x : String) : Stmt → Prop
  | .simple st => st.Uses x
  | .ifElse _ cond body rest =>
    cond.Uses x ∨ Stmt.ListUnbound k x body ∨ ElseChain.Unbound k x rest
  | .forLoop _ init cond update body => (∃ st ∈ init, st.Uses x) ∨
    x ∉ SimpleStmt.declared init ∧ ((∃ e ∈ cond, e.Uses x) ∨ (∃ st ∈ update, st.Uses x) ∨
      ¬(k.update ∧ x ∈ SimpleStmt.declared update) ∧ Stmt.ListUnbound k x body)
  | .whileLoop _ cond body => cond.Uses x ∨ Stmt.ListUnbound k x body
  | .loop _ body continuing => Stmt.ListUnbound k x body ∨
    ¬(k.continuing ∧ x ∈ Stmt.declared body) ∧ Stmt.PartUnbound k x continuing
  | .switch _ selector clauses => selector.Uses x ∨ SwitchClause.Unbound k x clauses
  | .block _ body => Stmt.ListUnbound k x body
  | .return_ _ value => ∃ e ∈ value, e.Uses x
  | .breakIf _ cond => cond.Uses x
  | .constAssert _ cond => cond.Uses x
  | .break_ _ | .continue_ _ | .discard _ => False

/-- A declaration holds in the statements behind it. -/
def Stmt.ListUnbound (k : LoopScopes) (x : String) : List Stmt → Prop
  | [] => False
  | st :: rest => Stmt.Unbound k x st ∨ st.declares? ≠ some x ∧ Stmt.ListUnbound k x rest

def Stmt.PartUnbound (k : LoopScopes) (x : String) : Option (List Stmt) → Prop
  | none => False
  | some body => Stmt.ListUnbound k x body

def ElseChain.Unbound (k : LoopScopes) (x : String) : ElseChain → Prop
  | .none => False
  | .else_ body => Stmt.ListUnbound k x body
  | .elseIf _ cond body rest =>
    cond.Uses x ∨ Stmt.ListUnbound k x body ∨ ElseChain.Unbound k x rest

def SwitchClause.Unbound (k : LoopScopes) (x : String) : List SwitchClause → Prop
  | [] => False
  | .mk _ selectors _ body :: rest => (∃ e ∈ selectors, e.Uses x) ∨ Stmt.ListUnbound k x body ∨
    SwitchClause.Unbound k x rest

end

/-- The name stands in the body where neither a parameter nor a local name holds. -/
def Function.Unbound (k : LoopScopes) (x : String) (f : Function) : Prop :=
  x ∉ f.args.map Field.name ∧ Stmt.ListUnbound k x f.body

/-! ## What a scan meets -/

/-- A local name holds. -/
def Locals.Bound (x : String) (locals : List (List String)) : Prop := ∃ scope ∈ locals, x ∈ scope

/-- The name is met only where a local name holds. -/
def Mention.Clear (x : String) (locals : List (List String)) (ms : List Mention) : Prop :=
  Allowed [x] (fun _ => True) locals ms

/-- The mention opens or closes no scope and declares nothing. -/
def Mention.IsInert : Mention → Prop
  | .enter | .leave | .declare _ => False
  | _ => True

section

variable {x : String} {locals : List (List String)} {ms : List Mention}

namespace Locals

theorem bound_enter : Bound x ([] :: locals) ↔ Bound x locals := by simp [Bound]

theorem bound_after {name? : Option String} (h : locals ≠ []) :
    Bound x (after name? locals) ↔ Bound x locals ∨ name? = some x := by
  cases name? with
  | none => simp [after]
  | some name =>
    obtain ⟨scope, outer, rfl⟩ := List.exists_cons_of_ne_nil h
    simp only [after, Option.elim_some, declare, Bound, List.mem_cons, exists_eq_or_imp,
      Option.some.injEq, eq_comm (a := name)]
    exact or_assoc.trans or_comm

end Locals

namespace Mention

theorem clear_cons {m : Mention} : Clear x locals (m :: ms) ↔
    m.Fine [x] (fun _ => True) locals ∧ Clear x (m.locals locals) ms := Iff.rfl

theorem clear_inert {es : List Mention} (h : ∀ m ∈ es, m.IsInert) : Clear x locals (es ++ ms) ↔
    (Locals.Bound x locals ∨ .variable_ x ∉ es) ∧ Clear x locals ms := by
  induction es with
  | nil => simp
  | cons m es ih =>
    rw [List.forall_mem_cons] at h
    have hm : m.locals locals = locals ∧ (m.Fine [x] (fun _ => True) locals ↔
        Locals.Bound x locals ∨ .variable_ x ≠ m) := by
      cases m with
      | enter => exact h.1.elim
      | leave => exact h.1.elim
      | declare name => exact h.1.elim
      | type t => simp [Mention.locals, Fine]
      | call name => simp [Mention.locals, Fine]
      | variable_ name =>
        refine ⟨rfl, ?_⟩
        simp only [Fine, Locals.Known, Locals.Bound, List.mem_singleton, ne_eq, variable_.injEq]
        by_cases hn : name = x
        · subst hn
          simp
        · simp [hn, Ne.symm hn]
    rw [List.cons_append, clear_cons, hm.1, hm.2, ih h.2, List.mem_cons, not_or]
    grind

end Mention

mutual

theorem Expr.inert : ∀ e : Expr, ∀ m ∈ e.mentions, m.IsInert
  | .literal .. => nofun
  | .var .. => List.forall_mem_singleton.2 trivial
  | .binary _ _ lhs rhs => List.forall_mem_append.2 ⟨lhs.inert, rhs.inert⟩
  | .unary _ _ operand => operand.inert
  | .call _ _ args => List.forall_mem_cons.2 ⟨trivial, Expr.list_inert args⟩
  | .construct _ _ args => List.forall_mem_cons.2 ⟨trivial, Expr.list_inert args⟩
  | .bitcast _ _ value => List.forall_mem_cons.2 ⟨trivial, value.inert⟩
  | .index _ base i => List.forall_mem_append.2 ⟨base.inert, i.inert⟩
  | .member _ base _ => base.inert
  | .group _ e => e.inert

theorem Expr.list_inert : ∀ es : List Expr, ∀ m ∈ Expr.listMentions es, m.IsInert
  | [] => nofun
  | e :: rest => List.forall_mem_append.2 ⟨e.inert, Expr.list_inert rest⟩

end

/-! ### Expressions and simple statements -/

theorem Expr.clear_iff (e : Expr) : Mention.Clear x locals (e.mentions ++ ms) ↔
    (Locals.Bound x locals ∨ ¬e.Uses x) ∧ Mention.Clear x locals ms :=
  Mention.clear_inert e.inert

theorem Expr.clear_list (es : List Expr) : Mention.Clear x locals (Expr.listMentions es ++ ms) ↔
    (Locals.Bound x locals ∨ ¬∃ e ∈ es, e.Uses x) ∧ Mention.Clear x locals ms := by
  have reads : .variable_ x ∈ Expr.listMentions es ↔ ∃ e ∈ es, e.Uses x := by
    induction es with
    | nil => simp [Expr.listMentions]
    | cons e rest ih => simp [Expr.listMentions, ih, Expr.Uses]
  rw [Mention.clear_inert (Expr.list_inert es), reads]

theorem Expr.clear_elim (e? : Option Expr) :
    Mention.Clear x locals (e?.elim [] Expr.mentions ++ ms) ↔
      (Locals.Bound x locals ∨ ¬∃ e ∈ e?, e.Uses x) ∧ Mention.Clear x locals ms := by
  cases e? with
  | none => simp
  | some e => simpa using e.clear_iff

theorem SimpleStmt.clear_iff (st : SimpleStmt) : Mention.Clear x locals (st.mentions ++ ms) ↔
    (Locals.Bound x locals ∨ ¬st.Uses x) ∧
      Mention.Clear x (Locals.after st.action.declares? locals) ms := by
  obtain ⟨line, action⟩ := st
  cases action with
  | declare kind v =>
    have inert : ∀ m ∈ v.value.elim [] Expr.mentions ++ v.type.elim [] fun t => [.type t],
        m.IsInert := by
      refine List.forall_mem_append.2 ⟨?_, ?_⟩
      · cases v.value with
        | none => exact nofun
        | some e => exact e.inert
      · cases v.type with
        | none => exact nofun
        | some t => exact List.forall_mem_singleton.2 trivial
    have reads : SimpleStmt.Uses x ⟨line, .declare kind v⟩ ↔
        .variable_ x ∈ v.value.elim [] Expr.mentions ++ v.type.elim [] fun t => [.type t] := by
      simp [SimpleStmt.Uses, SimpleStmt.mentions, VarDecl.mentions]
    rw [reads]
    change Mention.Clear x locals (v.mentions ++ ms) ↔ _
    rw [VarDecl.mentions, List.append_assoc, Mention.clear_inert inert]
    refine and_congr_right fun _ => ?_
    exact Mention.clear_cons.trans (and_iff_right trivial)
  | assign op target value =>
    have inert : ∀ m ∈ target.elim [] Expr.mentions ++ value.mentions, m.IsInert := by
      refine List.forall_mem_append.2 ⟨?_, value.inert⟩
      cases target with
      | none => exact nofun
      | some e => exact e.inert
    exact Mention.clear_inert inert
  | increment op target => exact target.clear_iff
  | call callee => exact callee.clear_iff

theorem SimpleStmt.clear_elim (st? : Option SimpleStmt) :
    Mention.Clear x locals (st?.elim [] SimpleStmt.mentions ++ ms) ↔
      (Locals.Bound x locals ∨ ¬∃ st ∈ st?, st.Uses x) ∧
        Mention.Clear x (Locals.after (st?.bind fun st => st.action.declares?) locals) ms := by
  cases st? with
  | none => simp [Locals.after]
  | some st => simpa using st.clear_iff

/-! ### Statements -/

theorem SimpleStmt.mem_declared {header : Option SimpleStmt} :
    x ∈ SimpleStmt.declared header ↔ (header.bind fun st => st.action.declares?) = some x := by
  rw [SimpleStmt.declared, Option.mem_toList]

/-- A scope of its own. -/
theorem Mention.clear_scope {inner : List Mention} {found : Prop}
    (h : ∀ rest, Clear x ([] :: locals) (inner ++ .leave :: rest) ↔
      (Locals.Bound x ([] :: locals) ∨ ¬found) ∧ Clear x locals rest) :
    Clear x locals (.enter :: (inner ++ [.leave]) ++ ms) ↔
      (Locals.Bound x locals ∨ ¬found) ∧ Clear x locals ms := by
  rw [List.cons_append, List.append_assoc, clear_cons]
  refine (and_iff_right trivial).trans ((h ms).trans ?_)
  rw [Locals.bound_enter]

/-- A list of statements in a scope of its own. -/
theorem Mention.clear_block {body : List Stmt} {found : Prop}
    (h : ∀ (locals : List (List String)) (ms : List Mention), locals ≠ [] →
      (Clear x locals (Stmt.listMentions body ++ .leave :: ms) ↔
        (Locals.Bound x locals ∨ ¬found) ∧ Clear x locals.tail ms))
    (locals : List (List String)) (ms : List Mention) :
    Clear x locals (Stmt.blockMentions body ++ ms) ↔
      (Locals.Bound x locals ∨ ¬found) ∧ Clear x locals ms := by
  rw [Stmt.blockMentions]
  exact clear_scope fun rest => h ([] :: locals) rest (List.cons_ne_nil _ _)

mutual

theorem Stmt.clear_iff : ∀ (st : Stmt) (locals : List (List String)) (ms : List Mention),
    locals ≠ [] → (Mention.Clear x locals (st.mentions ++ ms) ↔
      (Locals.Bound x locals ∨ ¬st.Unbound .scan x) ∧
        Mention.Clear x (Locals.after st.declares? locals) ms)
  | .simple st, locals, ms, hn => by
    rw [Stmt.mentions, Stmt.Unbound]
    exact st.clear_iff
  | .ifElse _ cond body rest, locals, ms, hn => by
    rw [Stmt.mentions, Stmt.Unbound, List.append_assoc, List.append_assoc, cond.clear_iff,
      Mention.clear_block (Stmt.clear_list body) locals _, ElseChain.clear_iff rest locals _]
    change _ ↔ _ ∧ Mention.Clear x locals ms
    grind
  | .forLoop _ init cond update body, locals, ms, hn => by
    rw [Stmt.mentions, Stmt.Unbound]
    refine Mention.clear_scope fun rest => ?_
    have first : ([] :: locals) ≠ [] := List.cons_ne_nil _ _
    have second : Locals.after (init.bind fun st => st.action.declares?) ([] :: locals) ≠ [] :=
      Locals.after_ne_nil first
    rw [List.append_assoc, List.append_assoc, List.append_assoc, SimpleStmt.clear_elim,
      Expr.clear_elim, SimpleStmt.clear_elim, Mention.clear_block (Stmt.clear_list body), Mention.clear_cons,
      Locals.bound_after second, Locals.bound_after first, ← SimpleStmt.mem_declared,
      ← SimpleStmt.mem_declared]
    simp only [Mention.Fine, Mention.locals, Locals.tail_after, List.tail_cons, LoopScopes.scan,
      true_and]
    generalize (∃ st ∈ init, st.Uses x) = a, (∃ e ∈ cond, e.Uses x) = b,
      (∃ st ∈ update, st.Uses x) = c
    grind
  | .whileLoop _ cond body, locals, ms, hn => by
    rw [Stmt.mentions, Stmt.Unbound, List.append_assoc, cond.clear_iff, Mention.clear_block (Stmt.clear_list body) locals _]
    change _ ↔ _ ∧ Mention.Clear x locals ms
    grind
  | .loop _ body continuing, locals, ms, hn => by
    rw [Stmt.mentions, Stmt.Unbound, List.append_assoc, Mention.clear_block (Stmt.clear_list body) locals _,
      Stmt.clear_part continuing locals _]
    change _ ↔ _ ∧ Mention.Clear x locals ms
    simp only [LoopScopes.scan, false_and, not_false_eq_true, true_and]
    grind
  | .switch _ selector clauses, locals, ms, hn => by
    rw [Stmt.mentions, Stmt.Unbound, List.append_assoc, selector.clear_iff,
      SwitchClause.clear_iff clauses locals _]
    change _ ↔ _ ∧ Mention.Clear x locals ms
    grind
  | .block _ body, locals, ms, hn => by
    rw [Stmt.mentions, Stmt.Unbound]
    exact Mention.clear_block (Stmt.clear_list body) locals ms
  | .return_ _ value, locals, ms, hn => by
    rw [Stmt.mentions, Stmt.Unbound]
    exact Expr.clear_elim value
  | .breakIf _ cond, locals, ms, hn => by
    rw [Stmt.mentions, Stmt.Unbound]
    exact cond.clear_iff
  | .constAssert _ cond, locals, ms, hn => by
    rw [Stmt.mentions, Stmt.Unbound]
    exact cond.clear_iff
  | .break_ _, locals, ms, hn => by simp [Stmt.mentions, Stmt.Unbound, Stmt.declares?, Locals.after]
  | .continue_ _, locals, ms, hn => by simp [Stmt.mentions, Stmt.Unbound, Stmt.declares?, Locals.after]
  | .discard _, locals, ms, hn => by simp [Stmt.mentions, Stmt.Unbound, Stmt.declares?, Locals.after]

theorem Stmt.clear_list : ∀ (body : List Stmt) (locals : List (List String)) (ms : List Mention),
    locals ≠ [] → (Mention.Clear x locals (Stmt.listMentions body ++ .leave :: ms) ↔
      (Locals.Bound x locals ∨ ¬Stmt.ListUnbound .scan x body) ∧ Mention.Clear x locals.tail ms)
  | [], locals, ms, hn => by
    rw [Stmt.listMentions, Stmt.ListUnbound, List.nil_append, Mention.clear_cons]
    simp [Mention.Fine, Mention.locals]
  | st :: rest, locals, ms, hn => by
    rw [Stmt.listMentions, Stmt.ListUnbound, List.append_assoc, st.clear_iff locals _ hn,
      Stmt.clear_list rest _ ms (Locals.after_ne_nil hn), Locals.bound_after hn, Locals.tail_after]
    grind

theorem Stmt.clear_part : ∀ (body : Option (List Stmt)) (locals : List (List String))
    (ms : List Mention), Mention.Clear x locals (Stmt.continuingMentions body ++ ms) ↔
      (Locals.Bound x locals ∨ ¬Stmt.PartUnbound .scan x body) ∧ Mention.Clear x locals ms
  | none, locals, ms => by simp [Stmt.continuingMentions, Stmt.PartUnbound]
  | some body, locals, ms => by
    rw [Stmt.continuingMentions, ← Stmt.blockMentions, Stmt.PartUnbound]
    exact Mention.clear_block (Stmt.clear_list body) locals ms

theorem ElseChain.clear_iff : ∀ (rest : ElseChain) (locals : List (List String))
    (ms : List Mention), Mention.Clear x locals (rest.mentions ++ ms) ↔
      (Locals.Bound x locals ∨ ¬rest.Unbound .scan x) ∧ Mention.Clear x locals ms
  | .none, locals, ms => by simp [ElseChain.mentions, ElseChain.Unbound]
  | .else_ body, locals, ms => by
    rw [ElseChain.mentions, ← Stmt.blockMentions, ElseChain.Unbound]
    exact Mention.clear_block (Stmt.clear_list body) locals ms
  | .elseIf _ cond body rest, locals, ms => by
    rw [ElseChain.mentions, ← Stmt.blockMentions, ElseChain.Unbound, List.append_assoc,
      List.append_assoc, cond.clear_iff, Mention.clear_block (Stmt.clear_list body) locals _,
      ElseChain.clear_iff rest locals _]
    grind

theorem SwitchClause.clear_iff : ∀ (clauses : List SwitchClause) (locals : List (List String))
    (ms : List Mention), Mention.Clear x locals (SwitchClause.mentions clauses ++ ms) ↔
      (Locals.Bound x locals ∨ ¬SwitchClause.Unbound .scan x clauses) ∧ Mention.Clear x locals ms
  | [], locals, ms => by simp [SwitchClause.mentions, SwitchClause.Unbound]
  | .mk _ selectors _ body :: rest, locals, ms => by
    rw [SwitchClause.mentions, ← Stmt.blockMentions, SwitchClause.Unbound, List.append_assoc,
      List.append_assoc, Expr.clear_list, Mention.clear_block (Stmt.clear_list body) locals _,
      SwitchClause.clear_iff rest locals _]
    generalize (∃ e ∈ selectors, e.Uses x) = a
    grind

end

namespace BodyScan

variable {w : Watched} {s : BodyScan}

theorem mem_note_iff {watched found : List String} {name : String} :
    x ∈ note watched found name ↔ x ∈ found ∨ x = name ∧ x ∈ watched := by
  unfold note
  split
  · rename_i h
    rw [List.contains_iff_mem] at h
    rw [CallGraph.mem_addOnce]
    exact or_congr_right ⟨fun e => ⟨e, e ▸ h⟩, And.left⟩
  · rename_i h
    rw [List.contains_iff_mem] at h
    exact ⟨.inl, fun hx => hx.resolve_right fun e => h (e.1 ▸ e.2)⟩

/-- A mention adds the name if it is watched for and not hidden by a local name. -/
theorem mem_resources_step_iff (m : Mention) : x ∈ (step w s m).resources ↔
    x ∈ s.resources ∨ x ∈ w.resources ∧ ¬m.Fine [x] (fun _ => True) s.locals := by
  cases m with
  | variable_ name =>
    have shadowed : s.isShadowed name = true ↔ Locals.Bound name s.locals := by
      simp [isShadowed, Locals.Bound]
    rw [step_variable]
    simp only [Mention.Fine, Locals.Known, List.mem_singleton, not_or, not_not]
    split
    · rename_i h
      rw [shadowed] at h
      refine ⟨.inl, fun hx => hx.resolve_right ?_⟩
      rintro ⟨-, rfl, hfree⟩
      exact hfree h
    · rename_i h
      rw [shadowed] at h
      rw [mem_note_iff]
      refine or_congr_right ⟨fun e => ⟨e.2, e.1.symm, h⟩, fun e => ⟨e.2.1.symm, e.1⟩⟩
  | _ => simp [step, Mention.Fine]

/-- A scan adds the names that it meets where no local name holds. -/
theorem mem_resources_iff (ms : List Mention) : x ∈ (ms.foldl (step w) s).resources ↔
    x ∈ s.resources ∨ x ∈ w.resources ∧ ¬Mention.Clear x s.locals ms := by
  induction ms generalizing s with
  | nil => simp [Mention.Clear, Mention.Allowed]
  | cons m ms ih =>
    rw [List.foldl_cons, ih, mem_resources_step_iff, locals_step, Mention.clear_cons]
    grind

/-- What is found in a function stands unbound in its body. -/
theorem mem_ofFunction {f : Function} :
    x ∈ (ofFunction w f).resources ↔ x ∈ w.resources ∧ f.Unbound .scan x := by
  let signature : List Mention :=
    f.args.map (fun a => .type a.type) ++ (f.returnType.elim [] fun t => [.type t])
  have types : ∀ m ∈ signature, ∃ t, m = .type t := by
    refine List.forall_mem_append.2 ⟨List.forall_mem_map.2 fun a _ => ⟨_, rfl⟩, ?_⟩
    cases f.returnType with
    | none => exact nofun
    | some t => exact List.forall_mem_singleton.2 ⟨_, rfl⟩
  have inert : ∀ m ∈ signature, m.IsInert := fun m hm => by
    obtain ⟨t, rfl⟩ := types m hm
    trivial
  have unread : .variable_ x ∉ signature := fun hm => by
    obtain ⟨t, ht⟩ := types _ hm
    cases ht
  have clear : Mention.Clear x [f.args.map Field.name] f.mentions ↔
      x ∈ f.args.map Field.name ∨ ¬Stmt.ListUnbound .scan x f.body := by
    have body := Mention.clear_block (x := x) (Stmt.clear_list f.body) [f.args.map Field.name] []
    rw [List.append_nil] at body
    rw [Function.mentions, Mention.clear_inert inert, body]
    simp [Locals.Bound, unread, Mention.Clear, Mention.Allowed]
  rw [ofFunction, mem_resources_iff, clear, Function.Unbound, not_or, not_not]
  exact or_iff_right List.not_mem_nil

end BodyScan

end

/-! ## Where the scopes of a scan are those of a run -/

/-- What holds the name in loops with one kind of scopes holds it with the other, too. -/
def Stmt.Carries (a b : LoopScopes) (x : String) (_ : Surroundings) : Stmt → Prop
  | .forLoop _ _ _ update _ => b.update → x ∈ SimpleStmt.declared update → a.update
  | .loop _ body continuing =>
    b.continuing → x ∈ Stmt.declared body → a.continuing ∨ ¬Stmt.PartUnbound a x continuing
  | _ => True

section

variable {a b : LoopScopes} {x : String}

mutual

theorem Stmt.unbound_mono : ∀ (st : Stmt) (c : Surroundings), st.Everywhere (Stmt.Carries a b x) c →
    st.Unbound a x → st.Unbound b x
  | .simple _, c, h, hx => hx
  | .ifElse _ cond body rest, c, h, hx => by
    refine hx.imp_right (Or.imp ?_ ?_)
    · exact Stmt.unbound_mono_list body _ h.2.1
    · exact ElseChain.unbound_mono rest _ h.2.2
  | .forLoop _ init cond update body, c, h, hx => by
    refine hx.imp_right (And.imp_right (Or.imp_right (Or.imp_right ?_)))
    rintro ⟨hupdate, hbody⟩
    refine ⟨fun hd => hupdate ⟨h.1 hd.1 hd.2, hd.2⟩, ?_⟩
    exact Stmt.unbound_mono_list body _ h.2 hbody
  | .whileLoop _ cond body, c, h, hx => hx.imp_right (Stmt.unbound_mono_list body _ h.2)
  | .loop _ body continuing, c, h, hx => by
    refine Or.imp (Stmt.unbound_mono_list body _ h.2.1) ?_ hx
    rintro ⟨hd, hpart⟩
    refine ⟨fun hb => ?_, Stmt.unbound_mono_part continuing _ h.2.2 hpart⟩
    obtain ha | hnot := h.1 hb.1 hb.2
    · exact hd ⟨ha, hb.2⟩
    · exact hnot hpart
  | .switch _ selector clauses, c, h, hx => hx.imp_right (SwitchClause.unbound_mono clauses _ h.2)
  | .block _ body, c, h, hx => Stmt.unbound_mono_list body _ h.2 hx
  | .return_ _ _, c, h, hx => hx
  | .breakIf _ _, c, h, hx => hx
  | .constAssert _ _, c, h, hx => hx

theorem Stmt.unbound_mono_list : ∀ (body : List Stmt) (c : Surroundings),
    Stmt.AllEverywhere (Stmt.Carries a b x) c body →
    Stmt.ListUnbound a x body → Stmt.ListUnbound b x body
  | st :: rest, c, h, hx =>
    Or.imp (st.unbound_mono c h.1) (And.imp_right (Stmt.unbound_mono_list rest c h.2)) hx

theorem Stmt.unbound_mono_part : ∀ (body : Option (List Stmt)) (c : Surroundings),
    Stmt.PartEverywhere (Stmt.Carries a b x) c body →
    Stmt.PartUnbound a x body → Stmt.PartUnbound b x body
  | some body, c, h, hx => Stmt.unbound_mono_list body c h hx

theorem ElseChain.unbound_mono : ∀ (rest : ElseChain) (c : Surroundings),
    rest.Everywhere (Stmt.Carries a b x) c → rest.Unbound a x → rest.Unbound b x
  | .else_ body, _, h, hx => Stmt.unbound_mono_list body _ h hx
  | .elseIf _ _ body rest, _, h, hx =>
    hx.imp_right (Or.imp (Stmt.unbound_mono_list body _ h.1) (rest.unbound_mono _ h.2))

theorem SwitchClause.unbound_mono : ∀ (clauses : List SwitchClause) (c : Surroundings),
    SwitchClause.AllEverywhere (Stmt.Carries a b x) c clauses →
    SwitchClause.Unbound a x clauses → SwitchClause.Unbound b x clauses
  | .mk _ _ _ body :: rest, _, h, hx =>
    hx.imp_right (Or.imp (Stmt.unbound_mono_list body _ h.1) (SwitchClause.unbound_mono rest _ h.2))

end

/-- Where the names that hold carry over, so do those that stand unbound. -/
theorem Function.unbound_mono {p : Program} {f : Function}
    (h : f.Everywhere (Stmt.Carries a b x) p) (hx : f.Unbound a x) : f.Unbound b x :=
  ⟨hx.1, Stmt.unbound_mono_list f.body _ h hx.2⟩

end

/-! ## Functions that get to one another -/

/-- A function of the program calls another by name. -/
def Program.Calls (p : Program) (caller callee : String) : Prop :=
  ∃ f ∈ p.functions, f.name = caller ∧ .call callee ∈ f.mentions ∧
    callee ∈ p.functions.map Function.name

/-- A function gets to itself and to what the functions call that it gets to. -/
def Program.Reaches (p : Program) : String → String → Prop := Relation.ReflTransGen p.Calls

/-- A table of functions with different names holds what was entered for each. -/
theorem Table.find?_foldl_insert_iff {α : Type} {functions : List Function} (g : Function → α)
    (distinct : (functions.map Function.name).Nodup) {name : String} {v : α} :
    (functions.foldl (fun (t : Table α) f => t.insert f.name (g f)) []).find? name = some v ↔
      ∃ f ∈ functions, f.name = name ∧ g f = v := by
  suffices general : ∀ t : Table α,
      (functions.foldl (fun (t : Table α) f => t.insert f.name (g f)) t).find? name = some v ↔
        (∃ f ∈ functions, f.name = name ∧ g f = v) ∨
          name ∉ functions.map Function.name ∧ t.find? name = some v by
    rw [general, Table.find?_nil]
    simp
  induction functions with
  | nil => simp
  | cons f functions ih =>
    intro t
    rw [List.map_cons, List.nodup_cons] at distinct
    rw [List.foldl_cons, ih distinct.2, List.map_cons, List.mem_cons, not_or]
    by_cases hn : name = f.name
    · subst hn
      rw [find?_insert_self]
      have others : ¬∃ f' ∈ functions, f'.name = f.name ∧ g f' = v := by
        rintro ⟨f', hf', hname, -⟩
        exact distinct.1 (hname ▸ List.mem_map_of_mem hf')
      simp [others, distinct.1]
    · rw [find?_insert_of_ne _ _ hn]
      simp [hn, Ne.symm hn]

namespace CallGraph

theorem mem_of_foldl_callees {known : List String} {name : String} (ms : List Mention)
    (found : List String) (h : name ∈ ms.foldl (fun found m =>
      match m with
      | .call name => if known.contains name then addOnce found name else found
      | _ => found) found) : name ∈ found ∨ name ∈ known ∧ .call name ∈ ms := by
  induction ms generalizing found with
  | nil => exact .inl h
  | cons m ms ih =>
    obtain h | h := ih _ h
    · cases m with
      | call other =>
        dsimp only at h
        split at h
        · rename_i hk
          obtain h | rfl := mem_addOnce.1 h
          · exact .inl h
          · exact .inr ⟨List.contains_iff_mem.1 hk, List.mem_cons_self⟩
        · exact .inl h
      | _ => exact .inl h
    · exact .inr ⟨h.1, List.mem_cons_of_mem _ h.2⟩

theorem mem_callees_iff {known : List String} {f : Function} {name : String} :
    name ∈ callees known f ↔ name ∈ known ∧ .call name ∈ f.mentions :=
  ⟨fun h => (mem_of_foldl_callees f.mentions [] h).resolve_left List.not_mem_nil,
    fun h => mem_callees h.1 h.2⟩

theorem mem_direct_iff {p : Program} (distinct : (p.functions.map Function.name).Nodup)
    {caller callee : String} : callee ∈ (ofProgram p).direct caller ↔ p.Calls caller callee := by
  rw [direct, Program.Calls, ofProgram]
  constructor
  · intro h
    cases hfind : (p.functions.foldl (fun (g : CallGraph) f =>
        g.insert f.name (callees (p.functions.map Function.name) f)) []).find? caller with
    | none =>
      rw [hfind] at h
      cases h
    | some names =>
      rw [hfind] at h
      obtain ⟨f, hf, hname, rfl⟩ := (Table.find?_foldl_insert_iff _ distinct).1 hfind
      obtain ⟨known, called⟩ := mem_callees_iff.1 h
      exact ⟨f, hf, hname, called, known⟩
  · rintro ⟨f, hf, hname, called, known⟩
    rw [(Table.find?_foldl_insert_iff _ distinct).2 ⟨f, hf, hname, rfl⟩]
    exact mem_callees_iff.2 ⟨known, called⟩

theorem mem_transitive_ofProgram {p : Program} (distinct : (p.functions.map Function.name).Nodup)
    {start name : String} : name ∈ (ofProgram p).transitive start ↔ p.Reaches start name := by
  rw [mem_transitive_iff, Program.Reaches]
  have same : (fun a b => b ∈ (ofProgram p).direct a) = p.Calls :=
    funext fun a => funext fun b => propext (mem_direct_iff distinct)
  rw [same]

end CallGraph

/-! ## The resources of a function -/

namespace Reflection

theorem nodup_union {names more : List String} (h : names.Nodup) : (union names more).Nodup := by
  unfold union
  induction more generalizing names with
  | nil => exact h
  | cons x more ih =>
    refine ih ?_
    unfold CallGraph.addOnce
    split
    · exact h
    · rename_i hx
      rw [List.contains_iff_mem] at hx
      exact List.nodup_append.2 ⟨h, List.pairwise_singleton _ x, fun a ha b hb hab =>
        hx (List.mem_singleton.1 hb ▸ hab ▸ ha)⟩

theorem nodup_mentioned (watched : Watched) (p : Program) (name : String) :
    (mentioned watched p name).Nodup := by
  unfold mentioned
  exact List.foldlRecOn _ _ List.nodup_nil fun names h s _ => nodup_union h

/-- What is collected for a function is what the bodies mention of the functions that it gets to. -/
theorem mem_collected_iff (part : BodyScan → List String) {watched : Watched} {p : Program}
    {start x : String} (distinct : (p.functions.map Function.name).Nodup) :
    x ∈ collected part (CallGraph.ofProgram p) (scans watched p) start ↔
      ∃ g ∈ p.functions, p.Reaches start g.name ∧ x ∈ part (BodyScan.ofFunction watched g) := by
  rw [collected, mem_foldl_union, or_iff_right List.not_mem_nil]
  constructor
  · rintro ⟨scan, hscan, hx⟩
    obtain ⟨name, hname, hfind⟩ := List.mem_filterMap.1 hscan
    obtain ⟨g, hg, rfl, rfl⟩ := (Table.find?_foldl_insert_iff _ distinct).1 hfind
    rw [List.mem_reverse, CallGraph.mem_transitive_ofProgram distinct] at hname
    exact ⟨g, hg, hname, hx⟩
  · rintro ⟨g, hg, reaches, hx⟩
    refine ⟨BodyScan.ofFunction watched g, List.mem_filterMap.2 ⟨g.name, ?_, ?_⟩, hx⟩
    · rwa [List.mem_reverse, CallGraph.mem_transitive_ofProgram distinct]
    · exact (Table.find?_foldl_insert_iff _ distinct).2 ⟨g, hg, rfl, rfl⟩

/-- The names that are listed for a function, with the scopes of a scan. -/
theorem mem_mentioned_iff {watched : Watched} {p : Program} {start x : String}
    (distinct : (p.functions.map Function.name).Nodup) : x ∈ mentioned watched p start ↔
      x ∈ watched.resources ∧ ∃ g ∈ p.functions, p.Reaches start g.name ∧ g.Unbound .scan x := by
  refine (mem_collected_iff BodyScan.resources distinct).trans ?_
  simp only [BodyScan.mem_ofFunction]
  grind

/-- The resources of a function, each once, are those that stand unbound in the body of a function
that it gets to, with two exceptions. A name that the body of a `loop` declares may be listed
although it stands in the `continuing` part only, and a name that the update of a `for` declares may
be missing although the body of the `for` is run before. -/
theorem resources_unbound {p : Program} (distinct : (p.functions.map Function.name).Nodup)
    {l l' : Layouts} {r : Reflection} (h : (ofProgram p).run l = .ok (r, l')) :
    List.Forall₂ (fun f info => info.name = f.name ∧ info.resources.Nodup ∧ ∀ x,
      (x ∈ info.resources → x ∈ r.resources.map Resource.name ∧
        ((∀ g ∈ p.functions, p.Reaches f.name g.name → g.Everywhere (Stmt.Carries .scan .run x) p) →
          ∃ g ∈ p.functions, p.Reaches f.name g.name ∧ g.Unbound .run x)) ∧
      (x ∈ r.resources.map Resource.name → ∀ g ∈ p.functions, p.Reaches f.name g.name →
        g.Everywhere (Stmt.Carries .run .scan x) p → g.Unbound .run x → x ∈ info.resources))
      p.functions r.functions := by
  obtain ⟨watched, hwatched, described⟩ := ofProgram_gives l r l' h
  refine described.imp fun f info hf => ?_
  obtain ⟨hname, hresources⟩ := hf
  refine ⟨hname, hresources ▸ nodup_mentioned watched p f.name, fun x => ⟨fun hx => ?_, ?_⟩⟩
  · rw [hresources, mem_mentioned_iff distinct, hwatched] at hx
    obtain ⟨declared, g, hg, reaches, unbound⟩ := hx
    exact ⟨declared, fun carries => ⟨g, hg, reaches,
      Function.unbound_mono (carries g hg reaches) unbound⟩⟩
  · intro declared g hg reaches carries unbound
    rw [hresources, mem_mentioned_iff distinct, hwatched]
    exact ⟨declared, g, hg, reaches, Function.unbound_mono carries unbound⟩

/-! ### A name that a loop declares -/

/-- `@group(0) @binding(0) var<storage> x: u32;` and functions without parameters. -/
def storing (functions : List (String × List Stmt)) : Program where
  declarations := .value .var {
      name := "x", type := some (.named 0 [] "u32"), storage := some "storage", access := none
      value := none, line := 0
      attributes := [.mk "group" [.literal ⟨0, 0⟩ (.int 0 none)] 0,
        .mk "binding" [.literal ⟨0, 0⟩ (.int 0 none)] 0] } ::
    functions.map fun (name, body) => .function {
      name, args := [], returnType := none, returnAttributes := [], attributes := [], body
      startLine := 0, endLine := 0 }

/-- `let x = 1;` -/
def declaring : SimpleStmt :=
  ⟨0, .declare .let_ ⟨"x", none, none, none, some (.literal ⟨0, 0⟩ (.int 1 none)), [], 0⟩⟩

/-- `_ = x;` -/
def reading : Stmt := .simple ⟨0, .assign .plain none (.var ⟨0, 0⟩ "x")⟩

/-- The names that are listed for each function. -/
def listed (p : Program) : Option (List (List String) × List String) :=
  ((ofProgram p).run (Layouts.ofProgram p)).toOption.map fun (r, _) =>
    (r.functions.map FunctionInfo.resources, r.resources.map Resource.name)

theorem run_of_listed {p : Program} {found : List (List String) × List String}
    (h : listed p = some found) : ∃ r l', (ofProgram p).run (Layouts.ofProgram p) = .ok (r, l') ∧
      r.functions.map FunctionInfo.resources = found.1 ∧ r.resources.map Resource.name = found.2 := by
  unfold listed at h
  cases hrun : (ofProgram p).run (Layouts.ofProgram p) with
  | error f =>
    rw [hrun] at h
    cases h
  | ok found' =>
    rw [hrun] at h
    cases h
    exact ⟨_, _, rfl, rfl, rfl⟩

/-- `main` calls itself and then `read`, which reads the resource. -/
def recursing : Program :=
  storing [("main", [.simple ⟨0, .call (.call ⟨0, 0⟩ "main" [])⟩,
    .simple ⟨0, .call (.call ⟨0, 0⟩ "read" [])⟩]), ("read", [reading])]

theorem resources_unbound_recursing : (recursing.functions.map Function.name).Nodup ∧
    ∃ r l', (ofProgram recursing).run (Layouts.ofProgram recursing) = .ok (r, l') ∧
      ∃ info ∈ r.functions, info.name = "main" ∧ info.resources.Nodup ∧ "x" ∈ info.resources := by
  have distinct : (recursing.functions.map Function.name).Nodup := by decide
  have found : listed recursing = some ([["x"], ["x"]], ["x"]) := by cbv
  obtain ⟨r, l', hrun, -, hnames⟩ := run_of_listed found
  have lists := resources_unbound distinct hrun
  obtain ⟨main, read, hfunctions⟩ : ∃ main read, recursing.functions = [main, read] := ⟨_, _, rfl⟩
  have parts : main.name = "main" ∧ read.name = "read" ∧ read.args = [] ∧ read.body = [reading] ∧
      .call "read" ∈ main.mentions := by
    cases hfunctions
    refine ⟨rfl, rfl, rfl, rfl, ?_⟩
    simp [Function.mentions, Stmt.blockMentions, Stmt.listMentions, Stmt.mentions,
      SimpleStmt.mentions, Expr.mentions]
  obtain ⟨hmain, hread, hargs, hbody, calls⟩ := parts
  have reaches : recursing.Reaches main.name read.name :=
    .single ⟨main, by simp [hfunctions], rfl, hread ▸ calls, by simp [hfunctions]⟩
  rw [hfunctions] at lists
  generalize hinfos : r.functions = all at lists
  cases lists with
  | @cons _ info _ infos first _ =>
    have listedFirst : info ∈ r.functions := hinfos ▸ List.mem_cons_self
    refine ⟨distinct, r, l', hrun, info, listedFirst, first.1.trans hmain, first.2.1, ?_⟩
    refine (first.2.2 "x").2 (by simp [hnames]) read (by simp) reaches ?_ ?_
    · rw [Function.Everywhere, hbody]
      exact ⟨trivial, trivial⟩
    · rw [Function.Unbound, hargs, hbody]
      exact ⟨List.not_mem_nil, .inl (by simp [reading, Stmt.Unbound, SimpleStmt.Uses, SimpleStmt.mentions,
        Expr.mentions])⟩

/-- In `loop { let x = 1; continuing { _ = x; break if true; } }` the resource is listed although
`x` stands only where the local name holds; in `for (; ; let x = 1) { _ = x; }` it is missing. -/
theorem lists_bound_name :
    let bound : List Stmt := [.loop 0 [.simple declaring]
      (some [reading, .breakIf 0 (.literal ⟨0, 0⟩ (.bool true))])]
    let unbound : List Stmt := [.forLoop 0 none none (some declaring) [reading]]
    listed (storing [("main", bound)]) = some ([["x"]], ["x"]) ∧ ¬Stmt.ListUnbound .run "x" bound ∧
      listed (storing [("main", unbound)]) = some ([[]], ["x"]) ∧
      Stmt.ListUnbound .run "x" unbound := by
  intro bound unbound
  refine ⟨by cbv, ?_, by cbv, ?_⟩
  · simp [bound, Stmt.ListUnbound, Stmt.Unbound, Stmt.PartUnbound, LoopScopes.run, declaring, reading,
      SimpleStmt.Uses, SimpleStmt.mentions, VarDecl.mentions, Expr.mentions, Stmt.declared,
      Stmt.declares?, Action.declares?]
  · simp [unbound, Stmt.ListUnbound, Stmt.Unbound, LoopScopes.run, reading, SimpleStmt.Uses,
      SimpleStmt.mentions, Expr.mentions, SimpleStmt.declared]

end Reflection

end Wgsl
