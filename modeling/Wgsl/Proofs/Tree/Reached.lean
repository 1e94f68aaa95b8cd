import Mathlib.Logic.Basic
import Wgsl.Tree.Counts

/-! # The types that counts are entered into

Counts are entered into the types that a program names in its declarations, statements and
expressions, and into the elements and parameters of those types. The arguments of attributes, the
written count expressions and the selectors of `switch` clauses are left out.

* `Program.reached`: the types that are reached.
* `Program.reached_withCounts`: they are the types that counts are entered into.
-/

namespace Wgsl
set_option autoImplicit false

mutual

/-- A type, its element or parameter, and so on. -/
def TypeExpr.reached : TypeExpr → List TypeExpr
  | .named id attributes name => [.named id attributes name]
  | .template id attributes name param access space =>
    .template id attributes name param access space :: TypeExpr.paramReached param
  | .array id attributes element count countExpr =>
    .array id attributes element count countExpr :: TypeExpr.paramReached element

def TypeExpr.paramReached : Option TypeExpr → List TypeExpr
  | none => []
  | some t => TypeExpr.reached t

end

mutual

/-- The types named in an expression. -/
def Expr.reached : Expr → List TypeExpr
  | .literal _ _ => []
  | .var _ _ => []
  | .binary _ _ lhs rhs => Expr.reached lhs ++ Expr.reached rhs
  | .unary _ _ operand => Expr.reached operand
  | .call _ _ args => Expr.listReached args
  | .construct _ type args => type.reached ++ Expr.listReached args
  | .bitcast _ type value => type.reached ++ Expr.reached value
  | .index _ base i => Expr.reached base ++ Expr.reached i
  | .member _ base _ => Expr.reached base
  | .group _ inner => Expr.reached inner

def Expr.listReached : List Expr → List TypeExpr
  | [] => []
  | e :: rest => Expr.reached e ++ Expr.listReached rest

end

def Expr.optionReached (e? : Option Expr) : List TypeExpr := e?.elim [] Expr.reached

def VarDecl.reached (v : VarDecl) : List TypeExpr :=
  TypeExpr.paramReached v.type ++ Expr.optionReached v.value

def SimpleStmt.reached (s : SimpleStmt) : List TypeExpr :=
  match s.action with
  | .declare _ v => v.reached
  | .assign _ target value => Expr.optionReached target ++ value.reached
  | .increment _ target => target.reached
  | .call callee => callee.reached

def SimpleStmt.optionReached (s? : Option SimpleStmt) : List TypeExpr := s?.elim [] SimpleStmt.reached

mutual

/-- The types named in a statement. -/
def Stmt.reached : Stmt → List TypeExpr
  | .simple s => s.reached
  | .ifElse _ condition body rest =>
    condition.reached ++ Stmt.listReached body ++ ElseChain.reached rest
  | .forLoop _ init condition update body =>
    SimpleStmt.optionReached init ++ Expr.optionReached condition ++
      SimpleStmt.optionReached update ++ Stmt.listReached body
  | .whileLoop _ condition body => condition.reached ++ Stmt.listReached body
  | .loop _ body continuing => Stmt.listReached body ++ Stmt.blockReached continuing
  | .switch _ selector clauses => selector.reached ++ SwitchClause.listReached clauses
  | .block _ body => Stmt.listReached body
  | .return_ _ value => Expr.optionReached value
  | .breakIf _ condition => condition.reached
  | .constAssert _ condition => condition.reached
  | .break_ _ => []
  | .continue_ _ => []
  | .discard _ => []

def Stmt.listReached : List Stmt → List TypeExpr
  | [] => []
  | s :: rest => Stmt.reached s ++ Stmt.listReached rest

def Stmt.blockReached : Option (List Stmt) → List TypeExpr
  | none => []
  | some body => Stmt.listReached body

def ElseChain.reached : ElseChain → List TypeExpr
  | .none => []
  | .else_ body => Stmt.listReached body
  | .elseIf _ condition body rest =>
    condition.reached ++ Stmt.listReached body ++ ElseChain.reached rest

def SwitchClause.reached : SwitchClause → List TypeExpr
  | .mk _ _ _ body => Stmt.listReached body

def SwitchClause.listReached : List SwitchClause → List TypeExpr
  | [] => []
  | c :: rest => SwitchClause.reached c ++ SwitchClause.listReached rest

end

def Field.listReached (fields : List Field) : List TypeExpr := fields.flatMap fun f => f.type.reached

/-- The types named in a declaration. -/
def Declaration.reached : Declaration → List TypeExpr
  | .struct s => Field.listReached s.members
  | .alias_ a => a.type.reached
  | .value _ v => v.reached
  | .function f =>
    Field.listReached f.args ++ TypeExpr.paramReached f.returnType ++ Stmt.listReached f.body
  | .constAssert condition => condition.reached
  | .enable _ => []
  | .requires _ => []
  | .diagnostic _ _ => []

/-- The types that counts are entered into. -/
def Program.reached (p : Program) : List TypeExpr := p.declarations.flatMap Declaration.reached

/-! ## Rows -/

theorem Expr.listReached_eq (es : List Expr) : Expr.listReached es = es.flatMap Expr.reached := by
  induction es with
  | nil => rfl
  | cons e es ih => rw [Expr.listReached, ih, List.flatMap_cons]

theorem Stmt.listReached_eq (body : List Stmt) : Stmt.listReached body = body.flatMap Stmt.reached := by
  induction body with
  | nil => rfl
  | cons s body ih => rw [Stmt.listReached, ih, List.flatMap_cons]

theorem SwitchClause.listReached_eq (clauses : List SwitchClause) :
    SwitchClause.listReached clauses = clauses.flatMap SwitchClause.reached := by
  induction clauses with
  | nil => rfl
  | cons c clauses ih => rw [SwitchClause.listReached, ih, List.flatMap_cons]

/-! ## Entering counts -/

variable {counts : Counts}

mutual

theorem TypeExpr.reached_withCounts : ∀ t : TypeExpr,
    (t.withCounts counts).reached = t.reached.map (TypeExpr.withCounts counts)
  | .named _ _ _ => rfl
  | .template _ _ _ param _ _ => congrArg (_ :: ·) (TypeExpr.paramReached_withCounts param)
  | .array _ _ element _ _ => congrArg (_ :: ·) (TypeExpr.paramReached_withCounts element)

theorem TypeExpr.paramReached_withCounts : ∀ t? : Option TypeExpr,
    TypeExpr.paramReached (TypeExpr.paramWithCounts counts t?) =
      (TypeExpr.paramReached t?).map (TypeExpr.withCounts counts)
  | none => rfl
  | some t => TypeExpr.reached_withCounts t

end

mutual

theorem Expr.reached_withCounts : ∀ e : Expr,
    (e.withCounts counts).reached = e.reached.map (TypeExpr.withCounts counts)
  | .literal _ _ => rfl
  | .var _ _ => rfl
  | .binary _ _ lhs rhs => by
    rw [withCounts, reached, reached, Expr.reached_withCounts lhs, Expr.reached_withCounts rhs,
      List.map_append]
  | .unary _ _ operand => Expr.reached_withCounts operand
  | .call _ _ args => Expr.listReached_withCounts args
  | .construct _ type args => by
    rw [withCounts, reached, reached, type.reached_withCounts, Expr.listReached_withCounts args,
      List.map_append]
  | .bitcast _ type value => by
    rw [withCounts, reached, reached, type.reached_withCounts, Expr.reached_withCounts value,
      List.map_append]
  | .index _ base i => by
    rw [withCounts, reached, reached, Expr.reached_withCounts base, Expr.reached_withCounts i,
      List.map_append]
  | .member _ base _ => Expr.reached_withCounts base
  | .group _ inner => Expr.reached_withCounts inner

theorem Expr.listReached_withCounts : ∀ es : List Expr,
    Expr.listReached (Expr.listWithCounts counts es) =
      (Expr.listReached es).map (TypeExpr.withCounts counts)
  | [] => rfl
  | e :: rest => by
    rw [listWithCounts, listReached, listReached, Expr.reached_withCounts e,
      Expr.listReached_withCounts rest, List.map_append]

end

theorem TypeExpr.paramReached_map (t? : Option TypeExpr) :
    TypeExpr.paramReached (t?.map (TypeExpr.withCounts counts)) =
      (TypeExpr.paramReached t?).map (TypeExpr.withCounts counts) := by
  cases t? with
  | none => rfl
  | some t => exact t.reached_withCounts

theorem Expr.optionReached_map (e? : Option Expr) :
    Expr.optionReached (e?.map (Expr.withCounts counts)) =
      (Expr.optionReached e?).map (TypeExpr.withCounts counts) := by
  cases e? with
  | none => rfl
  | some e => exact e.reached_withCounts

theorem VarDecl.reached_withCounts (v : VarDecl) :
    (v.withCounts counts).reached = v.reached.map (TypeExpr.withCounts counts) := by
  rw [reached, reached, List.map_append]
  exact congrArg₂ _ (TypeExpr.paramReached_map v.type) (Expr.optionReached_map v.value)

theorem SimpleStmt.reached_withCounts (s : SimpleStmt) :
    (s.withCounts counts).reached = s.reached.map (TypeExpr.withCounts counts) := by
  obtain ⟨line, action⟩ := s
  cases action with
  | declare kind v => exact v.reached_withCounts
  | assign op target value =>
    rw [reached, reached, List.map_append]
    exact congrArg₂ _ (Expr.optionReached_map target) value.reached_withCounts
  | increment op target => exact target.reached_withCounts
  | call callee => exact callee.reached_withCounts

theorem SimpleStmt.optionReached_map (s? : Option SimpleStmt) :
    SimpleStmt.optionReached (s?.map (SimpleStmt.withCounts counts)) =
      (SimpleStmt.optionReached s?).map (TypeExpr.withCounts counts) := by
  cases s? with
  | none => rfl
  | some s => exact s.reached_withCounts

mutual

theorem Stmt.reached_withCounts : ∀ s : Stmt,
    (s.withCounts counts).reached = s.reached.map (TypeExpr.withCounts counts)
  | .simple s => s.reached_withCounts
  | .ifElse _ condition body rest => by
    rw [Stmt.withCounts, Stmt.reached, Stmt.reached, condition.reached_withCounts,
      Stmt.listReached_withCounts body, ElseChain.reached_withCounts rest, List.map_append, List.map_append]
  | .forLoop _ init condition update body => by
    rw [Stmt.withCounts, Stmt.reached, Stmt.reached, SimpleStmt.optionReached_map,
      Expr.optionReached_map, SimpleStmt.optionReached_map, Stmt.listReached_withCounts body,
      List.map_append, List.map_append, List.map_append]
  | .whileLoop _ condition body => by
    rw [Stmt.withCounts, Stmt.reached, Stmt.reached, condition.reached_withCounts,
      Stmt.listReached_withCounts body, List.map_append]
  | .loop _ body continuing => by
    rw [Stmt.withCounts, Stmt.reached, Stmt.reached, Stmt.listReached_withCounts body,
      Stmt.blockReached_withCounts continuing, List.map_append]
  | .switch _ selector clauses => by
    rw [Stmt.withCounts, Stmt.reached, Stmt.reached, selector.reached_withCounts,
      SwitchClause.listReached_withCounts clauses, List.map_append]
  | .block _ body => Stmt.listReached_withCounts body
  | .return_ _ value => Expr.optionReached_map value
  | .breakIf _ condition => condition.reached_withCounts
  | .constAssert _ condition => condition.reached_withCounts
  | .break_ _ => rfl
  | .continue_ _ => rfl
  | .discard _ => rfl

theorem Stmt.listReached_withCounts : ∀ body : List Stmt,
    Stmt.listReached (Stmt.listWithCounts counts body) =
      (Stmt.listReached body).map (TypeExpr.withCounts counts)
  | [] => rfl
  | s :: rest => by
    rw [Stmt.listWithCounts, Stmt.listReached, Stmt.listReached, Stmt.reached_withCounts s,
      Stmt.listReached_withCounts rest, List.map_append]

theorem Stmt.blockReached_withCounts : ∀ body : Option (List Stmt),
    Stmt.blockReached (Stmt.blockWithCounts counts body) =
      (Stmt.blockReached body).map (TypeExpr.withCounts counts)
  | none => rfl
  | some body => Stmt.listReached_withCounts body

theorem ElseChain.reached_withCounts : ∀ rest : ElseChain,
    (rest.withCounts counts).reached = rest.reached.map (TypeExpr.withCounts counts)
  | .none => rfl
  | .else_ body => Stmt.listReached_withCounts body
  | .elseIf _ condition body rest => by
    rw [ElseChain.withCounts, ElseChain.reached, ElseChain.reached, condition.reached_withCounts,
      Stmt.listReached_withCounts body, ElseChain.reached_withCounts rest, List.map_append, List.map_append]

theorem SwitchClause.reached_withCounts : ∀ c : SwitchClause,
    (c.withCounts counts).reached = c.reached.map (TypeExpr.withCounts counts)
  | .mk _ _ _ body => Stmt.listReached_withCounts body

theorem SwitchClause.listReached_withCounts : ∀ clauses : List SwitchClause,
    SwitchClause.listReached (SwitchClause.listWithCounts counts clauses) =
      (SwitchClause.listReached clauses).map (TypeExpr.withCounts counts)
  | [] => rfl
  | c :: rest => by
    rw [SwitchClause.listWithCounts, SwitchClause.listReached, SwitchClause.listReached,
      SwitchClause.reached_withCounts c, SwitchClause.listReached_withCounts rest, List.map_append]

end

theorem Field.listReached_map (fields : List Field) :
    Field.listReached (fields.map (Field.withCounts counts)) =
      (Field.listReached fields).map (TypeExpr.withCounts counts) := by
  induction fields with
  | nil => rfl
  | cons f fields ih =>
    rw [List.map_cons, listReached, List.flatMap_cons, listReached, List.flatMap_cons, List.map_append]
    exact congrArg₂ _ f.type.reached_withCounts ih

theorem Declaration.reached_withCounts (d : Declaration) :
    (d.withCounts counts).reached = d.reached.map (TypeExpr.withCounts counts) := by
  cases d with
  | struct s => exact Field.listReached_map s.members
  | alias_ a => exact a.type.reached_withCounts
  | value kind v => exact v.reached_withCounts
  | function f =>
    rw [withCounts, reached, reached, Field.listReached_map, TypeExpr.paramReached_map,
      Stmt.listReached_withCounts, List.map_append, List.map_append]
  | constAssert condition => exact condition.reached_withCounts
  | _ => rfl

/-- Entering counts reaches each of these types. -/
theorem Program.reached_withCounts (p : Program) :
    (p.withCounts counts).reached = p.reached.map (TypeExpr.withCounts counts) := by
  obtain ⟨declarations⟩ := p
  induction declarations with
  | nil => rfl
  | cons d declarations ih =>
    unfold withCounts reached at ih ⊢
    rw [List.map_cons, List.flatMap_cons, List.flatMap_cons, List.map_append, ih,
      d.reached_withCounts]

end Wgsl
