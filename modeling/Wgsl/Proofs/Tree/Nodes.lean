import Wgsl.Tree.Counts
import Wgsl.Tree.Mention

/-! # The nodes of a tree

Expressions and types are the nodes of a tree, those in the arguments of attributes and in count
expressions included. Whatever else a program is made of holds expressions and types and no other
nodes.

* `Expr.nodes`, `TypeExpr.nodes`: a node and all nodes inside it.
* `Program.nodes`: the nodes of a program.
* `Sound`: the number of a node is greater than the numbers of those inside it, and a plain name of a
  type is one of some names.
* `Program.nodes_withCounts`: entering counts moves no node.
* `Program.closed`: what lies inside a node of a program lies in the program.
-/

namespace Wgsl
set_option autoImplicit false

/-- What has a number of its own. -/
inductive Node where
  | expr (e : Expr)
  | type (t : TypeExpr)

def Node.id : Node → NodeId
  | .expr e => e.id
  | .type t => t.id

mutual

/-- An expression and the nodes inside it. -/
def Expr.nodes : Expr → List Node
  | .literal k value => [.expr (.literal k value)]
  | .var k name => [.expr (.var k name)]
  | .binary k op lhs rhs => .expr (.binary k op lhs rhs) :: (Expr.nodes lhs ++ Expr.nodes rhs)
  | .unary k op operand => .expr (.unary k op operand) :: Expr.nodes operand
  | .call k name args => .expr (.call k name args) :: Expr.listNodes args
  | .construct k type args =>
    .expr (.construct k type args) :: (TypeExpr.nodes type ++ Expr.listNodes args)
  | .bitcast k type value =>
    .expr (.bitcast k type value) :: (TypeExpr.nodes type ++ Expr.nodes value)
  | .index k base i => .expr (.index k base i) :: (Expr.nodes base ++ Expr.nodes i)
  | .member k base name => .expr (.member k base name) :: Expr.nodes base
  | .group k inner => .expr (.group k inner) :: Expr.nodes inner

def Expr.listNodes : List Expr → List Node
  | [] => []
  | e :: rest => Expr.nodes e ++ Expr.listNodes rest

/-- A type and the nodes inside it. -/
def TypeExpr.nodes : TypeExpr → List Node
  | .named id attributes name => .type (.named id attributes name) :: Attribute.listNodes attributes
  | .template id attributes name param access space =>
    .type (.template id attributes name param access space) ::
      (Attribute.listNodes attributes ++ TypeExpr.paramNodes param)
  | .array id attributes element count countExpr =>
    .type (.array id attributes element count countExpr) ::
      (Attribute.listNodes attributes ++ TypeExpr.paramNodes element ++ Expr.countNodes countExpr)

def TypeExpr.paramNodes : Option TypeExpr → List Node
  | none => []
  | some t => TypeExpr.nodes t

def Expr.countNodes : Option Expr → List Node
  | none => []
  | some e => Expr.nodes e

def Attribute.nodes : Attribute → List Node
  | .mk _ args _ => Expr.listNodes args

def Attribute.listNodes : List Attribute → List Node
  | [] => []
  | a :: rest => Attribute.nodes a ++ Attribute.listNodes rest

end

def Node.nodes : Node → List Node
  | .expr e => e.nodes
  | .type t => t.nodes

/-- The nodes inside a node. -/
def Node.nested (n : Node) : List Node := n.nodes.tail

theorem Node.nodes_eq (n : Node) : n.nodes = n :: n.nested := by
  cases n with
  | expr e => cases e <;> rfl
  | type t => cases t <;> rfl

theorem TypeExpr.mem_nodes (t : TypeExpr) : .type t ∈ t.nodes := by
  rw [show t.nodes = _ from (Node.type t).nodes_eq]
  exact List.mem_cons_self

@[simp] theorem Node.nested_expr (e : Expr) : (Node.expr e).nested = e.nodes.tail := rfl

@[simp] theorem Node.nested_type (t : TypeExpr) : (Node.type t).nested = t.nodes.tail := rfl

/-! ## Statements and declarations -/

def VarDecl.nodes (v : VarDecl) : List Node :=
  TypeExpr.paramNodes v.type ++ Expr.countNodes v.value ++ Attribute.listNodes v.attributes

def SimpleStmt.nodes (s : SimpleStmt) : List Node :=
  match s.action with
  | .declare _ v => v.nodes
  | .assign _ target value => Expr.countNodes target ++ value.nodes
  | .increment _ target => target.nodes
  | .call callee => callee.nodes

mutual

def Stmt.nodes : Stmt → List Node
  | .simple s => s.nodes
  | .ifElse _ condition body rest => condition.nodes ++ Stmt.listNodes body ++ ElseChain.nodes rest
  | .forLoop _ init condition update body =>
    init.elim [] SimpleStmt.nodes ++ Expr.countNodes condition ++ update.elim [] SimpleStmt.nodes ++
      Stmt.listNodes body
  | .whileLoop _ condition body => condition.nodes ++ Stmt.listNodes body
  | .loop _ body continuing => Stmt.listNodes body ++ Stmt.blockNodes continuing
  | .switch _ selector clauses => selector.nodes ++ SwitchClause.listNodes clauses
  | .block _ body => Stmt.listNodes body
  | .return_ _ value => Expr.countNodes value
  | .breakIf _ condition => condition.nodes
  | .constAssert _ condition => condition.nodes
  | .break_ _ => []
  | .continue_ _ => []
  | .discard _ => []

def Stmt.listNodes : List Stmt → List Node
  | [] => []
  | s :: rest => Stmt.nodes s ++ Stmt.listNodes rest

def Stmt.blockNodes : Option (List Stmt) → List Node
  | none => []
  | some body => Stmt.listNodes body

def ElseChain.nodes : ElseChain → List Node
  | .none => []
  | .else_ body => Stmt.listNodes body
  | .elseIf _ condition body rest => condition.nodes ++ Stmt.listNodes body ++ ElseChain.nodes rest

def SwitchClause.nodes : SwitchClause → List Node
  | .mk _ selectors _ body => Expr.listNodes selectors ++ Stmt.listNodes body

def SwitchClause.listNodes : List SwitchClause → List Node
  | [] => []
  | c :: rest => SwitchClause.nodes c ++ SwitchClause.listNodes rest

end

def Field.nodes (f : Field) : List Node := f.type.nodes ++ Attribute.listNodes f.attributes

def StructDecl.nodes (s : StructDecl) : List Node :=
  s.members.flatMap Field.nodes ++ Attribute.listNodes s.attributes

def Function.nodes (f : Function) : List Node :=
  f.args.flatMap Field.nodes ++ TypeExpr.paramNodes f.returnType ++
    Attribute.listNodes f.returnAttributes ++ Attribute.listNodes f.attributes ++
    Stmt.listNodes f.body

def Declaration.nodes : Declaration → List Node
  | .struct s => s.nodes
  | .alias_ a => a.type.nodes
  | .value _ v => v.nodes
  | .function f => f.nodes
  | .constAssert condition => condition.nodes
  | .enable _ => []
  | .requires _ => []
  | .diagnostic _ _ => []

def Program.nodes (p : Program) : List Node := p.declarations.flatMap Declaration.nodes

/-! ## Numbers -/

/-- The name of a type that is nothing but a name. -/
def Node.plainName? : Node → Option String
  | .type (.named _ _ name) => some name
  | _ => none

section

variable {names : String → Prop}

/-- The number is greater than those of the nodes inside, and a plain name is one of the names. -/
structure Node.Sound (names : String → Prop) (n : Node) : Prop where
  ordered : ∀ inner ∈ n.nested, inner.id < n.id
  plain : ∀ name, n.plainName? = some name → names name

/-- Every node is sound. -/
def Sound (names : String → Prop) (ns : List Node) : Prop := ∀ n ∈ ns, n.Sound names

@[simp] theorem sound_nil : Sound names [] := nofun

@[simp] theorem sound_append {ns ms : List Node} :
    Sound names (ns ++ ms) ↔ Sound names ns ∧ Sound names ms :=
  List.forall_mem_append

@[simp] theorem sound_cons {n : Node} {ns : List Node} :
    Sound names (n :: ns) ↔ n.Sound names ∧ Sound names ns :=
  List.forall_mem_cons

@[simp] theorem sound_reverse {α : Type} (nodes : α → List Node) (items : List α) :
    Sound names (items.reverse.flatMap nodes) ↔ Sound names (items.flatMap nodes) := by
  simp [Sound]

end

/-- How often a number is that of a node. -/
def tally (ns : List Node) (i : Nat) : Nat := (ns.map Node.id).count i

/-- One for one number and zero for all others. -/
def one (id i : Nat) : Nat := if id = i then 1 else 0

@[simp] theorem tally_nil (i : Nat) : tally [] i = 0 := rfl

@[simp] theorem tally_cons (n : Node) (ns : List Node) (i : Nat) :
    tally (n :: ns) i = one n.id i + tally ns i := by
  simp only [tally, one, List.map_cons, List.count_cons, beq_iff_eq]
  omega

@[simp] theorem tally_append (ns ms : List Node) (i : Nat) :
    tally (ns ++ ms) i = tally ns i + tally ms i := by
  simp only [tally, List.map_append, List.count_append]

theorem tally_pos {n : Node} {ns : List Node} (h : n ∈ ns) : 0 < tally ns n.id :=
  List.count_pos_iff.2 (List.mem_map_of_mem h)

theorem Expr.listNodes_eq (es : List Expr) : Expr.listNodes es = es.flatMap Expr.nodes := by
  induction es with
  | nil => rfl
  | cons e es ih => rw [Expr.listNodes, ih, List.flatMap_cons]

theorem Attribute.listNodes_eq (attributes : List Attribute) :
    Attribute.listNodes attributes = attributes.flatMap Attribute.nodes := by
  induction attributes with
  | nil => rfl
  | cons a attributes ih => rw [Attribute.listNodes, ih, List.flatMap_cons]

theorem Stmt.listNodes_eq (body : List Stmt) : Stmt.listNodes body = body.flatMap Stmt.nodes := by
  induction body with
  | nil => rfl
  | cons s body ih => rw [Stmt.listNodes, ih, List.flatMap_cons]

theorem SwitchClause.listNodes_eq (clauses : List SwitchClause) :
    SwitchClause.listNodes clauses = clauses.flatMap SwitchClause.nodes := by
  induction clauses with
  | nil => rfl
  | cons c clauses ih => rw [SwitchClause.listNodes, ih, List.flatMap_cons]

@[simp] theorem tally_reverse {α : Type} (nodes : α → List Node) (items : List α) (i : Nat) :
    tally (items.reverse.flatMap nodes) i = tally (items.flatMap nodes) i :=
  ((List.reverse_perm items).flatMap_right nodes |>.map Node.id).count_eq i

/-! ## Counts entered late -/

/-- The number of a node and its plain name. -/
def Node.label (n : Node) : NodeId × Option String := (n.id, n.plainName?)

/-- The label of a node and the numbers of those inside it. -/
def Node.outline (n : Node) : (NodeId × Option String) × List NodeId := (n.label, n.nested.map Node.id)

/-- Two lists of nodes with the same numbers and names, nested alike. -/
def SameOutline (ns ms : List Node) : Prop := ns.map Node.outline = ms.map Node.outline

theorem SameOutline.refl (ns : List Node) : SameOutline ns ns := rfl

theorem SameOutline.append {ns ns' ms ms' : List Node} (h : SameOutline ns ms)
    (h' : SameOutline ns' ms') : SameOutline (ns ++ ns') (ms ++ ms') := by
  unfold SameOutline at h h' ⊢
  rw [List.map_append, List.map_append, h, h']

theorem SameOutline.ids {ns ms : List Node} (h : SameOutline ns ms) :
    ns.map Node.id = ms.map Node.id := by
  have first := congrArg (List.map fun o => o.1.1) h
  rwa [List.map_map, List.map_map] at first

theorem SameOutline.cons {n m : Node} (hlabel : n.label = m.label) (h : SameOutline n.nested m.nested) :
    SameOutline (n :: n.nested) (m :: m.nested) := by
  have ids := h.ids
  unfold SameOutline at h ⊢
  rw [List.map_cons, List.map_cons, h, Node.outline, Node.outline, hlabel, ids]

theorem SameOutline.sound {names : String → Prop} {ns ms : List Node} (h : SameOutline ns ms)
    (ho : Sound names ms) : Sound names ns := by
  intro n hn
  have outlined : n.outline ∈ ms.map Node.outline := h ▸ List.mem_map_of_mem hn
  obtain ⟨m, hm, e⟩ := List.mem_map.1 outlined
  obtain ⟨hlabel, hnested⟩ := Prod.mk.inj e
  obtain ⟨hid, hname⟩ := Prod.mk.inj hlabel
  refine ⟨fun inner hinner => ?_, fun name hn => (ho m hm).plain name (hname.trans hn)⟩
  have within : inner.id ∈ m.nested.map Node.id := by
    rw [hnested]
    exact List.mem_map_of_mem hinner
  obtain ⟨inner', hinner', e'⟩ := List.mem_map.1 within
  have below := (ho m hm).ordered inner' hinner'
  rwa [e', hid] at below

variable {counts : Counts}

mutual

theorem Expr.nodes_withCounts : ∀ e : Expr, SameOutline (e.withCounts counts).nodes e.nodes
  | .literal _ _ => .refl _
  | .var _ _ => .refl _
  | .binary _ _ lhs rhs =>
    .cons rfl ((Expr.nodes_withCounts lhs).append (Expr.nodes_withCounts rhs))
  | .unary _ _ operand => .cons rfl (Expr.nodes_withCounts operand)
  | .call _ _ args => .cons rfl (Expr.nodes_listWithCounts args)
  | .construct _ type args =>
    .cons rfl (type.nodes_withCounts.append (Expr.nodes_listWithCounts args))
  | .bitcast _ type value => .cons rfl (type.nodes_withCounts.append (Expr.nodes_withCounts value))
  | .index _ base i => .cons rfl ((Expr.nodes_withCounts base).append (Expr.nodes_withCounts i))
  | .member _ base _ => .cons rfl (Expr.nodes_withCounts base)
  | .group _ inner => .cons rfl (Expr.nodes_withCounts inner)

theorem Expr.nodes_listWithCounts :
    ∀ es : List Expr, SameOutline (Expr.listNodes (Expr.listWithCounts counts es)) (Expr.listNodes es)
  | [] => .refl _
  | e :: rest => (Expr.nodes_withCounts e).append (Expr.nodes_listWithCounts rest)

theorem TypeExpr.nodes_withCounts : ∀ t : TypeExpr, SameOutline (t.withCounts counts).nodes t.nodes
  | .named _ _ _ => .refl _
  | .template _ _ _ param _ _ => .cons rfl ((SameOutline.refl _).append (TypeExpr.nodes_param param))
  | .array _ _ element _ _ =>
    .cons rfl (((SameOutline.refl _).append (TypeExpr.nodes_param element)).append (.refl _))

theorem TypeExpr.nodes_param : ∀ t? : Option TypeExpr,
    SameOutline (TypeExpr.paramNodes (TypeExpr.paramWithCounts counts t?)) (TypeExpr.paramNodes t?)
  | none => .refl _
  | some t => TypeExpr.nodes_withCounts t

end

theorem TypeExpr.nodes_map (t? : Option TypeExpr) :
    SameOutline (TypeExpr.paramNodes (t?.map (TypeExpr.withCounts counts)))
      (TypeExpr.paramNodes t?) := by
  cases t? with
  | none => exact .refl _
  | some t => exact t.nodes_withCounts

theorem Expr.nodes_map (e? : Option Expr) :
    SameOutline (Expr.countNodes (e?.map (Expr.withCounts counts))) (Expr.countNodes e?) := by
  cases e? with
  | none => exact .refl _
  | some e => exact e.nodes_withCounts

theorem VarDecl.nodes_withCounts (v : VarDecl) :
    SameOutline (v.withCounts counts).nodes v.nodes :=
  ((TypeExpr.nodes_map v.type).append (Expr.nodes_map v.value)).append (.refl _)

theorem SimpleStmt.nodes_withCounts (s : SimpleStmt) :
    SameOutline (s.withCounts counts).nodes s.nodes := by
  obtain ⟨line, action⟩ := s
  cases action with
  | declare kind v => exact v.nodes_withCounts
  | assign op target value => exact (Expr.nodes_map target).append value.nodes_withCounts
  | increment op target => exact target.nodes_withCounts
  | call callee => exact callee.nodes_withCounts

theorem SimpleStmt.nodes_map (s? : Option SimpleStmt) :
    SameOutline ((s?.map (SimpleStmt.withCounts counts)).elim [] SimpleStmt.nodes)
      (s?.elim [] SimpleStmt.nodes) := by
  cases s? with
  | none => exact .refl _
  | some s => exact s.nodes_withCounts

mutual

theorem Stmt.nodes_withCounts : ∀ s : Stmt, SameOutline (s.withCounts counts).nodes s.nodes
  | .simple s => s.nodes_withCounts
  | .ifElse _ condition body rest =>
    (condition.nodes_withCounts.append (Stmt.nodes_listWithCounts body)).append
      (ElseChain.nodes_withCounts rest)
  | .forLoop _ init condition update body =>
    (((SimpleStmt.nodes_map init).append (Expr.nodes_map condition)).append
      (SimpleStmt.nodes_map update)).append (Stmt.nodes_listWithCounts body)
  | .whileLoop _ condition body => condition.nodes_withCounts.append (Stmt.nodes_listWithCounts body)
  | .loop _ body continuing =>
    (Stmt.nodes_listWithCounts body).append (Stmt.nodes_blockWithCounts continuing)
  | .switch _ selector clauses =>
    selector.nodes_withCounts.append (SwitchClause.nodes_listWithCounts clauses)
  | .block _ body => Stmt.nodes_listWithCounts body
  | .return_ _ value => Expr.nodes_map value
  | .breakIf _ condition => condition.nodes_withCounts
  | .constAssert _ condition => condition.nodes_withCounts
  | .break_ _ => .refl _
  | .continue_ _ => .refl _
  | .discard _ => .refl _

theorem Stmt.nodes_listWithCounts :
    ∀ body : List Stmt, SameOutline (Stmt.listNodes (Stmt.listWithCounts counts body))
      (Stmt.listNodes body)
  | [] => .refl _
  | s :: rest => (Stmt.nodes_withCounts s).append (Stmt.nodes_listWithCounts rest)

theorem Stmt.nodes_blockWithCounts :
    ∀ body : Option (List Stmt), SameOutline (Stmt.blockNodes (Stmt.blockWithCounts counts body))
      (Stmt.blockNodes body)
  | none => .refl _
  | some body => Stmt.nodes_listWithCounts body

theorem ElseChain.nodes_withCounts :
    ∀ rest : ElseChain, SameOutline (rest.withCounts counts).nodes rest.nodes
  | .none => .refl _
  | .else_ body => Stmt.nodes_listWithCounts body
  | .elseIf _ condition body rest =>
    (condition.nodes_withCounts.append (Stmt.nodes_listWithCounts body)).append
      (ElseChain.nodes_withCounts rest)

theorem SwitchClause.nodes_withCounts :
    ∀ c : SwitchClause, SameOutline (c.withCounts counts).nodes c.nodes
  | .mk _ _ _ body => (SameOutline.refl _).append (Stmt.nodes_listWithCounts body)

theorem SwitchClause.nodes_listWithCounts :
    ∀ clauses : List SwitchClause,
      SameOutline (SwitchClause.listNodes (SwitchClause.listWithCounts counts clauses))
        (SwitchClause.listNodes clauses)
  | [] => .refl _
  | c :: rest => (SwitchClause.nodes_withCounts c).append (SwitchClause.nodes_listWithCounts rest)

end

theorem SameOutline.flatMap {α : Type} {nodes : α → List Node} {f : α → α}
    (h : ∀ a, SameOutline (nodes (f a)) (nodes a)) (items : List α) :
    SameOutline ((items.map f).flatMap nodes) (items.flatMap nodes) := by
  induction items with
  | nil => exact .refl _
  | cons a items ih =>
    rw [List.map_cons, List.flatMap_cons, List.flatMap_cons]
    exact (h a).append ih

theorem Field.nodes_withCounts (f : Field) : SameOutline (f.withCounts counts).nodes f.nodes :=
  f.type.nodes_withCounts.append (.refl _)

theorem Declaration.nodes_withCounts (d : Declaration) :
    SameOutline (d.withCounts counts).nodes d.nodes := by
  cases d with
  | struct s => exact (SameOutline.flatMap Field.nodes_withCounts s.members).append (.refl _)
  | alias_ a => exact a.type.nodes_withCounts
  | value kind v => exact v.nodes_withCounts
  | function f =>
    refine .append (.append (.append (.append ?_ ?_) (.refl _)) (.refl _)) ?_
    · exact SameOutline.flatMap Field.nodes_withCounts f.args
    · exact TypeExpr.nodes_map f.returnType
    · exact Stmt.nodes_listWithCounts f.body
  | constAssert condition => exact condition.nodes_withCounts
  | _ => exact .refl _

/-- Entering counts leaves every node its number and its place. -/
theorem Program.nodes_withCounts (p : Program) :
    SameOutline (p.withCounts counts).nodes p.nodes :=
  SameOutline.flatMap Declaration.nodes_withCounts p.declarations

/-! ## Nodes inside nodes -/

/-- With a node, the list holds the nodes inside it. -/
def Closed (ns : List Node) : Prop := ∀ n ∈ ns, n.nodes ⊆ ns

namespace Closed

variable {ns ms : List Node}

theorem nil : Closed [] := nofun

theorem append (h : Closed ns) (h' : Closed ms) : Closed (ns ++ ms) := by
  intro n hn
  obtain hn | hn := List.mem_append.1 hn
  · exact List.Subset.trans (h n hn) (List.subset_append_left ns ms)
  · exact List.Subset.trans (h' n hn) (List.subset_append_right ns ms)

theorem node {n : Node} (h : Closed n.nested) : Closed n.nodes := by
  intro m hm
  rw [n.nodes_eq] at hm ⊢
  obtain rfl | hm := List.mem_cons.1 hm
  · rw [m.nodes_eq]
    exact List.Subset.refl _
  · exact List.Subset.trans (h m hm) (List.subset_cons_self n _)

theorem flatMap {α : Type} {nodes : α → List Node} {items : List α} (h : ∀ a ∈ items, Closed (nodes a)) :
    Closed (items.flatMap nodes) := by
  intro n hn
  obtain ⟨a, ha, hn⟩ := List.mem_flatMap.1 hn
  exact fun m hm => List.mem_flatMap.2 ⟨a, ha, h a ha n hn hm⟩

end Closed

mutual

theorem Expr.closed : ∀ e : Expr, Closed e.nodes
  | .literal k value => Closed.node (n := .expr (.literal k value)) .nil
  | .var k name => Closed.node (n := .expr (.var k name)) .nil
  | .binary k op lhs rhs =>
    Closed.node (n := .expr (.binary k op lhs rhs)) (lhs.closed.append rhs.closed)
  | .unary k op operand => Closed.node (n := .expr (.unary k op operand)) operand.closed
  | .call k name args => Closed.node (n := .expr (.call k name args)) (Expr.list_closed args)
  | .construct k type args =>
    Closed.node (n := .expr (.construct k type args)) (type.closed.append (Expr.list_closed args))
  | .bitcast k type value =>
    Closed.node (n := .expr (.bitcast k type value)) (type.closed.append value.closed)
  | .index k base i => Closed.node (n := .expr (.index k base i)) (base.closed.append i.closed)
  | .member k base name => Closed.node (n := .expr (.member k base name)) base.closed
  | .group k inner => Closed.node (n := .expr (.group k inner)) inner.closed

theorem Expr.list_closed : ∀ es : List Expr, Closed (Expr.listNodes es)
  | [] => .nil
  | e :: rest => e.closed.append (Expr.list_closed rest)

theorem TypeExpr.closed : ∀ t : TypeExpr, Closed t.nodes
  | .named id attributes name =>
    Closed.node (n := .type (.named id attributes name)) (Attribute.list_closed attributes)
  | .template id attributes name param access space =>
    Closed.node (n := .type (.template id attributes name param access space))
      ((Attribute.list_closed attributes).append (TypeExpr.param_closed param))
  | .array id attributes element count countExpr =>
    Closed.node (n := .type (.array id attributes element count countExpr))
      (((Attribute.list_closed attributes).append (TypeExpr.param_closed element)).append
        (Expr.count_closed countExpr))

theorem TypeExpr.param_closed : ∀ t? : Option TypeExpr, Closed (TypeExpr.paramNodes t?)
  | none => .nil
  | some t => t.closed

theorem Expr.count_closed : ∀ e? : Option Expr, Closed (Expr.countNodes e?)
  | none => .nil
  | some e => e.closed

theorem Attribute.closed : ∀ a : Attribute, Closed a.nodes
  | .mk _ args _ => Expr.list_closed args

theorem Attribute.list_closed : ∀ attributes : List Attribute, Closed (Attribute.listNodes attributes)
  | [] => .nil
  | a :: rest => a.closed.append (Attribute.list_closed rest)

end

theorem VarDecl.closed (v : VarDecl) : Closed v.nodes :=
  ((TypeExpr.param_closed v.type).append (Expr.count_closed v.value)).append
    (Attribute.list_closed v.attributes)

theorem SimpleStmt.closed (s : SimpleStmt) : Closed s.nodes := by
  obtain ⟨line, action⟩ := s
  cases action with
  | declare kind v => exact v.closed
  | assign op target value => exact (Expr.count_closed target).append value.closed
  | increment op target => exact target.closed
  | call callee => exact callee.closed

theorem SimpleStmt.option_closed : ∀ s? : Option SimpleStmt, Closed (s?.elim [] SimpleStmt.nodes)
  | none => .nil
  | some s => s.closed

mutual

theorem Stmt.closed : ∀ s : Stmt, Closed s.nodes
  | .simple s => s.closed
  | .ifElse _ condition body rest =>
    (condition.closed.append (Stmt.list_closed body)).append rest.closed
  | .forLoop _ init condition update body =>
    (((SimpleStmt.option_closed init).append (Expr.count_closed condition)).append
      (SimpleStmt.option_closed update)).append (Stmt.list_closed body)
  | .whileLoop _ condition body => condition.closed.append (Stmt.list_closed body)
  | .loop _ body continuing => (Stmt.list_closed body).append (Stmt.block_closed continuing)
  | .switch _ selector clauses => selector.closed.append (SwitchClause.list_closed clauses)
  | .block _ body => Stmt.list_closed body
  | .return_ _ value => Expr.count_closed value
  | .breakIf _ condition => condition.closed
  | .constAssert _ condition => condition.closed
  | .break_ _ => .nil
  | .continue_ _ => .nil
  | .discard _ => .nil

theorem Stmt.list_closed : ∀ body : List Stmt, Closed (Stmt.listNodes body)
  | [] => .nil
  | s :: rest => s.closed.append (Stmt.list_closed rest)

theorem Stmt.block_closed : ∀ body : Option (List Stmt), Closed (Stmt.blockNodes body)
  | none => .nil
  | some body => Stmt.list_closed body

theorem ElseChain.closed : ∀ rest : ElseChain, Closed rest.nodes
  | .none => .nil
  | .else_ body => Stmt.list_closed body
  | .elseIf _ condition body rest =>
    (condition.closed.append (Stmt.list_closed body)).append rest.closed

theorem SwitchClause.closed : ∀ c : SwitchClause, Closed c.nodes
  | .mk _ selectors _ body => (Expr.list_closed selectors).append (Stmt.list_closed body)

theorem SwitchClause.list_closed : ∀ clauses : List SwitchClause, Closed (SwitchClause.listNodes clauses)
  | [] => .nil
  | c :: rest => c.closed.append (SwitchClause.list_closed rest)

end

theorem Field.closed (f : Field) : Closed f.nodes :=
  f.type.closed.append (Attribute.list_closed f.attributes)

theorem Declaration.closed (d : Declaration) : Closed d.nodes := by
  cases d with
  | struct s =>
    exact (Closed.flatMap fun m _ => m.closed).append (Attribute.list_closed s.attributes)
  | alias_ a => exact a.type.closed
  | value kind v => exact v.closed
  | function f =>
    refine .append (.append (.append (.append ?_ (TypeExpr.param_closed f.returnType))
      (Attribute.list_closed f.returnAttributes)) (Attribute.list_closed f.attributes))
      (Stmt.list_closed f.body)
    exact Closed.flatMap fun a _ => a.closed
  | constAssert condition => exact condition.closed
  | _ => exact .nil

/-- What lies inside a node of a program lies in the program. -/
theorem Program.closed (p : Program) : Closed p.nodes := Closed.flatMap fun d _ => d.closed

end Wgsl
