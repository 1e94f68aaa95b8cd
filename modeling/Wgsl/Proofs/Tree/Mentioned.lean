import Wgsl.Proofs.Tree.Nodes

/-! # The types that a tree mentions

A type is mentioned where it stands in the tree, so its nodes are nodes of the tree.

* `Spelled`: every mentioned type lies in a list of nodes.
* `Expr.spelled`, `Stmt.spelled`, `Function.spelled`: what a tree mentions lies in its nodes.
-/

namespace Wgsl
set_option autoImplicit false

/-- The nodes of every mentioned type are among the nodes. -/
def Spelled (ns : List Node) (ms : List Mention) : Prop := ∀ t, Mention.type t ∈ ms → t.nodes ⊆ ns

namespace Spelled

variable {ns ns' : List Node} {ms ms' : List Mention}

theorem nil : Spelled ns [] := nofun

theorem mono (h : Spelled ns ms) (hsub : ns ⊆ ns') : Spelled ns' ms :=
  fun t ht => List.Subset.trans (h t ht) hsub

theorem append (h : Spelled ns ms) (h' : Spelled ns' ms') : Spelled (ns ++ ns') (ms ++ ms') := by
  intro t ht
  obtain ht | ht := List.mem_append.1 ht
  · exact List.Subset.trans (h t ht) (List.subset_append_left ns ns')
  · exact List.Subset.trans (h' t ht) (List.subset_append_right ns ns')

/-- A node around what is mentioned. -/
theorem inside (n : Node) (h : Spelled ns ms) : Spelled (n :: ns) ms :=
  h.mono (List.subset_cons_self n ns)

theorem type (t : TypeExpr) : Spelled t.nodes [.type t] := by
  intro u hu
  cases List.mem_singleton.1 hu
  exact List.Subset.refl _

/-- Marks and names spell no type. -/
theorem cons {m : Mention} (hm : ∀ t, m ≠ .type t) (h : Spelled ns ms) : Spelled ns (m :: ms) := by
  intro t ht
  obtain ht | ht := List.mem_cons.1 ht
  · exact (hm t ht.symm).elim
  · exact h t ht

/-- What is mentioned in a scope. -/
theorem ofScope (h : Spelled ns ms) : Spelled ns (.enter :: (ms ++ [.leave])) := by
  have marked : Spelled (ns ++ []) (ms ++ [.leave]) := h.append (cons nofun nil)
  rw [List.append_nil] at marked
  exact cons nofun marked

end Spelled

/-! ## Expressions -/

mutual

theorem Expr.spelled : ∀ e : Expr, Spelled e.nodes e.mentions
  | .literal .. => .nil
  | .var .. => .cons nofun .nil
  | .binary _ _ lhs rhs => .inside _ (lhs.spelled.append rhs.spelled)
  | .unary _ _ operand => .inside _ operand.spelled
  | .call _ _ args => .inside _ (.cons nofun (Expr.list_spelled args))
  | .construct _ type args => .inside _ ((Spelled.type type).append (Expr.list_spelled args))
  | .bitcast _ type value => .inside _ ((Spelled.type type).append value.spelled)
  | .index _ base i => .inside _ (base.spelled.append i.spelled)
  | .member _ base _ => .inside _ base.spelled
  | .group _ inner => .inside _ inner.spelled

theorem Expr.list_spelled : ∀ es : List Expr, Spelled (Expr.listNodes es) (Expr.listMentions es)
  | [] => .nil
  | e :: rest => e.spelled.append (Expr.list_spelled rest)

end

theorem Expr.option_spelled (e? : Option Expr) :
    Spelled (Expr.countNodes e?) (e?.elim [] Expr.mentions) := by
  cases e? with
  | none => exact .nil
  | some e => exact e.spelled

theorem TypeExpr.option_spelled (t? : Option TypeExpr) :
    Spelled (TypeExpr.paramNodes t?) (t?.elim [] fun t => [.type t]) := by
  cases t? with
  | none => exact .nil
  | some t => exact .type t

/-! ## Statements -/

theorem VarDecl.spelled (v : VarDecl) : Spelled v.nodes v.mentions := by
  -- the initializer is met before the type, which is written first
  have parts := (Expr.option_spelled v.value).append (TypeExpr.option_spelled v.type)
  have named := parts.append (.cons nofun .nil : Spelled [] [.declare v.name])
  refine named.mono fun n hn => ?_
  simp only [List.append_nil, List.mem_append] at hn
  simp only [VarDecl.nodes, List.mem_append]
  exact .inl hn.symm

theorem SimpleStmt.spelled (s : SimpleStmt) : Spelled s.nodes s.mentions := by
  unfold SimpleStmt.nodes SimpleStmt.mentions
  cases s.action with
  | declare kind v => exact v.spelled
  | assign op target value => exact (Expr.option_spelled target).append value.spelled
  | increment op target => exact target.spelled
  | call callee => exact callee.spelled

theorem SimpleStmt.option_spelled : ∀ s? : Option SimpleStmt,
    Spelled (s?.elim [] SimpleStmt.nodes) (s?.elim [] SimpleStmt.mentions)
  | none => .nil
  | some s => s.spelled

mutual

theorem Stmt.spelled : ∀ s : Stmt, Spelled s.nodes s.mentions
  | .simple s => by
    rw [Stmt.nodes, Stmt.mentions]
    exact s.spelled
  | .ifElse _ condition body rest => by
    rw [Stmt.nodes, Stmt.mentions]
    exact (condition.spelled.append (Stmt.block_spelled body)).append rest.spelled
  | .forLoop _ init condition update body => by
    rw [Stmt.nodes, Stmt.mentions]
    have header := (SimpleStmt.option_spelled init).append (Expr.option_spelled condition)
    have loop := header.append (SimpleStmt.option_spelled update)
    exact (loop.append (Stmt.block_spelled body)).ofScope
  | .whileLoop _ condition body => by
    rw [Stmt.nodes, Stmt.mentions]
    exact condition.spelled.append (Stmt.block_spelled body)
  | .loop _ body continuing => by
    rw [Stmt.nodes, Stmt.mentions]
    exact (Stmt.block_spelled body).append (Stmt.continuing_spelled continuing)
  | .switch _ selector clauses => by
    rw [Stmt.nodes, Stmt.mentions]
    exact selector.spelled.append (SwitchClause.list_spelled clauses)
  | .block _ body => by
    rw [Stmt.nodes, Stmt.mentions]
    exact Stmt.block_spelled body
  | .return_ _ value => by
    rw [Stmt.nodes, Stmt.mentions]
    exact Expr.option_spelled value
  | .breakIf _ condition => by
    rw [Stmt.nodes, Stmt.mentions]
    exact condition.spelled
  | .constAssert _ condition => by
    rw [Stmt.nodes, Stmt.mentions]
    exact condition.spelled
  | .break_ _ => by
    rw [Stmt.mentions]
    exact .nil
  | .continue_ _ => by
    rw [Stmt.mentions]
    exact .nil
  | .discard _ => by
    rw [Stmt.mentions]
    exact .nil

theorem Stmt.list_spelled : ∀ body : List Stmt, Spelled (Stmt.listNodes body) (Stmt.listMentions body)
  | [] => by
    rw [Stmt.listMentions]
    exact .nil
  | s :: rest => by
    rw [Stmt.listNodes, Stmt.listMentions]
    exact s.spelled.append (Stmt.list_spelled rest)

theorem Stmt.block_spelled : ∀ body : List Stmt, Spelled (Stmt.listNodes body) (Stmt.blockMentions body)
  | body => by
    rw [Stmt.blockMentions]
    exact (Stmt.list_spelled body).ofScope

theorem Stmt.continuing_spelled : ∀ body : Option (List Stmt),
    Spelled (Stmt.blockNodes body) (Stmt.continuingMentions body)
  | none => by
    rw [Stmt.continuingMentions]
    exact .nil
  | some body => by
    rw [Stmt.blockNodes, Stmt.continuingMentions]
    exact (Stmt.list_spelled body).ofScope

theorem ElseChain.spelled : ∀ rest : ElseChain, Spelled rest.nodes rest.mentions
  | .none => by
    rw [ElseChain.mentions]
    exact .nil
  | .else_ body => by
    rw [ElseChain.nodes, ElseChain.mentions]
    exact (Stmt.list_spelled body).ofScope
  | .elseIf _ condition body rest => by
    rw [ElseChain.nodes, ElseChain.mentions]
    exact (condition.spelled.append (Stmt.list_spelled body).ofScope).append rest.spelled

theorem SwitchClause.list_spelled : ∀ clauses : List SwitchClause,
    Spelled (SwitchClause.listNodes clauses) (SwitchClause.mentions clauses)
  | [] => by
    rw [SwitchClause.mentions]
    exact .nil
  | .mk _ selectors _ body :: rest => by
    rw [SwitchClause.listNodes, SwitchClause.nodes, SwitchClause.mentions]
    have clause := (Expr.list_spelled selectors).append (Stmt.list_spelled body).ofScope
    exact clause.append (SwitchClause.list_spelled rest)

end

/-! ## Declarations -/

theorem Field.list_spelled (fields : List Field) :
    Spelled (fields.flatMap Field.nodes) (fields.map fun a => .type a.type) := by
  intro t ht n hn
  obtain ⟨a, ha, he⟩ := List.mem_map.1 ht
  cases he
  exact List.mem_flatMap.2 ⟨a, ha, List.mem_append_left _ hn⟩

theorem Function.spelled (f : Function) : Spelled f.nodes f.mentions := by
  have types := (Field.list_spelled f.args).append (TypeExpr.option_spelled f.returnType)
  refine (types.append (Stmt.block_spelled f.body)).mono fun n hn => ?_
  simp only [Function.nodes]
  obtain hn | hn := List.mem_append.1 hn
  · refine List.mem_append_left _ (List.mem_append_left _ (List.mem_append_left _ hn))
  · exact List.mem_append_right _ hn

/-- The nodes of the arguments of attributes are nodes. -/
theorem Attribute.nodes_subset {attributes : List Attribute} {a : Attribute} {e : Expr}
    (ha : a ∈ attributes) (he : e ∈ a.args) : e.nodes ⊆ Attribute.listNodes attributes := by
  intro n hn
  rw [Attribute.listNodes_eq]
  refine List.mem_flatMap.2 ⟨a, ha, ?_⟩
  obtain ⟨name, args, line⟩ := a
  rw [Attribute.nodes, Expr.listNodes_eq]
  exact List.mem_flatMap.2 ⟨e, he, hn⟩

namespace Program

variable {p : Program}

theorem nodes_subset {d : Declaration} (hd : d ∈ p.declarations) : d.nodes ⊆ p.nodes :=
  fun _ hn => List.mem_flatMap.2 ⟨d, hd, hn⟩

theorem mem_functions {f : Function} : f ∈ p.functions ↔ .function f ∈ p.declarations := by
  refine List.mem_filterMap.trans ⟨?_, fun h => ⟨_, h, rfl⟩⟩
  rintro ⟨d, hd, he⟩
  cases d with
  | function g =>
    cases he
    exact hd
  | _ => cases he

theorem mem_structs {s : StructDecl} : s ∈ p.structs ↔ .struct s ∈ p.declarations := by
  refine List.mem_filterMap.trans ⟨?_, fun h => ⟨_, h, rfl⟩⟩
  rintro ⟨d, hd, he⟩
  cases d with
  | struct s' =>
    cases he
    exact hd
  | _ => cases he

theorem mem_aliases {a : AliasDecl} : a ∈ p.aliases ↔ .alias_ a ∈ p.declarations := by
  refine List.mem_filterMap.trans ⟨?_, fun h => ⟨_, h, rfl⟩⟩
  rintro ⟨d, hd, he⟩
  cases d with
  | alias_ a' =>
    cases he
    exact hd
  | _ => cases he

theorem mem_values {kind : GlobalKind} {v : VarDecl} :
    v ∈ p.values kind ↔ .value kind v ∈ p.declarations := by
  refine List.mem_filterMap.trans ⟨?_, fun h => ⟨_, h, if_pos rfl⟩⟩
  rintro ⟨d, hd, he⟩
  cases d with
  | value k v' =>
    dsimp only at he
    split at he
    · rename_i hk
      cases he
      exact hk ▸ hd
    · cases he
  | _ => cases he

theorem nodes_subset_of_function {f : Function} (hf : f ∈ p.functions) : f.nodes ⊆ p.nodes :=
  nodes_subset (mem_functions.1 hf)

theorem nodes_subset_of_struct {s : StructDecl} (hs : s ∈ p.structs) : s.nodes ⊆ p.nodes :=
  nodes_subset (mem_structs.1 hs)

theorem nodes_subset_of_member {s : StructDecl} {m : Field} (hs : s ∈ p.structs) (hm : m ∈ s.members) :
    m.type.nodes ⊆ p.nodes := by
  refine List.Subset.trans (fun n hn => ?_) (nodes_subset_of_struct hs)
  exact List.mem_append_left _ (List.mem_flatMap.2 ⟨m, hm, List.mem_append_left _ hn⟩)

theorem nodes_subset_of_alias {a : AliasDecl} (ha : a ∈ p.aliases) : a.type.nodes ⊆ p.nodes :=
  nodes_subset (mem_aliases.1 ha)

end Program

end Wgsl
