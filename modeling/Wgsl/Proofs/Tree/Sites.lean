import Wgsl.Proofs.Const.Lexical
import Wgsl.Proofs.Tree.Nodes

/-! # Where the nodes of a body stand

Each node of a body with the constants that are in scope where it stands. A constant is in scope behind
its declaration, up to the end of the block, of the body of a `loop` or of the `for` with its header.

Whether a constant that is declared directly in a `loop` or in the header of a `for` is forgotten at
the end of that statement is left open: where it leaks, it is still known behind it.

* `Stmt.after`: the constants that are known behind a statement.
* `Stmt.sites`, `Function.sites`: the nodes with the constants known at each.
-/

namespace Wgsl
set_option autoImplicit false

/-- Constants in scope and one more. -/
def VarDecl.known (scope : Consts) (v : VarDecl) : Consts :=
  v.value.elim scope fun init => (v.name, init) :: scope

/-- The constants in scope behind a simple statement. -/
def SimpleStmt.after (scope : Consts) (s : SimpleStmt) : Consts :=
  match s.action with
  | .declare .const v => v.known scope
  | _ => scope

/-- The constants in scope behind an optional part of the header of a `for`. -/
def SimpleStmt.optionAfter (scope : Consts) (s? : Option SimpleStmt) : Consts :=
  s?.elim scope (SimpleStmt.after scope)

mutual

/-- The constants that are known behind a statement. -/
def Stmt.after (leaks : Bool) (scope : Consts) : Stmt → Consts
  | .simple s => s.after scope
  | .loop _ body _ => if leaks then Stmt.listAfter leaks scope body else scope
  | .forLoop _ init _ update _ =>
    if leaks then SimpleStmt.optionAfter (SimpleStmt.optionAfter scope init) update else scope
  | _ => scope

/-- The constants that are known behind statements in a row. -/
def Stmt.listAfter (leaks : Bool) (scope : Consts) : List Stmt → Consts
  | [] => scope
  | s :: rest => Stmt.listAfter leaks (Stmt.after leaks scope s) rest

end

/-- Nodes in one scope. -/
def nodesIn (scope : Consts) (ns : List Node) : List (Consts × Node) := ns.map (scope, ·)

mutual

/-- The nodes of a statement, each with the constants that are known where it stands. -/
def Stmt.sites (leaks : Bool) (scope : Consts) : Stmt → List (Consts × Node)
  | .simple s => nodesIn scope s.nodes
  | .ifElse _ condition body rest =>
    nodesIn scope condition.nodes ++ Stmt.listSites leaks scope body ++ ElseChain.sites leaks scope rest
  | .forLoop _ init condition update body =>
    let begun := SimpleStmt.optionAfter scope init
    let updated := SimpleStmt.optionAfter begun update
    nodesIn scope (init.elim [] SimpleStmt.nodes) ++ nodesIn begun (Expr.countNodes condition) ++
      nodesIn begun (update.elim [] SimpleStmt.nodes) ++ Stmt.listSites leaks updated body
  | .whileLoop _ condition body => nodesIn scope condition.nodes ++ Stmt.listSites leaks scope body
  | .loop _ body continuing =>
    Stmt.listSites leaks scope body ++
      Stmt.blockSites leaks (Stmt.listAfter leaks scope body) continuing
  | .switch _ selector clauses =>
    nodesIn scope selector.nodes ++ SwitchClause.listSites leaks scope clauses
  | .block _ body => Stmt.listSites leaks scope body
  | .return_ _ value => nodesIn scope (Expr.countNodes value)
  | .breakIf _ condition => nodesIn scope condition.nodes
  | .constAssert _ condition => nodesIn scope condition.nodes
  | .break_ _ => []
  | .continue_ _ => []
  | .discard _ => []

def Stmt.listSites (leaks : Bool) (scope : Consts) : List Stmt → List (Consts × Node)
  | [] => []
  | s :: rest => Stmt.sites leaks scope s ++ Stmt.listSites leaks (Stmt.after leaks scope s) rest

def Stmt.blockSites (leaks : Bool) (scope : Consts) : Option (List Stmt) → List (Consts × Node)
  | none => []
  | some body => Stmt.listSites leaks scope body

def ElseChain.sites (leaks : Bool) (scope : Consts) : ElseChain → List (Consts × Node)
  | .none => []
  | .else_ body => Stmt.listSites leaks scope body
  | .elseIf _ condition body rest =>
    nodesIn scope condition.nodes ++ Stmt.listSites leaks scope body ++ ElseChain.sites leaks scope rest

def SwitchClause.sites (leaks : Bool) (scope : Consts) : SwitchClause → List (Consts × Node)
  | .mk _ selectors _ body => nodesIn scope (Expr.listNodes selectors) ++ Stmt.listSites leaks scope body

def SwitchClause.listSites (leaks : Bool) (scope : Consts) : List SwitchClause → List (Consts × Node)
  | [] => []
  | c :: rest => SwitchClause.sites leaks scope c ++ SwitchClause.listSites leaks scope rest

end

/-- The nodes of the body of a function, each with the constants of the body that are known where it
stands. -/
def Function.sites (leaks : Bool) (f : Function) : List (Consts × Node) :=
  Stmt.listSites leaks [] f.body

/-! ## Rows of statements -/

variable {leaks : Bool} {scope : Consts}

theorem Stmt.listAfter_append (body body' : List Stmt) :
    listAfter leaks scope (body ++ body') = listAfter leaks (listAfter leaks scope body) body' := by
  induction body generalizing scope with
  | nil => rfl
  | cons s body ih => exact ih

theorem Stmt.listSites_append (body body' : List Stmt) :
    listSites leaks scope (body ++ body') =
      listSites leaks scope body ++ listSites leaks (listAfter leaks scope body) body' := by
  induction body generalizing scope with
  | nil => rfl
  | cons s body ih =>
    rw [List.cons_append, listSites, listSites, ih, List.append_assoc]
    rfl

/-! ## Every node has its site -/

@[simp] theorem nodes_nodesIn (ns : List Node) : (nodesIn scope ns).map Prod.snd = ns := by
  unfold nodesIn
  rw [List.map_map]
  exact List.map_id ns

mutual

theorem Stmt.nodes_sites : ∀ (scope : Consts) (s : Stmt), (s.sites leaks scope).map Prod.snd = s.nodes
  | _, .simple _ => nodes_nodesIn _
  | scope, .ifElse _ _ body rest => by
    simp [Stmt.sites, Stmt.nodes, Stmt.nodes_listSites scope body, ElseChain.nodes_sites scope rest]
  | _, .forLoop _ _ _ _ body => by
    simp [Stmt.sites, Stmt.nodes, Stmt.nodes_listSites _ body]
  | scope, .whileLoop _ _ body => by
    simp [Stmt.sites, Stmt.nodes, Stmt.nodes_listSites scope body]
  | scope, .loop _ body continuing => by
    simp [Stmt.sites, Stmt.nodes, Stmt.nodes_listSites scope body, Stmt.nodes_blockSites _ continuing]
  | scope, .switch _ _ clauses => by
    simp [Stmt.sites, Stmt.nodes, SwitchClause.nodes_listSites scope clauses]
  | scope, .block _ body => Stmt.nodes_listSites scope body
  | _, .return_ _ _ => nodes_nodesIn _
  | _, .breakIf _ _ => nodes_nodesIn _
  | _, .constAssert _ _ => nodes_nodesIn _
  | _, .break_ _ => rfl
  | _, .continue_ _ => rfl
  | _, .discard _ => rfl

theorem Stmt.nodes_listSites : ∀ (scope : Consts) (body : List Stmt),
    (Stmt.listSites leaks scope body).map Prod.snd = Stmt.listNodes body
  | _, [] => rfl
  | scope, s :: rest => by
    simp [Stmt.listSites, Stmt.listNodes, Stmt.nodes_sites scope s, Stmt.nodes_listSites _ rest]

theorem Stmt.nodes_blockSites : ∀ (scope : Consts) (body : Option (List Stmt)),
    (Stmt.blockSites leaks scope body).map Prod.snd = Stmt.blockNodes body
  | _, none => rfl
  | scope, some body => Stmt.nodes_listSites scope body

theorem ElseChain.nodes_sites : ∀ (scope : Consts) (rest : ElseChain),
    (rest.sites leaks scope).map Prod.snd = rest.nodes
  | _, .none => rfl
  | scope, .else_ body => Stmt.nodes_listSites scope body
  | scope, .elseIf _ _ body rest => by
    simp [ElseChain.sites, ElseChain.nodes, Stmt.nodes_listSites scope body,
      ElseChain.nodes_sites scope rest]

theorem SwitchClause.nodes_sites : ∀ (scope : Consts) (c : SwitchClause),
    (c.sites leaks scope).map Prod.snd = c.nodes
  | scope, .mk _ _ _ body => by
    simp [SwitchClause.sites, SwitchClause.nodes, Stmt.nodes_listSites scope body]

theorem SwitchClause.nodes_listSites : ∀ (scope : Consts) (clauses : List SwitchClause),
    (SwitchClause.listSites leaks scope clauses).map Prod.snd = SwitchClause.listNodes clauses
  | _, [] => rfl
  | scope, c :: rest => by
    simp [SwitchClause.listSites, SwitchClause.listNodes, SwitchClause.nodes_sites scope c,
      SwitchClause.nodes_listSites scope rest]

end

/-- The sites are those of all nodes of the body, whatever leaks. -/
theorem Function.nodes_sites (leaks : Bool) (f : Function) :
    (f.sites leaks).map Prod.snd = Stmt.listNodes f.body := Stmt.nodes_listSites [] f.body

theorem Function.exists_site {f : Function} {leaks' : Bool} {scope : Consts} {n : Node}
    (h : (scope, n) ∈ f.sites leaks) : ∃ known, (known, n) ∈ f.sites leaks' := by
  have found : n ∈ (f.sites leaks').map Prod.snd := by
    rw [f.nodes_sites leaks', ← f.nodes_sites leaks]
    exact List.mem_map_of_mem h
  obtain ⟨⟨known, _⟩, hmem, rfl⟩ := List.mem_map.1 found
  exact ⟨known, hmem⟩

end Wgsl
