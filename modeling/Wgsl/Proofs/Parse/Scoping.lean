import Wgsl.Proofs.Layout.Settled
import Wgsl.Proofs.Parse.Counting
import Wgsl.Proofs.Parse.Program

/-! # The counts of array types in bodies

Constants that are declared in a body are known behind the declaration up to the end of the block. Those
declared directly in a `loop` or in the header of a `for` stay known up to the end of the block that
holds the statement.

* `Late.SettlesSites`: the types of a body are settled over the constants known where they stand.
* `Parser.Scopes`: a parser for statements knows the constants behind them and settles their types.
-/

namespace Wgsl
set_option autoImplicit false

variable {L : Late} {constants : Table Expr} {scope : Consts}

/-! ## Sites -/

namespace Late

/-- The nodes are settled, each over the constants that are known where it stands. -/
def SettlesSites (L : Late) (constants : Table Expr) (sites : List (Consts × Node)) : Prop :=
  ∀ site ∈ sites, L.Settles (site.1.table constants) site.2

@[simp] theorem settlesSites_nil : L.SettlesSites constants [] := nofun

@[simp] theorem settlesSites_append {sites sites' : List (Consts × Node)} :
    L.SettlesSites constants (sites ++ sites') ↔
      L.SettlesSites constants sites ∧ L.SettlesSites constants sites' :=
  List.forall_mem_append

@[simp] theorem settlesSites_nodesIn {ns : List Node} :
    L.SettlesSites constants (nodesIn scope ns) ↔ L.SettlesAll (scope.table constants) ns :=
  List.forall_mem_map

/-- Statements with the counts entered. -/
def stmts (L : Late) (body : List Stmt) : List Stmt := Stmt.listWithCounts L.counts body

/-- A row of statements is settled. -/
def SettlesStmts (L : Late) (constants : Table Expr) (scope : Consts) (body : List Stmt) : Prop :=
  L.SettlesSites constants (Stmt.listSites true scope (L.stmts body))

/-- The constants that are known behind a row of statements. -/
def behind (L : Late) (constants : Table Expr) (scope : Consts) (body : List Stmt) : Table Expr :=
  (Stmt.listAfter true scope (L.stmts body)).table constants

theorem stmts_append (body body' : List Stmt) : L.stmts (body ++ body') = L.stmts body ++ L.stmts body' := by
  unfold stmts
  induction body with
  | nil => rfl
  | cons s body ih => exact congrArg _ ih

end Late

namespace Parser

variable {α β : Type} {known : Table Expr}

/-! ## Declarations of values -/

theorem leaves_typeAnnotation : Leaves L typeAnnotation known fun t? =>
    ∀ t, t? = some t → L.SettlesType known t := by
  refine (quiet_accept _).counted fun b => ?_
  split
  · exact leaves_typeExpr.bind fun t => leaves_pure fun ht u hu => by cases hu; exact ht
  · exact leaves_pure nofun

theorem leaves_initializer : Leaves L initializer known fun e? =>
    ∀ e, e? = some e → L.SettlesExpr known e := by
  refine (quiet_accept _).counted fun b => ?_
  split
  · exact leaves_expression.bind fun e => leaves_pure fun he u hu => by cases hu; exact he
  · exact leaves_pure nofun

/-- The nodes of a declared value with its counts entered. -/
theorem settles_varDecl {v : VarDecl} (ht : ∀ t, v.type = some t → L.SettlesType known t)
    (hv : ∀ e, v.value = some e → L.SettlesExpr known e)
    (ha : L.SettlesAttributes known v.attributes) : L.SettlesAll known (v.withCounts L.counts).nodes := by
  refine Late.settlesAll_append.2 ⟨Late.settlesAll_append.2 ⟨?_, ?_⟩, ha⟩
  · cases htype : v.type with
    | none =>
      rw [VarDecl.withCounts, htype]
      exact Late.settlesAll_nil
    | some t =>
      rw [VarDecl.withCounts, htype]
      exact (ht t htype).2
  · cases hvalue : v.value with
    | none =>
      rw [VarDecl.withCounts, hvalue]
      exact Late.settlesAll_nil
    | some e =>
      rw [VarDecl.withCounts, hvalue]
      exact (hv e hvalue).2

/-- The nodes of a parsed declaration of a value are settled. -/
abbrev LeavesValue (L : Late) (x : Parser VarDecl) (known : Table Expr) (attributes : List Attribute) :
    Prop :=
  Leaves L x known fun v => L.SettlesAttributes known attributes →
    L.SettlesAll known (v.withCounts L.counts).nodes

theorem leaves_varDecl (attributes : List Attribute) :
    LeavesValue L (varDecl attributes) known attributes := by
  refine (quiet_expect _ _).counted fun token => (quiet_accept _).counted fun b => ?_
  have rest : ∀ space : Option String × Option String, LeavesValue L (do
      let name ← identifier
      let type ← typeAnnotation
      let value ← initializer
      return { name, type, storage := space.1, access := space.2, value, attributes,
               line := token.line }) known attributes := by
    refine fun space => quiet_identifier.counted fun name => leaves_typeAnnotation.bind fun type => ?_
    exact leaves_initializer.bind fun value => leaves_pure fun hv ht ha => settles_varDecl ht hv ha
  split
  · refine quiet_identifier.counted fun storage => (quiet_accept _).counted fun b => ?_
    split
    · refine quiet_identifier.counted fun access => ?_
      rw [pure_bind]
      exact (quiet_expect _ _).counted fun _ => rest (some storage, some access)
    · rw [pure_bind]
      exact (quiet_expect _ _).counted fun _ => rest (some storage, none)
  · exact rest (none, none)

theorem leaves_constantDecl (attributes : List Attribute) :
    LeavesValue L (constantDecl attributes) known attributes := by
  refine quiet_advance.counted fun token => quiet_identifier.counted fun name => ?_
  refine leaves_typeAnnotation.bind fun type => (quiet_expect _ _).counted fun _ => ?_
  refine leaves_expression.bind fun value => leaves_pure fun hv ht ha => settles_varDecl ht ?_ ha
  intro e he
  cases he
  exact hv

theorem leaves_overrideDecl (attributes : List Attribute) :
    LeavesValue L (overrideDecl attributes) known attributes := by
  refine (quiet_expect _ _).counted fun token => quiet_identifier.counted fun name => ?_
  refine leaves_typeAnnotation.bind fun type => leaves_initializer.bind fun value => ?_
  exact leaves_pure fun hv ht ha => settles_varDecl ht hv ha

theorem recounted_insert {counts : Counts} {table table' : Table Expr}
    (h : Expr.Recounted counts table table') (name : String) (e : Expr) :
    Expr.Recounted counts (table.insert name e) (table'.insert name (e.withCounts counts)) := by
  intro other
  by_cases hn : other = name
  · rw [hn, Table.find?_insert_self, Table.find?_insert_self]
    rfl
  · rw [Table.find?_insert_of_ne _ _ hn, Table.find?_insert_of_ne _ _ hn]
    exact h other

/-- A noted constant is known from then on. -/
theorem counted_noteConstant (v : VarDecl) : Counted L (noteConstant v) (scope.table constants)
    (fun _ => ((v.withCounts L.counts).known scope).table constants) fun _ => True := by
  intro s u s' hs hrun
  unfold noteConstant at hrun
  cases hvalue : v.value with
  | none =>
    rw [hvalue] at hrun
    cases hrun
    rw [VarDecl.withCounts, VarDecl.known, hvalue]
    exact ⟨hs, fun hl => ⟨hl, trivial⟩⟩
  | some e =>
    rw [hvalue] at hrun
    cases hrun
    rw [VarDecl.withCounts, VarDecl.known, hvalue]
    exact ⟨⟨recounted_insert hs.constants v.name e, hs.numbered⟩, fun hl => ⟨hl, trivial⟩⟩

/-! ## Simple statements -/

/-- A simple statement with its counts entered: its nodes are settled over what is known in front of
it. -/
abbrev ScopesSimple (L : Late) (x : Parser SimpleStmt) (constants : Table Expr) (scope : Consts)
    (C : Prop) : Prop :=
  Counted L x (scope.table constants) (fun s => ((s.withCounts L.counts).after scope).table constants)
    fun s => C → L.SettlesAll (scope.table constants) (s.withCounts L.counts).nodes

theorem scopes_actionOn (target : Expr) (line : Nat) :
    ScopesSimple L (do return { line, action := ← actionOn target }) constants scope
      (L.SettlesExpr (scope.table constants) target) := by
  unfold actionOn
  rw [bind_assoc]
  refine quiet_peekKind.counted fun kind => ?_
  split
  · rw [bind_assoc]
    exact quiet_advance.counted fun _ => counted_pure rfl fun ht => ht.2
  · split
    · rw [bind_assoc]
      exact quiet_advance.counted fun _ => counted_pure rfl fun ht => ht.2
    · split
      · rw [bind_assoc]
        refine quiet_advance.counted fun _ => ?_
        rw [bind_assoc]
        refine leaves_expression.bind fun value => counted_pure rfl fun hv ht => ?_
        exact Late.settlesAll_append.2 ⟨ht.2, hv.2⟩
      · split
        · exact counted_pure rfl fun ht => ht.2
        · exact counted_pure rfl fun ht => ht.2
        · unfold failHere
          rw [bind_assoc]
          exact quiet_peek.counted fun _ => counted_failAt_bind _ _

theorem scopes_simpleStmt : ScopesSimple L simpleStmt constants scope True := by
  refine quiet_peek.counted fun token => ?_
  have unnoted : L.SettlesAttributes (scope.table constants) [] := Late.settlesAll_nil
  split
  · exact (leaves_varDecl []).bind fun v => counted_pure rfl fun hv _ => hv unnoted
  · exact (leaves_constantDecl []).bind fun v => counted_pure rfl fun hv _ => hv unnoted
  · refine (leaves_constantDecl []).bind fun v => (counted_noteConstant v).bind fun _ => ?_
    exact counted_pure rfl fun _ hv _ => hv unnoted
  · refine quiet_advance.counted fun _ => (quiet_expect _ _).counted fun _ => ?_
    exact leaves_expression.bind fun value => counted_pure rfl fun hv _ => hv.2
  · refine leaves_unary.bind fun target => (scopes_actionOn target token.line).imp fun s hs ht _ => hs ht

/-! ## Statements in blocks -/

/-- A parser for a statement, or for none: what is known behind it, and that its types are settled. -/
abbrev ScopesStmt (L : Late) (stmt : Parser (Option Stmt)) (constants : Table Expr) (scope : Consts) :
    Prop :=
  Counted L stmt (scope.table constants) (fun s? => L.behind constants scope s?.toList)
    fun s? => L.SettlesStmts constants scope s?.toList

theorem settlesStmts_append {body body' : List Stmt} (h : L.SettlesStmts constants scope body)
    (h' : L.SettlesStmts constants (Stmt.listAfter true scope (L.stmts body)) body') :
    L.SettlesStmts constants scope (body ++ body') := by
  unfold Late.SettlesStmts
  rw [Late.stmts_append, Stmt.listSites_append]
  exact Late.settlesSites_append.2 ⟨h, h'⟩

theorem behind_append (body body' : List Stmt) : L.behind constants scope (body ++ body') =
    L.behind constants (Stmt.listAfter true scope (L.stmts body)) body' := by
  unfold Late.behind
  rw [Late.stmts_append, Stmt.listAfter_append]

theorem reverse_toList_append (a? : Option α) (found : List α) :
    (a?.toList ++ found).reverse = found.reverse ++ a?.toList := by
  cases a? <;> simp

variable {stmt : Parser (Option Stmt)} (h : ∀ constants scope, ScopesStmt L stmt constants scope)

include h

theorem counted_statements : Counted L (statements stmt) (scope.table constants)
    (L.behind constants scope) (L.SettlesStmts constants scope) := by
  let known (body : List Stmt) : Table Expr := L.behind constants scope body.reverse
  let Kept (body : List Stmt) : Prop := L.SettlesStmts constants scope body.reverse
  have round : ∀ body, Counted L (do
      if (← check .braceRight) || (← atEnd) then return Step.done body
      return Step.next ((← stmt).toList ++ body)) (known body) (fun r => known r.value)
      fun r => Kept body → r.Meets Kept Kept := by
    refine fun body => (quiet_check _).counted fun closed => (quiet_check _).counted fun ended => ?_
    split
    · exact counted_pure rfl id
    · refine (h constants _).bind fun s? => counted_pure ?_ fun hs hb => ?_
      · exact ((congrArg _ (reverse_toList_append s? body)).trans (behind_append _ _)).symm
      · change L.SettlesStmts constants scope (s?.toList ++ body).reverse
        rw [reverse_toList_append]
        exact settlesStmts_append hb hs
  exact (counted_loop round).map (fun _ => rfl) fun body hb => hb Late.settlesSites_nil

/-- What a block makes known is forgotten at its end. -/
theorem leaves_compound : Leaves L (compound stmt) (scope.table constants) fun block =>
    L.SettlesStmts constants scope block.1 := by
  refine (quiet_expect _ _).counted fun _ => ?_
  intro s block s' hs hrun
  obtain ⟨_, _, hget, hrun⟩ := bind_ok hrun
  cases hget
  obtain ⟨body, s₁, hbody, hrun⟩ := bind_ok hrun
  obtain ⟨token, s₂, hclose, hrun⟩ := bind_ok hrun
  obtain ⟨⟨hid, hcontext⟩, -⟩ := quiet_expect _ _ _ _ _ hclose
  cases hrun
  obtain ⟨hs₁, hback⟩ := counted_statements h _ _ _ hs hbody
  refine ⟨⟨hs.constants, ?_⟩, fun hl => hback ?_⟩
  · change ∀ entry ∈ s₂.context.deferred, entry.1 < s₂.nextId
    rw [hcontext, hid]
    exact hs₁.numbered
  · obtain ⟨later, hlater, hids⟩ := hl
    refine ⟨later, ?_, ?_⟩
    · rw [← hcontext]
      exact hlater
    · rw [← hid]
      exact hids

theorem leaves_block : Leaves L (block stmt) (scope.table constants)
    (L.SettlesStmts constants scope) :=
  (leaves_compound h).map (fun _ => rfl) fun _ hb => hb

/-- A branch of an `if` chain is settled. -/
def SettlesBranch (L : Late) (constants : Table Expr) (scope : Consts) (b : Branch) : Prop :=
  L.SettlesExpr (scope.table constants) b.condition ∧ L.SettlesStmts constants scope b.body

/-- The end of an `if` chain is settled. -/
def SettlesElse (L : Late) (constants : Table Expr) (scope : Consts) (rest : ElseChain) : Prop :=
  L.SettlesSites constants ((rest.withCounts L.counts).sites true scope)

omit h in
theorem settlesElse_chainOf {branches : List Branch} {last : ElseChain}
    (hb : ∀ b ∈ branches, SettlesBranch L constants scope b) (hl : SettlesElse L constants scope last) :
    SettlesElse L constants scope (chainOf branches last) := by
  induction branches with
  | nil => exact hl
  | cons b branches ih =>
    obtain ⟨condition, body⟩ := hb b List.mem_cons_self
    refine Late.settlesSites_append.2 ⟨Late.settlesSites_append.2 ⟨?_, body⟩, ?_⟩
    · exact Late.settlesSites_nodesIn.2 condition.2
    · exact ih fun b hb' => hb b (List.mem_cons_of_mem _ hb')

theorem leaves_elseChain : Leaves L (elseChain stmt) (scope.table constants)
    (SettlesElse L constants scope) := by
  let Kept (read : List Branch × ElseChain) : Prop :=
    (∀ b ∈ read.1, SettlesBranch L constants scope b) ∧ SettlesElse L constants scope read.2
  have nothing : Kept ([], .none) := ⟨nofun, Late.settlesSites_nil⟩
  refine (leaves_loop_of nothing fun read => ?_).bind fun read => ?_
  · refine (quiet_accept _).counted fun b => ?_
    split
    · refine (quiet_check _).counted fun b => ?_
      split
      · refine quiet_advance.counted fun token => leaves_expression.bind fun condition => ?_
        refine (leaves_block h).bind fun body => leaves_pure fun hb hc hr => ⟨?_, hr.2⟩
        exact List.forall_mem_cons.2 ⟨⟨hc, hb⟩, hr.1⟩
      · exact (leaves_block h).bind fun body => leaves_pure fun hb hr => ⟨hr.1, hb⟩
    · exact leaves_pure id
  · refine leaves_pure fun hr => settlesElse_chainOf (fun b hb => ?_) hr.2
    exact hr.1 b (List.mem_reverse.1 hb)

omit h in
theorem leaves_caseSelectors : Leaves L caseSelectors known fun read => L.SettlesExprs known read.1 := by
  have nothing : L.SettlesExprs known [] := nofun
  refine leaves_loop_of nothing fun read => (quiet_accept _).counted fun b => ?_
  have rest : ∀ found : List Expr × Bool, Leaves L (do
      if ← accept .comma then
        if (← check .colon) || (← check .braceLeft) then return Step.done found
        else return Step.next found
      else return Step.done found) known fun r => r.value = found := by
    intro found
    refine (quiet_accept _).counted fun b => ?_
    split
    · refine (quiet_check _).counted fun colon => (quiet_check _).counted fun brace => ?_
      split <;> exact leaves_pure rfl
    · exact leaves_pure rfl
  dsimp only
  split
  · exact (rest (read.1, true)).imp fun r hr hread => hr ▸ hread
  · refine leaves_expression.bind fun e => ?_
    rw [pure_bind]
    refine (rest (e :: read.1, read.2)).imp fun r hr he hread => hr ▸ ?_
    exact List.forall_mem_cons.2 ⟨he, hread⟩

/-- A statement with its counts entered is settled. -/
def SettlesStmt (L : Late) (constants : Table Expr) (scope : Consts) (s : Stmt) : Prop :=
  L.SettlesSites constants ((s.withCounts L.counts).sites true scope)

def SettlesClause (L : Late) (constants : Table Expr) (scope : Consts) (c : SwitchClause) : Prop :=
  L.SettlesSites constants ((c.withCounts L.counts).sites true scope)

omit h in
theorem settlesClauses {clauses : List SwitchClause}
    (hc : ∀ c ∈ clauses, SettlesClause L constants scope c) : L.SettlesSites constants
      (SwitchClause.listSites true scope (SwitchClause.listWithCounts L.counts clauses)) := by
  induction clauses with
  | nil => exact Late.settlesSites_nil
  | cons c clauses ih =>
    refine Late.settlesSites_append.2 ⟨hc c List.mem_cons_self, ?_⟩
    exact ih fun c hmem => hc c (List.mem_cons_of_mem _ hmem)

theorem leaves_switchClause : Leaves L (switchClause stmt) (scope.table constants)
    (SettlesClause L constants scope) := by
  refine quiet_peek.counted fun token => (quiet_accept _).counted fun b => ?_
  have rest : ∀ read : List Expr × Bool, Leaves L (do
      let _ ← accept .colon
      let body ← block stmt
      return .mk token.line read.1.reverse read.2 body) (scope.table constants) fun c =>
        L.SettlesExprs (scope.table constants) read.1 → SettlesClause L constants scope c := by
    refine fun read => (quiet_accept _).counted fun _ => (leaves_block h).bind fun body => ?_
    refine leaves_pure fun hb hr => Late.settlesSites_append.2 ⟨Late.settlesSites_nodesIn.2 ?_, hb⟩
    exact (Late.settlesExprs_nodes fun e he => hr e (List.mem_reverse.1 he)).1
  split
  · exact (rest ([], true)).imp fun c hc => hc nofun
  · exact (quiet_expect _ _).counted fun _ => leaves_caseSelectors.bind rest

theorem scopes_ifStmt (line : Nat) : Counted L (ifStmt line stmt) (scope.table constants)
    (fun s => L.behind constants scope [s]) (SettlesStmt L constants scope) := by
  refine (quiet_expect _ _).counted fun _ => leaves_expression.bind fun condition => ?_
  refine (leaves_block h).bind fun body => (leaves_elseChain h).bind fun rest => ?_
  refine counted_pure rfl fun hr hb hc => ?_
  refine Late.settlesSites_append.2 ⟨Late.settlesSites_append.2 ⟨?_, hb⟩, hr⟩
  exact Late.settlesSites_nodesIn.2 hc.2

theorem scopes_switchStmt (line : Nat) : Counted L (switchStmt line stmt) (scope.table constants)
    (fun s => L.behind constants scope [s]) (SettlesStmt L constants scope) := by
  refine (quiet_expect _ _).counted fun _ => leaves_expression.bind fun selector => ?_
  refine leaves_attributes.bind fun _ => (quiet_expect _ _).counted fun _ => ?_
  let Kept (clauses : List SwitchClause) : Prop := ∀ c ∈ clauses, SettlesClause L constants scope c
  have nothing : Kept [] := nofun
  refine (leaves_loop_of nothing fun clauses => ?_).bind fun clauses => ?_
  · refine (quiet_check _).counted fun closed => (quiet_check _).counted fun ended => ?_
    split
    · exact leaves_pure id
    · refine (leaves_switchClause h).bind fun c => leaves_pure fun hc hs => ?_
      exact List.forall_mem_cons.2 ⟨hc, hs⟩
  · refine (quiet_expect _ _).counted fun _ => counted_pure rfl fun hc _ hs => ?_
    refine Late.settlesSites_append.2 ⟨Late.settlesSites_nodesIn.2 hs.2, ?_⟩
    exact settlesClauses fun c hmem => hc c (List.mem_reverse.1 hmem)

/-- What is declared directly in a loop stays known behind it. -/
theorem scopes_loopStmt (line : Nat) : Counted L (loopStmt line stmt) (scope.table constants)
    (fun s => L.behind constants scope [s]) (SettlesStmt L constants scope) := by
  refine (quiet_expect _ _).counted fun _ => leaves_attributes.bind fun _ => ?_
  refine (quiet_expect _ _).counted fun _ => ?_
  let known (read : List Stmt × Option (List Stmt)) : Table Expr :=
    L.behind constants scope read.1.reverse
  -- a `continuing` block is the last thing in a loop
  let Open (read : List Stmt × Option (List Stmt)) : Prop :=
    read.2 = none ∧ L.SettlesStmts constants scope read.1.reverse
  let Read (read : List Stmt × Option (List Stmt)) : Prop :=
    L.SettlesStmts constants scope read.1.reverse ∧ L.SettlesSites constants
      (Stmt.blockSites true (Stmt.listAfter true scope (L.stmts read.1.reverse))
        (Stmt.blockWithCounts L.counts read.2))
  have round : ∀ read, Counted L (do
      if (← check .braceRight) || (← atEnd) then return Step.done read
      if ← accept .kwContinuing then return Step.done (read.1, some (← block stmt))
      return Step.next ((← stmt).toList ++ read.1, read.2)) (known read) (fun r => known r.value)
      fun r => Open read → r.Meets Open Read := by
    intro read
    refine (quiet_check _).counted fun closed => (quiet_check _).counted fun ended => ?_
    split
    · refine counted_pure rfl fun ⟨hnone, hb⟩ => ⟨hb, ?_⟩
      rw [hnone]
      exact Late.settlesSites_nil
    · refine (quiet_accept _).counted fun b => ?_
      split
      · exact (leaves_block h).bind fun body => counted_pure rfl fun hb ⟨_, hr⟩ => ⟨hr, hb⟩
      · refine (h constants _).bind fun s? => counted_pure ?_ fun hs ⟨hnone, hb⟩ => ⟨hnone, ?_⟩
        · exact ((congrArg _ (reverse_toList_append s? read.1)).trans (behind_append _ _)).symm
        · change L.SettlesStmts constants scope (s?.toList ++ read.1).reverse
          rw [reverse_toList_append]
          exact settlesStmts_append hb hs
  refine (counted_loop round).bind fun read => (quiet_expect _ _).counted fun _ => ?_
  refine counted_pure rfl fun hr _ => ?_
  obtain ⟨body, continuing⟩ := hr ⟨rfl, Late.settlesSites_nil⟩
  exact Late.settlesSites_append.2 ⟨body, continuing⟩

omit h in
theorem counted_headerPart {part : Parser α} {after : α → Table Expr} {P : α → Prop}
    (hp : Counted L part known after P) (close : TokenKind) (purpose : String) :
    Counted L (headerPart close purpose part) known (fun found => found.elim known after)
      fun found => ∀ a, found = some a → P a := by
  refine (quiet_check _).counted fun b => ?_
  split
  · rw [pure_bind]
    exact (quiet_expect _ _).counted fun _ => counted_pure rfl nofun
  · refine hp.bind fun a => ?_
    rw [pure_bind]
    refine (quiet_expect _ _).counted fun _ => counted_pure rfl fun ha b hb => ?_
    cases hb
    exact ha

omit h in
/-- An optional simple statement in the header of a `for`. -/
theorem scopes_headerPart (close : TokenKind) (purpose : String) :
    Counted L (headerPart close purpose simpleStmt) (scope.table constants)
      (fun found => (SimpleStmt.optionAfter scope
        (found.map (SimpleStmt.withCounts L.counts))).table constants)
      fun found => L.SettlesAll (scope.table constants)
        ((found.map (SimpleStmt.withCounts L.counts)).elim [] SimpleStmt.nodes) := by
  intro s found s' hs hrun
  obtain ⟨hs', hback⟩ := counted_headerPart scopes_simpleStmt close purpose s found s' hs hrun
  cases found with
  | none => exact ⟨hs', fun hl => ⟨(hback hl).1, Late.settlesAll_nil⟩⟩
  | some init => exact ⟨hs', fun hl => ⟨(hback hl).1, (hback hl).2 init rfl trivial⟩⟩

/-- What is declared in the header of a `for` stays known behind it. -/
theorem scopes_forStmt (line : Nat) : Counted L (forStmt line stmt) (scope.table constants)
    (fun s => L.behind constants scope [s]) (SettlesStmt L constants scope) := by
  refine (quiet_expect _ _).counted fun _ => (quiet_expect _ _).counted fun _ => ?_
  refine (scopes_headerPart _ _).bind fun init => ?_
  refine (counted_headerPart leaves_expression _ _).bind fun condition => ?_
  have unchanged : ∀ known : Table Expr, condition.elim known (fun _ => known) = known := by
    intro known
    cases condition <;> rfl
  rw [unchanged]
  refine (scopes_headerPart _ _).bind fun update => (leaves_block h).bind fun body => ?_
  refine counted_pure rfl fun hb hu hc hi => ?_
  refine Late.settlesSites_append.2 ⟨Late.settlesSites_append.2 ⟨Late.settlesSites_append.2 ⟨?_, ?_⟩, ?_⟩, hb⟩
  · exact Late.settlesSites_nodesIn.2 hi
  · refine Late.settlesSites_nodesIn.2 ?_
    cases condition with
    | none => exact Late.settlesAll_nil
    | some e => exact (hc e rfl).2
  · exact Late.settlesSites_nodesIn.2 hu

omit h in
/-- A statement with a semicolon behind it. -/
theorem scopes_ended {s : Stmt} {P : Prop} (purpose : String)
    (hbehind : L.behind constants scope [s] = known) (hs : P → SettlesStmt L constants scope s) :
    Counted L (do
      let _ ← expect .semicolon purpose
      return some s) known (fun s? => L.behind constants scope s?.toList)
      fun s? => P → L.SettlesStmts constants scope s?.toList := by
  refine (quiet_expect _ _).counted fun _ => counted_pure hbehind.symm fun hp => ?_
  exact Late.settlesSites_append.2 ⟨hs hp, Late.settlesSites_nil⟩

theorem scopes_stmtStep : ScopesStmt L (stmtStep stmt) constants scope := by
  have wrapped : ∀ {x : Parser Stmt}, Counted L x (scope.table constants)
      (fun s => L.behind constants scope [s]) (SettlesStmt L constants scope) →
      Counted L (some <$> x) (scope.table constants) (fun s? => L.behind constants scope s?.toList)
        fun s? => L.SettlesStmts constants scope s?.toList := fun hx =>
    hx.map (fun _ => rfl) fun s hs => Late.settlesSites_append.2 ⟨hs, Late.settlesSites_nil⟩
  refine leaves_attributes.bind fun _ => quiet_peek.counted fun token => ?_
  extract_lets line ended
  refine Counted.imp ?_ fun s? hs _ => hs
  split
  · exact quiet_advance.counted fun _ => counted_pure rfl Late.settlesSites_nil
  · refine quiet_advance.counted fun _ => (quiet_check _).counted fun b => ?_
    split
    · exact (scopes_ended (s := .return_ line none) _ rfl fun _ => Late.settlesSites_nil).imp
        fun _ hs => hs trivial
    · exact leaves_expression.bind fun value => scopes_ended (s := .return_ line (some value)) _ rfl
        fun hv => Late.settlesSites_nodesIn.2 hv.2
  · exact wrapped (scopes_ifStmt h _)
  · exact wrapped (scopes_switchStmt h _)
  · exact wrapped (scopes_loopStmt h _)
  · exact wrapped (scopes_forStmt h _)
  · refine quiet_advance.counted fun _ => leaves_expression.bind fun condition => ?_
    refine (leaves_block h).bind fun body => counted_pure rfl fun hb hc => ?_
    refine Late.settlesSites_append.2 ⟨Late.settlesSites_append.2 ⟨?_, hb⟩, Late.settlesSites_nil⟩
    exact Late.settlesSites_nodesIn.2 hc.2
  · refine quiet_advance.counted fun _ => (quiet_accept _).counted fun b => ?_
    split
    · exact leaves_expression.bind fun condition => scopes_ended (s := .breakIf line condition) _ rfl
        fun hc => Late.settlesSites_nodesIn.2 hc.2
    · exact (scopes_ended (s := .break_ line) _ rfl fun _ => Late.settlesSites_nil).imp
        fun _ hs => hs trivial
  · exact quiet_advance.counted fun _ =>
      (scopes_ended (s := .continue_ line) _ rfl fun _ => Late.settlesSites_nil).imp fun _ hs => hs trivial
  · exact quiet_advance.counted fun _ =>
      (scopes_ended (s := .discard line) _ rfl fun _ => Late.settlesSites_nil).imp fun _ hs => hs trivial
  · exact quiet_advance.counted fun _ => leaves_expression.bind fun condition =>
      scopes_ended (s := .constAssert line condition) _ rfl fun hc => Late.settlesSites_nodesIn.2 hc.2
  · refine (leaves_block h).bind fun body => counted_pure rfl fun hb => ?_
    exact Late.settlesSites_append.2 ⟨hb, Late.settlesSites_nil⟩
  · exact scopes_simpleStmt.bind fun s => scopes_ended (s := .simple s) _ rfl
      fun hs => Late.settlesSites_nodesIn.2 (hs trivial)

omit h in
theorem scopes_stmtWithin (depth : Nat) : ∀ constants scope, ScopesStmt L (stmtWithin depth) constants scope := by
  induction depth with
  | zero => exact fun _ _ => counted_failHere _
  | succ depth ih => exact fun _ _ => scopes_stmtStep ih

omit h in
theorem leaves_functionBody : Leaves L functionBody (scope.table constants) fun block =>
    L.SettlesStmts constants scope block.1 :=
  quiet_get.counted fun s => leaves_compound (scopes_stmtWithin s.budget)

end Parser

end Wgsl
