import Wgsl.Parse.Program
import Wgsl.Proofs.Parse.Numbering
import Wgsl.Proofs.Token.Scanning

/-! # The numbers of a parsed module

Statements and declarations make no nodes of their own: they hold those of their expressions and
types, all of which have been given numbers one after another.

* `Program.numbered_ofSource`: all nodes of a module have different numbers, and they are sound.
* `Program.numbers_apart`: the same of the numbers alone, for any list of tokens.
-/

namespace Wgsl
set_option autoImplicit false

namespace Parser

variable {N : Names} {α β : Type} {t : Nat → Nat}

/-! ## Declarations of values -/

theorem yields_typeAnnotation : Yields N typeAnnotation TypeExpr.paramNodes := by
  refine (quiet_accept _).bind fun b => ?_
  split
  · exact yields_typeExpr.bind fun t ho => numbers_pure (fun i => Nat.le_of_eq (Nat.zero_add _).symm) ho
  · exact numbers_pure (fun i => Nat.le_refl _) sound_nil

theorem yields_initializer : Yields N initializer Expr.countNodes := by
  refine (quiet_accept _).bind fun b => ?_
  split
  · exact yields_expression.bind fun e ho =>
      numbers_pure (fun i => Nat.le_of_eq (Nat.zero_add _).symm) ho
  · exact numbers_pure (fun i => Nat.le_refl _) sound_nil

section

variable {attributes : List Attribute} (ha : Sound N.Holds (Attribute.listNodes attributes))

include ha

theorem numbers_varDecl :
    Numbers N (varDecl attributes) (tally (Attribute.listNodes attributes)) VarDecl.nodes := by
  refine (quiet_expect _ _).bind fun token => (quiet_accept _).bind fun b => ?_
  have rest : ∀ space : Option String × Option String, Numbers N (do
      let name ← identifier
      let type ← typeAnnotation
      let value ← initializer
      return { name, type, storage := space.1, access := space.2, value, attributes,
               line := token.line })
      (tally (Attribute.listNodes attributes)) VarDecl.nodes := by
    refine fun space => quiet_identifier.bind fun name => yields_typeAnnotation.bind fun type ht => ?_
    refine yields_initializer.bind fun value hv => numbers_pure (fun i => ?_) ?_
    · simp [VarDecl.nodes]
      omega
    · simp [VarDecl.nodes, ht, hv, ha]
  split
  · refine quiet_identifier.bind fun storage => (quiet_accept _).bind fun b => ?_
    split
    · refine quiet_identifier.bind fun access => ?_
      rw [pure_bind]
      exact (quiet_expect _ _).bind fun _ => rest (some storage, some access)
    · rw [pure_bind]
      exact (quiet_expect _ _).bind fun _ => rest (some storage, none)
  · exact rest (none, none)

theorem numbers_constantDecl :
    Numbers N (constantDecl attributes) (tally (Attribute.listNodes attributes)) VarDecl.nodes := by
  refine quiet_advance.bind fun token => quiet_identifier.bind fun name => ?_
  refine yields_typeAnnotation.bind fun type ht => (quiet_expect _ _).bind fun _ => ?_
  refine yields_expression.bind fun value hv => numbers_pure (fun i => ?_) ?_
  · simp [VarDecl.nodes, Expr.countNodes]
    omega
  · simp [VarDecl.nodes, Expr.countNodes, ht, hv, ha]

theorem numbers_overrideDecl :
    Numbers N (overrideDecl attributes) (tally (Attribute.listNodes attributes)) VarDecl.nodes := by
  refine (quiet_expect _ _).bind fun token => quiet_identifier.bind fun name => ?_
  refine yields_typeAnnotation.bind fun type ht => yields_initializer.bind fun value hv => ?_
  refine numbers_pure (fun i => ?_) ?_
  · simp [VarDecl.nodes]
    omega
  · simp [VarDecl.nodes, ht, hv, ha]

end

theorem numbers_noteConstant {f : Unit → Parser β} {m : β → List Node} (v : VarDecl)
    (hf : ∀ u, Numbers N (f u) t m) : Numbers N (noteConstant v >>= f) t m := by
  unfold noteConstant
  split
  · exact numbers_modifyContext hf
  · exact (quiet_pure _).bind hf

/-! ## Statements -/

theorem numbers_actionOn {target : Expr} (ho : Sound N.Holds target.nodes) (line : Nat) :
    Numbers N (actionOn target) (tally target.nodes) fun action => SimpleStmt.nodes ⟨line, action⟩ := by
  refine quiet_peekKind.bind fun kind => ?_
  split
  · exact quiet_advance.bind fun _ => numbers_pure (fun i => Nat.le_refl _) ho
  · split
    · exact quiet_advance.bind fun _ => numbers_pure (fun i => Nat.le_refl _) ho
    · split
      · refine quiet_advance.bind fun _ => yields_expression.bind fun value hv => ?_
        refine numbers_pure (fun i => ?_) ?_
        · simp [SimpleStmt.nodes, Expr.countNodes]
        · simp [SimpleStmt.nodes, Expr.countNodes, ho, hv]
      · split
        · exact numbers_pure (fun i => Nat.le_refl _) ho
        · exact numbers_pure (fun i => Nat.le_refl _) ho
        · exact quiet_peek.bind fun _ => numbers_failAt _ _

theorem yields_simpleStmt : Yields N simpleStmt SimpleStmt.nodes := by
  refine quiet_peek.bind fun token => ?_
  have declared : ∀ kind {x : Parser VarDecl},
      Numbers N x (fun _ => 0) VarDecl.nodes →
      Numbers N (do return { line := token.line, action := .declare kind (← x) }) (fun _ => 0)
        SimpleStmt.nodes := fun kind x hx =>
    hx.bind fun v hv => numbers_pure (fun i => Nat.le_refl _) hv
  have locals : Numbers N (constantDecl []) (fun _ => 0) VarDecl.nodes := numbers_constantDecl sound_nil
  split
  · exact declared .var (numbers_varDecl sound_nil)
  · exact declared .let_ locals
  · refine Numbers.bind locals fun v hv => numbers_noteConstant v fun _ => ?_
    exact numbers_pure (fun i => Nat.le_refl _) hv
  · refine quiet_advance.bind fun _ => (quiet_expect _ _).bind fun _ => ?_
    refine yields_expression.bind fun value hv => numbers_pure (fun i => ?_) hv
    simp [SimpleStmt.nodes, Expr.countNodes]
  · refine Numbers.bind yields_unary fun target ht => ?_
    exact (numbers_actionOn ht token.line).bind fun action ha => numbers_pure (fun i => Nat.le_refl _) ha

/-- The nodes of a statement that may be missing. -/
def stmtNodes (s? : Option Stmt) : List Node := s?.toList.flatMap Stmt.nodes

section

variable {stmt : Parser (Option Stmt)} (h : Yields N stmt stmtNodes)

include h

theorem yields_statements : Yields N (statements stmt) Stmt.listNodes := by
  refine Numbers.map (yields_loop (n := fun body => body.flatMap Stmt.nodes) rfl fun body ho => ?_)
    (fun body i => by simp [Stmt.listNodes_eq])
    (fun body ho => by simpa [Stmt.listNodes_eq] using ho)
  refine (quiet_check _).bind fun closed => (quiet_check _).bind fun ended => ?_
  split
  · exact numbers_pure (fun i => Nat.le_refl _) ho
  · refine h.bind fun s? hs => numbers_pure (fun i => ?_) ?_
    · simp [stmtNodes, Nat.add_comm]
    · rw [stmtNodes] at hs
      simp [hs, ho]

theorem yields_compound : Yields N (compound stmt) fun block => Stmt.listNodes block.1 := by
  refine (quiet_expect _ _).bind fun _ => quiet_get.bind fun s => ?_
  refine Numbers.bind (yields_statements h) fun body ho => (quiet_expect _ _).bind fun token => ?_
  exact numbers_modifyContext fun _ => numbers_pure (fun i => Nat.le_refl _) ho

theorem yields_block : Yields N (block stmt) Stmt.listNodes :=
  (yields_compound h).map (fun _ _ => Nat.le_refl _) fun _ ho => ho

/-- The nodes of the branches read so far, and of what ends the chain. -/
def chainNodes (read : List Branch × ElseChain) : List Node :=
  read.1.flatMap (fun b => b.condition.nodes ++ Stmt.listNodes b.body) ++ read.2.nodes

omit h in
theorem nodes_chainOf (branches : List Branch) (last : ElseChain) :
    (chainOf branches last).nodes =
      branches.flatMap (fun b => b.condition.nodes ++ Stmt.listNodes b.body) ++ last.nodes := by
  induction branches with
  | nil => rfl
  | cons b branches ih =>
    rw [List.flatMap_cons, List.append_assoc, ← ih]
    rfl

theorem yields_elseChain : Yields N (elseChain stmt) ElseChain.nodes := by
  refine Numbers.bind (n := chainNodes) (yields_loop rfl fun read ho => ?_) fun read ho => ?_
  · refine (quiet_accept _).bind fun b => ?_
    split
    · refine (quiet_check _).bind fun b => ?_
      split
      · refine quiet_advance.bind fun token => yields_expression.bind fun condition hc => ?_
        refine (yields_block h).bind fun body hb => numbers_pure (fun i => ?_) ?_
        · simp [chainNodes]
          omega
        · simpa [chainNodes, hc, hb] using ho
      · refine (yields_block h).bind fun body hb => numbers_pure (fun i => ?_) ?_
        · simp [chainNodes, ElseChain.nodes]
        · simpa [chainNodes, ElseChain.nodes, hb] using (sound_append.1 ho).1
    · exact numbers_pure (fun i => Nat.le_refl _) ho
  · refine numbers_pure (fun i => ?_) ?_
    · simp [nodes_chainOf, chainNodes]
    · simpa [nodes_chainOf, chainNodes] using ho

omit h in
theorem yields_caseSelectors : Yields N caseSelectors fun read => read.1.flatMap Expr.nodes := by
  refine yields_loop rfl fun read ho => (quiet_accept _).bind fun b => ?_
  have rest : ∀ found : List Expr × Bool, Sound N.Holds (found.1.flatMap Expr.nodes) →
      Numbers N (do
        if ← accept .comma then
          if (← check .colon) || (← check .braceLeft) then return Step.done found
          else return Step.next found
        else return Step.done found) (tally (found.1.flatMap Expr.nodes))
        fun r => r.value.1.flatMap Expr.nodes := by
    intro found ho
    refine (quiet_accept _).bind fun b => ?_
    split
    · refine (quiet_check _).bind fun colon => (quiet_check _).bind fun brace => ?_
      split <;> exact numbers_pure (fun i => Nat.le_refl _) ho
    · exact numbers_pure (fun i => Nat.le_refl _) ho
  dsimp only
  split
  · exact rest (read.1, true) ho
  · refine yields_expression.bind fun e he => ?_
    rw [pure_bind]
    refine (rest (e :: read.1, read.2) (by simp [he, ho])).of_le fun i => ?_
    simp [Nat.add_comm]

theorem yields_switchClause : Yields N (switchClause stmt) SwitchClause.nodes := by
  refine quiet_peek.bind fun token => (quiet_accept _).bind fun b => ?_
  have rest : ∀ read : List Expr × Bool, Sound N.Holds (read.1.flatMap Expr.nodes) → Numbers N (do
      let _ ← accept .colon
      let body ← block stmt
      return .mk token.line read.1.reverse read.2 body) (tally (read.1.flatMap Expr.nodes))
      SwitchClause.nodes := by
    refine fun read ho => (quiet_accept _).bind fun _ => (yields_block h).bind fun body hb => ?_
    refine numbers_pure (fun i => ?_) ?_
    · simp [SwitchClause.nodes, Expr.listNodes_eq]
    · simp [SwitchClause.nodes, Expr.listNodes_eq, ho, hb]
  split
  · exact rest ([], true) sound_nil
  · exact (quiet_expect _ _).bind fun _ => Numbers.bind yields_caseSelectors rest

theorem yields_ifStmt (line : Nat) : Yields N (ifStmt line stmt) Stmt.nodes := by
  refine (quiet_expect _ _).bind fun _ => yields_expression.bind fun condition hc => ?_
  refine (yields_block h).bind fun body hb => (yields_elseChain h).bind fun rest hr => ?_
  refine numbers_pure (fun i => ?_) ?_
  · simp [Stmt.nodes, Nat.add_assoc]
  · simp [Stmt.nodes, hc, hb, hr]

theorem yields_switchStmt (line : Nat) : Yields N (switchStmt line stmt) Stmt.nodes := by
  refine (quiet_expect _ _).bind fun _ => yields_expression.bind fun selector hs => ?_
  refine yields_attributes.bind fun _ _ => (quiet_expect _ _).bind fun _ => ?_
  refine Yields.bind (n := fun clauses => clauses.flatMap SwitchClause.nodes) (yields_loop rfl
    fun clauses ho => ?_) fun clauses ho => (quiet_expect _ _).bind fun _ => ?_
  · refine (quiet_check _).bind fun closed => (quiet_check _).bind fun ended => ?_
    split
    · exact numbers_pure (fun i => Nat.le_refl _) ho
    · refine (yields_switchClause h).bind fun c hc => numbers_pure (fun i => ?_) ?_
      · simp [Nat.add_comm]
      · simp [hc, ho]
  · refine numbers_pure (fun i => ?_) ?_
    · simp [Stmt.nodes, SwitchClause.listNodes_eq]
    · simp [Stmt.nodes, SwitchClause.listNodes_eq, hs, ho]

/-- The nodes of a loop that has been read so far. -/
def loopNodes (read : List Stmt × Option (List Stmt)) : List Node :=
  read.1.flatMap Stmt.nodes ++ Stmt.blockNodes read.2

theorem yields_loopStmt (line : Nat) : Yields N (loopStmt line stmt) Stmt.nodes := by
  refine (quiet_expect _ _).bind fun _ => yields_attributes.bind fun _ _ => ?_
  refine (quiet_expect _ _).bind fun _ => ?_
  refine Yields.bind (n := loopNodes) (yields_loop rfl fun read ho => ?_)
    fun read ho => (quiet_expect _ _).bind fun _ => ?_
  · refine (quiet_check _).bind fun closed => (quiet_check _).bind fun ended => ?_
    split
    · exact numbers_pure (fun i => Nat.le_refl _) ho
    · refine (quiet_accept _).bind fun b => ?_
      split
      · refine (yields_block h).bind fun body hb => numbers_pure (fun i => ?_) ?_
        · simp [loopNodes, Stmt.blockNodes]
        · simpa [loopNodes, Stmt.blockNodes, hb] using (sound_append.1 ho).1
      · refine h.bind fun s? hs => numbers_pure (fun i => ?_) ?_
        · simp [loopNodes, stmtNodes]
          omega
        · rw [stmtNodes] at hs
          simpa [loopNodes, hs] using ho
  · refine numbers_pure (fun i => ?_) ?_
    · simp [Stmt.nodes, Stmt.listNodes_eq, loopNodes]
    · simpa [Stmt.nodes, Stmt.listNodes_eq, loopNodes] using ho

omit h in
theorem yields_headerPart {part : Parser α} {n : α → List Node} (hp : Yields N part n)
    (close : TokenKind) (purpose : String) :
    Yields N (headerPart close purpose part) fun found => found.elim [] n := by
  refine (quiet_check _).bind fun b => ?_
  split
  · rw [pure_bind]
    exact (quiet_expect _ _).bind fun _ => numbers_pure (fun i => Nat.zero_le _) sound_nil
  · refine hp.bind fun a ha => ?_
    rw [pure_bind]
    refine (quiet_expect _ _).bind fun _ => ?_
    exact numbers_pure (fun i => Nat.le_of_eq (Nat.zero_add _).symm) ha

omit h in
theorem countNodes_eq (e? : Option Expr) : Expr.countNodes e? = e?.elim [] Expr.nodes := by
  cases e? <;> rfl

theorem yields_forStmt (line : Nat) : Yields N (forStmt line stmt) Stmt.nodes := by
  refine (quiet_expect _ _).bind fun _ => (quiet_expect _ _).bind fun _ => ?_
  refine (yields_headerPart yields_simpleStmt _ _).bind fun init hi => ?_
  refine (yields_headerPart yields_expression _ _).bind fun condition hc => ?_
  refine (yields_headerPart yields_simpleStmt _ _).bind fun update hu => ?_
  refine (yields_block h).bind fun body hb => numbers_pure (fun i => ?_) ?_
  · simp [Stmt.nodes, countNodes_eq, Nat.add_assoc]
  · simp [Stmt.nodes, countNodes_eq, hi, hc, hu, hb]

omit h in
/-- A statement with a semicolon behind it. -/
theorem numbers_ended (s : Stmt) (purpose : String) (hs : Sound N.Holds s.nodes)
    (hn : ∀ i, tally s.nodes i ≤ t i) : Numbers N (do
      let _ ← expect .semicolon purpose
      return some s) t stmtNodes := by
  refine (quiet_expect _ _).bind fun _ => numbers_pure (fun i => ?_) ?_
  · simpa [stmtNodes] using hn i
  · simpa [stmtNodes] using hs

theorem yields_stmtStep : Yields N (stmtStep stmt) stmtNodes := by
  have wrapped : ∀ {x : Parser Stmt}, Yields N x Stmt.nodes →
      ∀ t, Numbers N (some <$> x) t stmtNodes := by
    intro x hx t
    rw [map_eq_pure_bind]
    refine hx.bind fun s hs => numbers_pure (fun i => ?_) ?_
    · simp [stmtNodes]
    · simpa [stmtNodes] using hs
  refine yields_attributes.bind fun _ _ => quiet_peek.bind fun token => ?_
  extract_lets line ended
  split
  · exact quiet_advance.bind fun _ => numbers_pure (fun i => Nat.zero_le _) sound_nil
  · refine quiet_advance.bind fun _ => (quiet_check _).bind fun b => ?_
    split
    · exact numbers_ended (.return_ line none) _ sound_nil fun i => Nat.zero_le _
    · refine yields_expression.bind fun value hv => ?_
      refine numbers_ended (.return_ line (some value)) _ hv fun i => ?_
      simp [Stmt.nodes, Expr.countNodes]
  · exact wrapped (yields_ifStmt h _) _
  · exact wrapped (yields_switchStmt h _) _
  · exact wrapped (yields_loopStmt h _) _
  · exact wrapped (yields_forStmt h _) _
  · refine quiet_advance.bind fun _ => yields_expression.bind fun condition hc => ?_
    refine (yields_block h).bind fun body hb => numbers_pure (fun i => ?_) ?_
    · simp [stmtNodes, Stmt.nodes]
    · simp [stmtNodes, Stmt.nodes, hc, hb]
  · refine quiet_advance.bind fun _ => (quiet_accept _).bind fun b => ?_
    split
    · refine yields_expression.bind fun condition hc => ?_
      refine numbers_ended (.breakIf line condition) _ hc fun i => ?_
      simp [Stmt.nodes]
    · exact numbers_ended (.break_ line) _ sound_nil fun i => Nat.zero_le _
  · exact quiet_advance.bind fun _ =>
      numbers_ended (.continue_ line) _ sound_nil fun i => Nat.zero_le _
  · exact quiet_advance.bind fun _ =>
      numbers_ended (.discard line) _ sound_nil fun i => Nat.zero_le _
  · refine quiet_advance.bind fun _ => yields_expression.bind fun condition hc => ?_
    refine numbers_ended (.constAssert line condition) _ hc fun i => ?_
    simp [Stmt.nodes]
  · refine (yields_block h).bind fun body hb => numbers_pure (fun i => ?_) ?_
    · simp [stmtNodes, Stmt.nodes]
    · simpa [stmtNodes, Stmt.nodes] using hb
  · refine yields_simpleStmt.bind fun s hs => numbers_ended (.simple s) _ hs fun i => ?_
    simp [Stmt.nodes]

end

theorem yields_stmtWithin (depth : Nat) : Yields N (stmtWithin depth) stmtNodes := by
  induction depth with
  | zero => exact quiet_peek.bind fun _ => numbers_failAt _ _
  | succ depth ih => exact yields_stmtStep ih

theorem yields_functionBody : Yields N functionBody fun block => Stmt.listNodes block.1 :=
  quiet_get.bind fun s => yields_compound (yields_stmtWithin s.budget)

/-! ## Declarations at module scope -/

theorem quiet_loop {init : α} {step : α → Parser (Step α)} (h : ∀ a, Quiet (step a)) :
    Quiet (loop init step) := by
  intro s a s' hrun
  rw [run_loop] at hrun
  let Kept (t : ParseState) : Prop :=
    (t.nextId = s.nextId ∧ t.context = s.context) ∧ ∀ N : Names, s.Scanned N → t.Scanned N
  have kept : ∀ a t r t', Kept t → (step a).run t = .ok (r, t') → Kept t' := by
    intro a t r t' ⟨⟨hid, hcontext⟩, hc⟩ hr
    obtain ⟨⟨hid', hcontext'⟩, hc'⟩ := h a t r t' hr
    exact ⟨⟨hid'.trans hid, hcontext'.trans hcontext⟩, fun N => hc' N ∘ hc N⟩
  exact iterate_ok (fun _ => Kept) (fun _ => Kept) (fun a t b t' ht => kept a t _ t' ht)
    (fun a t b t' ht => kept a t _ t' ht) _ _ _ _ _ ⟨⟨rfl, rfl⟩, fun _ => id⟩ hrun

theorem quiet_directiveNames : Quiet directiveNames := by
  refine quiet_bind quiet_identifier fun first => quiet_bind (quiet_loop fun names => ?_) fun _ =>
    quiet_bind (quiet_expect _ _) fun _ => quiet_pure _
  refine quiet_bind (quiet_accept _) fun b => ?_
  split
  · refine quiet_bind (quiet_check _) fun b => ?_
    split
    · exact quiet_pure _
    · exact quiet_bind quiet_identifier fun _ => quiet_pure _
  · exact quiet_pure _

theorem quiet_diagnosticControl : Quiet diagnosticControl := by
  refine quiet_bind (quiet_expect _ _) fun _ => quiet_bind quiet_identifier fun severity => ?_
  refine quiet_bind (quiet_expect _ _) fun _ => quiet_bind quiet_identifier fun rule => ?_
  have rest : ∀ rule : String, Quiet (do
      let _ ← accept .comma
      let _ ← expect .parenRight "to close diagnostic control"
      return (severity, rule)) := fun rule =>
    quiet_bind (quiet_accept _) fun _ => quiet_bind (quiet_expect _ _) fun _ => quiet_pure _
  refine quiet_bind (quiet_accept _) fun b => ?_
  split
  · exact quiet_bind quiet_identifier fun name => rest _
  · exact rest rule

theorem yields_field (purpose : String) : Yields N (field purpose) Field.nodes := by
  refine yields_attributes.bind fun attributes ha => quiet_identifier.bind fun name => ?_
  refine (quiet_expect _ _).bind fun _ => yields_typeExpr.bind fun type ht => ?_
  refine numbers_pure (fun i => ?_) ?_
  · simp [Field.nodes, Nat.add_comm]
  · simp [Field.nodes, ha, ht]

section

variable {attributes : List Attribute} (ha : Sound N.Holds (Attribute.listNodes attributes))

include ha

theorem numbers_structDecl :
    Numbers N (structDecl attributes) (tally (Attribute.listNodes attributes)) StructDecl.nodes := by
  refine (quiet_expect _ _).bind fun first => quiet_identifier.bind fun name => ?_
  refine (quiet_expect _ _).bind fun _ => ?_
  refine Yields.bind (n := fun members => members.flatMap Field.nodes) (yields_loop rfl
    fun members ho => ?_) fun members ho => (quiet_expect _ _).bind fun last => ?_
  · refine (quiet_check _).bind fun closed => (quiet_check _).bind fun ended => ?_
    dsimp only
    split
    · exact numbers_pure (fun i => Nat.le_refl _) ho
    · refine (yields_field _).bind fun m hm => (quiet_accept _).bind fun b => ?_
      have listed : ∀ i, tally ((m :: members).flatMap Field.nodes) i ≤
          tally (members.flatMap Field.nodes) i + tally m.nodes i := by
        intro i
        simp [Nat.add_comm]
      have ordered : Sound N.Holds ((m :: members).flatMap Field.nodes) := by simp [hm, ho]
      split
      · exact numbers_pure listed ordered
      · refine (quiet_accept _).bind fun b => ?_
        split <;> exact numbers_pure listed ordered
  · refine (quiet_accept _).bind fun _ => numbers_pure (fun i => ?_) ?_
    · simp [StructDecl.nodes, Nat.add_comm]
    · simp [StructDecl.nodes, ha, ho]

theorem numbers_functionDecl :
    Numbers N (functionDecl attributes) (tally (Attribute.listNodes attributes)) Function.nodes := by
  refine (quiet_expect _ _).bind fun first => quiet_identifier.bind fun name => ?_
  refine (quiet_expect _ _).bind fun _ => ?_
  refine (yields_commaList (yields_field _) _).bind fun args hargs => (quiet_expect _ _).bind fun _ => ?_
  have rest : ∀ result : List Attribute × Option TypeExpr, Sound N.Holds (Attribute.listNodes result.1) →
      Sound N.Holds (TypeExpr.paramNodes result.2) → Numbers N (do
        let block ← functionBody
        return { name, args, returnType := result.2, returnAttributes := result.1, attributes,
                 body := block.1, startLine := first.line, endLine := block.2 })
        (fun i => tally (Attribute.listNodes attributes) i + tally (args.flatMap Field.nodes) i +
          tally (Attribute.listNodes result.1) i + tally (TypeExpr.paramNodes result.2) i)
        Function.nodes := by
    refine fun result hr ht => yields_functionBody.bind fun block hb => numbers_pure (fun i => ?_) ?_
    · simp [Function.nodes]
      omega
    · simp [Function.nodes, hargs, hr, ht, ha, hb]
  refine (quiet_accept _).bind fun b => ?_
  split
  · refine yields_attributes.bind fun returnAttributes hr => yields_typeExpr.bind fun type ht => ?_
    exact rest (returnAttributes, some type) hr ht
  · exact rest ([], none) sound_nil sound_nil

end

theorem yields_attributedDecl : Yields N attributedDecl Declaration.nodes := by
  refine Numbers.bind yields_attributes fun attributes ha => quiet_peekKind.bind fun kind => ?_
  split
  · refine (numbers_varDecl ha).bind fun v hv => (quiet_expect _ _).bind fun _ => ?_
    exact numbers_pure (fun i => Nat.le_refl _) hv
  · refine (numbers_overrideDecl ha).bind fun v hv => (quiet_expect _ _).bind fun _ => ?_
    exact numbers_noteConstant v fun _ => numbers_pure (fun i => Nat.le_refl _) hv
  · refine (numbers_constantDecl ha).bind fun v hv => (quiet_expect _ _).bind fun _ => ?_
    exact numbers_noteConstant v fun _ => numbers_pure (fun i => Nat.le_refl _) hv
  · refine (numbers_constantDecl ha).bind fun v hv => (quiet_expect _ _).bind fun _ => ?_
    exact numbers_noteConstant v fun _ => numbers_pure (fun i => Nat.le_refl _) hv
  · refine quiet_advance.bind fun token => quiet_identifier.bind fun name => ?_
    refine (quiet_expect _ _).bind fun _ => yields_typeExpr.bind fun type ht => ?_
    refine (quiet_expect _ _).bind fun _ => numbers_modifyContext fun _ => ?_
    exact numbers_pure (fun i => Nat.le_add_left _ _) ht
  · refine (numbers_structDecl ha).bind fun s hs => numbers_modifyContext fun _ => ?_
    exact numbers_pure (fun i => Nat.le_refl _) hs
  · exact (numbers_functionDecl ha).bind fun f hf => numbers_pure (fun i => Nat.le_refl _) hf
  · refine quiet_advance.bind fun _ => yields_expression.bind fun condition hc => ?_
    exact (quiet_expect _ _).bind fun _ => numbers_pure (fun i => Nat.le_add_left _ _) hc
  · exact quiet_peek.bind fun _ => numbers_failAt _ _

theorem yields_declaration : Yields N declaration fun d? => d?.toList.flatMap Declaration.nodes := by
  refine quiet_peekKind.bind fun kind => ?_
  split
  · exact quiet_advance.bind fun _ => numbers_pure (fun i => Nat.zero_le _) sound_nil
  · exact quiet_advance.bind fun _ => quiet_directiveNames.bind fun _ =>
      numbers_pure (fun i => Nat.zero_le _) sound_nil
  · exact quiet_advance.bind fun _ => quiet_directiveNames.bind fun _ =>
      numbers_pure (fun i => Nat.zero_le _) sound_nil
  · exact quiet_advance.bind fun _ => quiet_diagnosticControl.bind fun _ =>
      (quiet_expect _ _).bind fun _ => numbers_pure (fun i => Nat.zero_le _) sound_nil
  · refine yields_attributedDecl.map (fun d i => ?_) fun d hd => ?_
    · simp
    · simpa using hd

theorem quiet_mapM {x : α → Parser β} (h : ∀ a, Quiet (x a)) (items : List α) :
    Quiet (items.mapM x) := by
  induction items with
  | nil => exact quiet_pure _
  | cons a items ih =>
    rw [List.mapM_cons]
    exact quiet_bind (h a) fun b => quiet_bind ih fun bs => quiet_pure _

theorem quiet_lateCounts : Quiet lateCounts := by
  refine quiet_bind quiet_get fun s => quiet_bind (quiet_mapM (fun entry => ?_) _) fun _ => quiet_pure _
  exact quiet_bind (quiet_lift _) fun _ => quiet_pure _

theorem yields_program : Yields N program Program.nodes := by
  refine Numbers.bind (n := fun found => found.flatMap Declaration.nodes) (yields_loop rfl
    fun found ho => ?_) fun found ho => ?_
  · refine (quiet_check _).bind fun b => ?_
    split
    · exact numbers_pure (fun i => Nat.le_refl _) ho
    · refine yields_declaration.bind fun d? hd => numbers_pure (fun i => ?_) ?_
      · simp [Nat.add_comm]
      · simp [hd, ho]
  · refine quiet_lateCounts.bind fun counts => ?_
    have outlined : SameOutline
        (Program.withCounts (fun id => counts.lookup id) ⟨found.reverse⟩).nodes
        (found.reverse.flatMap Declaration.nodes) := Program.nodes_withCounts ⟨found.reverse⟩
    refine numbers_pure (fun i => ?_) (outlined.sound (by simpa using ho))
    rw [tally, outlined.ids]
    exact Nat.le_of_eq (tally_reverse Declaration.nodes found i)

end Parser

theorem ParseState.scanned_ofTokens {N : Names} {tokens : List Token} (h : ∀ t ∈ tokens, t.Scanned N) :
    (ParseState.ofTokens tokens).Scanned N := by
  refine ⟨fun t ht => h t ((List.takeWhile_sublist _).subset ht), fun hk => ?_⟩
  unfold ParseState.ofTokens at hk ⊢
  dsimp only at hk ⊢
  split at hk
  · rename_i t hfound
    have ended : decide (t.kind = .eof) = true :=
      List.find?_some (p := fun t : Token => decide (t.kind = .eof)) hfound
    rw [of_decide_eq_true ended] at hk
    cases hk
  · cases hk

/-- The nodes of a parsed module have numbers of their own, each greater than those inside. -/
theorem Program.numbered_ofTokens {N : Names} {tokens : List Token} {parsed : ParsedProgram}
    (hc : ∀ t ∈ tokens, t.Scanned N) (h : ParsedProgram.ofTokens tokens = .ok parsed) :
    (parsed.program.nodes.map Node.id).Nodup ∧ Sound N.Holds parsed.program.nodes := by
  cases hrun : Parser.program.run (.ofTokens tokens) with
  | error f =>
    rw [ParsedProgram.ofTokens, hrun] at h
    cases h
  | ok r =>
    obtain ⟨p, s⟩ := r
    rw [ParsedProgram.ofTokens, hrun] at h
    cases h
    obtain ⟨-, given, sound⟩ := Parser.yields_program _ _ p s (ParseState.scanned_ofTokens hc)
      (Parser.given_zero _) hrun
    exact ⟨given.nodup, sound⟩

/-- A parse that gives out fewer than `2 ^ 32` numbers, whatever its tokens are: the number of each
node fits in thirty-two bits, no two nodes have the same, and each is greater than those inside the
node. -/
theorem Program.numbers_apart {tokens : List Token} {p : Program} {s : ParseState}
    (h : Parser.program.run (.ofTokens tokens) = .ok (p, s)) (hs : s.nextId < 2 ^ 32) :
    (∀ n ∈ p.nodes, n.id < 2 ^ 32) ∧ (p.nodes.map Node.id).Nodup ∧
      ∀ n ∈ p.nodes, ∀ inner ∈ n.nested, inner.id < n.id := by
  have scanned : (ParseState.ofTokens tokens).Scanned .any :=
    ParseState.scanned_ofTokens fun _ _ _ => trivial
  obtain ⟨-, given, sound⟩ := Parser.yields_program _ _ p s scanned (Parser.given_zero _) h
  refine ⟨fun n hn => ?_, given.nodup, fun n hn => (sound n hn).ordered⟩
  exact Nat.lt_trans (given.lt (tally_pos hn)) hs

/-- An array type with an attribute, a short name inside and a count that is known later. -/
theorem Program.numbers_apart_alias :
    let word (name : String) : Token := ⟨.identifier, name, 1⟩
    let number (digits : String) : Token := ⟨.intLiteral, digits, 1⟩
    let sign (kind : TokenKind) : Token := ⟨kind, "", 1⟩
    let tokens : List Token := [sign .kwAlias, word "Row", sign .equal, sign .atSign, word "stride",
      sign .parenLeft, number "16", sign .parenRight, word "array", sign .lessThan, word "vec2f",
      sign .comma, word "N", sign .greaterThan, sign .semicolon, sign .kwConst, word "N", sign .equal,
      number "4", sign .semicolon, sign .eof]
    ∃ p s, Parser.program.run (.ofTokens tokens) = .ok (p, s) ∧ s.nextId = 6 ∧
      p.nodes.map Node.id = [4, 0, 2, 1, 3, 5] ∧ (∀ n ∈ p.nodes, n.id < 2 ^ 32) ∧
        (p.nodes.map Node.id).Nodup ∧ ∀ n ∈ p.nodes, ∀ inner ∈ n.nested, inner.id < n.id := by
  intro word number sign tokens
  have counted : (Parser.program.run (.ofTokens tokens)).toOption.map
      (fun r => (r.2.nextId, r.1.nodes.map Node.id)) = some (6, [4, 0, 2, 1, 3, 5]) := by
    decide +kernel
  cases hrun : Parser.program.run (.ofTokens tokens) with
  | error f =>
    rw [hrun] at counted
    cases counted
  | ok r =>
    rw [hrun] at counted
    obtain ⟨hcount, hids⟩ := Prod.mk.inj (Option.some.inj counted)
    have few : r.2.nextId < 2 ^ 32 := by
      rw [hcount]
      decide
    exact ⟨r.1, r.2, rfl, hcount, hids, Program.numbers_apart hrun few⟩

theorem Program.numbered_ofSource {source : String} {p : Program}
    (h : Program.ofSource source = .ok p) :
    (p.nodes.map Node.id).Nodup ∧ Sound Names.unbracketed.Holds p.nodes := by
  cases hs : ParsedProgram.ofSource source with
  | error f =>
    rw [Program.ofSource, hs] at h
    cases h
  | ok parsed =>
    rw [Program.ofSource, hs] at h
    cases h
    cases ht : Token.tokenize source with
    | error f =>
      rw [ParsedProgram.ofSource, ht] at hs
      cases hs
    | ok tokens =>
      rw [ParsedProgram.ofSource, ht] at hs
      exact Program.numbered_ofTokens (fun t ht' hk =>
        (Token.isWord_of_tokenize ht t ht' hk).no_bracket) hs

end Wgsl
