import Wgsl.Proofs.Parse.Deferring

/-! # Counts that are resolved at the end

Every statement and declaration notes the array types whose counts do not fold. So at the end each of
them gets its count, if it can be folded then and lies where counts are entered.

* `Parser.defers_program`: what a module has noted.
* `Program.counts_resolved`: a count that can be folded at the end is there.
* `Program.counts_missed`: counts are not entered into the selectors of a `switch`, into the arguments
  of attributes and into the written counts of other arrays.
-/

namespace Wgsl
set_option autoImplicit false

variable {noted : List (NodeId × Expr)}

namespace Parser

variable {α β : Type}

/-! ## Simple statements -/

abbrev DefersSimple (noted : List (NodeId × Expr)) (x : Parser SimpleStmt) : Prop :=
  Defers noted x fun s => NotedAll noted s.reached

theorem defers_actionOn (target : Expr) (line : Nat) :
    Defers noted (do return { line, action := ← actionOn target }) fun s : SimpleStmt =>
      NotedAll noted target.reached → NotedAll noted s.reached := by
  unfold actionOn
  rw [bind_assoc]
  refine quiet_peekKind.defers fun kind => ?_
  split
  · rw [bind_assoc]
    exact quiet_advance.defers fun _ => defers_pure id
  · split
    · rw [bind_assoc]
      exact quiet_advance.defers fun _ => defers_pure id
    · split
      · rw [bind_assoc]
        refine quiet_advance.defers fun _ => ?_
        rw [bind_assoc]
        refine defers_expression.bind fun value => defers_pure fun hv ht => ?_
        exact notedAll_append.2 ⟨ht, hv⟩
      · split
        · exact defers_pure id
        · exact defers_pure id
        · unfold failHere
          rw [bind_assoc]
          exact quiet_peek.defers fun _ => defers_failAt_bind _ _

theorem defers_simpleStmt : DefersSimple noted simpleStmt := by
  refine quiet_peek.defers fun token => ?_
  split
  · exact (defers_varDecl []).bind fun v => defers_pure id
  · exact (defers_constantDecl []).bind fun v => defers_pure id
  · refine (defers_constantDecl []).bind fun v => defers_noteConstant v fun _ => ?_
    exact defers_pure id
  · refine quiet_advance.defers fun _ => (quiet_expect _ _).defers fun _ => ?_
    exact defers_expression.bind fun value => defers_pure id
  · exact defers_unary.bind fun target => defers_actionOn target token.line

/-! ## Statements in blocks -/

/-- A parser for a statement, or for none. -/
abbrev DefersStmt (noted : List (NodeId × Expr)) (stmt : Parser (Option Stmt)) : Prop :=
  Defers noted stmt fun s? => ∀ s ∈ s?.toList, NotedAll noted s.reached

abbrev DefersBlock (noted : List (NodeId × Expr)) (x : Parser (List Stmt)) : Prop :=
  Defers noted x fun body => NotedAll noted (Stmt.listReached body)

/-- One more statement behind those that have been read, the last one first. -/
theorem noted_cons {s? : Option Stmt} {body : List Stmt} (hs : ∀ s ∈ s?.toList, NotedAll noted s.reached)
    (hb : ∀ s ∈ body, NotedAll noted s.reached) :
    ∀ s ∈ s?.toList ++ body, NotedAll noted s.reached :=
  List.forall_mem_append.2 ⟨hs, hb⟩

theorem noted_reverse {body : List Stmt} (hb : ∀ s ∈ body, NotedAll noted s.reached) :
    NotedAll noted (Stmt.listReached body.reverse) :=
  notedAll_stmts.2 fun s hs => hb s (List.mem_reverse.1 hs)

variable {stmt : Parser (Option Stmt)} (h : DefersStmt noted stmt)

section

include h

theorem defers_statements : DefersBlock noted (statements stmt) := by
  let Kept (body : List Stmt) : Prop := ∀ s ∈ body, NotedAll noted s.reached
  have nothing : Kept [] := nofun
  refine (defers_loop_of (P := Kept) nothing fun body => ?_).map fun body => noted_reverse
  refine (quiet_check _).defers fun closed => (quiet_check _).defers fun ended => ?_
  split
  · exact defers_pure id
  · exact h.bind fun s? => defers_pure noted_cons

theorem defers_compound :
    Defers noted (compound stmt) fun block => NotedAll noted (Stmt.listReached block.1) := by
  refine (quiet_expect _ _).defers fun _ => quiet_get.defers fun s => ?_
  refine (defers_statements h).bind fun body => (quiet_expect _ _).defers fun _ => ?_
  exact defers_modifyContext (fun _ => rfl) fun _ => defers_pure id

theorem defers_block : DefersBlock noted (block stmt) := (defers_compound h).map fun _ => id

end

/-- The condition and the body of a branch. -/
def NotedBranch (noted : List (NodeId × Expr)) (b : Branch) : Prop :=
  NotedAll noted b.condition.reached ∧ NotedAll noted (Stmt.listReached b.body)

theorem noted_chainOf {branches : List Branch} {last : ElseChain}
    (hb : ∀ b ∈ branches, NotedBranch noted b) (hl : NotedAll noted last.reached) :
    NotedAll noted (chainOf branches last).reached := by
  induction branches with
  | nil => exact hl
  | cons b branches ih =>
    have first := notedAll_append.2 (hb b List.mem_cons_self)
    exact notedAll_append.2 ⟨first, ih fun b hb' => hb b (List.mem_cons_of_mem _ hb')⟩

section

include h

theorem defers_elseChain : Defers noted (elseChain stmt) fun rest => NotedAll noted rest.reached := by
  let Kept (read : List Branch × ElseChain) : Prop :=
    (∀ b ∈ read.1, NotedBranch noted b) ∧ NotedAll noted read.2.reached
  have nothing : Kept ([], .none) := ⟨nofun, notedAll_nil⟩
  refine (defers_loop_of nothing fun read => ?_).bind fun read => ?_
  · refine (quiet_accept _).defers fun b => ?_
    split
    · refine (quiet_check _).defers fun b => ?_
      split
      · refine quiet_advance.defers fun token => defers_expression.bind fun condition => ?_
        refine (defers_block h).bind fun body => defers_pure fun hb hc hr => ⟨?_, hr.2⟩
        exact List.forall_mem_cons.2 ⟨⟨hc, hb⟩, hr.1⟩
      · exact (defers_block h).bind fun body => defers_pure fun hb hr => ⟨hr.1, hb⟩
    · exact defers_pure id
  · refine defers_pure fun hr => noted_chainOf (fun b hb => ?_) hr.2
    exact hr.1 b (List.mem_reverse.1 hb)

end

/-- What the selectors of a clause name is not reached. -/
theorem defers_caseSelectors : Defers noted caseSelectors fun _ => True := by
  have rest : ∀ found : List Expr × Bool, Defers noted (do
      if ← accept .comma then
        if (← check .colon) || (← check .braceLeft) then return Step.done found
        else return Step.next found
      else return Step.done found) fun _ => True := by
    intro found
    refine (quiet_accept _).defers fun b => ?_
    split
    · refine (quiet_check _).defers fun colon => (quiet_check _).defers fun brace => ?_
      split <;> exact defers_pure trivial
    · exact defers_pure trivial
  refine defers_loop_of trivial fun read => (quiet_accept _).defers fun b => ?_
  dsimp only
  split
  · exact (rest (read.1, true)).imp fun _ _ _ => trivial
  · refine defers_expression.bind fun e => ?_
    rw [pure_bind]
    exact (rest (e :: read.1, read.2)).imp fun _ _ _ _ => trivial

section

include h

theorem defers_switchClause : Defers noted (switchClause stmt) fun c => NotedAll noted c.reached := by
  refine quiet_peek.defers fun token => (quiet_accept _).defers fun b => ?_
  have rest : ∀ read : List Expr × Bool, Defers noted (do
      let _ ← accept .colon
      let body ← block stmt
      return SwitchClause.mk token.line read.1.reverse read.2 body) fun c => NotedAll noted c.reached :=
    fun read => (quiet_accept _).defers fun _ => (defers_block h).bind fun body => defers_pure id
  split
  · exact rest ([], true)
  · refine (quiet_expect _ _).defers fun _ => defers_caseSelectors.bind fun read => ?_
    exact (rest read).imp fun _ hc _ => hc

theorem defers_ifStmt (line : Nat) :
    Defers noted (ifStmt line stmt) fun s => NotedAll noted s.reached := by
  refine (quiet_expect _ _).defers fun _ => defers_expression.bind fun condition => ?_
  refine (defers_block h).bind fun body => (defers_elseChain h).bind fun rest => ?_
  exact defers_pure fun hr hb hc => notedAll_append.2 ⟨notedAll_append.2 ⟨hc, hb⟩, hr⟩

theorem defers_switchStmt (line : Nat) :
    Defers noted (switchStmt line stmt) fun s => NotedAll noted s.reached := by
  refine (quiet_expect _ _).defers fun _ => defers_expression.bind fun selector => ?_
  refine defers_attributes.bind fun _ => (quiet_expect _ _).defers fun _ => ?_
  let Kept (clauses : List SwitchClause) : Prop := ∀ c ∈ clauses, NotedAll noted c.reached
  have nothing : Kept [] := nofun
  refine (defers_loop_of nothing fun clauses => ?_).bind fun clauses => ?_
  · refine (quiet_check _).defers fun closed => (quiet_check _).defers fun ended => ?_
    split
    · exact defers_pure id
    · refine (defers_switchClause h).bind fun c => defers_pure fun hc hs => ?_
      exact List.forall_mem_cons.2 ⟨hc, hs⟩
  · refine (quiet_expect _ _).defers fun _ => defers_pure fun hc _ hs => ?_
    refine notedAll_append.2 ⟨hs, ?_⟩
    rw [SwitchClause.listReached_eq]
    exact notedAll_flatMap.2 fun c hmem => hc c (List.mem_reverse.1 hmem)

theorem defers_loopStmt (line : Nat) :
    Defers noted (loopStmt line stmt) fun s => NotedAll noted s.reached := by
  refine (quiet_expect _ _).defers fun _ => defers_attributes.bind fun _ => ?_
  refine (quiet_expect _ _).defers fun _ => ?_
  let Kept (read : List Stmt × Option (List Stmt)) : Prop :=
    (∀ s ∈ read.1, NotedAll noted s.reached) ∧ NotedAll noted (Stmt.blockReached read.2)
  have nothing : Kept ([], none) := ⟨nofun, notedAll_nil⟩
  refine (defers_loop_of nothing fun read => ?_).bind fun read => ?_
  · refine (quiet_check _).defers fun closed => (quiet_check _).defers fun ended => ?_
    split
    · exact defers_pure id
    · refine (quiet_accept _).defers fun b => ?_
      split
      · exact (defers_block h).bind fun body => defers_pure fun hb hr => ⟨hr.1, hb⟩
      · exact h.bind fun s? => defers_pure fun hs hr => ⟨noted_cons hs hr.1, hr.2⟩
  · refine (quiet_expect _ _).defers fun _ => defers_pure fun hr _ => ?_
    exact notedAll_append.2 ⟨noted_reverse hr.1, hr.2⟩

end

/-- An optional part of the header of a `for`. -/
theorem defers_headerPart {part : Parser α} {reached : α → List TypeExpr}
    (hp : Defers noted part fun a => NotedAll noted (reached a)) (close : TokenKind) (purpose : String) :
    Defers noted (headerPart close purpose part) fun found =>
      NotedAll noted (found.elim [] reached) := by
  refine (quiet_check _).defers fun b => ?_
  split
  · rw [pure_bind]
    exact (quiet_expect _ _).defers fun _ => defers_pure notedAll_nil
  · refine hp.bind fun a => ?_
    rw [pure_bind]
    exact (quiet_expect _ _).defers fun _ => defers_pure id

section

include h

theorem defers_forStmt (line : Nat) :
    Defers noted (forStmt line stmt) fun s => NotedAll noted s.reached := by
  refine (quiet_expect _ _).defers fun _ => (quiet_expect _ _).defers fun _ => ?_
  refine (defers_headerPart defers_simpleStmt _ _).bind fun init => ?_
  refine (defers_headerPart defers_expression _ _).bind fun condition => ?_
  refine (defers_headerPart defers_simpleStmt _ _).bind fun update => ?_
  refine (defers_block h).bind fun body => defers_pure fun hb hu hc hi => ?_
  exact notedAll_append.2 ⟨notedAll_append.2 ⟨notedAll_append.2 ⟨hi, hc⟩, hu⟩, hb⟩

theorem defers_stmtStep : DefersStmt noted (stmtStep stmt) := by
  have one : ∀ {s : Stmt}, NotedAll noted s.reached → ∀ t ∈ (some s).toList, NotedAll noted t.reached := by
    intro s hs t ht
    cases List.mem_singleton.1 ht
    exact hs
  have wrapped : ∀ {x : Parser Stmt}, Defers noted x (fun s => NotedAll noted s.reached) →
      DefersStmt noted (some <$> x) := fun hx => hx.map fun _ => one
  refine defers_attributes.bind fun _ => quiet_peek.defers fun token => ?_
  extract_lets line ended
  refine Defers.imp (P := fun s? => ∀ s ∈ s?.toList, NotedAll noted s.reached) ?_ fun s? hs _ => hs
  have closed : ∀ (purpose : String) (s : Stmt), Defers noted (ended purpose s) fun s? =>
      NotedAll noted s.reached → ∀ t ∈ s?.toList, NotedAll noted t.reached := fun purpose s =>
    (quiet_expect _ _).defers fun _ => defers_pure one
  have plain : ∀ (purpose : String) (s : Stmt), s.reached = [] → DefersStmt noted (ended purpose s) :=
    fun purpose s hs => (closed purpose s).imp fun _ hc => hc (hs ▸ notedAll_nil)
  split
  · exact quiet_advance.defers fun _ => defers_pure nofun
  · refine quiet_advance.defers fun _ => (quiet_check _).defers fun b => ?_
    split
    · exact plain _ (.return_ line none) rfl
    · exact defers_expression.bind fun value => closed _ (.return_ line (some value))
  · exact wrapped (defers_ifStmt h _)
  · exact wrapped (defers_switchStmt h _)
  · exact wrapped (defers_loopStmt h _)
  · exact wrapped (defers_forStmt h _)
  · refine quiet_advance.defers fun _ => defers_expression.bind fun condition => ?_
    refine (defers_block h).bind fun body => defers_pure fun hb hc => one ?_
    exact notedAll_append.2 ⟨hc, hb⟩
  · refine quiet_advance.defers fun _ => (quiet_accept _).defers fun b => ?_
    split
    · exact defers_expression.bind fun condition => closed _ (.breakIf line condition)
    · exact plain _ (.break_ line) rfl
  · exact quiet_advance.defers fun _ => plain _ (.continue_ line) rfl
  · exact quiet_advance.defers fun _ => plain _ (.discard line) rfl
  · exact quiet_advance.defers fun _ => defers_expression.bind fun condition =>
      closed _ (.constAssert line condition)
  · exact (defers_block h).bind fun body => defers_pure fun hb => one (s := .block line body) hb
  · exact defers_simpleStmt.bind fun s => closed _ (.simple s)

end

theorem defers_stmtWithin (depth : Nat) : DefersStmt noted (stmtWithin depth) := by
  induction depth with
  | zero => exact defers_failHere _
  | succ depth ih => exact defers_stmtStep ih

theorem defers_functionBody :
    Defers noted functionBody fun block => NotedAll noted (Stmt.listReached block.1) :=
  quiet_get.defers fun s => defers_compound (defers_stmtWithin s.budget)

/-! ## Declarations -/

theorem defers_field (purpose : String) :
    Defers noted (field purpose) fun f => NotedAll noted f.type.reached := by
  refine defers_attributes.bind fun _ => quiet_identifier.defers fun _ => ?_
  exact (quiet_expect _ _).defers fun _ => defers_typeExpr.bind fun t => defers_pure fun ht _ => ht

theorem noted_fields {fields : List Field} (hf : ∀ f ∈ fields, NotedAll noted f.type.reached) :
    NotedAll noted (Field.listReached fields) := notedAll_flatMap.2 hf

theorem defers_structDecl (attributes : List Attribute) :
    Defers noted (structDecl attributes) fun s => NotedAll noted (Field.listReached s.members) := by
  refine (quiet_expect _ _).defers fun first => quiet_identifier.defers fun name => ?_
  refine (quiet_expect _ _).defers fun _ => ?_
  let Kept (members : List Field) : Prop := ∀ f ∈ members, NotedAll noted f.type.reached
  have nothing : Kept [] := nofun
  refine (defers_loop_of nothing fun members => ?_).bind fun members => ?_
  · refine (quiet_check _).defers fun closed => (quiet_check _).defers fun ended => ?_
    dsimp only
    split
    · exact defers_pure id
    · refine (defers_field _).bind fun m => (quiet_accept _).defers fun b => ?_
      have more : NotedAll noted m.type.reached → Kept members → Kept (m :: members) := fun hm hs =>
        List.forall_mem_cons.2 ⟨hm, hs⟩
      split
      · exact defers_pure more
      · refine (quiet_accept _).defers fun b => ?_
        split <;> exact defers_pure more
  · refine (quiet_expect _ _).defers fun last => (quiet_accept _).defers fun _ => ?_
    exact defers_pure fun hm => noted_fields fun f hf => hm f (List.mem_reverse.1 hf)

theorem defers_functionDecl (attributes : List Attribute) :
    Defers noted (functionDecl attributes) fun f =>
      NotedAll noted (Declaration.reached (.function f)) := by
  refine (quiet_expect _ _).defers fun first => quiet_identifier.defers fun name => ?_
  refine (quiet_expect _ _).defers fun _ => (defers_commaList (defers_field _) _).bind fun args => ?_
  refine (quiet_expect _ _).defers fun _ => ?_
  have rest : ∀ result : List Attribute × Option TypeExpr, Defers noted (do
      let block ← functionBody
      return { name, args, returnType := result.2, returnAttributes := result.1, attributes,
               body := block.1, startLine := first.line, endLine := block.2 }) fun f : Function =>
        NotedAll noted (TypeExpr.paramReached result.2) →
          (∀ a ∈ args, NotedAll noted a.type.reached) →
            NotedAll noted (Declaration.reached (.function f)) := by
    refine fun result => defers_functionBody.bind fun block => defers_pure fun hb ht ha => ?_
    exact notedAll_append.2 ⟨notedAll_append.2 ⟨noted_fields ha, ht⟩, hb⟩
  refine (quiet_accept _).defers fun b => ?_
  split
  · refine defers_attributes.bind fun returnAttributes => defers_typeExpr.bind fun type => ?_
    exact (rest (returnAttributes, some type)).imp fun f hf ht _ => hf ht
  · exact (rest ([], none)).imp fun f hf => hf notedAll_nil

theorem defers_attributedDecl :
    Defers noted attributedDecl fun d => NotedAll noted d.reached := by
  refine defers_attributes.bind fun attributes => quiet_peekKind.defers fun kind => ?_
  refine Defers.imp (P := fun d => NotedAll noted d.reached) ?_ fun d hd _ => hd
  split
  · refine (defers_varDecl attributes).bind fun v => (quiet_expect _ _).defers fun _ => ?_
    exact defers_pure id
  · refine (defers_overrideDecl attributes).bind fun v => (quiet_expect _ _).defers fun _ => ?_
    exact defers_noteConstant v fun _ => defers_pure id
  · refine (defers_constantDecl attributes).bind fun v => (quiet_expect _ _).defers fun _ => ?_
    exact defers_noteConstant v fun _ => defers_pure id
  · refine (defers_constantDecl attributes).bind fun v => (quiet_expect _ _).defers fun _ => ?_
    exact defers_noteConstant v fun _ => defers_pure id
  · refine quiet_advance.defers fun token => quiet_identifier.defers fun name => ?_
    refine (quiet_expect _ _).defers fun _ => defers_typeExpr.bind fun type => ?_
    refine (quiet_expect _ _).defers fun _ => defers_modifyContext (fun _ => rfl) fun _ => ?_
    exact defers_pure id
  · refine (defers_structDecl attributes).bind fun s => ?_
    exact defers_modifyContext (fun _ => rfl) fun _ => defers_pure id
  · exact (defers_functionDecl attributes).bind fun f => defers_pure id
  · refine quiet_advance.defers fun _ => defers_expression.bind fun condition => ?_
    exact (quiet_expect _ _).defers fun _ => defers_pure id
  · exact defers_failHere _

theorem defers_declaration :
    Defers noted declaration fun d? => ∀ d ∈ d?.toList, NotedAll noted d.reached := by
  have none : ∀ {d : Declaration}, d.reached = [] → ∀ d' ∈ (some d).toList, NotedAll noted d'.reached := by
    intro d hd d' hmem
    cases List.mem_singleton.1 hmem
    rw [hd]
    exact notedAll_nil
  refine quiet_peekKind.defers fun kind => ?_
  split
  · exact quiet_advance.defers fun _ => defers_pure nofun
  · exact quiet_advance.defers fun _ => quiet_directiveNames.defers fun _ => defers_pure (none rfl)
  · exact quiet_advance.defers fun _ => quiet_directiveNames.defers fun _ => defers_pure (none rfl)
  · exact quiet_advance.defers fun _ => quiet_diagnosticControl.defers fun _ =>
      (quiet_expect _ _).defers fun _ => defers_pure (none rfl)
  · refine defers_attributedDecl.map fun d hd d' hmem => ?_
    cases List.mem_singleton.1 hmem
    exact hd

/-! ## The module -/

theorem defers_declarations : Defers noted (loop [] fun found => do
      if ← atEnd then return .done found
      return .next ((← declaration).toList ++ found))
    fun found => ∀ d ∈ found, NotedAll noted d.reached := by
  have nothing : ∀ d ∈ ([] : List Declaration), NotedAll noted d.reached := nofun
  refine defers_loop_of nothing fun found => (quiet_check _).defers fun b => ?_
  split
  · exact defers_pure id
  · exact defers_declaration.bind fun d? => defers_pure fun hd hf => List.forall_mem_append.2 ⟨hd, hf⟩

theorem lookup_isSome_of_mem {counts : List (NodeId × UInt32)} {id : NodeId} {n : UInt32}
    (h : (id, n) ∈ counts) : (counts.lookup id).isSome := by
  cases hfound : counts.lookup id with
  | some _ => rfl
  | none =>
    have apart := List.lookup_eq_none_iff.1 hfound (id, n) h
    simp at apart

/-- Every noted count that can be folded is found. -/
theorem lateCounts_complete {s s' : ParseState} {counts : List (NodeId × UInt32)}
    (h : lateCounts.run s = .ok (counts, s')) {id : NodeId} {e : Expr} {n : UInt32}
    (he : (id, e) ∈ s.context.deferred)
    (hn : Expr.foldUInt32 s.context.constants e = .ok (some n)) : (id, n) ∈ counts := by
  obtain ⟨_, _, hget, h⟩ := bind_ok h
  cases hget
  obtain ⟨found, s₁, hfound, h⟩ := bind_ok h
  cases h
  have each : ∀ (noted : List (NodeId × Expr)) found s₁ s₂, StateT.run (noted.mapM fun entry => do
      return (entry.1, ← (Expr.foldUInt32 s.context.constants entry.2 : Except Fault (Option UInt32))) :
        Parser (List (NodeId × Option UInt32))) s₁ = .ok (found, s₂) →
      (id, e) ∈ noted → (id, some n) ∈ found := by
    intro noted
    induction noted with
    | nil => exact fun _ _ _ _ hmem => absurd hmem List.not_mem_nil
    | cons entry noted ih =>
      intro found s₁ s₂ h hmem
      rw [List.mapM_cons] at h
      obtain ⟨first, s₃, hfirst, h⟩ := bind_ok h
      obtain ⟨rest, s₄, hrest, h⟩ := bind_ok h
      cases h
      obtain rfl | hmem := List.mem_cons.1 hmem
      · obtain ⟨count, s₅, hcount, hfirst⟩ := bind_ok hfirst
        cases hfirst
        rw [hn] at hcount
        cases hcount
        exact List.mem_cons_self
      · exact List.mem_cons_of_mem _ (ih _ _ _ hrest hmem)
  exact List.mem_filterMap.2 ⟨(id, some n), each _ _ _ _ hfound he, rfl⟩

end Parser

/-- An array type that counts are entered into has a count if its expression can be folded at the end,
with every constant of the module known. -/
theorem Program.counts_resolved {tokens : List Token} {parsed : ParsedProgram} {id : NodeId}
    {attributes : List Attribute} {element : Option TypeExpr} {count : Option UInt32} {e : Expr}
    {n : UInt32} (h : ParsedProgram.ofTokens tokens = .ok parsed)
    (ht : .array id attributes element count (some e) ∈ parsed.program.reached)
    (hn : Expr.foldUInt32 parsed.context.constants e = .ok (some n)) : count.isSome := by
  cases hrun : Parser.program.run (.ofTokens tokens) with
  | error fault =>
    rw [ParsedProgram.ofTokens, hrun] at h
    cases h
  | ok r =>
    obtain ⟨p, s⟩ := r
    rw [ParsedProgram.ofTokens, hrun] at h
    cases h
    obtain ⟨found, s₁, hfound, hrun⟩ := Parser.bind_ok hrun
    obtain ⟨counts, s₂, hcounts, hrun⟩ := Parser.bind_ok hrun
    cases hrun
    obtain ⟨rfl, -⟩ := Parser.run_lateCounts hcounts
    obtain ⟨-, all⟩ := Parser.defers_declarations _ _ _ hfound (List.Subset.refl _)
    -- the type before its count was entered
    rw [reached_withCounts] at ht
    obtain ⟨t, hmem, hentered⟩ := List.mem_map.1 ht
    obtain ⟨d, hd, htd⟩ := List.mem_flatMap.1 hmem
    have noted := all d (List.mem_reverse.1 hd) t htd
    cases t with
    | named => cases hentered
    | template => cases hentered
    | array id' attributes' element' count' countExpr' =>
      cases hentered
      change (counts.lookup id <|> count').isSome = true
      cases count' with
      | some m => cases counts.lookup id <;> rfl
      | none =>
        have entered := Parser.lookup_isSome_of_mem (Parser.lateCounts_complete hcounts noted hn)
        obtain ⟨m, hm⟩ := Option.isSome_iff_exists.1 entered
        rw [hm]
        rfl

/-- Whether the text was an alias of a counted array and one more declaration, and the count became
two. -/
def ParsedProgram.countsTwo : Except Fault ParsedProgram → Bool
  | .ok ⟨⟨[.alias_ ⟨_, .array _ _ _ _ (some e), _⟩, _]⟩, context⟩ =>
    match Expr.foldUInt32 context.constants e with
    | .ok (some 2) => true
    | _ => false
  | _ => false

theorem ParsedProgram.of_countsTwo {outcome : Except Fault ParsedProgram} (h : countsTwo outcome = true) :
    ∃ parsed id attributes element count e, outcome = .ok parsed ∧
      .array id attributes element count (some e) ∈ parsed.program.reached ∧
      Expr.foldUInt32 parsed.context.constants e = .ok (some 2) := by
  unfold countsTwo at h
  split at h
  · split at h
    · rename_i hfold
      exact ⟨_, _, _, _, _, _, rfl, List.mem_cons_self, hfold⟩
    · cases h
  · cases h

/-- The count of an array is a constant that is declared behind it. -/
theorem Program.counts_resolved_behind :
    let word (name : String) : Token := ⟨.identifier, name, 1⟩
    let sign (kind : TokenKind) : Token := ⟨kind, "", 1⟩
    let tokens : List Token := [sign .kwAlias, word "A", sign .equal, word "array", sign .lessThan,
      word "i32", sign .comma, word "N", sign .greaterThan, sign .semicolon, sign .kwConst, word "N",
      sign .equal, ⟨.intLiteral, "2", 1⟩, sign .semicolon, sign .eof]
    ∃ parsed id attributes element count e, ParsedProgram.ofTokens tokens = .ok parsed ∧
      .array id attributes element count (some e) ∈ parsed.program.reached ∧
      Expr.foldUInt32 parsed.context.constants e = .ok (some 2) ∧ count.isSome := by
  intro word sign tokens
  have shape : ParsedProgram.countsTwo (ParsedProgram.ofTokens tokens) = true := by decide +kernel
  obtain ⟨parsed, id, attributes, element, count, e, hparse, hreached, hfold⟩ :=
    ParsedProgram.of_countsTwo shape
  exact ⟨parsed, id, attributes, element, count, e, hparse, hreached, hfold,
    counts_resolved hparse hreached hfold⟩

/-! ## Counts that are missed -/

/-- The values that the written counts of array types without a count have at the end. -/
def ParsedProgram.unresolved (parsed : ParsedProgram) : List UInt32 :=
  parsed.program.nodes.filterMap fun
    | .type (.array _ _ _ none (some e)) =>
      (Expr.foldUInt32 parsed.context.constants e).toOption.join
    | _ => none

theorem ParsedProgram.exists_of_unresolved {tokens : List Token} {n : UInt32}
    (h : (ofTokens tokens).toOption.map unresolved = some [n]) :
    ∃ parsed id attributes element e, ofTokens tokens = .ok parsed ∧
      Node.type (.array id attributes element none (some e)) ∈ parsed.program.nodes ∧
      Expr.foldUInt32 parsed.context.constants e = .ok (some n) := by
  cases hparse : ofTokens tokens with
  | error fault =>
    rw [hparse] at h
    cases h
  | ok parsed =>
    rw [hparse] at h
    have found : n ∈ parsed.unresolved := Option.some.inj h ▸ List.mem_cons_self
    obtain ⟨node, hnode, hn⟩ := List.mem_filterMap.1 found
    split at hn
    · rename_i id attributes element e
      cases hfold : Expr.foldUInt32 parsed.context.constants e with
      | error fault =>
        rw [hfold] at hn
        cases hn
      | ok count =>
        rw [hfold] at hn
        cases hn
        exact ⟨parsed, id, attributes, element, e, rfl, hnode, hfold⟩
    · cases hn

/-- An array type keeps no count, although its expression can be folded at the end: in a selector of a
`switch`, in the argument of an attribute, and in the written count of another array. -/
theorem Program.counts_missed :
    let word (name : String) : Token := ⟨.identifier, name, 1⟩
    let sign (kind : TokenKind) : Token := ⟨kind, "", 1⟩
    let number (digits : String) : Token := ⟨.intLiteral, digits, 1⟩
    -- `array<u32, N>(1, 2)[0]`
    let first : List Token := [word "array", sign .lessThan, word "u32", sign .comma, word "N",
      sign .greaterThan, sign .parenLeft, number "1", sign .comma, number "2", sign .parenRight,
      sign .bracketLeft, number "0", sign .bracketRight]
    let constant : List Token := [sign .kwConst, word "N", sign .equal, number "2", sign .semicolon,
      sign .eof]
    let selector : List Token := [sign .kwFn, word "f", sign .parenLeft, sign .parenRight,
      sign .braceLeft, sign .kwSwitch, number "1", sign .braceLeft, sign .kwCase] ++ first ++
      [sign .colon, sign .braceLeft, sign .braceRight, sign .braceRight, sign .braceRight]
    let argument : List Token := [sign .atSign, word "id", sign .parenLeft] ++ first ++
      [sign .parenRight, sign .kwOverride, word "o", sign .equal, number "1", sign .semicolon]
    let count : List Token := [sign .kwAlias, word "A", sign .equal, word "array", sign .lessThan,
      word "u32", sign .comma] ++ first ++ [sign .greaterThan, sign .semicolon]
    ∀ tokens ∈ [selector, argument, count], ∃ parsed id attributes element e,
      ParsedProgram.ofTokens (tokens ++ constant) = .ok parsed ∧
      Node.type (.array id attributes element none (some e)) ∈ parsed.program.nodes ∧
      Expr.foldUInt32 parsed.context.constants e = .ok (some 2) := by
  intro word sign number first constant selector argument count tokens htokens
  refine ParsedProgram.exists_of_unresolved ?_
  have missed : ∀ tokens ∈ [selector, argument, count],
      (ParsedProgram.ofTokens (tokens ++ constant)).toOption.map ParsedProgram.unresolved = some [2] := by
    decide +kernel
  exact missed tokens htokens

end Wgsl
