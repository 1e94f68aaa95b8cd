import Wgsl.Proofs.Layout.Settled
import Wgsl.Proofs.Parse.Scoping

/-! # The array counts of a parsed module

A function knows the constants of the module that are declared in front of it; a count that does not
fold there is folded over all constants of the module.

* `Declaration.after`: the constants of a module that are known behind a declaration.
* `Program.counts_folded`: what each count in a body has been folded over.
* `Program.counts_scoped`: the counts in bodies follow the scopes, where no constant that the parser
  knows hides one that the value depends on.
* `Program.counts_stray`: counts that do not follow the scopes.
-/

namespace Wgsl
set_option autoImplicit false

/-! ## Constants of the module -/

/-- The constants of a module that are known behind a declaration. -/
def Declaration.after (constants : Table Expr) : Declaration → Table Expr
  | .value .const v => (v.known []).table constants
  | .value .override v => (v.known []).table constants
  | _ => constants

/-- The constants of a module that are known behind declarations in a row. -/
def Declaration.listAfter (ds : List Declaration) : Table Expr := ds.foldl Declaration.after []

theorem Declaration.listAfter_append (ds ds' : List Declaration) :
    listAfter (ds ++ ds') = ds'.foldl Declaration.after (listAfter ds) := List.foldl_append

theorem Layouts.constants_declared (l : Layouts) (d : Declaration) :
    (l.declared d).constants = d.after l.constants := by
  have noted : ∀ v, (ofProgram.note l v).constants = (v.known []).table l.constants := by
    intro v
    unfold ofProgram.note VarDecl.known
    cases v.value <;> rfl
  cases d with
  | value kind v => cases kind <;> first | rfl | exact noted v
  | _ => rfl

/-- Layouts read the constants that are known behind the last declaration. -/
theorem Layouts.constants_eq (p : Program) :
    (Layouts.ofProgram p).constants = Declaration.listAfter p.declarations := by
  have run : ∀ (ds : List Declaration) (l : Layouts),
      (ds.foldl declared l).constants = ds.foldl Declaration.after l.constants := by
    intro ds
    induction ds with
    | nil => exact fun l => rfl
    | cons d ds ih =>
      intro l
      rw [List.foldl_cons, ih, constants_declared]
      rfl
  rw [ofProgram_eq, run]
  rfl

variable {L : Late}

/-- The constants that are known behind declarations with the counts entered. -/
def Late.behindAll (L : Late) (ds : List Declaration) : Table Expr :=
  Declaration.listAfter (ds.map (Declaration.withCounts L.counts))

/-- The bodies of all functions are settled, each over the constants in front of the function. -/
def Late.SettlesBodies (L : Late) (ds : List Declaration) : Prop :=
  ∀ before f after, ds = before ++ .function f :: after →
    L.SettlesStmts (L.behindAll before) [] f.body

/-- The body of a declaration is settled, if it has one. -/
def Late.SettlesBody (L : Late) (constants : Table Expr) (d? : Option Declaration) : Prop :=
  ∀ f, d? = some (.function f) → L.SettlesStmts constants [] f.body

namespace Parser

variable {α : Type} {known : Table Expr}

/-! ## Declarations -/

theorem leaves_field (purpose : String) : Leaves L (field purpose) known fun _ => True :=
  leaves_attributes.bind fun _ => quiet_identifier.counted fun _ => (quiet_expect _ _).counted fun _ =>
    leaves_typeExpr.bind fun _ => leaves_pure fun _ _ => trivial

theorem leaves_structDecl (attributes : List Attribute) :
    Leaves L (structDecl attributes) known fun _ => True := by
  refine (quiet_expect _ _).counted fun first => quiet_identifier.counted fun name => ?_
  refine (quiet_expect _ _).counted fun _ => ?_
  refine (leaves_loop_of (P := fun _ => True) trivial fun members => ?_).bind fun members => ?_
  · refine (quiet_check _).counted fun closed => (quiet_check _).counted fun ended => ?_
    dsimp only
    split
    · exact leaves_pure id
    · refine (leaves_field _).bind fun m => (quiet_accept _).counted fun b => ?_
      split
      · exact leaves_pure fun _ => id
      · refine (quiet_accept _).counted fun b => ?_
        split <;> exact leaves_pure fun _ => id
  · exact (quiet_expect _ _).counted fun last => (quiet_accept _).counted fun _ =>
      leaves_pure fun _ => trivial

/-- What a body makes known is forgotten behind the function. -/
theorem leaves_functionDecl (attributes : List Attribute) :
    Leaves L (functionDecl attributes) known fun f => L.SettlesStmts known [] f.body := by
  refine (quiet_expect _ _).counted fun first => quiet_identifier.counted fun name => ?_
  refine (quiet_expect _ _).counted fun _ => (leaves_commaList (leaves_field _) _).bind fun args => ?_
  refine (quiet_expect _ _).counted fun _ => Counted.imp ?_ fun f hf _ => hf
  have rest : ∀ result : List Attribute × Option TypeExpr, Leaves L (do
      let block ← functionBody
      return { name, args, returnType := result.2, returnAttributes := result.1, attributes,
               body := block.1, startLine := first.line, endLine := block.2 }) known fun f : Function =>
        L.SettlesStmts known [] f.body := fun result =>
    (@leaves_functionBody L known []).bind fun block => leaves_pure fun hb => hb
  refine (quiet_accept _).counted fun b => ?_
  split
  · refine leaves_attributes.bind fun returnAttributes => leaves_typeExpr.bind fun type => ?_
    exact (rest (returnAttributes, some type)).imp fun f hf _ _ => hf
  · exact rest ([], none)

/-- Tables of types and structures are of no account here. -/
theorem counted_modifyContext {g : ParseContext → ParseContext} {f : Unit → Parser α}
    {after : α → Table Expr} {Q : α → Prop} (hconstants : ∀ c, (g c).constants = c.constants)
    (hdeferred : ∀ c, (g c).deferred = c.deferred) (hf : ∀ u, Counted L (f u) known after Q) :
    Counted L (modifyContext g >>= f) known after Q := by
  intro s b s' hs hrun
  obtain ⟨u, s₁, h₁, h₂⟩ := bind_ok hrun
  cases h₁
  have same : ParseState.Knows L known { s with context := g s.context } := by
    refine ⟨?_, fun entry he => hs.numbered entry ?_⟩
    · exact (hconstants s.context).symm ▸ hs.constants
    · rwa [← hdeferred s.context]
  obtain ⟨hs', hback⟩ := hf () _ b s' same h₂
  refine ⟨hs', fun hl => ?_⟩
  obtain ⟨⟨later, hlater, hids⟩, hb⟩ := hback hl
  exact ⟨⟨later, by rw [hlater, hdeferred], hids⟩, hb⟩

/-- The constants that are known behind a declaration with its counts entered. -/
abbrev behindDecl (L : Late) (constants : Table Expr) (d : Declaration) : Table Expr :=
  (d.withCounts L.counts).after constants

theorem counted_attributedDecl : Counted L attributedDecl known (behindDecl L known)
    fun d => L.SettlesBody known (some d) := by
  refine leaves_attributes.bind fun attributes => quiet_peekKind.counted fun kind => ?_
  refine Counted.imp ?_ fun d hd _ => hd
  -- of all declarations only functions have bodies
  have bodyless : ∀ {d : Declaration} {C : Prop}, (∀ f, d ≠ .function f) →
      C → L.SettlesBody known (some d) := fun hd _ f hf => absurd (Option.some.inj hf) (hd f)
  have noted : ∀ {v : VarDecl} {kind : GlobalKind}, kind = .const ∨ kind = .override → Counted L (do
      let _ ← noteConstant v
      return .value kind v) known (behindDecl L known) fun d => L.SettlesBody known (some d) := by
    intro v kind hkind
    refine (@counted_noteConstant L known [] v).bind fun _ => counted_pure ?_ (bodyless nofun)
    obtain rfl | rfl := hkind <;> rfl
  split
  · refine (leaves_varDecl attributes).bind fun v => (quiet_expect _ _).counted fun _ => ?_
    exact counted_pure rfl (bodyless nofun)
  · refine (leaves_overrideDecl attributes).bind fun v => (quiet_expect _ _).counted fun _ => ?_
    exact (noted (.inr rfl)).imp fun d hd _ => hd
  · refine (leaves_constantDecl attributes).bind fun v => (quiet_expect _ _).counted fun _ => ?_
    exact (noted (.inl rfl)).imp fun d hd _ => hd
  · refine (leaves_constantDecl attributes).bind fun v => (quiet_expect _ _).counted fun _ => ?_
    exact (noted (.inl rfl)).imp fun d hd _ => hd
  · refine quiet_advance.counted fun token => quiet_identifier.counted fun name => ?_
    refine (quiet_expect _ _).counted fun _ => leaves_typeExpr.bind fun type => ?_
    refine (quiet_expect _ _).counted fun _ => counted_modifyContext (fun _ => rfl) (fun _ => rfl) ?_
    exact fun _ => counted_pure rfl (bodyless nofun)
  · refine (leaves_structDecl attributes).bind fun s => ?_
    refine counted_modifyContext (fun _ => rfl) (fun _ => rfl) fun _ => ?_
    exact counted_pure rfl (bodyless nofun)
  · refine (leaves_functionDecl attributes).bind fun f => counted_pure rfl fun hf g hg => ?_
    cases hg
    exact hf
  · refine quiet_advance.counted fun _ => leaves_expression.bind fun condition => ?_
    exact (quiet_expect _ _).counted fun _ => counted_pure rfl (bodyless nofun)
  · exact counted_failHere _

theorem counted_declaration : Counted L declaration known
    (fun d? => d?.elim known (behindDecl L known)) (L.SettlesBody known) := by
  refine quiet_peekKind.counted fun kind => ?_
  split
  · exact quiet_advance.counted fun _ => counted_pure rfl nofun
  · exact quiet_advance.counted fun _ => quiet_directiveNames.counted fun _ => counted_pure rfl nofun
  · exact quiet_advance.counted fun _ => quiet_directiveNames.counted fun _ => counted_pure rfl nofun
  · exact quiet_advance.counted fun _ => quiet_diagnosticControl.counted fun _ =>
      (quiet_expect _ _).counted fun _ => counted_pure rfl nofun
  · exact counted_attributedDecl.map (fun _ => rfl) fun _ hd => hd

/-! ## The module -/

theorem behindAll_append (ds : List Declaration) (d? : Option Declaration) :
    L.behindAll (ds ++ d?.toList) = d?.elim (L.behindAll ds) (behindDecl L (L.behindAll ds)) := by
  unfold Late.behindAll
  rw [List.map_append, Declaration.listAfter_append]
  cases d? <;> rfl

theorem settlesBodies_append {ds : List Declaration} {d? : Option Declaration} (h : L.SettlesBodies ds)
    (hd : L.SettlesBody (L.behindAll ds) d?) : L.SettlesBodies (ds ++ d?.toList) := by
  cases d? with
  | none =>
    rw [Option.toList_none, List.append_nil]
    exact h
  | some d =>
    intro before f after e
    obtain rfl | ⟨after, last, rfl⟩ := List.eq_nil_or_concat' after
    · obtain ⟨rfl, hlast⟩ := List.append_inj' e rfl
      exact hd f (congrArg some (List.singleton_inj.1 hlast))
    · rw [← List.cons_append, ← List.append_assoc] at e
      exact h before f after (List.append_inj' e rfl).1

theorem counted_declarations : Counted L (loop [] fun found => do
      if ← atEnd then return .done found
      return .next ((← declaration).toList ++ found)) [] (fun found => L.behindAll found.reverse)
    fun found => L.SettlesBodies found.reverse := by
  let Kept (found : List Declaration) : Prop := L.SettlesBodies found.reverse
  have nothing : Kept [] := fun before f after e => nomatch List.append_eq_nil_iff.1 e.symm
  let known (found : List Declaration) : Table Expr := L.behindAll found.reverse
  have round : ∀ found, Counted L (do
      if ← atEnd then return Step.done found
      return Step.next ((← declaration).toList ++ found)) (known found) (fun r => known r.value)
      fun r => Kept found → r.Meets Kept Kept := by
    refine fun found => (quiet_check _).counted fun b => ?_
    split
    · exact counted_pure rfl id
    · refine counted_declaration.bind fun d? => counted_pure ?_ fun hd hfound => ?_
      · exact ((congrArg _ (reverse_toList_append d? found)).trans (behindAll_append _ d?)).symm
      · change L.SettlesBodies (d?.toList ++ found).reverse
        rw [reverse_toList_append]
        exact settlesBodies_append hfound hd
  exact (counted_loop round).imp fun found h => h nothing

theorem mem_of_lookup {counts : List (NodeId × UInt32)} {id : NodeId} {n : UInt32}
    (h : counts.lookup id = some n) : (id, n) ∈ counts := by
  obtain ⟨before, after, e, -⟩ := List.lookup_eq_some_iff.1 h
  rw [e]
  exact List.mem_append_right _ List.mem_cons_self

/-- Folding again reads the constants of the module and changes nothing. -/
theorem run_lateCounts {s s' : ParseState} {counts : List (NodeId × UInt32)}
    (h : lateCounts.run s = .ok (counts, s')) : s' = s ∧ ∀ id n, (id, n) ∈ counts →
      ∃ e, (id, e) ∈ s.context.deferred ∧ Expr.foldUInt32 s.context.constants e = .ok (some n) := by
  obtain ⟨_, _, hget, h⟩ := bind_ok h
  cases hget
  obtain ⟨found, s₁, hfound, h⟩ := bind_ok h
  cases h
  have each : ∀ (noted : List (NodeId × Expr)) found s₁, StateT.run (noted.mapM fun entry => do
      return (entry.1, ← (Expr.foldUInt32 s.context.constants entry.2 : Except Fault (Option UInt32))) :
        Parser (List (NodeId × Option UInt32))) s = .ok (found, s₁) → s₁ = s ∧
      ∀ id count, (id, count) ∈ found →
        ∃ e, (id, e) ∈ noted ∧ Expr.foldUInt32 s.context.constants e = .ok count := by
    intro noted
    induction noted with
    | nil =>
      intro found s₁ h
      cases h
      exact ⟨rfl, fun _ _ hmem => absurd hmem List.not_mem_nil⟩
    | cons entry noted ih =>
      intro found s₁ h
      rw [List.mapM_cons] at h
      obtain ⟨first, s₂, hfirst, h⟩ := bind_ok h
      obtain ⟨count, s₃, hcount, hfirst⟩ := bind_ok hfirst
      cases hfirst
      obtain ⟨rest, s₄, hrest, h⟩ := bind_ok h
      cases h
      obtain ⟨id, e⟩ := entry
      obtain ⟨rfl, hfold⟩ : s₂ = s ∧ Expr.foldUInt32 s.context.constants e = .ok count := by
        cases hf : Expr.foldUInt32 s.context.constants e with
        | error fault =>
          rw [hf] at hcount
          cases hcount
        | ok c =>
          rw [hf] at hcount
          cases hcount
          exact ⟨rfl, rfl⟩
      obtain ⟨rfl, hrest⟩ := ih rest _ hrest
      refine ⟨rfl, fun id' count' hmem => ?_⟩
      obtain e' | hmem := List.mem_cons.1 hmem
      · cases e'
        exact ⟨e, List.mem_cons_self, hfold⟩
      · obtain ⟨e', he', hfold'⟩ := hrest id' count' hmem
        exact ⟨e', List.mem_cons_of_mem _ he', hfold'⟩
  obtain ⟨rfl, hfound⟩ := each _ _ _ hfound
  refine ⟨rfl, fun id n hn => ?_⟩
  obtain ⟨⟨id', count⟩, hmem, hcount⟩ := List.mem_filterMap.1 hn
  obtain ⟨m, rfl, hm⟩ := Option.map_eq_some_iff.1 hcount
  cases hm
  exact hfound id (some n) hmem

end Parser

/-- The count of an array type in a body, and what it has been folded over: the constants that the
parser knows where the type stands, or else those of the module. -/
theorem Program.counts_folded {tokens : List Token} {parsed : ParsedProgram}
    {before after : List Declaration} {f : Function} {scope : Consts} {id : NodeId}
    {attributes : List Attribute} {element : Option TypeExpr} {n : UInt32} {countExpr : Option Expr}
    (h : ParsedProgram.ofTokens tokens = .ok parsed)
    (hf : parsed.program.declarations = before ++ .function f :: after)
    (hsite : (scope, .type (.array id attributes element (some n) countExpr)) ∈ f.sites true) :
    ∃ e, countExpr = some e ∧
      (Expr.foldUInt32 (scope.table (Declaration.listAfter before)) e = .ok (some n) ∨
        (∀ m, Expr.foldUInt32 (scope.table (Declaration.listAfter before)) e ≠ .ok (some m)) ∧
          Expr.foldUInt32 (Layouts.ofProgram parsed.program).constants e = .ok (some n)) := by
  cases hrun : Parser.program.run (.ofTokens tokens) with
  | error fault =>
    rw [ParsedProgram.ofTokens, hrun] at h
    cases h
  | ok r =>
    obtain ⟨p, s⟩ := r
    rw [ParsedProgram.ofTokens, hrun] at h
    cases h
    obtain ⟨found, s₁, hfound, hrun⟩ := Parser.bind_ok hrun
    obtain ⟨counts, s₂, hcounts, hrun⟩ := Parser.bind_ok hrun
    cases hrun
    obtain ⟨rfl, hlate⟩ := Parser.run_lateCounts hcounts
    let L : Late := {
      deferred := s.context.deferred
      constants := s.context.constants
      counts := fun id => counts.lookup id
      found := fun id n hn => hlate id n (Parser.mem_of_lookup hn) }
    have fresh : (ParseState.ofTokens tokens).Knows L [] := ⟨fun _ => rfl, fun _ h => absurd h List.not_mem_nil⟩
    obtain ⟨known, settled⟩ := Parser.counted_declarations _ _ _ fresh hfound
    obtain ⟨-, settled⟩ := settled ⟨[], (List.append_nil _).symm, fun _ h => absurd h List.not_mem_nil⟩
    obtain ⟨before, rest, hsplit, rfl, hrest⟩ := List.map_eq_append_iff.1 hf
    obtain ⟨d, after, rfl, hd, -⟩ := List.map_eq_cons_iff.1 hrest
    cases d with
    | function g =>
      cases hd
      obtain ⟨e, he, folds⟩ := settled before g after hsplit _ hsite
      refine ⟨e, he, folds.imp_right fun late => ⟨late.1, ?_⟩⟩
      rw [Layouts.constants_eq]
      exact (Expr.foldUInt32_recounted known.constants e).trans late.2
    | _ => cases hd

/-- The count of an array type in a body is the value of its expression by scopes, as far as

* the constants of the module in front of the function are not declared again behind it,
* each name that the value depends on stands for the same constant in what the parser knows where the
  type stands: nothing that has leaked from a `loop` or the header of a `for`, and nothing declared
  between an initializer and the type, hides it, and
* the value can be found with the constants of the module in front of the function, or depends on no
  constant of the body. -/
theorem Program.counts_scoped {tokens : List Token} {parsed : ParsedProgram}
    {before after : List Declaration} {f : Function} {scope : Consts} {id : NodeId}
    {attributes : List Attribute} {element : Option TypeExpr} {n : UInt32} {countExpr : Option Expr}
    (h : ParsedProgram.ofTokens tokens = .ok parsed)
    (hf : parsed.program.declarations = before ++ .function f :: after)
    (hsite : (scope, .type (.array id attributes element (some n) countExpr)) ∈ f.sites false)
    (hearlier : ∀ x init, (Declaration.listAfter before).find? x = some init →
      (Layouts.ofProgram parsed.program).constants.find? x = some init)
    (hknown : ∀ known e, (known, .type (.array id attributes element (some n) countExpr)) ∈ f.sites true →
      countExpr = some e → Consts.Agree (Declaration.listAfter before) known scope e)
    (hlate : ∀ e, countExpr = some e →
      (∃ m, Expr.foldScopedUInt32 (Declaration.listAfter before) scope e = .ok (some m)) ∨
        Consts.Agree (Layouts.ofProgram parsed.program).constants [] scope e) :
    ∃ e, countExpr = some e ∧
      Expr.foldScopedUInt32 (Layouts.ofProgram parsed.program).constants scope e = .ok (some n) := by
  obtain ⟨known, hmem⟩ := Function.exists_site hsite
  obtain ⟨e, he, folds⟩ := counts_folded h hf hmem
  exact ⟨e, he, (hknown known e hmem he).scoped_of_counted hearlier folds (hlate e he)⟩

/-- A constant in scope that has the value of one of the module. -/
theorem Consts.agree_named (k l m : Mark) : Agree [("N", .literal k (.int 4 none))] [("M", .var l "N")]
    [("M", .var l "N")] (.var m "M") := by
  intro env x reached
  have named : env = [("M", .var l "N")] ∧ x = "M" ∨ env = [] ∧ x = "N" := by
    induction reached with
    | here h =>
      cases h with
      | head => exact .inl ⟨rfl, rfl⟩
      | tail _ h => cases h
    | behind _ hinit h ih =>
      obtain ⟨rfl, rfl⟩ | ⟨rfl, rfl⟩ := ih
      · cases hinit
        cases h with
        | head => exact .inr ⟨rfl, rfl⟩
        | tail _ h => cases h
      · cases hinit
        cases h
  obtain ⟨rfl, rfl⟩ | ⟨rfl, rfl⟩ := named <;> rfl

/-- Whether the text was a constant and a function with a constant that is the first one, and an array
counted by it, and the count is four. -/
def ParsedProgram.countsFour : Except Fault ParsedProgram → Bool
  | .ok ⟨⟨[.value .const ⟨"N", _, _, _, some (.literal _ (.int 4 none)), _, _⟩,
      .function ⟨_, _, _, _, _,
        [.simple ⟨_, .declare .const ⟨"M", none, _, _, some (.var _ "N"), [], _⟩⟩,
          .simple ⟨_, .declare .var ⟨_, some (.array _ [] (some (.named _ [] _)) (some 4)
            (some (.var _ "M"))), _, _, none, [], _⟩⟩], _, _⟩]⟩, _⟩ => true
  | _ => false

/-- The count of an array in a function is a constant of the function, its value one of the module. -/
theorem Program.counts_scoped_named :
    let word (name : String) : Token := ⟨.identifier, name, 1⟩
    let sign (kind : TokenKind) : Token := ⟨kind, "", 1⟩
    let constant (name : String) (value : Token) : List Token :=
      [sign .kwConst, word name, sign .equal, value, sign .semicolon]
    let tokens : List Token := constant "N" ⟨.intLiteral, "4", 1⟩ ++
      [sign .kwFn, word "f", sign .parenLeft, sign .parenRight, sign .braceLeft] ++
      constant "M" (word "N") ++ [sign .kwVar, word "a", sign .colon, word "array", sign .lessThan,
        word "i32", sign .comma, word "M", sign .greaterThan, sign .semicolon, sign .braceRight, sign .eof]
    ∃ parsed before f after scope id attributes element e, ParsedProgram.ofTokens tokens = .ok parsed ∧
      parsed.program.declarations = before ++ .function f :: after ∧
      (scope, .type (.array id attributes element (some 4) (some e))) ∈ f.sites false ∧
      scope.map Prod.fst = ["M"] ∧
      Expr.foldScopedUInt32 (Layouts.ofProgram parsed.program).constants scope e = .ok (some 4) := by
  intro word sign constant tokens
  have shape : ParsedProgram.countsFour (ParsedProgram.ofTokens tokens) = true := by decide +kernel
  unfold ParsedProgram.countsFour at shape
  split at shape
  · rename_i hparse
    rename_i inner _ _ _ _ _ _ last _ _ _ _ _ _
    have split : ∀ d f : Declaration, [d, f] = [d] ++ f :: [] := fun _ _ => rfl
    -- the type stands behind the initializer of the constant
    have second : ∀ {s t : Consts × Node} {sites : List (Consts × Node)}, t ∈ s :: t :: sites :=
      List.mem_cons_of_mem _ List.mem_cons_self
    refine ⟨_, _, _, _, [("M", .var inner "N")], _, _, _, .var last "M", hparse, split _ _, second, rfl, ?_⟩
    have counted := counts_scoped hparse (split _ _) (second (t := ([("M", .var inner "N")], _)))
      (fun _ _ h => h) (fun known e hmem he => ?_) fun e he => by cases he; exact .inl ⟨4, rfl⟩
    · obtain ⟨_, e, counted⟩ := counted
      cases e
      exact counted
    · cases he
      have there : (known, _) ∈ [_, _, _, _] := hmem
      simp at there
      rw [there]
      exact Consts.agree_named _ _ _
  · cases shape

/-- Each count in a body beside the value of its expression by scopes. -/
def Program.scopedCounts (p : Program) : List (UInt32 × Option UInt32) :=
  p.functions.flatMap fun f => (f.sites false).filterMap fun (scope, node) =>
    match node with
    | .type (.array _ _ _ (some n) (some e)) =>
      some (n, (Expr.foldScopedUInt32 (Layouts.ofProgram p).constants scope e).toOption.join)
    | _ => none

/-- Counts that differ from the values by scopes: a constant of a `loop` is known behind it, an
initializer is folded where the constant is used, and a count that is folded at the end misses the
constants of the body. -/
theorem Program.counts_stray :
    let word (name : String) : Token := ⟨.identifier, name, 1⟩
    let sign (kind : TokenKind) : Token := ⟨kind, "", 1⟩
    let number (digits : String) : Token := ⟨.intLiteral, digits, 1⟩
    let constant (name : String) (value : Token) : List Token :=
      [sign .kwConst, word name, sign .equal, value, sign .semicolon]
    let array (count : String) : List Token := [sign .kwVar, word "a", sign .colon, word "array",
      sign .lessThan, word "i32", sign .comma, word count, sign .greaterThan, sign .semicolon]
    let function (body : List Token) : List Token :=
      [sign .kwFn, word "f", sign .parenLeft, sign .parenRight, sign .braceLeft] ++ body ++
        [sign .braceRight]
    let counts (tokens : List Token) : Option (List (UInt32 × Option UInt32)) :=
      (ParsedProgram.ofTokens (tokens ++ [sign .eof])).toOption.map fun parsed =>
        parsed.program.scopedCounts
    counts (constant "N" (number "4") ++ function ([sign .kwLoop, sign .braceLeft] ++
      constant "N" (number "8") ++ [sign .kwBreak, sign .semicolon, sign .braceRight] ++ array "N")) =
        some [(8, some 4)] ∧
    counts (constant "N" (number "4") ++ constant "M" (word "N") ++
      function (constant "N" (number "8") ++ array "M")) = some [(8, some 4)] ∧
    counts (constant "N" (number "4") ++ function (constant "N" (word "K") ++ array "N") ++
      constant "K" (number "8")) = some [(4, some 8)] := by
  decide +kernel

end Wgsl
