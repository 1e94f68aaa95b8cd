import Wgsl.Proofs.Machine.Statements

/-! # What a scan of a body finds is what the body can read

A scan walks through a body once, with a stack of the local names that hold at the moment. Where it
has noted no hidden name, the body reads a hidden name only after it has declared it.

* `Mention.Allowed`: every name that is met holds locally or is not hidden.
* `BodyScan.allowed`: what a scan without hidden names says about the names it has met.
* `Stmt.admitted_of_allowed`: such a statement may run, by induction over the syntax.
-/

namespace Wgsl
set_option autoImplicit false

open Correspondence

/-! ## Local names -/

/-- The local names after a declaration. -/
def Locals.declare (name : String) : List (List String) → List (List String)
  | scope :: outer => (name :: scope) :: outer
  | [] => []

/-- The name is not hidden, or a local name holds in its place. -/
def Locals.Known (hidden : List String) (locals : List (List String)) (name : String) : Prop :=
  name ∉ hidden ∨ ∃ scope ∈ locals, name ∈ scope

namespace Locals

variable {hidden : List String} {locals : List (List String)} {name : String}

theorem known_enter : Known hidden ([] :: locals) = Known hidden locals := by
  funext n
  simp [Known]

theorem known_declare (h : locals ≠ []) :
    Known hidden (declare name locals) = withName (Known hidden locals) (some name) := by
  funext n
  cases locals with
  | nil => exact absurd rfl h
  | cons scope outer =>
    simp only [Known, withName, declare, List.mem_cons, or_and_right, exists_or, exists_eq_left,
      Option.some.injEq, eq_iff_iff]
    grind

theorem declare_ne_nil (h : locals ≠ []) : declare name locals ≠ [] := by
  cases locals with
  | nil => exact absurd rfl h
  | cons scope outer => exact List.cons_ne_nil _ _

end Locals

/-! ## Sequences of mentions -/

/-- The local names behind a mention. -/
def Mention.locals (locals : List (List String)) : Mention → List (List String)
  | .enter => [] :: locals
  | .leave => locals.tail
  | .declare name => Locals.declare name locals
  | _ => locals

/-- The mention reads nothing hidden and calls what may be called. -/
def Mention.Fine (hidden : List String) (calls : String → Prop) (locals : List (List String)) :
    Mention → Prop
  | .variable_ name => Locals.Known hidden locals name
  | .call name => calls name
  | _ => True

/-- All mentions are fine, each with the local names that hold where it stands. -/
def Mention.Allowed (hidden : List String) (calls : String → Prop) :
    List (List String) → List Mention → Prop
  | _, [] => True
  | locals, m :: rest =>
    m.Fine hidden calls locals ∧ Allowed hidden calls (m.locals locals) rest

namespace Mention

variable {hidden : List String} {calls : String → Prop} {locals : List (List String)}

theorem allowed_append (ms rest : List Mention) : Allowed hidden calls locals (ms ++ rest) ↔
    Allowed hidden calls locals ms ∧ Allowed hidden calls (ms.foldl Mention.locals locals) rest := by
  induction ms generalizing locals with
  | nil => simp [Allowed]
  | cons m ms ih => simp [Allowed, ih, and_assoc]

/-- A scope of its own leaves the local names as they were. -/
theorem foldl_locals_block {ms : List Mention} (h : (ms.foldl Mention.locals ([] :: locals)).tail = locals) :
    (Mention.enter :: (ms ++ [Mention.leave])).foldl Mention.locals locals = locals := by
  simpa [Mention.locals] using h

end Mention

/-! ## Expressions -/

section

variable {C : Correspondence} {H : List String}

mutual

/-- An expression declares nothing, and may run where all it mentions is allowed. -/
theorem Expr.admitted_of_allowed (ha : C.address) : ∀ (e : Expr) (locals : List (List String)),
    e.mentions.foldl Mention.locals locals = locals ∧
      (Mention.Allowed H C.calls locals e.mentions →
        e.Admitted C (Locals.Known H locals))
  | .literal .., _ => ⟨rfl, fun _ => trivial⟩
  | .var _ name, _ => ⟨rfl, fun h => h.1⟩
  | .binary _ op lhs rhs, locals => by
    obtain ⟨hl, hl'⟩ := Expr.admitted_of_allowed ha lhs locals
    obtain ⟨hr, hr'⟩ := Expr.admitted_of_allowed ha rhs locals
    rw [Expr.mentions, List.foldl_append, hl, Mention.allowed_append, hl]
    exact ⟨hr, fun h => ⟨hl' h.1, hr' h.2⟩⟩
  | .unary _ op operand, locals => by
    obtain ⟨he, he'⟩ := Expr.admitted_of_allowed ha operand locals
    rw [Expr.mentions]
    exact ⟨he, fun h => ⟨fun _ => ha, he' h⟩⟩
  | .call _ name args, locals => by
    obtain ⟨hs, hs'⟩ := Expr.allAdmitted_of_allowed ha args locals
    rw [Expr.mentions]
    exact ⟨hs, fun h => ⟨h.1, hs' h.2⟩⟩
  | .construct _ type args, locals => by
    obtain ⟨hs, hs'⟩ := Expr.allAdmitted_of_allowed ha args locals
    rw [Expr.mentions]
    exact ⟨hs, fun h => hs' h.2⟩
  | .bitcast _ type value, locals => by
    obtain ⟨he, he'⟩ := Expr.admitted_of_allowed ha value locals
    rw [Expr.mentions]
    exact ⟨he, fun h => he' h.2⟩
  | .index _ base i, locals => by
    obtain ⟨hb, hb'⟩ := Expr.admitted_of_allowed ha base locals
    obtain ⟨hi, hi'⟩ := Expr.admitted_of_allowed ha i locals
    rw [Expr.mentions, List.foldl_append, hb, Mention.allowed_append, hb]
    exact ⟨hi, fun h => ⟨hb' h.1, hi' h.2⟩⟩
  | .member _ base name, locals => by
    obtain ⟨he, he'⟩ := Expr.admitted_of_allowed ha base locals
    rw [Expr.mentions]
    exact ⟨he, he'⟩
  | .group _ e, locals => by
    obtain ⟨he, he'⟩ := Expr.admitted_of_allowed ha e locals
    rw [Expr.mentions]
    exact ⟨he, he'⟩

theorem Expr.allAdmitted_of_allowed (ha : C.address) : ∀ (es : List Expr) (locals : List (List String)),
    (Expr.listMentions es).foldl Mention.locals locals = locals ∧
      (Mention.Allowed H C.calls locals (Expr.listMentions es) →
        Expr.AllAdmitted C (Locals.Known H locals) es)
  | [], _ => ⟨rfl, fun _ => trivial⟩
  | e :: rest, locals => by
    obtain ⟨he, he'⟩ := Expr.admitted_of_allowed ha e locals
    obtain ⟨hs, hs'⟩ := Expr.allAdmitted_of_allowed ha rest locals
    rw [Expr.listMentions, List.foldl_append, he, Mention.allowed_append, he]
    exact ⟨hs, fun h => ⟨he' h.1, hs' h.2⟩⟩

end

theorem Expr.admitted_of_elim (ha : C.address) (e? : Option Expr) (locals : List (List String)) :
    (e?.elim [] Expr.mentions).foldl Mention.locals locals = locals ∧
      (Mention.Allowed H C.calls locals (e?.elim [] Expr.mentions) →
        ∀ e ∈ e?, e.Admitted C (Locals.Known H locals)) := by
  cases e? with
  | none => exact ⟨rfl, fun _ => nofun⟩
  | some e =>
    obtain ⟨he, he'⟩ := Expr.admitted_of_allowed ha e locals
    exact ⟨he, fun h _ hmem => Option.some.inj hmem ▸ he' h⟩

/-! ## Statements -/

mutual

/-- No update of a `for` declares a name. -/
def Stmt.plainUpdates : Stmt → Bool
  | .ifElse _ _ body rest => Stmt.allPlainUpdates body && ElseChain.plainUpdates rest
  | .forLoop _ _ _ update body =>
    ((update.bind fun st => st.action.declares?).isNone) && Stmt.allPlainUpdates body
  | .whileLoop _ _ body => Stmt.allPlainUpdates body
  | .loop _ body continuing => Stmt.allPlainUpdates body && Stmt.partPlainUpdates continuing
  | .switch _ _ clauses => SwitchClause.plainUpdates clauses
  | .block _ body => Stmt.allPlainUpdates body
  | _ => true

def Stmt.allPlainUpdates : List Stmt → Bool
  | [] => true
  | st :: rest => Stmt.plainUpdates st && Stmt.allPlainUpdates rest

def Stmt.partPlainUpdates : Option (List Stmt) → Bool
  | none => true
  | some body => Stmt.allPlainUpdates body

def ElseChain.plainUpdates : ElseChain → Bool
  | .none => true
  | .else_ body => Stmt.allPlainUpdates body
  | .elseIf _ _ body rest => Stmt.allPlainUpdates body && ElseChain.plainUpdates rest

def SwitchClause.plainUpdates : List SwitchClause → Bool
  | [] => true
  | .mk _ _ _ body :: rest => Stmt.allPlainUpdates body && SwitchClause.plainUpdates rest

end

/-- The local names behind a statement. -/
def Locals.after (name? : Option String) (locals : List (List String)) : List (List String) :=
  name?.elim locals fun name => Locals.declare name locals

theorem Locals.known_after {name? : Option String} {locals : List (List String)} (h : locals ≠ []) :
    Locals.Known H (Locals.after name? locals) = withName (Locals.Known H locals) name? := by
  cases name? with
  | none =>
    funext n
    simp [withName, Locals.after]
  | some name => exact Locals.known_declare h

theorem Locals.after_ne_nil {name? : Option String} {locals : List (List String)} (h : locals ≠ []) :
    Locals.after name? locals ≠ [] := by
  cases name? with
  | none => exact h
  | some name => exact Locals.declare_ne_nil h

theorem Locals.tail_after {name? : Option String} {locals : List (List String)} :
    (Locals.after name? locals).tail = locals.tail := by
  cases name? with
  | none => rfl
  | some name => cases locals <;> rfl

theorem SimpleStmt.admitted_of_allowed (ha : C.address) (st : SimpleStmt)
    (locals : List (List String)) :
    st.mentions.foldl Mention.locals locals = Locals.after st.action.declares? locals ∧
      (Mention.Allowed H C.calls locals st.mentions →
        st.action.Admitted C (Locals.Known H locals)) := by
  obtain ⟨line, action⟩ := st
  cases action with
  | declare kind v =>
    obtain ⟨hv, hv'⟩ := Expr.admitted_of_elim (H := H) ha v.value locals
    have ht : (v.type.elim [] fun t => [Mention.type t]).foldl Mention.locals locals = locals := by
      cases v.type <;> rfl
    change (v.mentions.foldl Mention.locals locals = _) ∧ (Mention.Allowed _ _ _ v.mentions → _)
    unfold VarDecl.mentions
    rw [List.append_assoc, List.foldl_append, hv, List.foldl_append, ht, Mention.allowed_append]
    exact ⟨rfl, fun h => hv' h.1⟩
  | assign op target value =>
    obtain ⟨ht, ht'⟩ := Expr.admitted_of_elim (H := H) ha target locals
    obtain ⟨hv, hv'⟩ := Expr.admitted_of_allowed (H := H) ha value locals
    change ((target.elim [] Expr.mentions ++ value.mentions).foldl Mention.locals locals = _) ∧
      (Mention.Allowed _ _ _ (target.elim [] Expr.mentions ++ value.mentions) → _)
    rw [List.foldl_append, ht, Mention.allowed_append, ht]
    exact ⟨hv, fun h => ⟨ht' h.1, hv' h.2⟩⟩
  | increment op target => exact Expr.admitted_of_allowed ha target locals
  | call callee => exact Expr.admitted_of_allowed ha callee locals

theorem SimpleStmt.admitted_of_elim (ha : C.address) (st? : Option SimpleStmt)
    (locals : List (List String)) :
    (st?.elim [] SimpleStmt.mentions).foldl Mention.locals locals =
        Locals.after (st?.bind fun st => st.action.declares?) locals ∧
      (Mention.Allowed H C.calls locals (st?.elim [] SimpleStmt.mentions) →
        ∀ st ∈ st?, st.action.Admitted C (Locals.Known H locals)) := by
  cases st? with
  | none => exact ⟨rfl, fun _ => nofun⟩
  | some st =>
    obtain ⟨hs, hs'⟩ := SimpleStmt.admitted_of_allowed (H := H) ha st locals
    exact ⟨hs, fun h _ hmem => Option.some.inj hmem ▸ hs' h⟩

/-- What is mentioned in a scope of its own. -/
theorem Mention.allowed_block {calls : String → Prop} {ms : List Mention}
    {locals : List (List String)} :
    Mention.Allowed H calls locals (Mention.enter :: (ms ++ [Mention.leave])) ↔
      Mention.Allowed H calls ([] :: locals) ms := by
  change True ∧ Mention.Allowed H calls ([] :: locals) (ms ++ [Mention.leave]) ↔ _
  rw [Mention.allowed_append]
  simp [Mention.Allowed, Mention.Fine]

/-- A list of statements in a scope of its own. -/
theorem Stmt.admitted_of_block {body : List Stmt} {locals : List (List String)}
    (h : ((Stmt.listMentions body).foldl Mention.locals ([] :: locals)).tail = locals ∧
      (Mention.Allowed H C.calls ([] :: locals) (Stmt.listMentions body) →
        Stmt.AllAdmitted C (Locals.Known H ([] :: locals)) body)) :
    (Stmt.blockMentions body).foldl Mention.locals locals = locals ∧
      (Mention.Allowed H C.calls locals (Stmt.blockMentions body) →
        Stmt.AllAdmitted C (Locals.Known H locals) body) := by
  rw [Locals.known_enter] at h
  rw [Stmt.blockMentions]
  exact ⟨Mention.foldl_locals_block h.1, fun allowed => h.2 (Mention.allowed_block.1 allowed)⟩

mutual

/-- A statement declares at most its own name, and may run where all it mentions is allowed. -/
theorem Stmt.admitted_of_allowed (ha : C.address) (hl : ¬C.lax) :
    ∀ (st : Stmt) (locals : List (List String)), st.plainUpdates = true → locals ≠ [] →
      st.mentions.foldl Mention.locals locals = Locals.after st.declares? locals ∧
        (Mention.Allowed H C.calls locals st.mentions → st.Admitted C (Locals.Known H locals))
  | .simple st, locals, hu, hn => by
    rw [Stmt.mentions]
    exact SimpleStmt.admitted_of_allowed ha st locals
  | .ifElse _ cond body rest, locals, hu, hn => by
    rw [Stmt.plainUpdates, Bool.and_eq_true] at hu
    obtain ⟨hc, hc'⟩ := Expr.admitted_of_allowed (H := H) ha cond locals
    obtain ⟨hb, hb'⟩ := Stmt.admitted_of_block
      (Stmt.admitted_of_list ha hl body ([] :: locals) hu.1 (List.cons_ne_nil _ _))
    obtain ⟨hr, hr'⟩ := ElseChain.admitted_of_allowed ha hl rest locals hu.2
    rw [Stmt.mentions, List.append_assoc, List.foldl_append, hc, List.foldl_append, hb,
      Mention.allowed_append, hc, Mention.allowed_append, hb]
    exact ⟨hr, fun h => ⟨hc' h.1, hb' h.2.1, hr' h.2.2⟩⟩
  | .forLoop _ init cond update body, locals, hu, hn => by
    rw [Stmt.plainUpdates, Bool.and_eq_true, Option.isNone_iff_eq_none] at hu
    obtain ⟨hi, hi'⟩ := SimpleStmt.admitted_of_elim (H := H) ha init ([] :: locals)
    rw [Locals.known_enter] at hi'
    generalize hname : (init.bind fun st => st.action.declares?) = name? at hi
    have known : Locals.Known H (Locals.after name? ([] :: locals)) =
        withName (Locals.Known H ([] :: locals)) name? := Locals.known_after (List.cons_ne_nil _ _)
    rw [Locals.known_enter] at known
    have tail : (Locals.after name? ([] :: locals)).tail = locals := Locals.tail_after
    generalize Locals.after name? ([] :: locals) = inner at hi known tail
    obtain ⟨hc, hc'⟩ := Expr.admitted_of_elim (H := H) ha cond inner
    obtain ⟨hs, hs'⟩ := SimpleStmt.admitted_of_elim (H := H) ha update inner
    obtain ⟨hb, hb'⟩ := Stmt.admitted_of_block
      (Stmt.admitted_of_list ha hl body ([] :: inner) hu.2 (List.cons_ne_nil _ _))
    rw [hu.1] at hs
    have hs₀ : Locals.after none inner = inner := rfl
    rw [hs₀] at hs
    rw [known] at hc' hs' hb'
    rw [Stmt.mentions]
    constructor
    · refine Mention.foldl_locals_block ?_
      rw [List.append_assoc, List.append_assoc, List.foldl_append, hi, List.foldl_append, hc,
        List.foldl_append, hs, hb]
      exact tail
    · intro h
      rw [Mention.allowed_block, List.append_assoc, List.append_assoc, Mention.allowed_append, hi,
        Mention.allowed_append, hc, Mention.allowed_append, hs] at h
      subst hname
      exact ⟨hi' h.1, hc' h.2.1, hs' h.2.2.1, hb' h.2.2.2⟩
  | .whileLoop _ cond body, locals, hu, hn => by
    rw [Stmt.plainUpdates] at hu
    obtain ⟨hc, hc'⟩ := Expr.admitted_of_allowed (H := H) ha cond locals
    obtain ⟨hb, hb'⟩ := Stmt.admitted_of_block
      (Stmt.admitted_of_list ha hl body ([] :: locals) hu (List.cons_ne_nil _ _))
    rw [Stmt.mentions, List.foldl_append, hc, Mention.allowed_append, hc]
    exact ⟨hb, fun h => ⟨hc' h.1, hb' h.2⟩⟩
  | .loop _ body continuing, locals, hu, hn => by
    rw [Stmt.plainUpdates, Bool.and_eq_true] at hu
    obtain ⟨hb, hb'⟩ := Stmt.admitted_of_block
      (Stmt.admitted_of_list ha hl body ([] :: locals) hu.1 (List.cons_ne_nil _ _))
    obtain ⟨hc, hc'⟩ := Stmt.admitted_of_continuing ha hl continuing locals hu.2
    rw [Stmt.mentions, List.foldl_append, hb, Mention.allowed_append, hb]
    exact ⟨hc, fun h => ⟨hb' h.1, hc' h.2⟩⟩
  | .switch _ selector clauses, locals, hu, hn => by
    rw [Stmt.plainUpdates] at hu
    obtain ⟨hs, hs'⟩ := Expr.admitted_of_allowed (H := H) ha selector locals
    obtain ⟨hc, hc'⟩ := SwitchClause.admitted_of_allowed ha hl clauses locals hu
    rw [Stmt.mentions, List.foldl_append, hs, Mention.allowed_append, hs]
    exact ⟨hc, fun h => ⟨hs' h.1, hc' h.2⟩⟩
  | .block _ body, locals, hu, hn => by
    rw [Stmt.plainUpdates] at hu
    rw [Stmt.mentions]
    exact Stmt.admitted_of_block
      (Stmt.admitted_of_list ha hl body ([] :: locals) hu (List.cons_ne_nil _ _))
  | .return_ _ value, locals, hu, hn => by
    rw [Stmt.mentions]
    exact Expr.admitted_of_elim ha value locals
  | .breakIf _ cond, locals, hu, hn => by
    rw [Stmt.mentions]
    exact Expr.admitted_of_allowed ha cond locals
  | .constAssert _ cond, locals, hu, hn => by
    rw [Stmt.mentions]
    exact Expr.admitted_of_allowed ha cond locals
  | .break_ _, locals, hu, hn => by
    rw [Stmt.mentions]
    exact ⟨rfl, fun _ => trivial⟩
  | .continue_ _, locals, hu, hn => by
    rw [Stmt.mentions]
    exact ⟨rfl, fun _ => trivial⟩
  | .discard _, locals, hu, hn => by
    rw [Stmt.mentions]
    exact ⟨rfl, fun _ => hl⟩

theorem Stmt.admitted_of_list (ha : C.address) (hl : ¬C.lax) :
    ∀ (body : List Stmt) (locals : List (List String)), Stmt.allPlainUpdates body = true →
      locals ≠ [] →
      ((Stmt.listMentions body).foldl Mention.locals locals).tail = locals.tail ∧
        (Mention.Allowed H C.calls locals (Stmt.listMentions body) →
          Stmt.AllAdmitted C (Locals.Known H locals) body)
  | [], locals, hu, hn => by
    rw [Stmt.listMentions]
    exact ⟨rfl, fun _ => trivial⟩
  | st :: rest, locals, hu, hn => by
    rw [Stmt.allPlainUpdates, Bool.and_eq_true] at hu
    obtain ⟨hs, hs'⟩ := Stmt.admitted_of_allowed ha hl st locals hu.1 hn
    obtain ⟨hr, hr'⟩ := Stmt.admitted_of_list ha hl rest (Locals.after st.declares? locals) hu.2
      (Locals.after_ne_nil hn)
    rw [Stmt.listMentions, List.foldl_append, hs, Mention.allowed_append, hs]
    refine ⟨hr.trans Locals.tail_after, fun h => ⟨hs' h.1, ?_⟩⟩
    rw [← Locals.known_after hn]
    exact hr' h.2

theorem Stmt.admitted_of_continuing (ha : C.address) (hl : ¬C.lax) :
    ∀ (body : Option (List Stmt)) (locals : List (List String)), Stmt.partPlainUpdates body = true →
      (Stmt.continuingMentions body).foldl Mention.locals locals = locals ∧
        (Mention.Allowed H C.calls locals (Stmt.continuingMentions body) →
          Stmt.PartAdmitted C (Locals.Known H locals) body)
  | none, locals, hu => by
    rw [Stmt.continuingMentions]
    exact ⟨rfl, fun _ => trivial⟩
  | some body, locals, hu => by
    rw [Stmt.partPlainUpdates] at hu
    rw [Stmt.continuingMentions, ← Stmt.blockMentions]
    exact Stmt.admitted_of_block
      (Stmt.admitted_of_list ha hl body ([] :: locals) hu (List.cons_ne_nil _ _))

theorem ElseChain.admitted_of_allowed (ha : C.address) (hl : ¬C.lax) :
    ∀ (rest : ElseChain) (locals : List (List String)), rest.plainUpdates = true →
      rest.mentions.foldl Mention.locals locals = locals ∧
        (Mention.Allowed H C.calls locals rest.mentions → rest.Admitted C (Locals.Known H locals))
  | .none, locals, hu => by
    rw [ElseChain.mentions]
    exact ⟨rfl, fun _ => trivial⟩
  | .else_ body, locals, hu => by
    rw [ElseChain.plainUpdates] at hu
    rw [ElseChain.mentions, ← Stmt.blockMentions]
    exact Stmt.admitted_of_block
      (Stmt.admitted_of_list ha hl body ([] :: locals) hu (List.cons_ne_nil _ _))
  | .elseIf _ cond body rest, locals, hu => by
    rw [ElseChain.plainUpdates, Bool.and_eq_true] at hu
    obtain ⟨hc, hc'⟩ := Expr.admitted_of_allowed (H := H) ha cond locals
    obtain ⟨hb, hb'⟩ := Stmt.admitted_of_block
      (Stmt.admitted_of_list ha hl body ([] :: locals) hu.1 (List.cons_ne_nil _ _))
    obtain ⟨hr, hr'⟩ := ElseChain.admitted_of_allowed ha hl rest locals hu.2
    rw [ElseChain.mentions, ← Stmt.blockMentions, List.append_assoc, List.foldl_append, hc,
      List.foldl_append, hb, Mention.allowed_append, hc, Mention.allowed_append, hb]
    exact ⟨hr, fun h => ⟨hc' h.1, hb' h.2.1, hr' h.2.2⟩⟩

theorem SwitchClause.admitted_of_allowed (ha : C.address) (hl : ¬C.lax) :
    ∀ (clauses : List SwitchClause) (locals : List (List String)),
      SwitchClause.plainUpdates clauses = true →
      (SwitchClause.mentions clauses).foldl Mention.locals locals = locals ∧
        (Mention.Allowed H C.calls locals (SwitchClause.mentions clauses) →
          SwitchClause.AllAdmitted C (Locals.Known H locals) clauses)
  | [], locals, hu => by
    rw [SwitchClause.mentions]
    exact ⟨rfl, fun _ => trivial⟩
  | .mk _ selectors _ body :: rest, locals, hu => by
    rw [SwitchClause.plainUpdates, Bool.and_eq_true] at hu
    obtain ⟨hs, hs'⟩ := Expr.allAdmitted_of_allowed (H := H) ha selectors locals
    obtain ⟨hb, hb'⟩ := Stmt.admitted_of_block
      (Stmt.admitted_of_list ha hl body ([] :: locals) hu.1 (List.cons_ne_nil _ _))
    obtain ⟨hr, hr'⟩ := SwitchClause.admitted_of_allowed ha hl rest locals hu.2
    rw [SwitchClause.mentions, ← Stmt.blockMentions, List.append_assoc, List.foldl_append, hs,
      List.foldl_append, hb, Mention.allowed_append, hs, Mention.allowed_append, hb]
    exact ⟨hr, fun h => ⟨hs' h.1, hb' h.2.1, hr' h.2.2⟩⟩

end

end

end Wgsl
