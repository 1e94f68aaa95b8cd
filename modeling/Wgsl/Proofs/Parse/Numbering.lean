import Wgsl.Proofs.Parse.Cursor
import Wgsl.Proofs.Tree.Nodes

/-! # The numbers of parsed expressions and types

Every node gets the next number when it is made, and stands in the tree once. So the numbers of a
parsed tree are all different, and each is greater than those inside its node. A type that is nothing
but a name has the name of an identifier, or that of the scalar of a short name such as `vec3f`.

* `Names`: what is known of the identifiers of a text.
* `ParseState.Scanned`: the identifiers ahead are such names.
* `Parser.Given`: the numbers counted so far are among those given out, each at most once.
* `Parser.Numbers`: what a parser makes of the numbers counted so far.
* `Parser.Yields`: a parser gives a tree of new numbers only; one lemma for each production.
-/

namespace Wgsl
set_option autoImplicit false

/-- Names that are known to hold something, those of scalars among them. -/
structure Names where
  Holds : String → Prop
  scalar : ∀ letter name, TypeName.shorthandScalar? letter = some name → Holds name

/-- Any names at all. -/
def Names.any : Names := ⟨fun _ => True, fun _ _ _ => trivial⟩

/-- The names without a bracket. -/
def Names.unbracketed : Names where
  Holds name := '<' ∉ name.toList
  scalar letter name h := by
    unfold TypeName.shorthandScalar? at h
    split at h <;> cases h <;> decide

theorem Names.of_splitShorthand? (N : Names) {name base scalar : String}
    (h : TypeName.splitShorthand? name = some (base, scalar)) : N.Holds scalar := by
  unfold TypeName.splitShorthand? at h
  split at h
  · cases h
  · dsimp only at h
    split at h
    · rename_i found hfound
      split at h
      · cases h
        exact N.scalar _ _ hfound
      · cases h
    · cases h

variable {N : Names}

/-- An identifier is one of the names. -/
def Token.Scanned (N : Names) (t : Token) : Prop := t.kind = .identifier → N.Holds t.lexeme

/-- The identifiers ahead are among the names. -/
structure ParseState.Scanned (N : Names) (s : ParseState) : Prop where
  rest : ∀ t ∈ s.rest, t.Scanned N
  last : s.last.Scanned N

theorem ParseState.Scanned.head {s : ParseState} (h : s.Scanned N) : s.head.Scanned N := by
  unfold ParseState.head
  cases hr : s.rest with
  | nil => exact h.last
  | cons t rest => exact h.rest t (hr ▸ List.mem_cons_self)

theorem ParseState.Scanned.tail {s : ParseState} (h : s.Scanned N) :
    (s.withRest s.rest.tail).Scanned N :=
  ⟨fun t ht => h.rest t (List.mem_of_mem_tail ht), h.last⟩

theorem ParseState.Scanned.next {s : ParseState} (h : s.Scanned N) :
    ParseState.Scanned N { s with nextId := s.nextId + 1 } := ⟨h.rest, h.last⟩

namespace Parser

variable {α β : Type} {t u : Nat → Nat} {i : Nat}

/-! ## Numbers given out -/

/-- Counts the numbers from one up to another, which is left out. -/
def span (first next i : Nat) : Nat := if first ≤ i ∧ i < next then 1 else 0

theorem span_succ (n : Nat) : span n (n + 1) i = one n i := by
  unfold span one
  split <;> split <;> omega

theorem span_add {a b c : Nat} (h : a ≤ b) (h' : b ≤ c) :
    span a b i + span b c i = span a c i := by
  unfold span
  split <;> split <;> split <;> omega

theorem lt_of_span_pos {a b : Nat} (h : 0 < span a b i) : i < b := by
  unfold span at h
  split at h
  · omega
  · cases h

theorem span_le_one {a b : Nat} : span a b i ≤ 1 := by
  unfold span
  split <;> omega

/-- From `first` on, the numbers counted have been given out, each at most once. -/
structure Given (first : Nat) (t : Nat → Nat) (next : Nat) : Prop where
  le : first ≤ next
  once : ∀ i, t i ≤ span first next i

theorem given_zero (n : Nat) : Given n (fun _ => 0) n := ⟨Nat.le_refl n, fun _ => Nat.zero_le _⟩

theorem Given.mono {first next : Nat} (h : Given first t next) (hu : ∀ i, u i ≤ t i) :
    Given first u next := ⟨h.le, fun i => Nat.le_trans (hu i) (h.once i)⟩

theorem Given.add {first middle next : Nat} (h : Given first t middle) (h' : Given middle u next) :
    Given first (fun i => t i + u i) next := by
  refine ⟨Nat.le_trans h.le h'.le, fun i => ?_⟩
  rw [← span_add h.le h'.le]
  exact Nat.add_le_add (h.once i) (h'.once i)

/-- The next number is new. -/
theorem Given.fresh {first next : Nat} (h : Given first t next) :
    Given first (fun i => t i + one next i) (next + 1) :=
  h.add ⟨Nat.le_succ next, fun _ => Nat.le_of_eq (span_succ next).symm⟩

/-- What has been counted is less than the next number. -/
theorem Given.lt {first next : Nat} (h : Given first t next) (hi : 0 < t i) : i < next :=
  lt_of_span_pos (Nat.lt_of_lt_of_le hi (h.once i))

/-- No number has been given out twice. -/
theorem Given.nodup {first next : Nat} {ns : List Node} (h : Given first (tally ns) next) :
    (ns.map Node.id).Nodup :=
  List.nodup_iff_count.2 fun i => Nat.le_trans (h.once i) span_le_one

/-! ## Parsers -/

/-- Where the numbers counted have been given out, those of the result's nodes are, and these are
sound. -/
def Numbers (N : Names) (x : Parser α) (t : Nat → Nat) (n : α → List Node) : Prop :=
  ∀ first s a s', s.Scanned N → Given first t s.nextId → x.run s = .ok (a, s') →
    s'.Scanned N ∧ Given first (tally (n a)) s'.nextId ∧ Sound N.Holds (n a)

/-- The nodes of the result have new numbers, each at most once, and are sound. -/
def Yields (N : Names) (x : Parser α) (n : α → List Node) : Prop := Numbers N x (fun _ => 0) n

/-- The parser gives out no number and leaves the tables as they are. -/
def Quiet (x : Parser α) : Prop :=
  ∀ s a s', x.run s = .ok (a, s') →
    (s'.nextId = s.nextId ∧ s'.context = s.context) ∧ ∀ N : Names, s.Scanned N → s'.Scanned N

section

variable {n : α → List Node} {m : β → List Node} {x : Parser α} {f : α → Parser β}

theorem numbers_pure {a : α} (hn : ∀ i, tally (n a) i ≤ t i) (ha : Sound N.Holds (n a)) :
    Numbers N (pure a) t n := by
  intro first s b s' hc hs h
  cases h
  exact ⟨hc, hs.mono hn, ha⟩

theorem Numbers.of_le (hx : Numbers N x t n) (h : ∀ i, t i ≤ u i) : Numbers N x u n :=
  fun first s a s' hc hs => hx first s a s' hc (hs.mono h)

theorem Numbers.bind (hx : Numbers N x t n)
    (hf : ∀ a, Sound N.Holds (n a) → Numbers N (f a) (tally (n a)) m) : Numbers N (x >>= f) t m := by
  intro first s b s' hc hs h
  obtain ⟨a, s₁, h₁, h₂⟩ := bind_ok h
  obtain ⟨hc₁, hs₁, ha⟩ := hx first s a s₁ hc hs h₁
  exact hf a ha first s₁ b s' hc₁ hs₁ h₂

/-- What has been counted before is kept beside what is new. -/
theorem Yields.bind (hx : Yields N x n)
    (hf : ∀ a, Sound N.Holds (n a) → Numbers N (f a) (fun i => t i + tally (n a) i) m) :
    Numbers N (x >>= f) t m := by
  intro first s b s' hc hs h
  obtain ⟨a, s₁, h₁, h₂⟩ := bind_ok h
  obtain ⟨hc₁, hs₁, ha⟩ := hx s.nextId s a s₁ hc (given_zero _) h₁
  exact hf a ha first s₁ b s' hc₁ (hs.add hs₁) h₂

theorem Quiet.bind (hx : Quiet x) (hf : ∀ a, Numbers N (f a) t m) : Numbers N (x >>= f) t m := by
  intro first s b s' hc hs h
  obtain ⟨a, s₁, h₁, h₂⟩ := bind_ok h
  obtain ⟨⟨hid, -⟩, hkept⟩ := hx s a s₁ h₁
  rw [← hid] at hs
  exact hf a first s₁ b s' (hkept N hc) hs h₂

/-- The token that is taken is one of those ahead. -/
theorem numbers_advance {f : Token → Parser β}
    (hf : ∀ t' : Token, t'.Scanned N → Numbers N (f t') t m) :
    Numbers N (advance >>= f) t m := by
  intro first s b s' hc hs h
  rw [run_advance] at h
  exact hf _ hc.head first _ b s' hc.tail hs h

theorem numbers_failAt (token : Token) (cause : ParseCause) :
    Numbers N (failAt token cause) t n := fun _ _ _ _ _ _ h => nomatch h

theorem numbers_failAt_bind (token : Token) (cause : ParseCause) :
    Numbers N (failAt token cause >>= f) t m := fun _ _ _ _ _ _ h => nomatch h

theorem numbers_fresh {f : NodeId → Parser β}
    (hf : ∀ id, (∀ i, 0 < t i → i < id) → Numbers N (f id) (fun i => t i + one id i) m) :
    Numbers N (fresh >>= f) t m := by
  intro first s b s' hc hs h
  rw [run_fresh] at h
  exact hf s.nextId (fun _ => hs.lt) first _ b s' hc.next hs.fresh h

theorem numbers_freshMark {line : Nat} {f : Mark → Parser β}
    (hf : ∀ k : Mark, (∀ i, 0 < t i → i < k.id) → Numbers N (f k) (fun i => t i + one k.id i) m) :
    Numbers N (freshMark line >>= f) t m := by
  intro first s b s' hc hs h
  rw [run_freshMark] at h
  exact hf ⟨s.nextId, line⟩ (fun _ => hs.lt) first _ b s' hc.next hs.fresh h

theorem numbers_modifyContext {g : ParseContext → ParseContext} {f : Unit → Parser β}
    (hf : ∀ u, Numbers N (f u) t m) : Numbers N (modifyContext g >>= f) t m :=
  fun first s b s' hc => hf () first { s with context := g s.context } b s' ⟨hc.rest, hc.last⟩

theorem Numbers.map (hx : Numbers N x t n) {g : α → β} (hg : ∀ a i, tally (m (g a)) i ≤ tally (n a) i)
    (ho : ∀ a, Sound N.Holds (n a) → Sound N.Holds (m (g a))) : Numbers N (g <$> x) t m := by
  rw [map_eq_pure_bind]
  exact hx.bind fun a ha => numbers_pure (hg a) (ho a ha)

end

/-! ## Steps that give out no number -/

section

variable {f : α → Parser β} {x : Parser α}

theorem quiet_pure (a : α) : Quiet (pure a) := by
  intro s b s' h
  cases h
  exact ⟨⟨rfl, rfl⟩, fun _ => id⟩

theorem quiet_bind (hx : Quiet x) (hf : ∀ a, Quiet (f a)) : Quiet (x >>= f) := by
  intro s b s' h
  obtain ⟨a, s₁, h₁, h₂⟩ := bind_ok h
  obtain ⟨⟨hid, hcontext⟩, hkept⟩ := hx s a s₁ h₁
  obtain ⟨⟨hid', hcontext'⟩, hkept'⟩ := hf a s₁ b s' h₂
  exact ⟨⟨hid'.trans hid, hcontext'.trans hcontext⟩, fun N => hkept' N ∘ hkept N⟩

theorem quiet_failAt (token : Token) (cause : ParseCause) : Quiet (failAt token cause : Parser α) :=
  fun _ _ _ h => nomatch h

theorem quiet_get : Quiet (get : Parser ParseState) := by
  intro s a s' h
  cases h
  exact ⟨⟨rfl, rfl⟩, fun _ => id⟩

theorem quiet_peek : Quiet peek := quiet_bind quiet_get fun _ => quiet_pure _

theorem quiet_peekKind : Quiet peekKind := quiet_bind quiet_peek fun _ => quiet_pure _

theorem quiet_peekSecond : Quiet peekSecond := quiet_bind quiet_get fun _ => quiet_pure _

theorem quiet_advance : Quiet advance := by
  intro s a s' h
  cases h
  exact ⟨⟨rfl, rfl⟩, fun _ => ParseState.Scanned.tail⟩

theorem quiet_check (kind : TokenKind) : Quiet (check kind) :=
  quiet_bind quiet_peekKind fun _ => quiet_pure _

theorem quiet_accept (kind : TokenKind) : Quiet (accept kind) := by
  refine quiet_bind (quiet_check kind) fun b => ?_
  split
  · exact quiet_bind quiet_advance fun _ => quiet_pure _
  · exact quiet_pure _

theorem quiet_expect (kind : TokenKind) (purpose : String) : Quiet (expect kind purpose) := by
  refine quiet_bind quiet_peek fun t => ?_
  split
  · exact quiet_advance
  · exact quiet_failAt _ _

theorem quiet_identifier : Quiet identifier := by
  refine quiet_bind quiet_peek fun t => ?_
  split
  · exact quiet_bind quiet_advance fun _ => quiet_pure _
  · exact quiet_failAt _ _

theorem quiet_lift (r : Except Fault α) : Quiet (liftM r : Parser α) := by
  intro s a s' h
  cases r with
  | error e => cases h
  | ok b =>
    cases h
    exact ⟨⟨rfl, rfl⟩, fun _ => id⟩

theorem quiet_depthAhead : Quiet depthAhead := quiet_bind quiet_get fun _ => quiet_pure _

end

/-! ## Repetition -/

def Step.value : Step α → α
  | .done a => a
  | .next a => a

@[simp] theorem Step.value_done (a : α) : (Step.done a).value = a := rfl

@[simp] theorem Step.value_next (a : α) : (Step.next a).value = a := rfl

theorem numbers_loop {init : α} {step : α → Parser (Step α)} {n : α → List Node}
    (ho : Sound N.Holds (n init))
    (hstep : ∀ a, Sound N.Holds (n a) → Numbers N (step a) (tally (n a)) fun r => n r.value) :
    Numbers N (loop init step) (tally (n init)) n := by
  intro first s a s' hc hs h
  rw [run_loop] at h
  let Kept (a : α) (s : ParseState) : Prop :=
    s.Scanned N ∧ Given first (tally (n a)) s.nextId ∧ Sound N.Holds (n a)
  refine iterate_ok Kept Kept ?_ ?_ _ _ _ _ _ ⟨hc, hs, ho⟩ h
  · intro a s b s' inv hb
    exact hstep a inv.2.2 first s (.done b) s' inv.1 inv.2.1 hb
  · intro a s b s' inv hb
    exact hstep a inv.2.2 first s (.next b) s' inv.1 inv.2.1 hb

/-- A repetition that starts without nodes. -/
theorem yields_loop {init : α} {step : α → Parser (Step α)} {n : α → List Node} (hinit : n init = [])
    (hstep : ∀ a, Sound N.Holds (n a) → Numbers N (step a) (tally (n a)) fun r => n r.value) :
    Yields N (loop init step) n := by
  have numbered := numbers_loop (hinit ▸ sound_nil) hstep
  rwa [hinit] at numbered

/-- Items with commas between them. -/
theorem yields_commaList {item : Parser α} {n : α → List Node} (h : Yields N item n)
    (close : TokenKind) : Yields N (commaList close item) fun items => items.flatMap n := by
  refine Numbers.map (yields_loop (n := fun items => items.flatMap n) rfl fun items ho => ?_)
    (fun items i => by simp) (fun items ho => by simpa using ho)
  refine (quiet_check close).bind fun b => ?_
  split
  · exact numbers_pure (fun i => Nat.le_refl _) ho
  · refine h.bind fun a ha => (quiet_accept .comma).bind fun b => ?_
    have listed : ∀ i, tally ((a :: items).flatMap n) i ≤ tally (items.flatMap n) i + tally (n a) i := by
      intro i
      simp
      omega
    have ordered : Sound N.Holds ((a :: items).flatMap n) := by simp [ha, ho]
    split
    · exact numbers_pure listed ordered
    · exact numbers_pure listed ordered

/-! ## New nodes -/

/-- A node with a new number, above nodes that have been counted. -/
theorem made {n : Node} {id : NodeId} (hid : n.id = id) (hk : ∀ i, 0 < t i → i < id)
    (hn : ∀ i, tally n.nested i ≤ t i) (ho : Sound N.Holds n.nested)
    (hp : ∀ name, n.plainName? = some name → N.Holds name) :
    (∀ i, tally n.nodes i ≤ t i + one id i) ∧ Sound N.Holds n.nodes := by
  rw [n.nodes_eq]
  refine ⟨fun i => ?_, sound_cons.2 ⟨⟨fun inner hinner => ?_, hp⟩, ho⟩⟩
  · rw [tally_cons, hid, Nat.add_comm]
    exact Nat.add_le_add_right (hn i) _
  · rw [hid]
    exact hk _ (Nat.lt_of_lt_of_le (tally_pos hinner) (hn _))

/-- The property that a parser for expressions inside others has. -/
abbrev YieldsExpr (N : Names) (x : Parser Expr) : Prop := Yields N x Expr.nodes

abbrev YieldsType (N : Names) (x : Parser TypeExpr) : Prop := Yields N x TypeExpr.nodes

theorem numbers_expr {e : Expr} {id : NodeId} (hid : e.id = id) (hk : ∀ i, 0 < t i → i < id)
    (hn : ∀ i, tally (Node.expr e).nested i ≤ t i) (ho : Sound N.Holds (Node.expr e).nested) :
    Numbers N (pure e) (fun i => t i + one id i) Expr.nodes :=
  have built := made (n := .expr e) hid hk hn ho nofun
  numbers_pure built.1 built.2

theorem numbers_type {type : TypeExpr} {id : NodeId} (hid : type.id = id)
    (hk : ∀ i, 0 < t i → i < id) (hn : ∀ i, tally (Node.type type).nested i ≤ t i)
    (ho : Sound N.Holds (Node.type type).nested)
    (hp : ∀ name, (Node.type type).plainName? = some name → N.Holds name) :
    Numbers N (pure type) (fun i => t i + one id i) TypeExpr.nodes :=
  have built := made (n := .type type) hid hk hn ho hp
  numbers_pure built.1 built.2

/-! ## Expressions -/

section

variable {operand expr shift : Parser Expr} {type : Parser TypeExpr}

attribute [local simp] Expr.nodes Expr.countNodes TypeExpr.nodes TypeExpr.paramNodes Attribute.nodes

theorem yields_chain (ops : List (TokenKind × BinaryOp)) (h : YieldsExpr N operand) :
    YieldsExpr N (chain ops operand) := by
  refine Numbers.bind h fun first ho => numbers_loop ho fun left hl => ?_
  refine quiet_peekKind.bind fun kind => ?_
  split
  · exact numbers_pure (fun i => Nat.le_refl _) hl
  · rename_i op _
    refine quiet_advance.bind fun _ => h.bind fun right hr => numbers_freshMark fun k hk => ?_
    have built := made (n := .expr (.binary k op left right)) rfl hk
      (fun i => Nat.le_of_eq (tally_append _ _ i)) (sound_append.2 ⟨hl, hr⟩) nofun
    exact numbers_pure built.1 built.2

theorem yields_binaryLevels (ls : List (List (TokenKind × BinaryOp))) (h : YieldsExpr N operand) :
    YieldsExpr N (binaryLevels ls operand) := by
  unfold binaryLevels
  induction ls with
  | nil => exact h
  | cons ops ls ih => exact yields_chain ops ih

theorem yields_arguments (h : YieldsExpr N expr) : Yields N (arguments expr) Expr.listNodes := by
  refine (quiet_expect _ _).bind fun _ => ?_
  refine (yields_commaList h _).bind fun args ha => (quiet_expect _ _).bind fun _ => ?_
  rw [← Expr.listNodes_eq] at ha
  exact numbers_pure (fun i => by simp [Expr.listNodes_eq]) ha

theorem yields_attributesOf (h : YieldsExpr N expr) :
    Yields N (attributesOf expr) Attribute.listNodes := by
  refine Numbers.map (yields_loop (n := fun as => as.flatMap Attribute.nodes) rfl fun found ho => ?_)
    (fun as i => by simp [Attribute.listNodes_eq])
    (fun as ho => by simpa [Attribute.listNodes_eq] using ho)
  refine (quiet_check _).bind fun b => ?_
  split
  · refine quiet_advance.bind fun _ => quiet_advance.bind fun name => ?_
    dsimp only
    split
    · refine (quiet_accept _).bind fun b => ?_
      split
      · refine (yields_commaList h _).bind fun args ha => (quiet_expect _ _).bind fun _ => ?_
        rw [← Expr.listNodes_eq] at ha
        refine numbers_pure (fun i => ?_) ?_
        · simp [Expr.listNodes_eq, Nat.add_comm]
        · simp [ha, ho]
      · exact numbers_pure (fun i => Nat.le_refl _) ho
    · exact numbers_failAt_bind _ _
  · exact numbers_pure (fun i => Nat.le_refl _) ho

theorem yields_trailing (h : YieldsExpr N expr) (base : Expr) (hb : Sound N.Holds base.nodes) :
    Numbers N (trailing expr base) (tally base.nodes) Expr.nodes := by
  refine numbers_loop hb fun base hb => ?_
  refine (quiet_accept _).bind fun b => ?_
  split
  · refine h.bind fun index hi => (quiet_expect _ _).bind fun _ => numbers_freshMark fun k hk => ?_
    have built := made (n := .expr (.index k base index)) rfl hk
      (fun i => Nat.le_of_eq (tally_append _ _ i)) (sound_append.2 ⟨hb, hi⟩) nofun
    exact numbers_pure built.1 built.2
  · refine (quiet_accept _).bind fun b => ?_
    split
    · refine quiet_identifier.bind fun name => numbers_freshMark fun k hk => ?_
      have built := made (n := .expr (.member k base name)) rfl hk (fun i => Nat.le_refl _) hb nofun
      exact numbers_pure built.1 built.2
    · exact numbers_pure (fun i => Nat.le_refl _) hb

theorem yields_named (h : YieldsExpr N expr) (ht : YieldsType N type) : YieldsExpr N (named expr type) := by
  refine quiet_peek.bind fun token => quiet_peekSecond.bind fun second => ?_
  split
  · refine quiet_advance.bind fun _ => (quiet_expect _ _).bind fun _ => ht.bind fun ty hty => ?_
    refine (quiet_expect _ _).bind fun _ => (quiet_expect _ _).bind fun _ => h.bind fun value hv => ?_
    refine (quiet_accept _).bind fun _ => (quiet_expect _ _).bind fun _ => ?_
    refine numbers_freshMark fun k hk => numbers_expr rfl hk (fun i => ?_)
      (sound_append.2 ⟨hty, hv⟩)
    simp
  · refine quiet_get.bind fun s => ?_
    extract_lets isType opensTemplate
    split
    · refine ht.bind fun ty hty => (yields_arguments h).bind fun args ha => ?_
      refine numbers_freshMark fun k hk => numbers_expr rfl hk (fun i => ?_)
        (sound_append.2 ⟨hty, ha⟩)
      simp
    · refine quiet_advance.bind fun _ => ?_
      split
      · refine (yields_arguments h).bind fun args ha => ?_
        refine numbers_freshMark fun k hk => numbers_expr rfl hk (fun i => ?_) ha
        simp
      · exact numbers_freshMark fun k hk => numbers_expr rfl hk (fun i => Nat.zero_le _) sound_nil

theorem yields_primary (h : YieldsExpr N expr) (ht : YieldsType N type) :
    YieldsExpr N (primary expr type) := by
  refine quiet_peek.bind fun token => ?_
  extract_lets read
  have literal : ∀ value? cause, YieldsExpr N (read value? cause) := by
    intro value? cause
    refine quiet_advance.bind fun _ => ?_
    cases value? with
    | some value =>
      exact numbers_freshMark fun k hk => numbers_expr rfl hk (fun i => Nat.zero_le _) sound_nil
    | none => exact numbers_failAt _ _
  split
  · exact literal _ _
  · exact literal _ _
  · exact literal (some (.bool true)) .expectedExpression
  · exact literal (some (.bool false)) .expectedExpression
  · refine quiet_advance.bind fun _ => h.bind fun inner hi => (quiet_expect _ _).bind fun _ => ?_
    refine numbers_freshMark fun k hk => numbers_expr rfl hk (fun i => ?_) hi
    simp
  · exact yields_named h ht
  · exact numbers_failAt _ _

theorem yields_unaryStep (ho : YieldsExpr N operand) (h : YieldsExpr N expr) (ht : YieldsType N type) :
    YieldsExpr N (unaryStep operand expr type) := by
  refine quiet_peekKind.bind fun kind => ?_
  split
  · refine quiet_advance.bind fun token => ho.bind fun inner hi => ?_
    refine numbers_freshMark fun k hk => numbers_expr rfl hk (fun i => ?_) hi
    simp
  · exact Numbers.bind (yields_primary h ht) fun base hb => yields_trailing h base hb

/-! ## Types -/

/-- The nodes in the parameters of an array. -/
def arrayNodes (params : Option TypeExpr × Option UInt32 × Option Expr) : List Node :=
  TypeExpr.paramNodes params.1 ++ Expr.countNodes params.2.2

theorem yields_arrayParams (h : YieldsExpr N shift) (ht : YieldsType N type) :
    Yields N (arrayParams shift type) arrayNodes := by
  refine (quiet_accept _).bind fun b => ?_
  split
  · refine ht.bind fun element he => (quiet_accept _).bind fun b => ?_
    have uncounted : ∀ count : Option UInt32, Numbers N (do
        let _ ← expect .greaterThan "to close array type"
        return (some element, count, none)) (fun i => 0 + tally element.nodes i) arrayNodes := by
      refine fun count => (quiet_expect _ _).bind fun _ => numbers_pure (fun i => ?_) ?_
      · simp [arrayNodes]
      · simpa [arrayNodes] using he
    split
    · refine (quiet_check _).bind fun b => ?_
      split
      · exact uncounted none
      · refine h.bind fun e ho => quiet_get.bind fun s => (quiet_lift _).bind fun count => ?_
        refine (quiet_expect _ _).bind fun _ => numbers_pure (fun i => ?_) ?_
        · simp [arrayNodes]
        · simp [arrayNodes, he, ho]
    · exact uncounted none
  · exact numbers_pure (fun i => Nat.le_refl _) sound_nil

theorem yields_templateParams (name : String) (ht : YieldsType N type) :
    Yields N (templateParams name type) fun params => TypeExpr.paramNodes params.1 := by
  refine (quiet_accept _).bind fun b => ?_
  split
  · have rest : ∀ param : Option TypeExpr × Option String, Sound N.Holds (TypeExpr.paramNodes param.1) →
        Numbers N (do
          let access ← do
            if ← accept .comma then
              if ← check .greaterThan then pure none else pure (some (← identifier))
            else pure none
          let _ ← expect .greaterThan "to close template parameters"
          return (param.1, access, param.2)) (fun i => 0 + tally (TypeExpr.paramNodes param.1) i)
          fun params => TypeExpr.paramNodes params.1 := by
      intro param hp
      have closed : ∀ access : Option String, Numbers N (do
          let _ ← expect .greaterThan "to close template parameters"
          return (param.1, access, param.2)) (fun i => 0 + tally (TypeExpr.paramNodes param.1) i)
          fun params => TypeExpr.paramNodes params.1 := fun access =>
        (quiet_expect _ _).bind fun _ =>
          numbers_pure (fun i => Nat.le_of_eq (Nat.zero_add _).symm) hp
      refine (quiet_accept _).bind fun b => ?_
      split
      · refine (quiet_check _).bind fun b => ?_
        split
        · exact closed none
        · exact quiet_identifier.bind fun access => closed (some access)
      · exact closed none
    dsimp only
    split
    · refine quiet_identifier.bind fun space => (quiet_expect _ _).bind fun _ => ?_
      exact ht.bind fun t ho => rest (some t, some space) ho
    · split
      · exact quiet_identifier.bind fun space => rest (none, some space) sound_nil
      · exact ht.bind fun t ho => rest (some t, none) ho
  · exact numbers_pure (fun i => Nat.le_refl _) sound_nil

theorem yields_typeStep (he : YieldsExpr N expr) (h : YieldsExpr N shift) (ht : YieldsType N type) :
    YieldsType N (typeStep expr shift type) := by
  refine (yields_attributesOf he).bind fun attributes ha => numbers_advance fun token htoken => ?_
  dsimp only
  split
  · rename_i hkind
    split
    · refine (yields_arrayParams h ht).bind fun params hp => numbers_fresh fun id hid => ?_
      obtain ⟨element, count, countExpr⟩ := params
      have built : Numbers N (pure (.array id attributes element count countExpr)) _ TypeExpr.nodes :=
        numbers_type rfl hid (fun i => ?_)
          (by simpa using ⟨ha, sound_append.1 hp⟩) fun _ h => by cases h
      · dsimp only
        split
        · exact numbers_modifyContext fun _ => built
        · exact built
      · simp [arrayNodes]
    · split
      · rename_i base scalar hshort
        refine numbers_fresh fun first hfirst => numbers_fresh fun id hid => ?_
        refine numbers_type rfl hid (fun i => ?_) ?_ fun _ h => by cases h
        · simp [Attribute.listNodes, Node.id, TypeExpr.id]
        · have plain : (Node.type (.named first [] scalar)).Sound N.Holds := by
            refine ⟨fun _ h => (by cases h), fun name hname => ?_⟩
            cases hname
            exact N.of_splitShorthand? hshort
          simpa [Attribute.listNodes] using ⟨ha, plain⟩
      · split
        · refine (yields_templateParams _ ht).bind fun params hp => numbers_fresh fun id hid => ?_
          refine numbers_type rfl hid (fun i => ?_) ?_ fun _ h => by cases h
          · simp
          · simpa using ⟨ha, hp⟩
        · refine numbers_fresh fun id hid => numbers_type rfl hid (fun i => ?_) ha fun name hname => ?_
          · simp
          · cases hname
            exact htoken hkind
  · exact numbers_failAt_bind _ _

end

/-! ## The knot -/

theorem yields_within (depth : Nat) :
    YieldsExpr N (unaryWithin depth) ∧ YieldsType N (typeWithin depth) := by
  induction depth with
  | zero =>
    exact ⟨quiet_peek.bind fun _ => numbers_failAt _ _, quiet_peek.bind fun _ => numbers_failAt _ _⟩
  | succ depth ih =>
    exact ⟨yields_unaryStep ih.1 (yields_binaryLevels _ ih.1) ih.2,
      yields_typeStep (yields_binaryLevels _ ih.1) (yields_binaryLevels _ ih.1) ih.2⟩

theorem yields_unary : YieldsExpr N unary :=
  quiet_depthAhead.bind fun depth => (yields_within depth).1

theorem yields_expression : YieldsExpr N expression :=
  quiet_depthAhead.bind fun depth => yields_binaryLevels _ (yields_within depth).1

theorem yields_typeExpr : YieldsType N typeExpr :=
  quiet_depthAhead.bind fun depth => (yields_within depth).2

theorem yields_attributes : Yields N attributes Attribute.listNodes :=
  yields_attributesOf yields_expression

end Parser

end Wgsl
