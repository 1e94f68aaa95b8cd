import Wgsl.Proofs.Layout.Comparing

/-! # Layouts that fit

Answers to any sequence of questions: they are exact, or something has been reported, and what has been
reported does not fit.

* `Rules.compares_answers`: the answers in words and the exact ones.
* `Layouts.exact_or_reported`: what is known of the answers and of the errors.
* `Layouts.reported_skewed`: an error for a structure that fits, and a vector that does not fit without.
-/

namespace Wgsl
set_option autoImplicit false

open Arithmetic Noted

namespace Rules

variable {l : Layouts} {rank : String → Nat} {nodes : List Node} (hw : LayoutM.Written l nodes rank)
  (hscalar : l.ScalarParams nodes)
  (hdeclared : ∀ name decl, l.structs.find? name = some decl → decl.name = name)

include hw hscalar hdeclared

/-! ## Answers -/

/-- The answer to a question: it is the exact one if nothing is noted and, should it be a vector, that
fits; what is noted exceeds. -/
structure AnswersMeet (l : Layouts) (nodes : List Node) (q : Layouts.Query) (found : Option TypeInfo)
    (notes : List String) (e : Option TypeInfo) : Prop where
  exact : (∀ kind length, q = .vector kind length → l.VectorFits kind length) → notes = [] → found = e
  reported : l.PowerAligned → ∀ name ∈ notes, l.Exceeding nodes name

theorem compares_vector (kind : ScalarKind) (length : Nat) :
    Compares (vector .words l kind length) (vector .exact l kind length) fun w notes e =>
      (l.VectorFits kind length → notes = [] → w = e) ∧
        (l.PowerAligned → ∀ name ∈ notes, l.Exceeding nodes name) := by
  have made : Compares (vector .words l kind length) (vector .exact l kind length) fun w notes e =>
      ∃ w' e', w = vectorInfo words ("vec" ++ toString length) length w' ∧
        e = vectorInfo exact ("vec" ++ toString length) length e' ∧
        Meets l.PowerAligned (l.Exceeding nodes) w' notes e' :=
    (compares_named hw hscalar hdeclared kind.name).bind fun w notes e h =>
      compares_pure ⟨w, e, rfl, rfl, by rwa [List.append_nil]⟩
  refine made.imp ?_
  rintro _ notes _ more he ⟨w, e, rfl, rfl, h⟩
  refine ⟨fun hfits none => ?_, h.reported⟩
  obtain ⟨hsize, halign⟩ := hfits _ more he
  rw [h.exact none]
  exact congrArg₂ (fun size align => TypeInfo.mk _ [] size align _) (Nat.mod_eq_of_lt hsize)
    (Nat.mod_eq_of_lt halign)

theorem compares_answer {q : Layouts.Query} (hq : q.AskedOf nodes) :
    Compares (answer .words l q) (answer .exact l q) (AnswersMeet l nodes q) := by
  have names := compares_named hw hscalar hdeclared
  have found : ∀ {q : Layouts.Query} {w e : TypeInfo} {notes : List String},
      Meets l.PowerAligned (l.Exceeding nodes) w notes e →
      Compares (pure (some w)) (pure (some e)) fun w? more e? => AnswersMeet l nodes q w? (notes ++ more) e? :=
    fun h => compares_pure ⟨fun _ none => by rw [h.exact (List.append_eq_nil_iff.1 none).1], by
      rw [List.append_nil]
      exact h.reported⟩
  have types : ∀ t : TypeExpr, t.nodes ⊆ nodes → Compares (typeInfo .words l t) (typeInfo .exact l t)
      (Meets l.PowerAligned (l.Exceeding nodes)) := fun t ht =>
    compares_typeInfo hw.ranked hscalar t ht fun name _ => names name
  cases q with
  | type t => exact (types t (hw.closed _ hq)).bind fun w notes e => found
  | named name => exact (names name).bind fun w notes e => found
  | vector kind length =>
    refine (compares_vector hw hscalar hdeclared kind length).bind fun w notes e h => ?_
    obtain ⟨hsame, hreported⟩ := h
    refine compares_pure ⟨fun hfits none => ?_, ?_⟩
    · rw [hsame (hfits kind length rfl) (List.append_eq_nil_iff.1 none).1]
    · rw [List.append_nil]
      exact hreported
  | struct name =>
    cases hdecl : l.structs.find? name with
    | none =>
      rw [answer, answer, structInfo, structInfo, hdecl]
      exact compares_pure ⟨fun _ _ => rfl, fun _ _ h => absurd h List.not_mem_nil⟩
    | some decl =>
      refine (compares_structInfo hdecl (hdeclared name decl hdecl) fun m hm =>
        types m.type (hw.members name decl hdecl m hm)).imp fun w? notes e? _ _ h => ?_
      obtain ⟨w, e, rfl, rfl, h⟩ := h
      exact ⟨fun _ none => by rw [h.exact none], h.reported⟩

theorem compares_answers {queries : List Layouts.Query} (hq : ∀ q ∈ queries, q.AskedOf nodes) :
    Compares (queries.mapM (answer .words l)) (queries.mapM (answer .exact l)) fun found notes exact =>
      ((∀ kind length, .vector kind length ∈ queries → l.VectorFits kind length) → notes = [] →
        found = exact) ∧ (l.PowerAligned → ∀ name ∈ notes, l.Exceeding nodes name) := by
  induction queries with
  | nil => exact compares_pure ⟨fun _ _ => rfl, nofun⟩
  | cons q queries ih =>
    rw [List.mapM_cons, List.mapM_cons]
    refine (compares_answer hw hscalar hdeclared (hq q List.mem_cons_self)).bind fun w notes e h => ?_
    refine (ih fun other ho => hq other (List.mem_cons_of_mem q ho)).bind fun ws more es hs => ?_
    refine compares_pure ⟨fun hfits none => ?_, fun hp name hname => ?_⟩
    · obtain ⟨none, later⟩ := List.append_eq_nil_iff.1 none
      rw [h.exact (fun kind length e => hfits kind length (e ▸ List.mem_cons_self)) none,
        hs.1 (fun kind length hmem => hfits kind length (List.mem_cons_of_mem q hmem))
          (List.append_eq_nil_iff.1 later).1]
    · rw [List.append_nil] at hname
      exact (List.mem_append.1 hname).elim (h.reported hp name) (hs.2 hp name)

end Rules

namespace Layouts

variable {source : String} {p : Program}

/-- Any sequence of questions about a parsed program whose declarations do not refer to themselves and
whose vectors and matrices are of scalars. If no error is reported, all answers are those of exact
arithmetic, as far as the vectors that no type spells fit. If alignments are powers of two, whatever
is reported exceeds in exact arithmetic. -/
theorem exact_or_reported (h : Program.ofSource source = .ok p) (hacyclic : (ofProgram p).Acyclic)
    (hscalar : (ofProgram p).ScalarParams p.nodes) {queries : List Query}
    (hq : ∀ q ∈ queries, q.AskedOf p.nodes) {found : List (Option TypeInfo)} {l : Layouts}
    (hrun : (answers queries).run (ofProgram p) = .ok (found, l)) :
    (l.errors = [] →
      (∀ kind length, .vector kind length ∈ queries → (ofProgram p).VectorFits kind length) →
      (queries.mapM (Rules.answer .exact (ofProgram p))).value = .ok found) ∧
    ((ofProgram p).PowerAligned → ∀ message ∈ l.errors, ∃ name,
      message = oversizedMessage name ∧ (ofProgram p).Exceeding p.nodes name) := by
  obtain ⟨rank, hr⟩ := hacyclic.ranked
  have hw := written_ofSource h hr
  have declared := declares_ofProgram p
  have compared := Rules.compares_answers hw hscalar
    (fun name decl hdecl => (declared.structs name decl hdecl).2) hq
  have idle : ∀ name ∈ (ofProgram p).inProgress, LayoutM.depthOf (ofProgram p) ≤ rank name := by
    rw [declared.inProgress]
    exact nofun
  obtain ⟨e, hfail, -⟩ | ⟨found', notes, l', hrun', hrules, hends⟩ :=
    LayoutM.denotes_answers hw hq (ofProgram p) (follows_ofProgram p p.nodes) idle
  · rw [hfail] at hrun
    cases hrun
  rw [hrun'] at hrun
  cases hrun
  -- what has been reported is what the rules note
  have reported : ∀ name, name ∈ l.oversized ↔ name ∈ notes := fun name => by
    rw [hends.oversized, (empty_ofProgram p).oversized]
    simp
  obtain ⟨f, hwords, -⟩ | ⟨ws, noted, es, more, hwords, hexact, hsame, hexceeds⟩ := compared
  · rw [hrules] at hwords
    cases hwords
  rw [hrules] at hwords
  cases hwords
  refine ⟨fun hnone hfits => ?_, fun hp message hmessage => ?_⟩
  · have none : notes = [] := List.eq_nil_iff_forall_not_mem.2 fun name hname => by
      rw [← reported, List.map_eq_nil_iff.1 hnone] at hname
      cases hname
    rw [hexact, hsame hfits none]
    rfl
  · obtain ⟨name, hname, rfl⟩ := List.mem_map.1 hmessage
    exact ⟨name, rfl, hexceeds hp name ((reported name).1 hname)⟩

/-! ## Checks -/

/-- Whether the parameter of a vector or matrix is the name of a scalar, which no declaration has taken. -/
def plainParam (l : Layouts) (param : Option TypeExpr) : Bool :=
  let undeclared (name : String) := (l.structs.find? name).isNone && (l.aliases.find? name).isNone
  match param with
  | none => undeclared ScalarKind.f32.name
  | some (.named _ _ name) => undeclared name && (ScalarKind.ofName? name).isSome
  | some _ => false

/-- Whether the parameters of all vectors and matrices are names of scalars. -/
def plainParams (l : Layouts) (nodes : List Node) : Bool :=
  nodes.all fun
    | .type (.template _ _ base param _ _) => !hasComponents base || l.plainParam param
    | _ => true

theorem scalarParams_of_plain {l : Layouts} {nodes : List Node} (h : l.plainParams nodes = true) :
    l.ScalarParams nodes := by
  intro id attributes base param access space hmem hbase
  have plain : (!hasComponents base || l.plainParam param) = true := List.all_eq_true.1 h _ hmem
  rw [hbase, Bool.not_true, Bool.false_or] at plain
  unfold plainParam at plain
  split at plain <;> simp only [Bool.and_eq_true, Option.isNone_iff_eq_none] at plain
  · exact plain
  · obtain ⟨⟨hstruct, halias⟩, hkind⟩ := plain
    obtain ⟨kind, hkind⟩ := Option.isSome_iff_exists.1 hkind
    exact .name hstruct halias hkind
  · cases plain

/-- Whether no alignment is written. -/
def unaligned (l : Layouts) : Bool :=
  l.structs.all fun (_, decl) => decl.members.all fun m => (Attribute.find? m.attributes "align").isNone

theorem powerAligned_of_unaligned {l : Layouts} (h : l.unaligned = true) : l.PowerAligned := by
  intro name decl m n notes hdecl hm hn
  have members := List.all_eq_true.1 h _ (Table.mem_of_find? hdecl)
  have none := Option.isNone_iff_eq_none.1 (List.all_eq_true.1 members m hm)
  rw [Rules.attributeNumber?, none] at hn
  cases hn

/-- A structure that fits, and an array of too many of it. -/
def crowdedSource : String :=
  "struct A \x7b x: vec2<f32> \x7d struct B \x7b y: array<A, 536870912> \x7d"

/-- The names by how many declarations they stand on. -/
def crowdedRank (name : String) : Nat := if name = "B" then 2 else if name = "A" then 1 else 0

theorem exact_or_reported_crowded : ∃ p, Program.ofSource crowdedSource = .ok p ∧
    (∃ found l, (answers [.struct "A"]).run (ofProgram p) = .ok (found, l) ∧ l.errors = [] ∧
      ([Query.struct "A"].mapM (Rules.answer .exact (ofProgram p))).value = .ok found) ∧
    ∃ found l, (answers [.struct "B"]).run (ofProgram p) = .ok (found, l) ∧
      l.errors = [oversizedMessage "array<A, 536870912>", oversizedMessage "B"] ∧
      ∀ message ∈ l.errors, ∃ name, message = oversizedMessage name ∧
        (ofProgram p).Exceeding p.nodes name := by
  have checked : ((Program.ofSource crowdedSource).toOption.map fun p =>
      (ofProgram p).ordered crowdedRank && (ofProgram p).plainParams p.nodes && (ofProgram p).unaligned &&
        ((answers [.struct "A"]).run (ofProgram p)).toOption.any (fun r => r.2.errors = []) &&
        ((answers [.struct "B"]).run (ofProgram p)).toOption.any fun r =>
          r.2.errors = [oversizedMessage "array<A, 536870912>", oversizedMessage "B"]) = some true := by
    decide +kernel
  obtain ⟨p, hp, checked⟩ := Option.map_eq_some_iff.1 checked
  simp only [Bool.and_eq_true, Option.any_eq_true, decide_eq_true_eq] at checked
  obtain ⟨⟨⟨⟨hordered, hplain⟩, hunaligned⟩, ⟨found, l⟩, hrun, hnone⟩, ⟨found', l'⟩, hrun', herrors⟩ := checked
  have hacyclic := acyclic_of_ordered hordered
  have asked : ∀ name, ∀ q ∈ [Query.struct name], q.AskedOf p.nodes := fun name q hq => by
    rw [List.mem_singleton.1 hq]
    trivial
  have hp := Fault.ok_of_toOption hp
  have hrun := Fault.ok_of_toOption hrun
  have hrun' := Fault.ok_of_toOption hrun'
  have first := exact_or_reported hp hacyclic (scalarParams_of_plain hplain) (asked "A") hrun
  have second := exact_or_reported hp hacyclic (scalarParams_of_plain hplain) (asked "B") hrun'
  refine ⟨p, hp, ⟨found, l, hrun, hnone, first.1 hnone fun kind length h => ?_⟩, found', l', hrun', herrors,
    second.2 (powerAligned_of_unaligned hunaligned)⟩
  cases List.mem_singleton.1 h

/-- A structure with a member behind one that does not fit, and another structure with an array of it. -/
def skewedSource : String :=
  "struct X \x7b @size(4294967295) a: i32, b: i32, @align(5) c: i32 \x7d " ++
    "struct U \x7b @size(4294967294) a: i32, b: @stride(4) array<X> \x7d"

def skewedRank (name : String) : Nat := if name = "U" then 2 else if name = "X" then 1 else 0

/-- The member behind the one that does not fit is left out of the alignment, which makes the structure
around it look too large. And the size of a vector that no type spells is not checked. -/
theorem reported_skewed : ∃ p found l info notes, Program.ofSource skewedSource = .ok p ∧
    (ofProgram p).Acyclic ∧ (ofProgram p).ScalarParams p.nodes ∧
    (answers [.struct "U"]).run (ofProgram p) = .ok (found, l) ∧ oversizedMessage "U" ∈ l.errors ∧
    Rules.structInfo .exact (ofProgram p) "U" = .ok (some info, notes) ∧ ¬info.Exceeds ∧
    ∃ more m, (answers [.vector .f32 (2 ^ 30)]).run (ofProgram p) = .ok (more, m) ∧ m.errors = [] ∧
      more.map (Option.map TypeInfo.size) = [some 0] := by
  have checked : ((Program.ofSource skewedSource).toOption.map fun p =>
      (ofProgram p).ordered skewedRank && (ofProgram p).plainParams p.nodes &&
        ((answers [.struct "U"]).run (ofProgram p)).toOption.any (fun r =>
          oversizedMessage "U" ∈ r.2.errors) &&
        (Rules.structInfo .exact (ofProgram p) "U").toOption.any (fun r => r.1.any fun info => ¬info.Exceeds) &&
        ((answers [.vector .f32 (2 ^ 30)]).run (ofProgram p)).toOption.any fun r =>
          r.2.errors = [] ∧ r.1.map (Option.map TypeInfo.size) = [some 0]) = some true := by
    decide +kernel
  obtain ⟨p, hp, checked⟩ := Option.map_eq_some_iff.1 checked
  simp only [Bool.and_eq_true, Option.any_eq_true, decide_eq_true_eq] at checked
  obtain ⟨⟨⟨⟨hordered, hplain⟩, ⟨found, l⟩, hrun, hreported⟩, ⟨_, notes⟩, hexact, info, rfl, hfits⟩,
    ⟨more, m⟩, hvector, hnone, hsizes⟩ := checked
  exact ⟨p, found, l, info, notes, Fault.ok_of_toOption hp, acyclic_of_ordered hordered,
    scalarParams_of_plain hplain, Fault.ok_of_toOption hrun, hreported, Fault.ok_of_toOption hexact, hfits, more, m,
    Fault.ok_of_toOption hvector, hnone, hsizes⟩

end Layouts

end Wgsl
