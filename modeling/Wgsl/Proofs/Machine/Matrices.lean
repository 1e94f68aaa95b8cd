import Wgsl.Proofs.Machine.Minding
import Wgsl.Proofs.Machine.Stages

/-! # Every matrix of a run is a rectangle

The interpreter that watches its matrices never stops for what it watches: on a machine of
rectangles it does what the plain one does, and both leave such a machine behind.

* `Watched.sameRuns`: no watch makes a difference where every matrix is a rectangle.
* `Watched.answers_call`: calls of functions, by induction on how deep they may nest.
* `Watched.stages`: the stages of a dispatch.
* `Watched.never_stops`: starts and dispatches are the same with and without a watch.
-/

namespace Wgsl
set_option autoImplicit false

open Run (Ensures ensures_all)

theorem Flow.rectangular_of_carries {flow : Flow} (h : flow.Carries Value.Rectangular) :
    flow.Rectangular := by
  cases flow with
  | return_ v? => cases v? <;> exact h
  | _ => trivial

namespace Watched

open Eval
open Invariant (mirrors_bindName mirrors_report)

variable {s : Shader} {stop : Fault} {scope : ScopeId}

/-! ## What is watched -/

theorem mirrors_callBuiltin {depth : Nat} (name : String) {args : List Value}
    (h : ∀ v ∈ args, v.Rectangular) : Invariant.rectangles.Evals depth Value.Rectangular (Eval.callBuiltin name args) (callBuiltin stop name args) := by
  refine (mirrors_lift (ensures_all _)).bind fun _ _ => ?_
  rw [Checked.call?_eq h]
  cases found : Library.call? name args with
  | some r => exact mirrors_checked rfl (Library.ensures_call? h found)
  | none => exact mirrors_callMemory name h

/-- No watch makes a difference where every matrix is a rectangle. -/
theorem sameRuns (stop : Fault) : (hooks stop).SameRuns .rectangles where
  typeInfo _ _ := mirrors_lifted (Exec.mirrors_layout _)
  structInfo? _ _ := mirrors_lifted (Exec.mirrors_layout _)
  binary _ op _ _ hl hr :=
    mirrors_checked (Checked.binary_eq op hl) (Value.ensures_binary op hl hr)
  builtin _ name _ hargs := mirrors_callBuiltin name hargs
  evaluated hx := mirrors_watched hx
  begun hx := Exec.mirrors_watched hx fun _ => Flow.rectangular_of_carries
  declared hx := Exec.mirrors_watched hx fun _ _ => trivial
  repeated hround := Invariant.mirrors_rounds hround _
  discard _ line := Invariant.mirrors_settled line (mirrors_pure trivial)

/-- By induction on how deep calls are followed. -/
theorem answers_callWithin (stop : Fault) (budget : Nat) : ∀ depth, Invariant.rectangles.Answers depth s
    (Eval.callWithin s budget) ((hooks stop).callWithin s budget) := by
  induction budget with
  | zero => exact fun _ _ _ _ _ _ => mirrors_throw _
  | succ budget ih => exact fun depth => (sameRuns stop).mirrors_called fun _ _ => ih (depth + 1)

theorem answers_call (stop : Fault) :
    Invariant.rectangles.Answers 0 s (Eval.call s) ((hooks stop).call s) :=
  answers_callWithin stop maxCallDepth 0

/-! ## Starts and dispatches -/

/-- A start forgets all scopes, so it may follow on anything. -/
theorem mirrors_start (s : Shader) (stop : Fault) (config : Config) (m : Machine) :
    start s stop config m = Exec.start s config m ∧
      ∀ m₁, Exec.start s config m = .ok ((), m₁) → m₁.Rectangular :=
  (sameRuns stop).start (answers_call stop) m.rectangular_reset config

theorem mirrors_builtinValue (name : String) :
    Invariant.rectangles.Evals 0 Value.Rectangular (builtinValue scope name) (builtinValue scope name) := by
  refine mirrors_get fun m hm => ?_
  split
  · rename_i v found
    have bound : v.Rectangular := hm.findIn? found
    exact mirrors_pure bound
  · exact mirrors_throw _

theorem mirrors_argument (depth : Nat) (attributes : List Attribute) (type : TypeExpr) :
    Invariant.rectangles.Evals 0 Value.Rectangular (argument s scope depth attributes type)
      ((hooks stop).argument s scope depth attributes type) := by
  induction depth generalizing attributes type with
  | zero =>
    rw [argument, Hooks.argument]
    exact mirrors_pure trivial
  | succ depth ih =>
    rw [argument, Hooks.argument]
    refine ((sameRuns stop).typeInfo 0 type).bind fun t _ => ?_
    cases (Attribute.find? attributes "builtin").bind Attribute.firstArgText? with
    | some name =>
      exact (mirrors_builtinValue name).bind fun v hv => mirrors_lift (Value.ensures_coerceTo t hv)
    | none =>
      cases s.program.structs.find? fun d => d.name = t.name with
      | none => exact mirrors_pure (Value.rectangular_zeroOf t)
      | some d =>
        have member : ∀ m ∈ d.members, Invariant.rectangles.Evals 0 (fun p => p.2.Rectangular)
            (do return (m.name, ← argument s scope depth m.attributes m.type) : Eval (String × Value))
            (do return (m.name, ← (hooks stop).argument s scope depth m.attributes m.type)) :=
          fun m _ => (ih m.attributes m.type).bind fun v hv => mirrors_pure hv
        exact (mirrors_mapM member).bind fun fields hfields =>
          mirrors_pure (Value.rectangular_struct.2 hfields)

theorem mirrors_bindArgument (entry : Function) (arg : Field) :
    Invariant.rectangles.Execs 0 (fun _ => True) (Exec.bindArgument s entry scope arg)
      ((hooks stop).bindArgument s entry scope arg) := by
  refine (sameRuns stop).declared ?_
  refine Exec.Mirrors.bind (mirrors_argument _ arg.attributes arg.type) fun outcome houtcome => ?_
  cases outcome with
  | ok v => exact mirrors_bindName scope arg.name (houtcome v rfl)
  | error e =>
    exact (mirrors_report _).bind fun _ _ => mirrors_bindName scope arg.name Invariant.rectangles.void

/-- The stages of a dispatch do the same with and without a watch. -/
theorem stages (s : Shader) (stop : Fault) (entry : String) :
    (hooks stop).Stages s entry Machine.Rectangular where
  start config m _ := (mirrors_start s stop config m).imp_right fun leaves _ m₁ hrun =>
    ⟨leaves m₁ hrun, trivial⟩
  size f _ := (sameRuns stop).mirrors_workgroupSize (answers_call stop) f
  resources _ g hm := hm.bindResources _ g
  moduleVars newWorkgroup := (sameRuns stop).mirrors_resetVariables (answers_call stop) newWorkgroup
  unmarked _ hm := hm.of_scopes rfl rfl
  opened _ hm := hm.pushed _
  builtins plan index scope b hb m hm := by
    have extent : ∀ e : Extent, e.value.Rectangular := fun e =>
      Value.rectangular_vector.2 fun v hv => by
        obtain ⟨n, -, rfl⟩ := List.mem_map.1 hv
        trivial
    refine hm.bind ?_
    simp only [Invocation.builtins, List.mem_cons, List.not_mem_nil, or_false] at hb
    obtain rfl | rfl | rfl | rfl | rfl := hb <;> first | exact extent _ | trivial
  argument f _ arg _ scope := mirrors_bindArgument f arg
  body f _ scope := Exec.Mirrors.mono
    ((sameRuns stop).begun ((sameRuns stop).mirrors_stmts (answers_call stop) f.body scope))
    fun _ _ => trivial
  closed scope _ hm := ⟨(hm.popped scope).scopes, nofun⟩
  unbound _ hm := hm.of_scopes rfl rfl

theorem mirrors_dispatch (s : Shader) (stop : Fault) (entry : String) (workgroups : Extent)
    (g : BindGroups) (config : Config) : Eval.Mirrors Machine.Rectangular (fun _ => True)
      (Attempt.dispatch s entry workgroups g config) (dispatch s stop entry workgroups g config) :=
  (stages s stop entry).dispatch

/-! ## Any calls -/

/-- By induction on the calls: each leaves a machine of rectangles to the next one. -/
theorem rectangular_run {calls : List Call} {m m₁ : Machine} (hm : m.Rectangular)
    (hrun : calls.forM (Call.run s) m = .ok ((), m₁)) : m₁.Rectangular := by
  have call : ∀ c : Call,
      Exec.Mirrors Machine.Rectangular (fun _ => True) (c.run s) (c.run s) := by
    intro c m hm
    refine ⟨rfl, fun _ m₁ hrun => ⟨?_, trivial⟩⟩
    cases c with
    | execute config => exact (mirrors_start s .emptyClamp config m).2 m₁ hrun
    | dispatch entry workgroups g config =>
      have left : Exec.Mirrors Machine.Rectangular (fun _ => True)
          (Call.run s (.dispatch entry workgroups g config))
          ((dispatch s .emptyClamp entry workgroups g config).run >>= fun _ => pure ()) :=
        Exec.Mirrors.bind (mirrors_dispatch s .emptyClamp entry workgroups g config) fun _ _ =>
          Exec.mirrors_pure trivial
      exact ((left m hm).2 _ m₁ hrun).1
  exact ((Exec.mirrors_forM fun c _ => call c) m hm).2 () m₁ hrun |>.1

/-- Whatever is asked of a shader, and in whatever order, a watch finds nothing to stop for: every
matrix in a scope and every one that comes out of an expression is a rectangle, and no product,
transpose or determinant reads out of range. -/
theorem never_stops {l : Layouts} {calls : List Call} {m : Machine}
    (hrun : calls.forM (Call.run s) { layouts := l } = .ok ((), m)) (stop : Fault) :
    m.Rectangular ∧
      (∀ config, start s stop config m = Exec.start s config m) ∧
      ∀ entry workgroups g config, (dispatch s stop entry workgroups g config).run m =
        (Attempt.dispatch s entry workgroups g config).run m := by
  have fresh : Machine.Rectangular { layouts := l } := ⟨fun found h => by
    obtain rfl : found = Scope.empty none := by simpa [ScopeArena.new] using h
    exact fun _ h => absurd h List.not_mem_nil, fun _ h => absurd h List.not_mem_nil⟩
  have hm := rectangular_run fresh hrun
  exact ⟨hm, fun config => (mirrors_start s stop config m).1, fun entry workgroups g config =>
    (mirrors_dispatch s stop entry workgroups g config m hm).1⟩

end Watched

/-! ## Products of a matrix that is not square -/

/-- A constant without a written type. -/
def Declaration.inferred (name : String) (value : Expr) : Declaration := .value .const {
  name, type := none, storage := none, access := none, value := some value, attributes := [], line := 0 }

/-- A module with a matrix of two columns and three rows, the products of its columns, and the sum of
the two although one is lower. -/
def Program.products : Program where
  declarations := [
    .inferred "tall" (.construct ⟨0, 0⟩ (.template 0 [] "mat2x3" (some (.named 0 [] "f32")) none none)
      ([0, 1, 2, 3, 4, 5].map fun n => .literal ⟨0, 0⟩ (.int n none))),
    .inferred "gram" (.binary ⟨0, 0⟩ .multiply (.call ⟨1, 0⟩ "transpose" [.var ⟨0, 0⟩ "tall"])
      (.var ⟨0, 0⟩ "tall")),
    .inferred "sum" (.binary ⟨0, 0⟩ .add (.var ⟨0, 0⟩ "tall") (.var ⟨0, 0⟩ "gram"))]

namespace Watched

/-- The heights of the columns of a matrix at module scope. -/
def heights (m : Machine) (name : String) : List Nat :=
  match m.scopes.findIn? ScopeArena.root name with
  | some (.value (.matrix columns)) => columns.map List.length
  | _ => []

/-- The shader of these products and the machine after its start. -/
def multiplied : Except Fault (Shader × Layouts × Machine) := do
  let (s, l) ← Shader.ofProgram .products
  let (_, m) ← [Call.execute []].forM (Call.run s) { layouts := l }
  return (s, l, m)

theorem never_stops_products : ∃ s l m, Shader.ofProgram .products = .ok (s, l) ∧
    [Call.execute []].forM (Call.run s) { layouts := l } = .ok ((), m) ∧
    heights m "tall" = [3, 3] ∧ heights m "gram" = [2, 2] ∧ heights m "sum" = [2, 2] ∧
    m.Rectangular ∧
      (∀ config, start s .emptyClamp config m = Exec.start s config m) ∧
      ∀ entry workgroups g config, (dispatch s .emptyClamp entry workgroups g config).run m =
        (Attempt.dispatch s entry workgroups g config).run m := by
  have computed : multiplied.toOption.any (fun (_, _, m) => decide
      (heights m "tall" = [3, 3] ∧ heights m "gram" = [2, 2] ∧ heights m "sum" = [2, 2])) = true := by
    decide +kernel
  cases hr : multiplied with
  | error e =>
    rw [hr] at computed
    cases computed
  | ok r =>
    obtain ⟨s, l, m⟩ := r
    rw [hr] at computed
    obtain ⟨⟨s', l'⟩, hs, hr⟩ := Fault.bind_ok hr
    obtain ⟨⟨_, m'⟩, hrun, hr⟩ := Fault.bind_ok hr
    cases hr
    obtain ⟨tall, gram, sum⟩ := of_decide_eq_true computed
    exact ⟨s, l, m, hs, hrun, tall, gram, sum, never_stops hrun .emptyClamp⟩

end Watched

end Wgsl
