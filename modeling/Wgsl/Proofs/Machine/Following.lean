import Wgsl.Proofs.Machine.History
import Wgsl.Proofs.Machine.Unbounded
import Wgsl.Proofs.Machine.Stages

/-! # A run that is followed far enough

The run without bounds of its own does what the interpreter does, if it is followed far enough. No
name leads through more declarations than there are, no loop has more rounds than are allowed, and no
call is inside more calls than may nest.

* `Machine.Stands`: a machine with the declarations of a program and so many calls running.
* `Unbounded.Enough`: how far is far enough.
* `Unbounded.rounds_eq`: the rounds of a loop, counted upwards and downwards.
* `Unbounded.sameRuns`: followed far enough, nothing makes a difference.
* `Unbounded.answers_call`: by induction on how deep calls may nest.
-/

namespace Wgsl
set_option autoImplicit false

variable {α : Type}

/-! ## What a run keeps -/

/-- Layouts forget nothing, and as many calls are running as before. -/
structure Machine.Continues (m m₁ : Machine) : Prop where
  layouts : m.layouts.Extends m₁.layouts
  callDepth : m₁.callDepth = m.callDepth

theorem Machine.continues_lasting : Lasting Continues where
  refl m := ⟨.refl m.layouts, rfl⟩
  trans h h' := ⟨h.layouts.trans h'.layouts, h'.callDepth.trans h.callDepth⟩
  slight hf m := ⟨hf.extends m, hf.callDepth m⟩
  layouts _ _ h := ⟨h, rfl⟩
  scopes m _ := ⟨.refl m.layouts, rfl⟩
  nested {m m₁} h := ⟨h.layouts, by
    have deeper : m₁.callDepth = m.callDepth + 1 := h.callDepth
    change m₁.callDepth - 1 = m.callDepth
    rw [deeper]
    rfl⟩

/-- Every computation continues from its machine. -/
def Conduct.continuing : Conduct := .keeping Machine.continues_lasting

/-- The machine has these declarations, and so many calls are running, no more than may nest. -/
structure Machine.Stands (l : Layouts) (depth : Nat) (m : Machine) : Prop where
  structs : m.layouts.structs = l.structs
  aliases : m.layouts.aliases = l.aliases
  callDepth : m.callDepth = depth
  shallow : depth ≤ maxCallDepth

variable {l : Layouts} {depth : Nat}

theorem Machine.Stands.continues {m m₁ : Machine} (h : m.Stands l depth) (hm : m.Continues m₁) :
    m₁.Stands l depth where
  structs := hm.layouts.structs.trans h.structs
  aliases := hm.layouts.aliases.trans h.aliases
  callDepth := hm.callDepth.trans h.callDepth
  shallow := h.shallow

/-- On these machines the second computation does what the first one does, and leaves such a machine. -/
abbrev Exec.Alike (P : Machine → Prop) (x x' : Exec α) : Prop := Exec.Mirrors P (fun _ => True) x x'

/-- The same for computations that may fail. -/
abbrev Eval.Alike {ε : Type} (P : Machine → Prop) (x x' : ExceptT ε Exec α) : Prop :=
  Eval.Mirrors P (fun _ => True) x x'

/-- A computation that keeps what every one keeps does the same as itself. -/
theorem Exec.alike_plain {x : Exec α} (h : Conduct.continuing.quiet x) :
    Alike (Machine.Stands l depth) x x :=
  fun m hm => ⟨rfl, fun a m₁ hrun => ⟨hm.continues (h m a m₁ hrun), trivial⟩⟩

theorem Eval.alike_plain {ε : Type} {x : ExceptT ε Exec α} (h : Conduct.continuing.quiet x.run) :
    Alike (Machine.Stands l depth) x x :=
  (Exec.alike_plain h).mono fun _ _ _ _ => trivial

/-- Machines stand at the depth of the calls; nothing is asked of values. -/
def Invariant.standing (l : Layouts) : Invariant where
  toValueInvariant := .anything
  machine := Machine.Stands l
  nameValue _ _ _ := Run.ensures_all _
  readPlace _ _ := Run.ensures_all _
  callResult _ _ _ := trivial
  writePlace {_ m} hm q v _ := hm.continues (Conduct.continuing.obeys_writePlace q v m _ _ rfl)
  bind hm _ _ _ _ := ⟨hm.structs, hm.aliases, hm.callDepth, hm.shallow⟩
  pushed hm _ := ⟨hm.structs, hm.aliases, hm.callDepth, hm.shallow⟩
  popped hm _ := ⟨hm.structs, hm.aliases, hm.callDepth, hm.shallow⟩
  same hm _ _ hl hd :=
    ⟨hl ▸ hm.structs, hl ▸ hm.aliases, hd.trans hm.callDepth, hm.shallow⟩
  deeper hbefore hroom hm :=
    ⟨hm.structs, hm.aliases, congrArg (· + 1) hm.callDepth, hbefore.callDepth ▸ hroom⟩
  shallower hm :=
    ⟨hm.structs, hm.aliases, congrArg (· - 1) hm.callDepth, Nat.le_of_succ_le hm.shallow⟩

/-! ## Far enough -/

namespace Unbounded

open Eval

/-- A number is far enough to follow whatever a program with these declarations may do. -/
structure Enough (l : Layouts) (n : Nat) : Prop where
  acyclic : l.AliasesAcyclic
  declarations : LayoutM.depthOf l < n
  iterations : maxLoopIterations < n

theorem Enough.calls {n : Nat} (h : Enough l n) : maxCallDepth < n :=
  Nat.lt_trans (by decide) h.iterations

variable {s : Shader} {stop : Fault} {n : Nat}

theorem alike_layout {x x' : LayoutM α} (hx : LayoutM.Growing x)
    (h : ∀ l', l'.structs = l.structs → l'.aliases = l.aliases → x'.run l' = x.run l') :
    Exec.Alike (Machine.Stands l depth) (Exec.layout x) (Exec.layout x') := by
  refine fun m hm => ⟨?_, fun a m₁ hrun =>
    ⟨hm.continues (Machine.continues_lasting.keeps_layout hx m a m₁ hrun), trivial⟩⟩
  unfold Exec.layout
  rw [h m.layouts hm.structs hm.aliases]

/-- Counting rounds upwards to the limit or downwards to none comes to the same. By induction on how
many rounds are followed. -/
theorem rounds_eq (stop : Fault) (round : Eval (Option Flow)) (n : Nat) :
    ∀ count, count ≤ maxLoopIterations → maxLoopIterations < n + count →
      rounds stop round n count = Eval.rounds round (maxLoopIterations + 1 - count) := by
  induction n with
  | zero => exact fun count hcount h => absurd h (by omega)
  | succ n ih =>
    intro count hcount h
    obtain ⟨left, hleft⟩ : ∃ left, maxLoopIterations = count + left := Nat.exists_eq_add_of_le hcount
    have remaining : maxLoopIterations + 1 - count = left + 1 := by omega
    rw [remaining, rounds, Eval.rounds]
    refine bind_congr fun flow? => ?_
    cases flow? with
    | some flow => rfl
    | none =>
      cases left with
      | zero => exact if_pos (by omega)
      | succ left =>
        refine (if_neg (by omega)).trans ?_
        rw [ih (count + 1) (by omega) (by omega)]
        congr 1
        omega

theorem repeated_eq (hn : Enough l n) (stop : Fault) (round : Eval (Option Flow)) :
    repeated stop n round = Eval.repeated round :=
  rounds_eq stop round n 0 (Nat.zero_le _) hn.iterations

/-- Followed far enough, nothing makes a difference. -/
theorem sameRuns (hn : Enough l n) (stop : Fault) : (hooks stop n).SameRuns (.standing l) where
  typeInfo _ t := mirrors_lifted <| alike_layout (LayoutM.growing_typeInfo t) fun _ hs ha =>
    run_layoutOf hn.acyclic hn.declarations stop ⟨hs, ha, rfl⟩ t
  structInfo? _ name := mirrors_lifted <| alike_layout (LayoutM.growing_structInfo name) fun _ hs ha =>
    run_structLayout hn.acyclic hn.declarations stop ⟨hs, ha, rfl⟩ name
  binary _ _ _ _ _ _ := mirrors_lift (Run.ensures_all _)
  builtin _ name args _ := alike_plain (Conduct.eval_callBuiltin name args)
  evaluated hx := hx
  begun {_ _ x'} hx m hm := by
    -- a statement is not inside too many calls
    have shallow : m.callDepth ≤ maxCallDepth := hm.callDepth ▸ hm.shallow
    have admitted : Exec.shallow stop x' m = x' m := if_pos shallow
    change Exec.shallow stop x' m = _ ∧ _
    rw [admitted]
    exact hx m hm
  declared hx := hx
  repeated {_ _ round'} hround := by
    change Eval.Mirrors _ _ _ (repeated stop n round')
    rw [repeated_eq hn]
    exact Invariant.mirrors_rounds hround _
  discard _ line := Invariant.mirrors_settled line (mirrors_pure trivial)

/-! ## Calls -/

/-- By induction on how deep calls are followed: each call leaves fewer to nest within it. -/
theorem answers_callWithin (hn : Enough l n) (stop : Fault) (budget : Nat) : ∀ k depth,
    maxCallDepth ≤ depth + budget → maxCallDepth < depth + k →
      (Invariant.standing l).Answers depth s (Eval.callWithin s budget)
        ((hooks stop n).callWithin s k) := by
  induction budget with
  | zero =>
    intro k depth hbudget hk name f args _ _ m hm
    have shallow := hm.shallow
    obtain ⟨k, rfl⟩ : ∃ j, k = j + 1 := Nat.exists_eq_succ_of_ne_zero (by omega)
    have deepest : maxCallDepth ≤ m.callDepth := by
      rw [hm.callDepth]
      omega
    have refused : ((hooks stop n).callWithin s (k + 1) f args).run m =
        (throw (tooDeep f) : Eval Value).run m := by
      rw [Hooks.callWithin, get_bind_run, if_pos deepest]
    exact ⟨refused, (mirrors_throw (tooDeep f) m hm).2⟩
  | succ budget ih =>
    intro k depth hbudget hk name f args hf hargs m hm
    have shallow := hm.shallow
    obtain ⟨k, rfl⟩ : ∃ j, k = j + 1 := Nat.exists_eq_succ_of_ne_zero (by omega)
    exact (sameRuns hn stop).mirrors_called (fun _ _ => ih k (depth + 1) (by omega) (by omega))
      name f args hf hargs m hm

/-- Where nothing is running, calls do the same. -/
theorem answers_call (hn : Enough l n) (stop : Fault) :
    (Invariant.standing l).Answers 0 s (Eval.call s) ((hooks stop n).call s) :=
  answers_callWithin hn stop _ _ _ (by omega) (by simpa [hooks] using hn.calls)

end Unbounded

end Wgsl
