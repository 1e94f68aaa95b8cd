import Mathlib.Tactic
import Wgsl.Proofs.Machine.Surroundings
import Wgsl.Stepper.Command

/-! # Where jumps go

The commands of a function body stand in lists inside lists. The jumps of a list go by position in
it: a branch leads behind the jump that ends its block, and that jump leads behind the commands of
the whole `if` statement.

* `Stmt.bodyRows`: all lists of commands in a body, each with the statements it is made of.
* `CommandRow.Aimed`: the jumps of a list go where they should.
* `CommandRow.aimed_listCommands`: those of statements laid out from the begin of a list do.
* `Stmt.jumps_aimed`: all jumps of a body do, unless a `continuing` part that holds an `if` is put
  behind the commands of its loop.
-/

namespace Wgsl
set_option autoImplicit false

/-! ## Positions -/

/-- How many commands a statement has in the list it stands in. -/
def Stmt.span : Stmt → Nat
  | .ifElse _ _ _ rest => 3 + rest.commandCount
  | _ => 1

/-- The position at which the commands of the `k`-th statement begin. -/
def Stmt.start (body : List Stmt) (k : Nat) : Nat := ((body.take k).map Stmt.span).sum

theorem ElseChain.length_commands : ∀ (rest : ElseChain) (position finish : Nat),
    (ElseChain.commands position finish rest).length = rest.commandCount
  | .none, _, _ => rfl
  | .else_ _, _, _ => rfl
  | .elseIf _ _ _ rest, position, finish => by
    simp only [ElseChain.commands, ElseChain.commandCount, List.length_cons, rest.length_commands]
    omega

namespace Stmt

variable {body : List Stmt} {st : Stmt} {k : Nat}

theorem span_pos (st : Stmt) : 0 < st.span := by
  cases st <;> simp [span]

theorem length_commands (position : Nat) (st : Stmt) :
    (Stmt.commands position st).length = st.span := by
  cases st with
  | ifElse line cond body rest =>
    simp only [Stmt.commands, span, List.length_cons, rest.length_commands]
    omega
  | _ => rfl

/-- Only the jumps of an `if` depend on its position. -/
theorem commands_of_not_isIf (h : ¬st.IsIf) (position : Nat) :
    Stmt.commands position st = Stmt.commands 0 st := by
  cases st with
  | ifElse => exact absurd trivial h
  | _ => simp only [Stmt.commands]

theorem listCommands_cons (position : Nat) (st : Stmt) (rest : List Stmt) :
    Stmt.listCommands position (st :: rest) =
      Stmt.commands position st ++ Stmt.listCommands (position + st.span) rest := by
  rw [Stmt.listCommands, length_commands]

theorem start_zero (body : List Stmt) : start body 0 = 0 := rfl

theorem start_cons (st : Stmt) (rest : List Stmt) (k : Nat) :
    start (st :: rest) (k + 1) = st.span + start rest k := by
  simp [start]

theorem start_length (body : List Stmt) : start body body.length = (body.map span).sum := by
  rw [start, List.take_length]

theorem start_mono {j k : Nat} (h : j ≤ k) : start body j ≤ start body k := by
  induction body generalizing j k with
  | nil => simp [start]
  | cons st rest ih =>
    cases j with
    | zero => exact Nat.zero_le _
    | succ j =>
      obtain ⟨k, rfl⟩ := Nat.exists_eq_add_of_le' h
      have later : start rest j ≤ start rest (k + j) := ih (Nat.le_add_left j k)
      rw [← Nat.add_assoc, start_cons, start_cons]
      exact Nat.add_le_add_left later _

theorem length_listCommands (position : Nat) (body : List Stmt) :
    (Stmt.listCommands position body).length = (body.map span).sum := by
  induction body generalizing position with
  | nil => rfl
  | cons st rest ih =>
    rw [listCommands_cons, List.length_append, length_commands, ih, List.map_cons, List.sum_cons]

theorem listCommands_append (position : Nat) (body rest : List Stmt) :
    Stmt.listCommands position (body ++ rest) = Stmt.listCommands position body ++
      Stmt.listCommands (position + (Stmt.listCommands 0 body).length) rest := by
  induction body generalizing position with
  | nil => rfl
  | cons st body ih =>
    rw [List.cons_append, listCommands_cons, listCommands_cons, ih, List.append_assoc,
      length_listCommands, length_listCommands, List.map_cons, List.sum_cons, Nat.add_assoc]

theorem listCommands_of_not_isIf (h : ∀ st ∈ body, ¬st.IsIf) (position : Nat) :
    Stmt.listCommands position body = Stmt.listCommands 0 body := by
  induction body generalizing position with
  | nil => rfl
  | cons st rest ih =>
    obtain ⟨hst, hrest⟩ := List.forall_mem_cons.1 h
    rw [listCommands_cons, listCommands_cons, commands_of_not_isIf hst, ih hrest, ih hrest (0 + _)]

end Stmt

/-! ## Jumps in one list -/

/-- The position that a command may go on at instead of the next one. -/
def Command.target? : Command → Option Nat
  | .jump target => some target
  | .branch _ _ target => some target
  | _ => none

/-- The jumps of a list whose positions are counted from a base: a branch leads behind the jump that
follows its block, jumps go where they may, and loops go on inside themselves. -/
structure Command.Leads (base : Nat) (goes : Nat → Nat → Prop) (l : List Command) : Prop where
  branch : ∀ i line cond t, l[i]? = some (.branch line cond t) → t = base + i + 3 ∧
    (∃ inner, l[i + 1]? = some (.block inner)) ∧ ∃ finish, l[i + 2]? = some (.jump finish)
  jump : ∀ i t, l[i]? = some (.jump t) → goes i t
  loop : ∀ (i : Nat) (inner : List Command) (t : Nat), l[i]? =
    some (.loop inner t) → t ≤ inner.length

namespace Command.Leads

variable {base : Nat} {goes more : Nat → Nat → Prop} {l rest : List Command} {c : Command}

theorem nil : Leads base goes [] := ⟨nofun, nofun, nofun⟩

theorem mono (h : Leads base goes l) (hgoes : ∀ i t, goes i t → more i t) : Leads base more l :=
  ⟨h.branch, fun i t hi => hgoes i t (h.jump i t hi), h.loop⟩

/-- A command that is neither a branch nor a jump. -/
theorem single (hc : c.target? = none) (hloop : ∀ inner t, c = Command.loop inner t → t ≤ inner.length) :
    Leads base goes [c] := by
  have only : ∀ {i : Nat} {d : Command}, [c][i]? = some d → c = d := by
    intro i d hi
    cases i with
    | zero => exact Option.some.inj hi
    | succ i => cases hi
  refine ⟨fun i line cond t hi => ?_, fun i t hi => ?_, fun i inner t hi => hloop inner t (only hi)⟩
  · cases only hi
    cases hc
  · cases only hi
    cases hc

/-- One branch of an `if`: its condition, its block and the jump to the end. -/
theorem chain {line : Nat} {cond : Expr} {block : List Command} {finish : Nat}
    (h : Leads (base + 3) (fun _ t => t = finish) rest) :
    Leads base (fun _ t => t = finish)
      (.branch line cond (base + 3) :: .block block :: .jump finish :: rest) := by
  refine ⟨fun i line' cond' t hi => ?_, fun i t hi => ?_, fun i inner t hi => ?_⟩
  · match i, hi with
    | 0, hi =>
      cases hi
      exact ⟨rfl, ⟨block, rfl⟩, finish, rfl⟩
    | 1, hi => cases hi
    | 2, hi => cases hi
    | i + 3, hi =>
      obtain ⟨ht, hblock, hjump⟩ := h.branch i line' cond' t hi
      exact ⟨by omega, hblock, hjump⟩
  · match i, hi with
    | 0, hi => cases hi
    | 1, hi => cases hi
    | 2, hi =>
      cases hi
      rfl
    | i + 3, hi => exact h.jump i t hi
  · match i, hi with
    | 0, hi => cases hi
    | 1, hi => cases hi
    | 2, hi => cases hi
    | i + 3, hi => exact h.loop i inner t hi

theorem append (h : Leads base goes l) (h' : Leads (base + l.length) more rest) :
    Leads base (fun i t => if i < l.length then goes i t else more (i - l.length) t)
      (l ++ rest) := by
  have behind : ∀ {i : Nat}, l.length ≤ i → ∀ k, (l ++ rest)[i + k]? = rest[i - l.length + k]? := by
    intro i hi k
    rw [List.getElem?_append_right (Nat.le_add_right_of_le hi), Nat.sub_add_comm hi]
  refine ⟨fun i line cond t hi => ?_, fun i t hi => ?_, fun i inner t hi => ?_⟩
  · obtain hlt | hle := Nat.lt_or_ge i l.length
    · rw [List.getElem?_append_left hlt] at hi
      obtain ⟨ht, ⟨inner, hblock⟩, finish, hjump⟩ := h.branch i line cond t hi
      have short := (List.getElem?_eq_some_iff.1 hjump).1
      refine ⟨ht, ⟨inner, ?_⟩, finish, ?_⟩
      · rw [List.getElem?_append_left (by omega), hblock]
      · rw [List.getElem?_append_left short, hjump]
    · rw [List.getElem?_append_right hle] at hi
      obtain ⟨ht, ⟨inner, hblock⟩, finish, hjump⟩ := h'.branch _ line cond t hi
      exact ⟨by omega, ⟨inner, (behind hle 1).trans hblock⟩, finish, (behind hle 2).trans hjump⟩
  · obtain hlt | hle := Nat.lt_or_ge i l.length
    · rw [List.getElem?_append_left hlt] at hi
      rw [if_pos hlt]
      exact h.jump i t hi
    · rw [List.getElem?_append_right hle] at hi
      rw [if_neg (Nat.not_lt.2 hle)]
      exact h'.jump _ t hi
  · obtain hlt | hle := Nat.lt_or_ge i l.length
    · rw [List.getElem?_append_left hlt] at hi
      exact h.loop i inner t hi
    · rw [List.getElem?_append_right hle] at hi
      exact h'.loop _ inner t hi

end Command.Leads

open Command (Leads)

theorem ElseChain.leads : ∀ (rest : ElseChain) (base finish : Nat),
    Leads base (fun _ t => t = finish) (ElseChain.commands base finish rest)
  | .none, _, _ => .nil
  | .else_ _, _, _ => .single rfl nofun
  | .elseIf _ _ _ rest, base, finish => .chain (rest.leads (base + 3) finish)

/-- The jumps of a statement lead behind its commands, and only an `if` has any. -/
theorem Stmt.leads (base : Nat) (st : Stmt) :
    Leads base (fun _ t => st.IsIf ∧ t = base + st.span) (Stmt.commands base st) := by
  cases st with
  | ifElse line cond body rest =>
    refine (Leads.chain (rest.leads (base + 3) _)).mono fun _ t ht => ⟨trivial, ?_⟩
    rw [ht, Stmt.span, Nat.add_assoc]
  | loop line body continuing =>
    refine .single rfl fun inner t h => ?_
    cases h
    rw [List.length_append]
    exact Nat.le_add_right _ _
  | whileLoop line cond body =>
    refine .single rfl fun inner t h => ?_
    cases h
    exact Nat.zero_le _
  | _ => exact .single rfl nofun

/-- A jump at a position belongs to an `if` whose commands are around the position, and leads behind
them. -/
def Stmt.Finishes (body : List Stmt) (i t : Nat) : Prop :=
  ∃ k, ∃ h : k < body.length, body[k].IsIf ∧ start body k ≤ i ∧ i < start body (k + 1) ∧
    t = start body (k + 1)

theorem Stmt.leads_list (base : Nat) (body : List Stmt) :
    Leads base (fun i t => ∃ t', t = base + t' ∧ Finishes body i t')
      (Stmt.listCommands base body) := by
  induction body generalizing base with
  | nil => exact .nil
  | cons st rest ih =>
    rw [listCommands_cons]
    have later := ih (base + st.span)
    refine ((st.leads base).append (by rwa [length_commands])).mono fun i t ht => ?_
    rw [length_commands] at ht
    split at ht
    · rename_i hi
      refine ⟨st.span, ht.2, 0, Nat.succ_pos _, ht.1, Nat.zero_le _, ?_, ?_⟩
      · rw [start_cons, start_zero]
        exact hi
      · rw [start_cons, start_zero]
        rfl
    · rename_i hi
      obtain ⟨t', rfl, k, hk, hif, hstart, hend, rfl⟩ := ht
      refine ⟨st.span + start rest (k + 1), by omega, k + 1, Nat.succ_lt_succ hk, hif, ?_, ?_, ?_⟩
      · rw [start_cons]
        omega
      · rw [start_cons]
        omega
      · rw [start_cons]

/-! ## All lists of a body -/

/-- A list of commands and the statements whose commands follow each other in it. Commands that only
lead on the rounds of a loop belong to no statement of the list. -/
structure CommandRow where
  body : List Stmt
  commands : List Command

/-- The jumps of a list go forward: a branch leads behind the jump that ends its block, and that jump
behind the commands of the whole `if`. The target of a `continue` lies in its loop. -/
structure CommandRow.Aimed (r : CommandRow) : Prop where
  forward : ∀ i c t, r.commands[i]? = some c → c.target? = some t → i < t ∧ t ≤ r.commands.length
  branch : ∀ i line cond t, r.commands[i]? = some (.branch line cond t) → t = i + 3 ∧
    (∃ inner, r.commands[i + 1]? = some (.block inner)) ∧
    ∃ finish, r.commands[i + 2]? = some (.jump finish)
  jump : ∀ i t, r.commands[i]? = some (.jump t) → Stmt.Finishes r.body i t
  loop : ∀ (i : Nat) (inner : List Command) (t : Nat), r.commands[i]? =
    some (.loop inner t) → t ≤ inner.length

/-- One round of a `for`. -/
def Stmt.forRound (line : Nat) (cond : Option Expr) (update : Option SimpleStmt)
    (body : List Stmt) : List Command :=
  Command.ofLoopCondition? line cond ++
    .block (Stmt.listCommands 0 body) :: Command.ofSimple? update

/-- A `for` in the block of its own that holds what its header declares. -/
def Stmt.forHeader (line : Nat) (init : Option SimpleStmt) (cond : Option Expr)
    (update : Option SimpleStmt) (body : List Stmt) : List Command :=
  Command.ofSimple? init ++ [.loop (Stmt.forRound line cond update body)
    ((Command.ofLoopCondition? line cond).length + 1)]

/-- One round of a `while`. -/
def Stmt.whileRound (line : Nat) (cond : Expr) (body : List Stmt) : List Command :=
  [.breakIf line cond true, .block (Stmt.listCommands 0 body)]

/-- The list of the statements of a block. -/
def CommandRow.ofBlock (body : List Stmt) : CommandRow := ⟨body, Stmt.listCommands 0 body⟩

/-- The list of the statements of a `loop`. -/
def CommandRow.ofLoop (body : List Stmt) (continuing : Option (List Stmt)) : CommandRow :=
  ⟨body ++ continuing.getD [], Stmt.listCommands 0 body ++ Stmt.continuingCommands continuing⟩

mutual

/-- The lists of commands inside the commands of a statement. -/
def Stmt.rows : Stmt → List CommandRow
  | .ifElse _ _ body rest => .ofBlock body :: (Stmt.listRows body ++ rest.rows)
  | .forLoop line init cond update body =>
    ⟨[], Stmt.forHeader line init cond update body⟩ :: ⟨[], Stmt.forRound line cond update body⟩ ::
      .ofBlock body :: Stmt.listRows body
  | .whileLoop line cond body =>
    ⟨[], Stmt.whileRound line cond body⟩ :: .ofBlock body :: Stmt.listRows body
  | .loop _ body continuing =>
    .ofLoop body continuing :: (Stmt.listRows body ++ Stmt.partRows continuing)
  | .switch _ _ clauses => SwitchClause.listRows clauses
  | .block _ body => .ofBlock body :: Stmt.listRows body
  | _ => []

def Stmt.listRows : List Stmt → List CommandRow
  | [] => []
  | st :: rest => st.rows ++ Stmt.listRows rest

def Stmt.partRows : Option (List Stmt) → List CommandRow
  | none => []
  | some body => Stmt.listRows body

def ElseChain.rows : ElseChain → List CommandRow
  | .none => []
  | .else_ body => .ofBlock body :: Stmt.listRows body
  | .elseIf _ _ body rest => .ofBlock body :: (Stmt.listRows body ++ rest.rows)

def SwitchClause.listRows : List SwitchClause → List CommandRow
  | [] => []
  | .mk _ _ _ body :: rest => .ofBlock body :: (Stmt.listRows body ++ SwitchClause.listRows rest)

end

/-- The list of the commands of a body and the lists inside them. -/
def Stmt.bodyRows (body : List Stmt) : List CommandRow := .ofBlock body :: Stmt.listRows body

mutual

/-- The lists of commands inside a command. -/
def Command.lists : Command → List (List Command)
  | .block commands => commands :: Command.listLists commands
  | .loop commands _ => commands :: Command.listLists commands
  | .switch _ _ clauses => ClauseCommands.listLists clauses
  | _ => []

def Command.listLists : List Command → List (List Command)
  | [] => []
  | c :: rest => c.lists ++ Command.listLists rest

def ClauseCommands.listLists : List ClauseCommands → List (List Command)
  | [] => []
  | .mk _ _ commands :: rest =>
    commands :: (Command.listLists commands ++ ClauseCommands.listLists rest)

end

theorem Command.listLists_append (l l' : List Command) :
    Command.listLists (l ++ l') = Command.listLists l ++ Command.listLists l' := by
  induction l with
  | nil => rfl
  | cons c l ih => rw [List.cons_append, listLists, listLists, ih, List.append_assoc]

theorem Command.listLists_ofSimple? (st : Option SimpleStmt) :
    Command.listLists (Command.ofSimple? st) = [] := by
  cases st <;> rfl

theorem Command.listLists_ofLoopCondition? (line : Nat) (cond : Option Expr) :
    Command.listLists (Command.ofLoopCondition? line cond) = [] := by
  cases cond <;> rfl

mutual

theorem Stmt.commands_rows : ∀ (st : Stmt) (position : Nat),
    st.rows.map CommandRow.commands = Command.listLists (Stmt.commands position st)
  | .ifElse _ _ body rest, position => by
    simp only [Stmt.rows, Stmt.commands, List.map_cons, List.map_append, CommandRow.ofBlock,
      Stmt.commands_listRows body 0,
      rest.commands_rows (position + 3) (position + 3 + rest.commandCount), Command.listLists,
      Command.lists, List.nil_append, List.cons_append]
  | .forLoop line init cond update body, position => by
    simp only [Stmt.rows, Stmt.commands, List.map_cons, CommandRow.ofBlock,
      Stmt.commands_listRows body 0, Stmt.forHeader, Stmt.forRound, Command.listLists,
      Command.lists, Command.listLists_append, Command.listLists_ofSimple?,
      Command.listLists_ofLoopCondition?, List.nil_append, List.append_nil]
  | .whileLoop line cond body, position => by
    simp only [Stmt.rows, Stmt.commands, List.map_cons, CommandRow.ofBlock,
      Stmt.commands_listRows body 0, Stmt.whileRound, Command.listLists, Command.lists,
      List.nil_append, List.append_nil]
  | .loop _ body continuing, position => by
    simp only [Stmt.rows, Stmt.commands, List.map_cons, List.map_append, CommandRow.ofLoop,
      Stmt.commands_listRows body 0, Stmt.commands_partRows continuing, Command.listLists,
      Command.lists, Command.listLists_append, List.append_nil]
  | .switch _ _ clauses, position => by
    simp only [Stmt.rows, Stmt.commands, SwitchClause.commands_listRows clauses, Command.listLists,
      Command.lists, List.append_nil]
  | .block _ body, position => by
    simp only [Stmt.rows, Stmt.commands, List.map_cons, CommandRow.ofBlock,
      Stmt.commands_listRows body 0, Command.listLists, Command.lists, List.append_nil]
  | .simple _, _ | .return_ _ _, _ | .break_ _, _ | .breakIf _ _, _ | .continue_ _, _
  | .discard _, _ | .constAssert _ _, _ => rfl

/-- No list of a body is left out. -/
theorem Stmt.commands_listRows : ∀ (body : List Stmt) (position : Nat),
    (Stmt.listRows body).map CommandRow.commands =
      Command.listLists (Stmt.listCommands position body)
  | [], _ => rfl
  | st :: rest, position => by
    rw [Stmt.listRows, List.map_append, Stmt.listCommands_cons, Command.listLists_append,
      st.commands_rows position, Stmt.commands_listRows rest]

theorem Stmt.commands_partRows : ∀ part : Option (List Stmt),
    (Stmt.partRows part).map CommandRow.commands =
      Command.listLists (Stmt.continuingCommands part)
  | none => rfl
  | some body => Stmt.commands_listRows body 0

theorem ElseChain.commands_rows : ∀ (rest : ElseChain) (position finish : Nat),
    rest.rows.map CommandRow.commands =
      Command.listLists (ElseChain.commands position finish rest)
  | .none, _, _ => rfl
  | .else_ body, _, _ => by
    simp only [ElseChain.rows, ElseChain.commands, List.map_cons, CommandRow.ofBlock,
      Stmt.commands_listRows body 0, Command.listLists, Command.lists, List.append_nil]
  | .elseIf _ _ body rest, position, finish => by
    simp only [ElseChain.rows, ElseChain.commands, List.map_cons, List.map_append,
      CommandRow.ofBlock, Stmt.commands_listRows body 0, rest.commands_rows (position + 3) finish,
      Command.listLists, Command.lists, List.nil_append, List.cons_append]

theorem SwitchClause.commands_listRows : ∀ clauses : List SwitchClause,
    (SwitchClause.listRows clauses).map CommandRow.commands =
      ClauseCommands.listLists (SwitchClause.listCommands clauses)
  | [] => rfl
  | .mk _ _ _ body :: rest => by
    simp only [SwitchClause.listRows, SwitchClause.listCommands, List.map_cons, List.map_append,
      CommandRow.ofBlock, Stmt.commands_listRows body 0, SwitchClause.commands_listRows rest,
      ClauseCommands.listLists]

end

/-! ## Which jumps are right -/

namespace CommandRow

variable {body : List Stmt} {commands : List Command} {continuing : Option (List Stmt)}

/-- Statements laid out from the begin of a list have their jumps right. -/
theorem aimed_listCommands (body : List Stmt) : (ofBlock body).Aimed := by
  have leads := Stmt.leads_list 0 body
  have jump : ∀ i t, (Stmt.listCommands 0 body)[i]? = some (.jump t) → Stmt.Finishes body i t := by
    intro i t hi
    obtain ⟨t', ht, finishes⟩ := leads.jump i t hi
    rwa [ht, Nat.zero_add]
  have branch : ∀ i line cond t, (Stmt.listCommands 0 body)[i]? = some (.branch line cond t) →
      t = i + 3 ∧ (∃ inner, (Stmt.listCommands 0 body)[i + 1]? = some (.block inner)) ∧
      ∃ finish, (Stmt.listCommands 0 body)[i + 2]? = some (.jump finish) := by
    intro i line cond t hi
    have := leads.branch i line cond t hi
    rwa [Nat.zero_add] at this
  refine ⟨fun i c t hi ht => ?_, branch, jump, leads.loop⟩
  change i < t ∧ t ≤ (Stmt.listCommands 0 body).length
  cases c with
  | jump target =>
    cases ht
    obtain ⟨k, hk, -, -, hlt, rfl⟩ := jump i _ hi
    rw [Stmt.length_listCommands, ← Stmt.start_length]
    exact ⟨hlt, Stmt.start_mono hk⟩
  | branch line cond target =>
    cases ht
    obtain ⟨rfl, -, finish, hjump⟩ := branch i line cond _ hi
    have := (List.getElem?_eq_some_iff.1 hjump).1
    omega
  | _ => cases ht

/-- A list without branches and jumps. -/
theorem aimed_of_plain (hb : ∀ c ∈ commands, c.target? = none)
    (hl : ∀ (inner : List Command) (t : Nat), .loop inner t ∈ commands → t ≤ inner.length) :
    Aimed ⟨body, commands⟩ := by
  refine ⟨fun i c t hi ht => ?_, fun i line cond t hi => ?_, fun i t hi => ?_,
    fun i inner t hi => hl inner t (List.mem_of_getElem? hi)⟩
  · rw [hb c (List.mem_of_getElem? hi)] at ht
    cases ht
  · cases hb _ (List.mem_of_getElem? hi)
  · cases hb _ (List.mem_of_getElem? hi)

theorem target?_ofSimple? {st : Option SimpleStmt} {c : Command} (h : c ∈ Command.ofSimple? st) :
    c.target? = none ∧ ∀ (inner : List Command) (t : Nat), c ≠ .loop inner t := by
  obtain ⟨st, -, rfl⟩ := List.mem_map.1 h
  exact ⟨rfl, nofun⟩

theorem target?_ofLoopCondition? {line : Nat} {cond : Option Expr} {c : Command}
    (h : c ∈ Command.ofLoopCondition? line cond) :
    c.target? = none ∧ ∀ (inner : List Command) (t : Nat), c ≠ .loop inner t := by
  obtain ⟨e, -, rfl⟩ := List.mem_map.1 h
  exact ⟨rfl, nofun⟩

theorem aimed_forRound (line : Nat) (cond : Option Expr) (update : Option SimpleStmt)
    (body : List Stmt) : Aimed ⟨[], Stmt.forRound line cond update body⟩ := by
  have plain : ∀ c ∈ Stmt.forRound line cond update body,
      c.target? = none ∧ ∀ (inner : List Command) (t : Nat), c ≠ .loop inner t := by
    intro c hc
    rw [Stmt.forRound, List.mem_append, List.mem_cons] at hc
    obtain hc | rfl | hc := hc
    · exact target?_ofLoopCondition? hc
    · exact ⟨rfl, nofun⟩
    · exact target?_ofSimple? hc
  exact aimed_of_plain (fun c hc => (plain c hc).1) fun inner t h => absurd rfl ((plain _ h).2 inner t)

theorem aimed_forHeader (line : Nat) (init : Option SimpleStmt) (cond : Option Expr)
    (update : Option SimpleStmt) (body : List Stmt) :
    Aimed ⟨[], Stmt.forHeader line init cond update body⟩ := by
  refine aimed_of_plain (fun c hc => ?_) fun inner t h => ?_
  · obtain hc | hc := List.mem_append.1 hc
    · exact (target?_ofSimple? hc).1
    · rw [List.mem_singleton.1 hc]
      rfl
  · obtain h | h := List.mem_append.1 h
    · exact absurd rfl ((target?_ofSimple? h).2 inner t)
    · cases List.mem_singleton.1 h
      rw [Stmt.forRound, List.length_append, List.length_cons]
      omega

theorem aimed_whileRound (line : Nat) (cond : Expr) (body : List Stmt) :
    Aimed ⟨[], Stmt.whileRound line cond body⟩ := by
  refine aimed_of_plain (fun c hc => ?_) fun inner t h => ?_
  · obtain rfl | rfl := by simpa [Stmt.whileRound] using hc
    · rfl
    · rfl
  · simp [Stmt.whileRound] at h

/-- The jumps of a `loop` are right where those of its `continuing` part are: the part stands at the
begin of the list or holds no `if`. -/
theorem aimed_ofLoop : (ofLoop body continuing).Aimed ↔
    body = [] ∨ ∀ st ∈ continuing.getD [], ¬st.IsIf := by
  have part : Stmt.continuingCommands continuing = Stmt.listCommands 0 (continuing.getD []) := by
    cases continuing <;> rfl
  constructor
  · intro aimed
    by_contra h
    obtain ⟨hbody, hif⟩ := not_or.1 h
    push Not at hif
    obtain ⟨st, hst, hif⟩ := hif
    obtain ⟨before, after, hpart⟩ := List.append_of_mem hst
    cases st with
    | ifElse line cond inner rest =>
      let p := (Stmt.listCommands 0 before).length
      have here : (ofLoop body continuing).commands[(Stmt.listCommands 0 body).length + p]? =
          some (.branch line cond (p + 3)) := by
        rw [ofLoop, part, hpart, Stmt.listCommands_append, Stmt.listCommands_cons,
          List.getElem?_append_right (Nat.le_add_right _ _), Nat.add_sub_cancel_left,
          List.getElem?_append_right (Nat.le_refl _), Nat.sub_self, Nat.zero_add]
        rfl
      have there := (aimed.branch _ _ _ _ here).1
      obtain ⟨first, others, rfl⟩ := List.exists_cons_of_ne_nil hbody
      have positive := first.span_pos
      rw [Stmt.length_listCommands, List.map_cons, List.sum_cons] at there
      omega
    | _ => exact hif
  · intro h
    have laid : Stmt.listCommands 0 body ++ Stmt.continuingCommands continuing =
        Stmt.listCommands 0 (body ++ continuing.getD []) := by
      rw [Stmt.listCommands_append, part]
      obtain rfl | h := h
      · rfl
      · rw [Stmt.listCommands_of_not_isIf h (0 + _)]
    rw [ofLoop, laid]
    exact aimed_listCommands _

end CommandRow

/-- A `continuing` part behind the commands of its loop holds no `if`. -/
def Stmt.Level : Stmt → Prop
  | .loop _ body continuing => body = [] ∨ ∀ st ∈ continuing.getD [], ¬st.IsIf
  | _ => True

open CommandRow

mutual

theorem Stmt.aimed_rows : ∀ (st : Stmt) (c : Surroundings),
    (∀ r ∈ st.rows, r.Aimed) ↔ st.Everywhere (fun _ => Stmt.Level) c
  | .ifElse line cond body rest, c => by
    rw [Stmt.rows, List.forall_mem_cons, List.forall_mem_append, Stmt.aimed_listRows body,
      rest.aimed_rows c]
    exact and_congr_left fun _ => iff_of_true (aimed_listCommands body) trivial
  | .forLoop line init cond update body, c => by
    rw [Stmt.rows, List.forall_mem_cons, List.forall_mem_cons, List.forall_mem_cons,
      Stmt.aimed_listRows body]
    exact ⟨fun h => ⟨trivial, h.2.2.2⟩, fun h => ⟨aimed_forHeader line init cond update body,
      aimed_forRound line cond update body, aimed_listCommands body, h.2⟩⟩
  | .whileLoop line cond body, c => by
    rw [Stmt.rows, List.forall_mem_cons, List.forall_mem_cons, Stmt.aimed_listRows body]
    exact ⟨fun h => ⟨trivial, h.2.2⟩, fun h => ⟨aimed_whileRound line cond body,
      aimed_listCommands body, h.2⟩⟩
  | .loop line body continuing, c => by
    rw [Stmt.rows, List.forall_mem_cons, List.forall_mem_append, Stmt.aimed_listRows body,
      Stmt.aimed_partRows continuing, aimed_ofLoop]
    exact Iff.rfl
  | .switch line selector clauses, c => by
    rw [Stmt.rows, SwitchClause.aimed_listRows clauses]
    exact (and_iff_right trivial).symm
  | .block line body, c => by
    rw [Stmt.rows, List.forall_mem_cons, Stmt.aimed_listRows body]
    exact and_congr_left fun _ => iff_of_true (aimed_listCommands body) trivial
  | .simple _, _ | .return_ _ _, _ | .break_ _, _ | .breakIf _ _, _ | .continue_ _, _
  | .discard _, _ | .constAssert _ _, _ => iff_of_true nofun trivial

theorem Stmt.aimed_listRows : ∀ (body : List Stmt) (c : Surroundings),
    (∀ r ∈ Stmt.listRows body, r.Aimed) ↔ Stmt.AllEverywhere (fun _ => Stmt.Level) c body
  | [], _ => iff_of_true nofun trivial
  | st :: rest, c => by
    rw [Stmt.listRows, List.forall_mem_append, st.aimed_rows c, Stmt.aimed_listRows rest c]
    exact Iff.rfl

theorem Stmt.aimed_partRows : ∀ (part : Option (List Stmt)) (c : Surroundings),
    (∀ r ∈ Stmt.partRows part, r.Aimed) ↔ Stmt.PartEverywhere (fun _ => Stmt.Level) c part
  | none, _ => iff_of_true nofun trivial
  | some body, c => Stmt.aimed_listRows body c

theorem ElseChain.aimed_rows : ∀ (rest : ElseChain) (c : Surroundings),
    (∀ r ∈ rest.rows, r.Aimed) ↔ rest.Everywhere (fun _ => Stmt.Level) c
  | .none, _ => iff_of_true nofun trivial
  | .else_ body, c => by
    rw [ElseChain.rows, List.forall_mem_cons, Stmt.aimed_listRows body]
    exact and_iff_right (aimed_listCommands body)
  | .elseIf line cond body rest, c => by
    rw [ElseChain.rows, List.forall_mem_cons, List.forall_mem_append, Stmt.aimed_listRows body,
      rest.aimed_rows c]
    exact and_iff_right (aimed_listCommands body)

theorem SwitchClause.aimed_listRows : ∀ (clauses : List SwitchClause) (c : Surroundings),
    (∀ r ∈ SwitchClause.listRows clauses, r.Aimed) ↔
      SwitchClause.AllEverywhere (fun _ => Stmt.Level) c clauses
  | [], _ => iff_of_true nofun trivial
  | .mk line selectors isDefault body :: rest, c => by
    rw [SwitchClause.listRows, List.forall_mem_cons, List.forall_mem_append,
      Stmt.aimed_listRows body, SwitchClause.aimed_listRows rest c]
    exact and_iff_right (aimed_listCommands body)

end

/-- The rows of a body are the list of its commands and all lists nested in it. The jumps of every
one of them go forward, a branch behind the jump that ends its block and that jump behind its whole
`if`, exactly if no `loop` with statements of its own has an `if` directly in its `continuing`
part. -/
theorem Stmt.jumps_aimed (body : List Stmt) (c : Surroundings) :
    (Stmt.bodyRows body).map CommandRow.commands =
      Stmt.listCommands 0 body :: Command.listLists (Stmt.listCommands 0 body) ∧
    ((∀ r ∈ Stmt.bodyRows body, r.Aimed) ↔ Stmt.AllEverywhere (fun _ => Stmt.Level) c body) := by
  constructor
  · rw [Stmt.bodyRows, List.map_cons, Stmt.commands_listRows body 0, CommandRow.ofBlock]
  · rw [Stmt.bodyRows, List.forall_mem_cons, Stmt.aimed_listRows body c]
    exact and_iff_right (CommandRow.aimed_listCommands body)

/-- In `loop { a(); continuing { if t { } } }` the jump behind the block jumps to itself. -/
theorem Stmt.jumps_astray :
    let act : Stmt := .simple ⟨2, .call (.call ⟨0, 2⟩ "a" [])⟩
    let test : Stmt := .ifElse 4 (.var ⟨0, 4⟩ "t") [] .none
    ∃ l ∈ Command.listLists (Stmt.listCommands 0 [.loop 1 [act] (some [test])]),
      l[3]? = some (.jump 3) :=
  ⟨_, .head _, rfl⟩

end Wgsl
