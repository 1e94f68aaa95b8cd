import Wgsl.Parse.Expr

/-! # What the steps of a parser do

The state behind each step in terms of the state in front of it. A parser is taken apart one bind at a
time: `run_peek` and its like say what the rest of the parser is run on, and `iterate_ok` turns what
one round keeps into what a repetition keeps.
-/

namespace Wgsl
set_option autoImplicit false

/-- The next token, or the end mark. -/
def ParseState.head (s : ParseState) : Token := s.rest.headD s.last

/-- The state with other tokens ahead. -/
def ParseState.withRest (s : ParseState) (rest : List Token) : ParseState := { s with rest }

namespace Parser

variable {α β : Type} {s : ParseState}

/-! ## One step -/

theorem bind_ok {x : Parser α} {f : α → Parser β} {r : β × ParseState}
    (h : (x >>= f).run s = .ok r) : ∃ a s', x.run s = .ok (a, s') ∧ (f a).run s' = .ok r := by
  rw [StateT.run_bind] at h
  cases hx : x.run s with
  | error _ =>
    rw [hx] at h
    cases h
  | ok p =>
    rw [hx] at h
    exact ⟨p.1, p.2, rfl, h⟩

theorem run_bind_of {x : Parser α} {a : α} {s' : ParseState} (h : x.run s = .ok (a, s'))
    (f : α → Parser β) : (x >>= f).run s = (f a).run s' := by
  rw [StateT.run_bind, h]
  rfl

theorem run_peek (f : Token → Parser β) : (peek >>= f).run s = (f s.head).run s := rfl

theorem run_peekKind (f : TokenKind → Parser β) :
    (peekKind >>= f).run s = (f s.head.kind).run s := rfl

theorem run_peekSecond (f : Token → Parser β) :
    (peekSecond >>= f).run s = (f (s.withRest s.rest.tail).head).run s := rfl

theorem run_advance (f : Token → Parser β) :
    (advance >>= f).run s = (f s.head).run (s.withRest s.rest.tail) := rfl

theorem run_check (kind : TokenKind) (f : Bool → Parser β) :
    (check kind >>= f).run s = (f (decide (s.head.kind = kind))).run s := rfl

theorem run_accept (kind : TokenKind) (f : Bool → Parser β) :
    (accept kind >>= f).run s =
      if s.head.kind = kind then (f true).run (s.withRest s.rest.tail) else (f false).run s := by
  rw [accept, bind_assoc, run_check]
  split
  · rename_i h
    rw [if_pos (of_decide_eq_true h)]
    rfl
  · rename_i h
    rw [if_neg (fun e => h (decide_eq_true e))]
    rfl

theorem run_expect (kind : TokenKind) (purpose : String) (f : Token → Parser β) :
    (expect kind purpose >>= f).run s =
      if s.head.kind = kind then (f s.head).run (s.withRest s.rest.tail)
      else .error (.parse (.expectedToken kind purpose s.head.kind) s.head.line s.head.lexeme) := by
  rw [expect, bind_assoc, run_peek]
  split <;> rfl

theorem run_identifier (f : String → Parser β) :
    (identifier >>= f).run s =
      if s.head.kind = .identifier then (f s.head.lexeme).run (s.withRest s.rest.tail)
      else .error (.parse .expectedIdentifier s.head.line s.head.lexeme) := by
  rw [identifier, bind_assoc, run_peek]
  split <;> rfl

theorem run_freshMark (line : Nat) (f : Mark → Parser β) :
    (freshMark line >>= f).run s = (f ⟨s.nextId, line⟩).run { s with nextId := s.nextId + 1 } := rfl

theorem run_fresh (f : NodeId → Parser β) :
    (fresh >>= f).run s = (f s.nextId).run { s with nextId := s.nextId + 1 } := rfl

theorem run_get (f : ParseState → Parser β) : (get >>= f).run s = (f s).run s := rfl

theorem run_loop (init : α) (step : α → Parser (Step α)) :
    (loop init step).run s = (iterate step s.budget init).run s := rfl

theorem run_depthAhead (f : Nat → Parser β) :
    (depthAhead >>= f).run s = (f (2 * s.budget)).run s := rfl

theorem run_map (g : α → β) (x : Parser α) :
    (g <$> x).run s = (x.run s).map fun p => (g p.1, p.2) := by
  rw [StateT.run_map]
  cases x.run s <;> rfl

/-! ## Repetition -/

theorem iterate_done {step : α → Parser (Step α)} {n : Nat} {a b : α} {s' : ParseState}
    (h : (step a).run s = .ok (.done b, s')) :
    (iterate step (n + 1) a).run s = .ok (b, s') := by
  rw [iterate, run_bind_of h]
  rfl

theorem iterate_next {step : α → Parser (Step α)} {n : Nat} {a b : α} {s' : ParseState}
    (h : (step a).run s = .ok (.next b, s')) :
    (iterate step (n + 1) a).run s = (iterate step n b).run s' := by
  rw [iterate, run_bind_of h]

/-- What every round keeps holds when a repetition is over. -/
theorem iterate_ok {step : α → Parser (Step α)} (Inv Post : α → ParseState → Prop)
    (hdone : ∀ a s b s', Inv a s → (step a).run s = .ok (.done b, s') → Post b s')
    (hnext : ∀ a s b s', Inv a s → (step a).run s = .ok (.next b, s') → Inv b s') :
    ∀ n a s b s', Inv a s → (iterate step n a).run s = .ok (b, s') → Post b s' := by
  intro n
  induction n with
  | zero =>
    intro a s b s' _ h
    cases h
  | succ n ih =>
    intro a s b s' hinv h
    obtain ⟨r, s1, hr, h⟩ := bind_ok h
    cases r with
    | done c =>
      cases h
      exact hdone a s b s' hinv hr
    | next c => exact ih c s1 b s' (hnext a s c s1 hinv hr) h

end Parser

end Wgsl
