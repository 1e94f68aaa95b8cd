import Wgsl.Const
import Wgsl.Tree.Program

/-! # Reading tokens one after another

The state of a parse: the tokens ahead, the number of the next node, and the tables of what has been
declared so far. The end mark is never consumed, so looking ahead always finds a token.

Repetitions go through `loop`, whose budget is more than the number of tokens: a step that asks for
another round has taken at least one token.
-/

namespace Wgsl
set_option autoImplicit false

/-- What has been declared so far. An array count that does not fold where it stands is noted in
`deferred` with the number of its type, to be folded again at the end. -/
structure ParseContext where
  constants : Table Expr := []
  aliases : Table TypeExpr := []
  structs : Table StructDecl := []
  deferred : List (NodeId × Expr) := []
  deriving Inhabited

/-- Whether a name has been declared as a type. -/
def ParseContext.isTypeName (c : ParseContext) (name : String) : Bool :=
  c.structs.has name || c.aliases.has name

structure ParseState where
  /-- The tokens ahead, without the end mark. -/
  rest : List Token
  /-- The end mark. -/
  last : Token
  /-- More than the number of tokens ahead, by which repetition and nesting are bounded. -/
  budget : Nat := rest.length + 1
  nextId : NodeId := 0
  context : ParseContext := {}

/-- The state before the first token. What follows the first end mark is out of reach, and a list
without one gets an end mark on its last line. -/
def ParseState.ofTokens (tokens : List Token) : ParseState :=
  let rest := tokens.takeWhile fun t => t.kind ≠ .eof
  let last := match tokens.find? fun t => t.kind = .eof with
    | some t => t
    | none => ⟨.eof, "", (tokens.getLast?.map Token.line).getD 1⟩
  { rest, last }

/-- A parser reads tokens and gives a result, or fails. -/
abbrev Parser := StateT ParseState (Except Fault)

namespace Parser

/-- The next token. -/
def peek : Parser Token := do
  let s ← get
  return s.rest.headD s.last

/-- The kind of the next token. -/
def peekKind : Parser TokenKind := return (← peek).kind

/-- The token after the next one. -/
def peekSecond : Parser Token := do
  let s ← get
  return s.rest.tail.headD s.last

/-- Takes the next token; at the end the end mark is given and stays. -/
def advance : Parser Token := do
  let t ← peek
  modify fun s => { s with rest := s.rest.tail }
  return t

/-- Whether the next token is of the kind. -/
def check (kind : TokenKind) : Parser Bool := return (← peekKind) = kind

/-- Whether no token is left. -/
def atEnd : Parser Bool := check .eof

/-- Takes the next token if it is of the kind. -/
def accept (kind : TokenKind) : Parser Bool := do
  if ← check kind then
    let _ ← advance
    return true
  else return false

/-- Fails at a token. -/
def failAt {α : Type} (t : Token) (cause : ParseCause) : Parser α :=
  throw (.parse cause t.line t.lexeme)

/-- Fails at the next token. -/
def failHere {α : Type} (cause : ParseCause) : Parser α := do failAt (← peek) cause

/-- Takes a token of the kind, or fails naming its purpose. -/
def expect (kind : TokenKind) (purpose : String) : Parser Token := do
  let t ← peek
  if t.kind = kind then advance else failAt t (.expectedToken kind purpose t.kind)

/-- Takes an identifier. -/
def identifier : Parser String := do
  let t ← peek
  if t.kind = .identifier then return (← advance).lexeme else failAt t .expectedIdentifier

/-- The number of a new node. -/
def fresh : Parser NodeId := do
  let s ← get
  set { s with nextId := s.nextId + 1 }
  return s.nextId

/-- Number and line of a new expression. -/
def freshMark (line : Nat) : Parser Mark := return ⟨← fresh, line⟩

/-- Changes the tables. -/
def modifyContext (f : ParseContext → ParseContext) : Parser Unit :=
  modify fun s => { s with context := f s.context }

/-- Whether a repetition is over or goes on from a new value. -/
inductive Step (α : Type) where
  | done (value : α)
  | next (value : α)

/-- Repeats a step at most `budget` times. -/
def iterate {α : Type} (step : α → Parser (Step α)) : Nat → α → Parser α
  | 0, _ => failHere .nestedTooDeep
  | budget + 1, value => do
    match ← step value with
    | .done result => return result
    | .next value => iterate step budget value

/-- Repeats a step that takes at least one token whenever it goes on. -/
def loop {α : Type} (init : α) (step : α → Parser (Step α)) : Parser α := do
  iterate step (← get).budget init

/-- Items up to a closing token, each followed by a comma unless it is the last. -/
def commaList {α : Type} (close : TokenKind) (item : Parser α) : Parser (List α) :=
  List.reverse <$> loop [] fun items => do
    if ← check close then return .done items
    let x ← item
    if ← accept .comma then return .next (x :: items) else return .done (x :: items)

end Parser

end Wgsl
