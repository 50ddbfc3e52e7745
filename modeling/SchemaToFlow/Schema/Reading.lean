import SchemaToFlow.Diagnostic
import SchemaToFlow.NameTable
import SchemaToFlow.Schema.Document
import SchemaToFlow.Schema.Lexeme

/-!
# Reading tokens

A `Reader` takes tokens from the front of a list, numbers names and reports what it finds wrong. It
never fails: after a finding it goes on with what is left. `State` is what it works on; the end of
the text is an empty list of tokens, and `State.current` shows the end mark there.

`many go step` runs `step` as long as `go` holds. It makes at most as many rounds as there are tokens
left, which is no bound at all for a step that takes at least one.

A reader is a method of gqlflow's `Parser`: `advance`, `accept`, `expect`, `spanFrom`, `flag`,
`expected`, `skipOffending`, `name`, `typeName` and `description?` are `advance`, `eat`, `expect`,
`span_from`, `error`, `error_expected`, `skip_offending`, `parse_name`, `parse_named_type` and
`try_parse_description`. `Parser` asks for one token after the other, where a reader has them all
from the start.

Out of scope: offsets of 32 bits, and how deep the stack of a process lets readers nest.
-/

namespace SchemaToFlow.Schema

open Text

/-- What a reader works on. -/
structure State where
  /-- The tokens not yet taken. -/
  rest : List Token
  /-- The offset where the text ends. -/
  finish : Nat
  /-- Where the last token taken ends. -/
  lastStop : Nat := 0
  names : NameTable := .initial
  report : Report := .empty
  deriving Repr

namespace State

/-- The state before the first token of a text. -/
def start (source : String) : State where
  rest := (Cursor.start source.toList).tokens
  finish := byteLength source.toList

/-- Whether every token is taken. -/
def atEnd (s : State) : Bool := s.rest.isEmpty

/-- The next token, which is the end mark when all are taken. -/
def current (s : State) : Token := s.rest.headD (.endAt s.finish)

/-- Whether the next token is of the given kind. -/
def sees (s : State) (kind : TokenKind) : Bool := decide (s.current.kind = kind)

/-- Whether there is a next token and its kind is none of `stops`. -/
def before (stops : List TokenKind) (s : State) : Bool :=
  !s.atEnd && decide (s.current.kind ∉ stops)

/-- Takes the next token. -/
def advance (s : State) : State :=
  { s with rest := s.rest.tail, lastStop := s.current.span.stop }

end State

/-- Takes tokens and gives a result. -/
def Reader (α : Type) : Type := State → α × State

namespace Reader

variable {α β : Type}

instance : Monad Reader where
  pure a := fun s => (a, s)
  bind r f := fun s => f (r s).1 (r s).2

@[simp] theorem pure_apply (a : α) (s : State) : (pure a : Reader α) s = (a, s) := rfl

@[simp] theorem bind_apply (r : Reader α) (f : α → Reader β) (s : State) :
    (r >>= f) s = f (r s).1 (r s).2 := rfl

@[simp] theorem map_apply (f : α → β) (r : Reader α) (s : State) :
    (f <$> r) s = (f (r s).1, (r s).2) := rfl

/-- The next token, left in place. -/
def peek : Reader Token := fun s => (s.current, s)

/-- Takes the next token. -/
def advance : Reader Unit := fun s => ((), s.advance)

/-- Takes the next token if it is of the given kind, and tells whether it was. -/
def accept (kind : TokenKind) : Reader Bool := fun s =>
  if s.sees kind then (true, s.advance) else (false, s)

/-- The number of a name. -/
def intern (name : String) : Reader NameId := fun s =>
  ((s.names.intern name).1, { s with names := (s.names.intern name).2 })

/-- From `start` to the end of the last token taken. -/
def spanFrom (start : Nat) : Reader Span := fun s => (⟨start, max s.lastStop start⟩, s)

/-- Reports a finding about the next token. -/
def flag (severity : Severity) (code title message : String) : Reader Unit := fun s =>
  ((), { s with
    report := s.report.add (.located severity code title s.current.span message) })

/-- Reports that something else should stand where the next token stands. -/
def expected (what : String) : Reader Unit := fun s =>
  if s.atEnd then
    flag .error Diagnostic.unexpectedEnd "unexpected token"
      ("expected " ++ what ++ ", found end of input") s
  else
    flag .error Diagnostic.unexpectedToken "unexpected token"
      ("expected " ++ what ++ ", found `" ++ s.current.text ++ "`") s

/-- Takes the next token if it is of the given kind, and reports it otherwise. -/
def expect (kind : TokenKind) : Reader Unit := do
  unless ← accept kind do
    expected kind.describe

/-- Takes a token that fits nowhere, so that reading goes on after it. A closing brace stays, because
it ends whatever is being read. -/
def skipOffending : Reader Unit := fun s =>
  if s.before [.punct .braceClose] then ((), s.advance) else ((), s)

/-- Runs `step` as long as `go` holds, but at most `n` times. -/
def manyUpTo (go : State → Bool) (step : Reader α) : Nat → Reader (List α)
  | 0 => pure []
  | n + 1 => fun s =>
    if go s then (do return (← step) :: (← manyUpTo go step n)) s
    else ([], s)

/-- Runs `step` as long as `go` holds; each run is to take a token at least. -/
def many (go : State → Bool) (step : Reader α) : Reader (List α) := fun s =>
  manyUpTo go step s.rest.length s

/-! ## Names and descriptions -/

/-- A name. If there is none, what stands in its place is reported and skipped, and the empty name
takes its place. -/
def name : Reader Name := do
  let t ← peek
  if t.kind.isName then
    let id ← intern t.text
    advance
    return ⟨id, t.span⟩
  else
    expected "name"
    skipOffending
    return ⟨← intern "", t.span⟩

/-- The name of a type. If there is none, this is reported and an empty name stands there instead;
nothing is skipped. -/
def typeName : Reader Name := do
  let t ← peek
  if t.kind.isName then
    let id ← intern t.text
    advance
    return ⟨id, t.span⟩
  else
    expected "type name"
    return ⟨← intern "", .emptyAt t.span.start⟩

/-- A description, if the next token is one. -/
def description? : Reader (Option Description) := do
  let t ← peek
  if t.kind = .string ∨ t.kind = .blockString then
    advance
    return some ⟨t.body, t.span⟩
  else
    return none

end Reader

end SchemaToFlow.Schema
