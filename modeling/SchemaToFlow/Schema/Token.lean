import SchemaToFlow.Text.Span

/-!
# Tokens of the schema language

A `Token` is a stretch of schema text together with what it stands for, its `TokenKind`. Keywords are
kinds of their own, yet each of them may serve as a name wherever a name is expected
(`TokenKind.isName`).

gqlflow's `TokenKind` is `Keyword`, `Punctuator` and `TokenKind` here: `ofSpelling?` is
`from_keyword`, and `isKeyword`, `isName` and `describe` are `is_keyword`, `is_name` and `as_str`. A
token holds the text it covers, which gqlflow's `Token` leaves in the source.

Out of scope: the 32 bits that an offset has in gqlflow. `Schema/Scanner.lean` has them.
-/

namespace SchemaToFlow.Schema

open Text

/-- Words with a meaning of their own in some place of a schema. -/
inductive Keyword where
  | type
  | interface
  | union
  | enum
  | input
  | scalar
  | schema
  | extend
  | implements
  | directive
  | onLocation
  | repeatable
  | query
  | mutation
  | subscription
  | trueValue
  | falseValue
  | nullValue
  deriving DecidableEq, Repr

namespace Keyword

/-- The word as it is written. -/
def spelling : Keyword → String
  | .type => "type"
  | .interface => "interface"
  | .union => "union"
  | .enum => "enum"
  | .input => "input"
  | .scalar => "scalar"
  | .schema => "schema"
  | .extend => "extend"
  | .implements => "implements"
  | .directive => "directive"
  | .onLocation => "on"
  | .repeatable => "repeatable"
  | .query => "query"
  | .mutation => "mutation"
  | .subscription => "subscription"
  | .trueValue => "true"
  | .falseValue => "false"
  | .nullValue => "null"

/-- Every keyword. -/
def all : List Keyword :=
  [.type, .interface, .union, .enum, .input, .scalar, .schema, .extend, .implements, .directive,
    .onLocation, .repeatable, .query, .mutation, .subscription, .trueValue, .falseValue, .nullValue]

/-- The keyword written as `word`, if there is one. -/
def ofSpelling? (word : String) : Option Keyword := all.find? fun k => k.spelling = word

end Keyword

/-- Punctuation marks. -/
inductive Punctuator where
  | braceOpen
  | braceClose
  | parenOpen
  | parenClose
  | bracketOpen
  | bracketClose
  | colon
  | equals
  | pipe
  | ampersand
  | atSign
  | bang
  deriving DecidableEq, Repr

namespace Punctuator

/-- The mark as it is written. -/
def char : Punctuator → Char
  | .braceOpen => '\x7b'
  | .braceClose => '\x7d'
  | .parenOpen => '('
  | .parenClose => ')'
  | .bracketOpen => '['
  | .bracketClose => ']'
  | .colon => ':'
  | .equals => '='
  | .pipe => '|'
  | .ampersand => '&'
  | .atSign => '@'
  | .bang => '!'

/-- Every mark. -/
def all : List Punctuator :=
  [.braceOpen, .braceClose, .parenOpen, .parenClose, .bracketOpen, .bracketClose, .colon, .equals,
    .pipe, .ampersand, .atSign, .bang]

/-- The mark written as `c`, if there is one. -/
def ofChar? (c : Char) : Option Punctuator := all.find? fun p => p.char = c

end Punctuator

/-- What a token stands for. -/
inductive TokenKind where
  | endOfInput
  /-- Text that is no token of the language. -/
  | invalid
  /-- A name that is no keyword. -/
  | name
  | int
  | float
  | string
  | blockString
  | keyword (word : Keyword)
  | punct (mark : Punctuator)
  deriving DecidableEq, Repr

namespace TokenKind

/-- Whether the token is a keyword. -/
def isKeyword : TokenKind → Bool
  | .keyword _ => true
  | _ => false

/-- Whether the token can serve as a name: keywords can. -/
def isName (k : TokenKind) : Bool := k.isKeyword || decide (k = .name)

/-- How messages call a token of this kind. -/
def describe : TokenKind → String
  | .endOfInput => "<eof>"
  | .invalid => "<error>"
  | .name => "<name>"
  | .int => "<int>"
  | .float => "<float>"
  | .string => "<string>"
  | .blockString => "<block-string>"
  | .keyword word => word.spelling
  | .punct mark => String.singleton mark.char

end TokenKind

/-- A stretch of schema text and what it stands for. -/
structure Token where
  kind : TokenKind
  span : Span
  text : String
  deriving DecidableEq, Repr

namespace Token

/-- The mark that follows the last token: no text, at the offset where the source ends. -/
def endAt (offset : Nat) : Token := ⟨.endOfInput, .emptyAt offset, ""⟩

/-- The text of a string or block-string token without its quotes, as written. -/
def body (t : Token) : String :=
  let quotes := if t.kind = .blockString then 3 else 1
  let chars := t.text.toList
  String.ofList ((chars.drop quotes).take (chars.length - 2 * quotes))

end Token

end SchemaToFlow.Schema
