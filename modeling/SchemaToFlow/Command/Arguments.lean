import SchemaToFlow.Schema.Numeral

/-!
# Command lines

`Invocation.ofWords` reads the words of a command line. A word is a long option (`--indent=4`), a
cluster of short ones (`-qo`), the mark after which nothing is an option (`--`), or a plain word. The
options `--verbose` and `--quiet` may stand on either side of the subcommand, once on each.

The value of an option that stands in a word of its own, and the operands, are checked only when the
next option is met or the words end (`Collected.settle`). A word that cannot stand where it stands is
an error at once, so it is found before a bad value that precedes it.

An `Invocation` is gqlflow's `Cli` and an `Action` one of its `Commands`. gqlflow declares them and
leaves the reading of words to a library; these are the rules of that library as far as the declared
options come under them.

Out of scope: help texts and the texts of usage errors, of which a `UsageError` tells the kind
alone, and colours.
-/

namespace SchemaToFlow.Command

/-- Why a command line cannot be carried out, or what it asks for instead. -/
inductive UsageError where
  /-- Help is asked for. -/
  | help
  /-- The version is asked for. -/
  | version
  /-- There is nothing to read. -/
  | nothingGiven
  /-- There are options, but no subcommand. -/
  | noSubcommand
  /-- A word that is no subcommand where one is expected. -/
  | unknownSubcommand
  /-- An operand is missing. -/
  | missingOperand
  /-- An option that does not exist, an operand too many, or a subcommand in the place of an
  operand. -/
  | unknownArgument
  /-- An option without its value, or an empty path. -/
  | missingValue
  /-- A number that is malformed or too large. -/
  | invalidNumber
  /-- A value for an option that takes none. -/
  | needlessValue
  /-- Two options that exclude each other, or one that is given twice. -/
  | conflict
  deriving DecidableEq, Repr

/-- Options without a value. -/
inductive Switch where
  | verbose
  | quiet
  | stdout
  | inexact
  | noPragma
  | tabs
  | help
  | version
  deriving DecidableEq, Repr

/-- Options with a value. -/
inductive Setting where
  | output
  | indent
  deriving DecidableEq, Repr

/-- An option. -/
inductive Parameter where
  | switch (switch : Switch)
  | setting (setting : Setting)
  deriving DecidableEq, Repr

namespace Parameter

/-- The long name of an option. -/
def long : Parameter → String
  | .switch .verbose => "verbose"
  | .switch .quiet => "quiet"
  | .switch .stdout => "stdout"
  | .switch .inexact => "inexact"
  | .switch .noPragma => "no-pragma"
  | .switch .tabs => "tabs"
  | .switch .help => "help"
  | .switch .version => "version"
  | .setting .output => "output"
  | .setting .indent => "indent"

/-- The letter of an option, if it has one. -/
def short? : Parameter → Option Char
  | .switch .verbose => some 'v'
  | .switch .quiet => some 'q'
  | .switch .help => some 'h'
  | .switch .version => some 'V'
  | .setting .output => some 'o'
  | _ => none

end Parameter

/-- How many operands a command takes. -/
inductive Arity where
  | none
  | one
  | many
  deriving DecidableEq, Repr

/-- The options and operands that a command takes. -/
structure Signature where
  parameters : List Parameter
  arity : Arity
  deriving DecidableEq, Repr

/-- The subcommands. -/
inductive Subcommand where
  | generate
  | check
  | ast
  | version
  deriving DecidableEq, Repr

namespace Subcommand

/-- The name of a subcommand. -/
def name : Subcommand → String
  | .generate => "generate"
  | .check => "check"
  | .ast => "ast"
  | .version => "version"

/-- The subcommand with a name. -/
def ofName? (word : String) : Option Subcommand :=
  [generate, check, ast, version].find? fun c => c.name = word

end Subcommand

/-- Options that may stand on either side of a subcommand, and the request for help. -/
def commonParameters : List Parameter := [.switch .verbose, .switch .quiet, .switch .help]

/-- What may stand before a subcommand. -/
def rootSignature : Signature := ⟨.switch .version :: commonParameters, .none⟩

/-- What may stand after a subcommand. -/
def Subcommand.signature : Subcommand → Signature
  | .generate =>
    ⟨commonParameters ++ [.setting .output, .switch .stdout, .switch .inexact, .switch .noPragma,
      .setting .indent, .switch .tabs], .one⟩
  | .check => ⟨commonParameters, .many⟩
  | .ast => ⟨commonParameters ++ [.switch .inexact], .one⟩
  | .version => ⟨commonParameters, .none⟩

/-! ## Words -/

/-- The form of a word. -/
inductive Word where
  /-- The mark after which nothing is an option. -/
  | escape
  | long (name : String) (value : Option String)
  | cluster (letters : List Char)
  | plain
  deriving DecidableEq, Repr

/-- The form of a word. A dash by itself is a plain word. -/
def Word.of (word : String) : Word :=
  match word.toList with
  | ['-', '-'] => .escape
  | '-' :: '-' :: cs =>
    let name := String.ofList (cs.takeWhile (· ≠ '='))
    match cs.dropWhile (· ≠ '=') with
    | [] => .long name none
    | _ :: value => .long name (some (String.ofList value))
  | '-' :: c :: cs => .cluster (c :: cs)
  | _ => .plain

/-- What is read but not yet checked. -/
inductive Pending where
  | nothing
  /-- An option, and its value as soon as it is read. -/
  | value (setting : Setting) (text : Option String)
  | operands (texts : List String)
  deriving DecidableEq, Repr

/-- What is read of a command's options and operands. -/
structure Collected where
  switches : List Switch := []
  output : Option String := none
  indent : Option Nat := none
  operands : List String := []
  pending : Pending := .nothing
  /-- Whether the mark after which nothing is an option is read. -/
  escaped : Bool := false
  deriving DecidableEq, Repr

/-- A whole number in decimal that fits in 64 bits; a plus sign may stand before it. -/
def readSize? (text : String) : Option Nat :=
  let digits : List Char := match text.toList with
    | '+' :: cs => cs
    | cs => cs
  let n := Schema.Numeral.digitsValue digits
  if digits ≠ [] ∧ digits.all Char.isDigit ∧ n < UInt64.size then some n else none

namespace Collected

/-- Gives an option its value. -/
def assign (c : Collected) : Setting → String → Except UsageError Collected
  | .output, text =>
    if c.output.isSome then .error .conflict
    else if text = "" then .error .missingValue
    else .ok { c with output := some text }
  | .indent, text =>
    if c.indent.isSome then .error .conflict
    else
      match readSize? text with
      | some n => .ok { c with indent := some n }
      | none => .error .invalidNumber

/-- Checks what is read but not yet checked. -/
def settle (c : Collected) : Except UsageError Collected :=
  let settled := { c with pending := .nothing }
  match c.pending with
  | .nothing => .ok settled
  | .value _ none => .error .missingValue
  | .value setting (some text) => settled.assign setting text
  | .operands texts =>
    if "" ∈ texts then .error .missingValue
    else .ok { settled with operands := c.operands ++ texts }

/-- Turns on an option without a value. -/
def turnOn (c : Collected) (switch : Switch) : Except UsageError Collected := do
  let c ← c.settle
  match switch with
  | .help => throw .help
  | .version => throw .version
  | _ =>
    if switch ∈ c.switches then throw .conflict
    else return { c with switches := c.switches ++ [switch] }

/-- Takes an option with the value attached to it, or waits for its value in the next word. -/
def take (c : Collected) (setting : Setting) (attached : Option String) :
    Except UsageError Collected := do
  let c ← c.settle
  match attached with
  | some text => c.assign setting text
  | none => return { c with pending := .value setting none }

/-- Takes a long option. -/
def long (s : Signature) (c : Collected) (name : String) (value : Option String) :
    Except UsageError Collected :=
  match s.parameters.find? fun p => p.long = name with
  | none => .error .unknownArgument
  | some (.switch switch) =>
    if value.isSome then .error .needlessValue else c.turnOn switch
  | some (.setting setting) => c.take setting value

/-- Takes short options. The first one with a value takes the rest of the word as its value, without
an equals sign before it. -/
def cluster (s : Signature) : List Char → Collected → Except UsageError Collected
  | [], c => .ok c
  | letter :: letters, c =>
    match s.parameters.find? fun p => p.short? = some letter with
    | none => .error .unknownArgument
    | some (.switch switch) => do cluster s letters (← c.turnOn switch)
    | some (.setting setting) =>
      c.take setting <|
        match letters with
        | [] => none
        | '=' :: value => some (String.ofList value)
        | value => some (String.ofList value)

/-- Number of operands read, checked or not. -/
def operandCount (c : Collected) : Nat :=
  c.operands.length +
    match c.pending with
    | .operands texts => texts.length
    | _ => 0

/-- Takes an operand. -/
def operand (s : Signature) (c : Collected) (word : String) : Except UsageError Collected :=
  match s.arity, c.pending with
  | .none, _ => .error .unknownArgument
  | .one, _ =>
    if c.operandCount = 0 then do
      return { ← c.settle with pending := .operands [word] }
    else .error .unknownArgument
  | .many, .operands texts => .ok { c with pending := .operands (texts ++ [word]) }
  | .many, _ => do return { ← c.settle with pending := .operands [word] }

/-- Takes a word. -/
def word (s : Signature) (c : Collected) (word : String) : Except UsageError Collected :=
  if c.escaped then c.operand s word
  else
    match Word.of word, c.pending with
    | .escape, _ => .ok { c with escaped := true }
    | .long name value, _ => c.long s name value
    | .cluster letters, _ => cluster s letters c
    | .plain, .value setting none => .ok { c with pending := .value setting (some word) }
    | .plain, _ => c.operand s word

end Collected

/-! ## Invocations -/

/-- What to do. -/
inductive Action where
  | generate (schema : String) (output : Option String) (stdout inexact noPragma : Bool)
      (indent : Nat) (tabs : Bool)
  | check (files : List String)
  | ast (schema : String) (inexact : Bool)
  | version
  deriving DecidableEq, Repr

/-- What to do and how much to say about it. -/
structure Invocation where
  verbose : Bool
  quiet : Bool
  action : Action
  deriving DecidableEq, Repr

/-- What the options and operands after a subcommand ask for. -/
def Collected.toAction (c : Collected) : Subcommand → Except UsageError Action
  | .generate =>
    if c.output.isSome ∧ .stdout ∈ c.switches then .error .conflict
    else
      match c.operands with
      | schema :: _ =>
        .ok (.generate schema c.output (.stdout ∈ c.switches) (.inexact ∈ c.switches)
          (.noPragma ∈ c.switches) (c.indent.getD 2) (.tabs ∈ c.switches))
      | [] => .error .missingOperand
  | .check => if c.operands = [] then .error .missingOperand else .ok (.check c.operands)
  | .ast =>
    match c.operands with
    | schema :: _ => .ok (.ast schema (.inexact ∈ c.switches))
    | [] => .error .missingOperand
  | .version => .ok .version

/-- Whether a word names a subcommand; the request for help is one of them. -/
def namesSubcommand (word : String) : Bool := (Subcommand.ofName? word).isSome || word = "help"

/-- A request for help on the subcommands named: at most one of them. -/
def helpOn : List String → UsageError
  | [] => .help
  | [name] => if namesSubcommand name then .help else .unknownSubcommand
  | _ => .unknownSubcommand

/-- Why a word cannot follow the mark after which nothing is an option, where a subcommand is
expected. The mark makes an operand of the name of a subcommand. -/
def escapedAtRoot (word : String) : UsageError :=
  if namesSubcommand word then .unknownArgument else .unknownSubcommand

/-- Reads the words up to a subcommand, and gives that subcommand and the words after it. -/
def readRoot : List String → Collected →
    Except UsageError (Collected × Subcommand × List String)
  | [], c => .error (if c.switches = [] then .nothingGiven else .noSubcommand)
  | word :: words, c =>
    if c.escaped then .error (escapedAtRoot word)
    else
      match Subcommand.ofName? word with
      | some subcommand => .ok (c, subcommand, words)
      | none =>
        if word = "help" then .error (helpOn words)
        else if Word.of word = .plain then .error .unknownSubcommand
        else do readRoot words (← c.word rootSignature word)

/-- Reads a command line. -/
def Invocation.ofWords (words : List String) : Except UsageError Invocation := do
  let (root, subcommand, rest) ← readRoot words {}
  let c ← rest.foldlM (Collected.word subcommand.signature) {}
  let c ← c.settle
  let action ← c.toAction subcommand
  let given (switch : Switch) : Bool := decide (switch ∈ root.switches ∨ switch ∈ c.switches)
  return ⟨given .verbose, given .quiet, action⟩

end SchemaToFlow.Command
