import Mathlib.Algebra.BigOperators.Group.List.Basic
import SchemaToFlow.Proofs.Direct

/-!
# Writing a document

A document is written as a row of words, each the kind and the text of a token, and the words are
set apart by blanks. Parts that are empty are left out; ampersands stand between interfaces, bars
between the members of a union and between locations.

* `Document.words` are the words of a document, and `Document.write` is its text. A `Pen` chooses
  the blanks after each word, and between ordinary and block quotes for each text.
* `Document.writable` tells which documents can be written: names are names of the language, no type
  excludes null twice, whole numbers fit in 64 bits, a constant given by a name is none of `true`,
  `false` and `null`, every text fits between quotes of one kind or the other, every directive has a
  location, and there are no floating-point numbers.
-/

namespace SchemaToFlow.Schema

/-! ## Words -/

/-- What a token is, apart from its place. -/
abbrev Word := TokenKind × String

namespace Word

/-- A name, which is a keyword if it is spelled like one. -/
def ofName (n : String) : Word := (((Keyword.ofSpelling? n).map .keyword).getD .name, n)

/-- A punctuation mark. -/
def mark (p : Punctuator) : Word := (.punct p, String.singleton p.char)

/-- A keyword. -/
def keyword (k : Keyword) : Word := (.keyword k, k.spelling)

/-- A whole number. -/
def int (v : Int) : Word := (.int, toString v)

end Word

/-- Whether a text is a name of the language. Keywords are. -/
def isName (n : String) : Bool :=
  match n.toList with
  | [] => false
  | c :: cs => isNameStart c && cs.all isNamePart

theorem isNamePart_of_isNameStart {c : Char} (h : isNameStart c = true) : isNamePart c = true := by
  simp only [isNameStart, isNamePart, Char.isAlphanum, Bool.or_eq_true] at h ⊢
  exact h.imp_left .inl

theorem exists_cons_of_isName {n : String} (h : isName n = true) :
    ∃ c cs, n.toList = c :: cs ∧ isNameStart c = true ∧ ∀ d ∈ n.toList, isNamePart d = true := by
  unfold isName at h
  cases hn : n.toList with
  | nil =>
    rw [hn] at h
    cases h
  | cons c cs =>
    rw [hn] at h
    obtain ⟨hstart, hparts⟩ := Bool.and_eq_true_iff.1 h
    exact ⟨c, cs, rfl, hstart,
      List.forall_mem_cons.2 ⟨isNamePart_of_isNameStart hstart, List.all_eq_true.1 hparts⟩⟩

/-- The quotes around a text. -/
inductive Quoting where
  | ordinary
  | block
  deriving DecidableEq, Repr

namespace Quoting

/-- What stands before the text and after it. -/
def marks : Quoting → List Char
  | .ordinary => ['"']
  | .block => ['"', '"', '"']

/-- The kind of token that the quotes make. -/
def kind : Quoting → TokenKind
  | .ordinary => .string
  | .block => .blockString

/-- A text in its quotes. -/
def literal (q : Quoting) (body : String) : List Char := q.marks ++ body.toList ++ q.marks

/-- Whether a text in its quotes is read as one token, from the first quote to the last. -/
def fits (q : Quoting) (body : String) : Bool :=
  lexeme '"' (q.literal body).tail = (q.kind, (q.literal body).tail.length)

/-- The word of a text in quotes. -/
def word (q : Quoting) (body : String) : Word := (q.kind, String.ofList (q.literal body))

end Quoting

/-- Whether a text is the body of some literal. -/
def quotable (body : String) : Bool := Quoting.ordinary.fits body || Quoting.block.fits body

theorem length_le_length_flatMap {α β : Type} {f : α → List β} {xs : List α}
    (h : ∀ x ∈ xs, f x ≠ []) : xs.length ≤ (xs.flatMap f).length := by
  have hlengths := List.length_le_sum_of_one_le (xs.map fun x => (f x).length)
    (List.forall_mem_map.2 fun x hx => List.length_pos_iff.2 (h x hx))
  rwa [List.length_map, ← List.length_flatMap] at hlengths

/-- Words set apart by a mark. -/
def separated (p : Punctuator) : List Word → List Word
  | [] => []
  | w :: ws => w :: ws.flatMap fun v => [.mark p, v]

/-- Parts between an opening and a closing mark; without parts there are no marks. -/
def enclosed {α : Type} (o c : Punctuator) (word : α → List Word) : List α → List Word
  | [] => []
  | as => .mark o :: (as.flatMap word ++ [.mark c])

/-- Words after an introduction, which is left out if there are none. -/
def introduced (intro : Word) : List Word → List Word
  | [] => []
  | ws => intro :: ws

/-- The keyword of an operation. -/
def Operation.keyword : Operation → Keyword
  | .query => .query
  | .mutation => .mutation
  | .subscription => .subscription

/-! ## The words of a document -/

section Words

variable (names : NameTable) (quoting : String → Quoting)

/-- The word of a name given by its number. -/
def nameWord (id : NameId) : Word := .ofName (names.text id)

/-- The word of a text. -/
def textWord (body : String) : Word := (quoting body).word body

/-- The words of a description, if there is one. -/
def descriptionWords : Option Description → List Word
  | none => []
  | some d => [textWord quoting d.value]

/-- The words of a type. -/
def TypeRef.words : TypeRef → List Word
  | .named name => [nameWord names name.id]
  | .list item _ => .mark .bracketOpen :: (item.words ++ [.mark .bracketClose])
  | .nonNull inner _ => inner.words ++ [.mark .bang]

mutual

/-- The words of a constant; a floating-point number has none. -/
def Value.words : Value → List Word
  | .int v _ => [.int v]
  | .float _ _ => []
  | .string body _ => [textWord quoting body]
  | .boolean true _ => [.keyword .trueValue]
  | .boolean false _ => [.keyword .falseValue]
  | .null _ => [.keyword .nullValue]
  | .enum id _ => [nameWord names id]
  | .list items _ => .mark .bracketOpen :: (Value.wordsOfItems items ++ [.mark .bracketClose])
  | .object fields _ => .mark .braceOpen :: (Value.wordsOfFields fields ++ [.mark .braceClose])

/-- The words of constants. -/
def Value.wordsOfItems : List Value → List Word
  | [] => []
  | item :: items => item.words ++ Value.wordsOfItems items

/-- The words of the fields of a constant. -/
def Value.wordsOfFields : List (NameId × Value) → List Word
  | [] => []
  | (id, value) :: fields =>
    (nameWord names id :: .mark .colon :: value.words) ++ Value.wordsOfFields fields

end

/-- The words of a named value handed to a directive. -/
def Argument.words (a : Argument) : List Word :=
  nameWord names a.name.id :: .mark .colon :: a.value.words names quoting

/-- The words of a use of a directive. -/
def Directive.words (d : Directive) : List Word :=
  .mark .atSign :: nameWord names d.name.id ::
    enclosed .parenOpen .parenClose (Argument.words names quoting) d.arguments

/-- The words of uses of directives. -/
def directivesWords (ds : List Directive) : List Word := ds.flatMap (Directive.words names quoting)

/-- The words of the constant that an input value has without being given one. -/
def defaultWords (v : Option Value) : List Word :=
  introduced (.mark .equals) (v.toList.flatMap (Value.words names quoting))

/-- The words of an input value. -/
def InputValue.words (v : InputValue) : List Word :=
  descriptionWords quoting v.description ++
    (nameWord names v.name.id :: .mark .colon :: (v.type.words names ++
      (defaultWords names quoting v.default? ++ directivesWords names quoting v.directives)))

/-- The words of the arguments of a field or a directive. -/
def argumentWords (vs : List InputValue) : List Word :=
  enclosed .parenOpen .parenClose (InputValue.words names quoting) vs

/-- The words of a field. -/
def Field.words (f : Field) : List Word :=
  descriptionWords quoting f.description ++
    (nameWord names f.name.id :: (argumentWords names quoting f.arguments ++
      (.mark .colon :: (f.type.words names ++ directivesWords names quoting f.directives))))

/-- The words of the interfaces that a type implements. -/
def interfaceWords (ns : List Name) : List Word :=
  introduced (.keyword .implements) (separated .ampersand (ns.map fun n => nameWord names n.id))

/-- The words of the members of a union. -/
def memberWords (ns : List Name) : List Word :=
  introduced (.mark .equals) (separated .pipe (ns.map fun n => nameWord names n.id))

/-- The words of an entry point. -/
def RootOperation.words (o : RootOperation) : List Word :=
  [.keyword o.operation.keyword, .mark .colon, nameWord names o.type.id]

/-- The words of a value of an enumeration. -/
def EnumValue.words (v : EnumValue) : List Word :=
  descriptionWords quoting v.description ++
    (nameWord names v.name.id :: directivesWords names quoting v.directives)

/-- The words of an object or interface type after its keyword. -/
def FieldsDefinition.words (d : FieldsDefinition) : List Word :=
  nameWord names d.name.id :: (interfaceWords names d.interfaces ++
    (directivesWords names quoting d.directives ++
      enclosed .braceOpen .braceClose (Field.words names quoting) d.fields))

/-- The words of a directive's places. -/
def locationWords (ls : List Location) : List Word :=
  separated .pipe (ls.map fun l => .ofName l.spelling)

/-- The words of a definition without its description. -/
def Definition.bareWords : Definition → List Word
  | .schema d =>
    .keyword .schema :: (directivesWords names quoting d.directives ++
      (.mark .braceOpen :: (d.operations.flatMap (RootOperation.words names) ++
        [.mark .braceClose])))
  | .object d => .keyword .type :: d.words names quoting
  | .interface d => .keyword .interface :: d.words names quoting
  | .union d =>
    .keyword .union :: nameWord names d.name.id ::
      (directivesWords names quoting d.directives ++ memberWords names d.members)
  | .enum d =>
    .keyword .enum :: nameWord names d.name.id :: (directivesWords names quoting d.directives ++
      enclosed .braceOpen .braceClose (EnumValue.words names quoting) d.values)
  | .input d =>
    .keyword .input :: nameWord names d.name.id :: (directivesWords names quoting d.directives ++
      enclosed .braceOpen .braceClose (InputValue.words names quoting) d.fields)
  | .scalar d =>
    .keyword .scalar :: nameWord names d.name.id :: directivesWords names quoting d.directives
  | .directive d =>
    .keyword .directive :: .mark .atSign :: nameWord names d.name.id ::
      (argumentWords names quoting d.arguments ++
        ((if d.repeatable then [.keyword .repeatable] else []) ++
          (.keyword .onLocation :: locationWords d.locations)))

/-- The description of a definition. -/
def Definition.description : Definition → Option Description
  | .schema d => d.description
  | .object d => d.description
  | .interface d => d.description
  | .union d => d.description
  | .enum d => d.description
  | .input d => d.description
  | .scalar d => d.description
  | .directive d => d.description

/-- The words of a definition. -/
def Definition.words (x : Definition) : List Word :=
  descriptionWords quoting x.description ++ x.bareWords names quoting

/-- The words of a document. -/
def Document.words (d : Document) : List Word :=
  d.definitions.flatMap (Definition.words names quoting)

end Words

/-! ## Which documents can be written -/

section Writable

variable (names : NameTable)

/-- A name that can be written. -/
def Name.writable (n : Name) : Bool := isName (names.text n.id)

/-- A description that can be written. -/
def Description.writable (d : Description) : Bool := quotable d.value

/-- A type that can be written. -/
def TypeRef.writable : TypeRef → Bool
  | .named name => name.writable names
  | .list item _ => item.writable
  | .nonNull inner _ => !inner.isNonNull && inner.writable

mutual

/-- A constant that can be written. -/
def Value.writable : Value → Bool
  | .int v _ => decide (Int64.minValue.toInt ≤ v ∧ v ≤ Int64.maxValue.toInt)
  | .float _ _ => false
  | .string body _ => quotable body
  | .boolean _ _ => true
  | .null _ => true
  | .enum id _ => isName (names.text id) && decide (names.text id ∉ ["true", "false", "null"])
  | .list items _ => Value.writableItems items
  | .object fields _ => Value.writableFields fields

/-- Constants that can be written. -/
def Value.writableItems : List Value → Bool
  | [] => true
  | item :: items => item.writable && Value.writableItems items

/-- Fields of a constant that can be written. -/
def Value.writableFields : List (NameId × Value) → Bool
  | [] => true
  | (id, value) :: fields =>
    isName (names.text id) && value.writable && Value.writableFields fields

end

/-- A named value that can be written. -/
def Argument.writable (a : Argument) : Bool := a.name.writable names && a.value.writable names

/-- A use of a directive that can be written. -/
def Directive.writable (d : Directive) : Bool :=
  d.name.writable names && d.arguments.all (Argument.writable names)

/-- An input value that can be written. -/
def InputValue.writable (v : InputValue) : Bool :=
  v.description.all Description.writable && v.name.writable names && v.type.writable names &&
    v.default?.all (Value.writable names) && v.directives.all (Directive.writable names)

/-- A field that can be written. -/
def Field.writable (f : Field) : Bool :=
  f.description.all Description.writable && f.name.writable names &&
    f.arguments.all (InputValue.writable names) && f.type.writable names &&
    f.directives.all (Directive.writable names)

/-- A value of an enumeration that can be written. -/
def EnumValue.writable (v : EnumValue) : Bool :=
  v.description.all Description.writable && v.name.writable names &&
    v.directives.all (Directive.writable names)

/-- An object or interface type that can be written. -/
def FieldsDefinition.writable (d : FieldsDefinition) : Bool :=
  d.name.writable names && d.interfaces.all (Name.writable names) &&
    d.directives.all (Directive.writable names) && d.fields.all (Field.writable names)

/-- A definition that can be written, apart from its description. -/
def Definition.bareWritable : Definition → Bool
  | .schema d =>
    d.directives.all (Directive.writable names) && d.operations.all fun o => o.type.writable names
  | .object d => d.writable names
  | .interface d => d.writable names
  | .union d =>
    d.name.writable names && d.directives.all (Directive.writable names) &&
      d.members.all (Name.writable names)
  | .enum d =>
    d.name.writable names && d.directives.all (Directive.writable names) &&
      d.values.all (EnumValue.writable names)
  | .input d =>
    d.name.writable names && d.directives.all (Directive.writable names) &&
      d.fields.all (InputValue.writable names)
  | .scalar d => d.name.writable names && d.directives.all (Directive.writable names)
  | .directive d =>
    d.name.writable names && d.arguments.all (InputValue.writable names) && !d.locations.isEmpty

/-- A definition that can be written. -/
def Definition.writable (x : Definition) : Bool :=
  x.description.all Description.writable && x.bareWritable names

/-- A document that can be written. -/
def Document.writable (d : Document) : Bool := d.definitions.all (Definition.writable names)

end Writable

/-! ## Text -/

/-- What is left to choose in writing: the blanks after each word, the quotes around each text. -/
structure Pen where
  gap : Nat → List Char
  gap_ne : ∀ i, gap i ≠ []
  gap_blank : ∀ i, ∀ c ∈ gap i, isBlank c
  quoting : String → Quoting
  quoting_fits : ∀ body, quotable body → (quoting body).fits body

namespace Pen

/-- Sets words apart by blanks, and uses ordinary quotes where they fit. -/
def plain : Pen where
  gap _ := [' ']
  gap_ne _ := List.cons_ne_nil _ _
  gap_blank _ c hc := by
    rw [List.mem_singleton.1 hc]
    rfl
  quoting body := if Quoting.ordinary.fits body then .ordinary else .block
  quoting_fits body h := by
    split
    · assumption
    · rename_i hne
      exact (Bool.or_eq_true_iff.1 h).resolve_left hne

variable (pen : Pen)

/-- The text of words, the first of which is number `i`. -/
def layout : Nat → List Word → List Char
  | _, [] => []
  | i, w :: ws => w.2.toList ++ (pen.gap i ++ layout (i + 1) ws)

end Pen

/-- The text of a document. -/
def Document.write (names : NameTable) (pen : Pen) (d : Document) : String :=
  String.ofList (pen.layout 0 (d.words names pen.quoting))

end SchemaToFlow.Schema
