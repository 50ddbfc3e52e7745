import Mathlib.Computability.Language
import Mathlib.Order.FixedPoints
import Mathlib.Order.CompletePartialOrder
import SchemaToFlow.Schema.Numeral
import SchemaToFlow.Schema.Token

/-!
# The grammar of schemas

The language of schemas as sets of token lists, built by concatenation (`*`), choice (`+`) and
repetition (`∗`) from single tokens. Types and values nest, so they are the least languages that
satisfy their rules (`type_eq`, `value_eq`).

Keywords may serve as names everywhere (`name`). There is one place where they may not: the
ampersand between two implemented interfaces may be missing only before a name that is no keyword.

No definition holds an end mark or text that is no token (`Proper`).
-/

namespace SchemaToFlow.Schema.Grammar

open Computability

/-! ## Tokens -/

/-- Lists of one token with a property. -/
def one (p : Token → Prop) : Language Token := {w | ∃ t, p t ∧ w = [t]}

/-- A token of a kind. -/
def tok (kind : TokenKind) : Language Token := one fun t => t.kind = kind

/-- A punctuation mark. -/
def mark (p : Punctuator) : Language Token := tok (.punct p)

/-- A keyword. -/
def word (k : Keyword) : Language Token := tok (.keyword k)

/-- A name: keywords count. -/
def name : Language Token := one fun t => t.kind.isName

/-- Something or nothing. -/
def opt (l : Language Token) : Language Token := 1 + l

/-- A description, if there is one. -/
def description : Language Token := opt (tok .string + tok .blockString)

/-! ## Types and values -/

/-- One level of a type: a name or a type in brackets, and an exclamation mark or none. -/
def typeRule : Language Token →o Language Token where
  toFun type := (name + mark .bracketOpen * type * mark .bracketClose) * opt (mark .bang)
  monotone' _ _ h := by dsimp only; gcongr

/-- A type. -/
def type : Language Token := typeRule.lfp

theorem type_eq :
    type = (name + mark .bracketOpen * type * mark .bracketClose) * opt (mark .bang) :=
  typeRule.map_lfp.symm

/-- A whole number that fits in 64 bits with a sign. -/
def int64 : Language Token := one fun t =>
  t.kind = .int ∧ Int64.minValue.toInt ≤ Numeral.intValue t.text.toList ∧
    Numeral.intValue t.text.toList ≤ Int64.maxValue.toInt

/-- A value of one token. -/
def atom : Language Token := int64 + tok .float + tok .string + tok .blockString + name

/-- One level of a value: one token, values in brackets, or named values in braces. -/
def valueRule : Language Token →o Language Token where
  toFun value := atom + mark .bracketOpen * value∗ * mark .bracketClose +
    mark .braceOpen * (name * mark .colon * value)∗ * mark .braceClose
  monotone' _ _ h := by dsimp only; gcongr

/-- A constant. -/
def value : Language Token := valueRule.lfp

theorem value_eq :
    value = atom + mark .bracketOpen * value∗ * mark .bracketClose +
      mark .braceOpen * (name * mark .colon * value)∗ * mark .braceClose :=
  valueRule.map_lfp.symm

/-- A use of a directive. -/
def directive : Language Token :=
  mark .atSign * name * opt (mark .parenOpen * (name * mark .colon * value)∗ * mark .parenClose)

/-! ## Fields and input values -/

/-- An argument of a field or a directive, or a field of an input type. -/
def inputValue : Language Token :=
  description * name * mark .colon * type * opt (mark .equals * value) * directive∗

/-- Arguments, if there are any. -/
def arguments : Language Token := opt (mark .parenOpen * inputValue∗ * mark .parenClose)

/-- A field. -/
def field : Language Token :=
  description * name * arguments * mark .colon * type * directive∗

/-- Parts in braces, or nothing. -/
def braced (part : Language Token) : Language Token :=
  opt (mark .braceOpen * part∗ * mark .braceClose)

/-- The interfaces that a type implements, if there are any. -/
def interfaces : Language Token :=
  opt (word .implements * opt (mark .ampersand) * name *
    (mark .ampersand * name + tok .name)∗)

/-- Names set apart by bars, with a bar before the first or none. -/
def alternatives : Language Token := opt (mark .pipe) * name * (mark .pipe * name)∗

/-- An entry point of a schema. -/
def rootOperation : Language Token :=
  (word .query + word .mutation + word .subscription) * mark .colon * name

/-- A value of an enumeration. -/
def enumValue : Language Token := description * name * directive∗

/-! ## Definitions -/

/-- The entry points of a schema. -/
def schemaDefinition : Language Token :=
  word .schema * directive∗ * mark .braceOpen * rootOperation∗ * mark .braceClose

/-- An object or interface type. -/
def fieldsDefinition : Language Token :=
  (word .type + word .interface) * name * interfaces * directive∗ * braced field

/-- A union type. -/
def unionDefinition : Language Token :=
  word .union * name * directive∗ * opt (mark .equals * alternatives)

/-- An enumeration type. -/
def enumDefinition : Language Token := word .enum * name * directive∗ * braced enumValue

/-- An input type. -/
def inputDefinition : Language Token := word .input * name * directive∗ * braced inputValue

/-- A scalar type. -/
def scalarDefinition : Language Token := word .scalar * name * directive∗

/-- A directive. -/
def directiveDefinition : Language Token :=
  word .directive * mark .atSign * name * arguments * opt (word .repeatable) * word .onLocation *
    alternatives

/-- A definition without its description. -/
def bareDefinition : Language Token :=
  schemaDefinition + fieldsDefinition + unionDefinition + enumDefinition + inputDefinition +
    scalarDefinition + directiveDefinition

/-- A definition. -/
def definition : Language Token := description * bareDefinition

/-- A whole schema and the end mark. -/
def document : Language Token := definition∗ * tok .endOfInput

/-! ## The tokens of words -/

/-- Rows of tokens without an end mark and without text that is no token. -/
def proper : Language Token := {w | ∀ t ∈ w, t.kind ≠ .endOfInput ∧ t.kind ≠ .invalid}

/-- The words of the language are proper. -/
class Proper (l : Language Token) : Prop where
  le : l ≤ proper

section Proper

variable {l m : Language Token}

theorem proper_one {p : Token → Prop} (h : ∀ t, p t → t.kind ≠ .endOfInput ∧ t.kind ≠ .invalid) :
    Proper (one p) := by
  refine ⟨?_⟩
  rintro w ⟨t, ht, rfl⟩ u hu
  rw [List.mem_singleton.1 hu]
  exact h t ht

instance : Proper proper := ⟨le_rfl⟩

instance [hl : Proper l] [hm : Proper m] : Proper (l + m) := by
  refine ⟨?_⟩
  rintro w (hw | hw)
  · exact hl.le hw
  · exact hm.le hw

instance [hl : Proper l] [hm : Proper m] : Proper (l * m) := by
  refine ⟨fun w hw t ht => ?_⟩
  obtain ⟨u, hu, v, hv, rfl⟩ := Language.mem_mul.1 hw
  rcases List.mem_append.1 ht with ht | ht
  · exact hl.le hu t ht
  · exact hm.le hv t ht

instance [hl : Proper l] : Proper l∗ := by
  refine ⟨fun w hw t ht => ?_⟩
  obtain ⟨pieces, rfl, hpieces⟩ := Language.mem_kstar.1 hw
  obtain ⟨y, hy, ht⟩ := List.mem_flatten.1 ht
  exact hl.le (hpieces y hy) t ht

instance [Proper l] : Proper (opt l) := by
  have h : Proper (1 : Language Token) := by
    refine ⟨?_⟩
    rintro w rfl t ht
    cases ht
  exact inferInstanceAs (Proper (1 + l))

instance (p : Punctuator) : Proper (mark p) := proper_one fun t ht => by simp [ht]

instance (k : Keyword) : Proper (word k) := proper_one fun t ht => by simp [ht]

instance : Proper name := proper_one fun t ht => by
  constructor
  · intro hk
    rw [hk] at ht
    cases ht
  · intro hk
    rw [hk] at ht
    cases ht

instance : Proper (tok .name) := proper_one fun t ht => by simp [ht]

instance : Proper (tok .float) := proper_one fun t ht => by simp [ht]

instance : Proper (tok .string) := proper_one fun t ht => by simp [ht]

instance : Proper (tok .blockString) := proper_one fun t ht => by simp [ht]

instance : Proper int64 := proper_one fun t ht => by simp [ht.1]

instance : Proper atom := by
  unfold atom
  infer_instance

instance : Proper description := by
  unfold description
  infer_instance

instance : Proper type :=
  ⟨typeRule.lfp_le (Proper.le (l := (name + mark .bracketOpen * proper * mark .bracketClose) *
    opt (mark .bang)))⟩

instance : Proper value :=
  ⟨valueRule.lfp_le (Proper.le (l := atom + mark .bracketOpen * proper∗ * mark .bracketClose +
    mark .braceOpen * (name * mark .colon * proper)∗ * mark .braceClose))⟩

instance : Proper definition := by
  have hdirective : Proper directive := by
    unfold directive
    infer_instance
  have hinputValue : Proper inputValue := by
    unfold inputValue
    infer_instance
  have harguments : Proper arguments := by
    unfold arguments
    infer_instance
  have hfield : Proper field := by
    unfold field
    infer_instance
  have henumValue : Proper enumValue := by
    unfold enumValue
    infer_instance
  have halternatives : Proper alternatives := by
    unfold alternatives
    infer_instance
  unfold definition bareDefinition schemaDefinition fieldsDefinition unionDefinition enumDefinition
    inputDefinition scalarDefinition directiveDefinition rootOperation interfaces braced
  infer_instance

end Proper

end SchemaToFlow.Schema.Grammar
