import SchemaToFlow.Proofs.Commands
import SchemaToFlow.Proofs.JsonText

/-!
# Programs read back

A program is read back from its JSON form, and the form from the text that is shown of it.

The reader of a form finds fields by their keys. It takes them in any order and passes over fields
it does not ask for; but a key that it asks for must stand once.

* `Program.ofJson?_toJson`: reading the form of a program gives the program.
* `ast_reads_back`: the text that is shown of a program stands for its form and nothing else, so it
  tells programs apart; and the command that shows programs writes this text.
-/

namespace SchemaToFlow

/-! ## Parts of JSON values -/

namespace Json

/-- The value of the only field of an object with a key. -/
@[simp]
def get? (key : String) : Json → Option Json
  | .object fields =>
    match fields.filter fun field => field.1 = key with
    | [field] => some field.2
    | _ => none
  | _ => none

/-- Whether an object has a field with a key. -/
@[simp]
def has (key : String) : Json → Bool
  | .object fields => key ∈ fields.map Prod.fst
  | _ => false

/-- The elements of a list. -/
@[simp]
def items? : Json → Option (List Json)
  | .array items => some items
  | _ => none

/-- The text that a value is. -/
@[simp]
def string? : Json → Option String
  | .string value => some value
  | _ => none

/-- The truth value that a value is. -/
@[simp]
def bool? : Json → Option Bool
  | .bool value => some value
  | _ => none

/-- The text in a field. -/
@[simp]
def text? (key : String) (j : Json) : Option String := (j.get? key).bind string?

theorem sizeOf_lt_of_get? {key : String} {j v : Json} (h : j.get? key = some v) :
    sizeOf v < sizeOf j := by
  cases j with
  | object fields =>
    rw [get?] at h
    split at h
    · rename_i field hfilter
      have hmem : field ∈ fields := List.mem_of_mem_filter (hfilter ▸ List.mem_singleton_self field)
      have hlt := List.sizeOf_lt_of_mem hmem
      obtain rfl := Option.some.inj h
      rcases field with ⟨k, v⟩
      simp only [Prod.mk.sizeOf_spec, object.sizeOf_spec] at hlt ⊢
      omega
    · cases h
  | _ => cases h

theorem sizeOf_lt_of_items? {j : Json} {items : List Json} (h : j.items? = some items) :
    sizeOf items < sizeOf j := by
  cases j with
  | array items' =>
    obtain rfl := Option.some.inj h
    simp only [array.sizeOf_spec]
    omega
  | _ => cases h

/-- The value of a field, as a smaller value. -/
@[simp]
def part? (key : String) (j : Json) : Option { v : Json // sizeOf v < sizeOf j } :=
  (j.get? key).attachWith _ fun _ => sizeOf_lt_of_get?

/-- The elements of a list, as smaller values. -/
@[simp]
def parts? (j : Json) : Option { items : List Json // sizeOf items < sizeOf j } :=
  j.items?.attachWith _ fun _ => sizeOf_lt_of_items?

end Json

namespace Flow

/-! ## Reading forms -/

/-- The types without parts, by their kinds. -/
@[simp]
def TypeExpr.bare? : String → Option TypeExpr
  | "String" => some .string
  | "Number" => some .number
  | "Any" => some .any
  | _ => none

mutual

/-- The type with a JSON form. A type without parts has no `value`. -/
def TypeExpr.ofJson? (j : Json) : Option TypeExpr := do
  let kind ← j.text? "kind"
  match TypeExpr.bare? kind with
  | some t => if j.has "value" then none else some t
  | none =>
    let ⟨value, _⟩ ← j.part? "value"
    match kind with
    | "StringLiteral" => return .literal (← value.string?)
    | "Identifier" => return .identifier (← value.string?)
    | "Nullable" => return .nullable (← TypeExpr.ofJson? value)
    | "Array" => return .array (← TypeExpr.ofJson? value)
    | "Function" =>
      let ⟨params, _⟩ ← value.part? "params"
      let ⟨returns, _⟩ ← value.part? "returns"
      return .function (← ObjectType.ofJson? params) (← TypeExpr.ofJson? returns)
    | "Object" => return .object (← ObjectType.ofJson? value)
    | "Union" =>
      let ⟨members, _⟩ ← value.parts?
      return .union (← typesOfJson? members)
    | _ => none
termination_by sizeOf j

/-- The types with some JSON forms. -/
def typesOfJson? (js : List Json) : Option (List TypeExpr) :=
  match js with
  | [] => some []
  | j :: js => do return (← TypeExpr.ofJson? j) :: (← typesOfJson? js)
termination_by sizeOf js

/-- The object type with a JSON form. -/
def ObjectType.ofJson? (j : Json) : Option ObjectType := do
  let ⟨properties, _⟩ ← j.part? "properties"
  let ⟨items, _⟩ ← properties.parts?
  return ⟨← propertiesOfJson? items, ← (← j.get? "exact").bool?⟩
termination_by sizeOf j

/-- The properties with some JSON forms. -/
def propertiesOfJson? (js : List Json) : Option (List Property) :=
  match js with
  | [] => some []
  | j :: js => do return (← Property.ofJson? j) :: (← propertiesOfJson? js)
termination_by sizeOf js

/-- The property with a JSON form. -/
def Property.ofJson? (j : Json) : Option Property := do
  let ⟨type, _⟩ ← j.part? "ty"
  return ⟨← j.text? "name", ← TypeExpr.ofJson? type, ← (← j.get? "optional").bool?⟩
termination_by sizeOf j

end

/-- The declaration with a JSON form. -/
def Declaration.ofJson? (j : Json) : Option Declaration := do
  let name ← j.text? "name"
  match ← j.text? "kind" with
  | "Interface" =>
    let supers ← (← (← j.get? "extends").items?).mapM Json.string?
    return .interface name supers (← ObjectType.ofJson? (← j.get? "body"))
  | "TypeAlias" => return .typeAlias name (← TypeExpr.ofJson? (← j.get? "body"))
  | "Opaque" => return .opaqueType name (← TypeExpr.ofJson? (← j.get? "underlying"))
  | _ => none

/-- The declaration that a JSON value is the export of. -/
def Declaration.ofExport? (j : Json) : Option Declaration := do
  Declaration.ofJson? (← j.get? "declaration")

/-- The program with a JSON form. -/
def Program.ofJson? (j : Json) : Option Program := do
  return ⟨← (← (← j.get? "body").items?).mapM Declaration.ofExport?⟩

/-! ## Reading back -/

-- Mutual along the type: one step of the reader finds the kind and the parts, and the parts are
-- read back by induction.
mutual

theorem TypeExpr.ofJson?_toJson : ∀ t : TypeExpr, TypeExpr.ofJson? t.toJson = some t
  | .string => by
    rw [TypeExpr.ofJson?]
    simp [TypeExpr.toJson, bare]
  | .number => by
    rw [TypeExpr.ofJson?]
    simp [TypeExpr.toJson, bare]
  | .any => by
    rw [TypeExpr.ofJson?]
    simp [TypeExpr.toJson, bare]
  | .literal value => by
    rw [TypeExpr.ofJson?]
    simp [TypeExpr.toJson, tagged]
  | .identifier name => by
    rw [TypeExpr.ofJson?]
    simp [TypeExpr.toJson, tagged]
  | .nullable inner => by
    have ih := TypeExpr.ofJson?_toJson inner
    rw [TypeExpr.ofJson?]
    simp [TypeExpr.toJson, tagged, ih]
  | .array item => by
    have ih := TypeExpr.ofJson?_toJson item
    rw [TypeExpr.ofJson?]
    simp [TypeExpr.toJson, tagged, ih]
  | .function params returns => by
    have ihParams := ObjectType.ofJson?_toJson params
    have ihReturns := TypeExpr.ofJson?_toJson returns
    rw [TypeExpr.ofJson?]
    simp [TypeExpr.toJson, tagged, ihParams, ihReturns]
  | .object shape => by
    have ih := ObjectType.ofJson?_toJson shape
    rw [TypeExpr.ofJson?]
    simp [TypeExpr.toJson, tagged, ih]
  | .union members => by
    have ih := typesOfJson?_typesToJson members
    rw [TypeExpr.ofJson?]
    simp [TypeExpr.toJson, tagged, ih]

theorem typesOfJson?_typesToJson :
    ∀ ts : List TypeExpr, typesOfJson? (typesToJson ts) = some ts
  | [] => by rw [typesToJson, typesOfJson?]
  | t :: ts => by
    rw [typesToJson, typesOfJson?, TypeExpr.ofJson?_toJson t, typesOfJson?_typesToJson ts]
    rfl

theorem ObjectType.ofJson?_toJson : ∀ t : ObjectType, ObjectType.ofJson? t.toJson = some t
  | ⟨properties, exact⟩ => by
    have ih := propertiesOfJson?_propertiesToJson properties
    rw [ObjectType.ofJson?]
    simp [ObjectType.toJson, ih]

theorem propertiesOfJson?_propertiesToJson :
    ∀ ps : List Property, propertiesOfJson? (propertiesToJson ps) = some ps
  | [] => by rw [propertiesToJson, propertiesOfJson?]
  | p :: ps => by
    rw [propertiesToJson, propertiesOfJson?, Property.ofJson?_toJson p,
      propertiesOfJson?_propertiesToJson ps]
    rfl

theorem Property.ofJson?_toJson : ∀ p : Property, Property.ofJson? p.toJson = some p
  | ⟨name, type, optional⟩ => by
    have ih := TypeExpr.ofJson?_toJson type
    rw [Property.ofJson?]
    simp [Property.toJson, ih]

end

theorem mapM_map_of_reads {α β : Type} {read : β → Option α} {form : α → β}
    (h : ∀ a, read (form a) = some a) (as : List α) : (as.map form).mapM read = some as := by
  induction as with
  | nil => rfl
  | cons a as ih => simp [h, ih]

theorem Declaration.ofJson?_toJson (d : Declaration) : Declaration.ofJson? d.toJson = some d := by
  cases d with
  | interface name supers body =>
    have hstring : ∀ s, (Json.string s).string? = some s := fun _ => rfl
    have hsupers := mapM_map_of_reads hstring supers
    simp [Declaration.ofJson?, Declaration.toJson, hsupers, ObjectType.ofJson?_toJson]
  | typeAlias name body => simp [Declaration.ofJson?, Declaration.toJson, TypeExpr.ofJson?_toJson]
  | opaqueType name underlying =>
    simp [Declaration.ofJson?, Declaration.toJson, TypeExpr.ofJson?_toJson]

theorem Declaration.ofExport?_toJson (d : Declaration) :
    Declaration.ofExport? (.object [("declaration", d.toJson)]) = some d := by
  simp [Declaration.ofExport?, Declaration.ofJson?_toJson]

/-- **A program is read back from its JSON form.** -/
theorem Program.ofJson?_toJson (p : Program) : Program.ofJson? p.toJson = some p := by
  have hbody := mapM_map_of_reads Declaration.ofExport?_toJson p.body
  simp [Program.ofJson?, Program.toJson, hbody]

/-! ## The text of a program -/

/-- What is shown of a program: its JSON form, on lines of their own. -/
def Program.astText (p : Program) : String := p.toJson.pretty 0 ++ "\n"

theorem Program.read?_astText (p : Program) : Json.read? p.astText = some p.toJson :=
  Json.read?_of_textOf (Json.textOf_pretty p.toJson 0)

theorem Program.textOf_astText_iff {p : Program} {j : Json} :
    j.TextOf p.astText ↔ j = p.toJson := by
  constructor
  · intro h
    have hread := Json.read?_of_textOf h
    rw [p.read?_astText] at hread
    exact (Option.some.inj hread).symm
  · rintro rfl
    exact Json.textOf_pretty p.toJson 0

/-- Programs with one text are one program. -/
theorem Program.astText_inj {p q : Program} : p.astText = q.astText ↔ p = q := by
  refine ⟨fun h => ?_, fun h => by rw [h]⟩
  have hform : p.toJson = q.toJson := by
    rw [← Program.textOf_astText_iff, ← h]
    exact Json.textOf_pretty p.toJson 0
  apply Option.some.inj
  rw [← p.ofJson?_toJson, hform, q.ofJson?_toJson]

end Flow

namespace Command

open SchemaToFlow.Flow

section Ast

open FileStore

variable {store : FileStore} {w : store.World} {schema source : String} {exact : Bool}

theorem printAst_of_error {e : FileError} (h : store.readText w.state schema = .error e) :
    printAst store.system schema exact w = (.error e, w) :=
  bind_of_error (translateFile_of_error exact false h)

theorem printAst_of_generate_error {e : GenerateError}
    (h : store.readText w.state schema = .ok source)
    (hg : generate source { exact := exact } = .error e) :
    printAst store.system schema exact w =
      (.ok 1, { w with stderr := w.stderr ++ (examine schema source exact false).stderr }) := by
  have htranslate := translateFile_of_ok exact false h
  rw [program_examine_of_error hg] at htranslate
  exact bind_of_ok htranslate

theorem printAst_of_generate {g : Generated} (h : store.readText w.state schema = .ok source)
    (hg : generate source { exact := exact } = .ok g) :
    printAst store.system schema exact w =
      (.ok 0, { w with
        stdout := w.stdout ++ g.program.astText
        stderr := w.stderr ++ (examine schema source exact false).stderr }) :=
  bind_of_ok (translateFile_of_generate_ok h hg)

end Ast

/-- The command that shows a program ends with zero exactly if the schema has a program, and then
what it prints is the text of the program. -/
theorem outcome_ast_eq_ok_iff {store : FileStore} {s : store.State} {verbose quiet inexact : Bool}
    {schema text : String} :
    (store.outcome s ⟨verbose, quiet, .ast schema inexact⟩).status = .ok 0 ∧
        (store.outcome s ⟨verbose, quiet, .ast schema inexact⟩).stdout = text ↔
      ∃ source g, store.readText s schema = .ok source ∧
        generate source { exact := !inexact } = .ok g ∧ g.program.astText = text := by
  have houtcome : ∀ {status : Except FileError Nat} {w : store.World},
      printAst store.system schema (!inexact) { state := s } = (status, w) →
        store.outcome s ⟨verbose, quiet, .ast schema inexact⟩ =
          ⟨w.stdout, w.stderr, w.state, status⟩ :=
    fun h => FileStore.outcome_of_run h
  constructor
  · rintro ⟨hstatus, hstdout⟩
    cases hread : store.readText s schema with
    | error e =>
      rw [houtcome (printAst_of_error hread)] at hstatus
      cases hstatus
    | ok source =>
      cases hg : generate source { exact := !inexact } with
      | error e =>
        rw [houtcome (printAst_of_generate_error hread hg)] at hstatus
        cases hstatus
      | ok g =>
        rw [houtcome (printAst_of_generate hread hg)] at hstdout
        exact ⟨source, g, rfl, hg, String.empty_append.symm.trans hstdout⟩
  · rintro ⟨source, g, hread, hg, rfl⟩
    rw [houtcome (printAst_of_generate hread hg)]
    exact ⟨rfl, String.empty_append⟩

/-- **What is shown of a program reads back.** For every program:

* its JSON form is read as the program;
* the text that is shown of it stands for the form, for no other JSON value, and is read as it;
* no other program has this text;
* the command that shows programs succeeds with this text exactly on the schemas that have the
  program, whatever the store of files is. -/
theorem ast_reads_back (p : Program) :
    Program.ofJson? p.toJson = some p ∧
      (∀ j : Json, j.TextOf p.astText ↔ j = p.toJson) ∧
      Json.read? p.astText = some p.toJson ∧
      (∀ q : Program, q.astText = p.astText ↔ q = p) ∧
      ∀ (store : FileStore) (s : store.State) (verbose quiet inexact : Bool) (schema : String),
        (store.outcome s ⟨verbose, quiet, .ast schema inexact⟩).status = .ok 0 ∧
            (store.outcome s ⟨verbose, quiet, .ast schema inexact⟩).stdout = p.astText ↔
          ∃ source g, store.readText s schema = .ok source ∧
            generate source { exact := !inexact } = .ok g ∧ g.program = p := by
  refine ⟨p.ofJson?_toJson, fun j => Program.textOf_astText_iff, p.read?_astText,
    fun q => Program.astText_inj, fun store s verbose quiet inexact schema => ?_⟩
  simp only [outcome_ast_eq_ok_iff, Program.astText_inj]

end Command

end SchemaToFlow
