import Mathlib.Data.List.Forall2
import SchemaToFlow.Flow.Printing

/-!
# Printers write the text of programs

The strokes for a program, carried out by a printer, write the program's text, and nothing that the
printer did before shows in it.

* Strokes for a type only write (`Writes`), whatever objects the type holds (`writes_type`).
* `Passes p strokes q` says that a printer gets from `p` to `q` and is never nested deeper than one
  level on the way. It is proved for each stroke and put together along the strokes
  (`Passes.append`); `Draws` says it for any text that stands there already.
* So a declaration is drawn (`draws_declaration`), a program is (`passes_program`), and any number
  of programs are, one after the other, with one printer (`printAll_fresh`).
-/

namespace SchemaToFlow.Flow

/-! ## Strokes that only write -/

/-- The strokes write the text, and none of them does anything else. -/
inductive Writes : List Stroke → String → Prop
  | none : Writes [] ""
  | cons {text rest : String} {strokes : List Stroke} :
      Writes strokes rest → Writes (.write text :: strokes) (text ++ rest)

theorem writes_one (text : String) : Writes [.write text] text := by
  have h : Writes [.write text] (text ++ "") := .cons .none
  rwa [String.append_empty] at h

theorem Writes.append {xs ys : List Stroke} {a b : String} (hx : Writes xs a) (hy : Writes ys b) :
    Writes (xs ++ ys) (a ++ b) := by
  induction hx with
  | none => rwa [String.empty_append]
  | cons _ ih =>
    rw [String.append_assoc]
    exact .cons ih

theorem Writes.concat {xs : List Stroke} {a : String} (h : Writes xs a) (text : String) :
    Writes (xs ++ [.write text]) (a ++ text) := h.append (writes_one text)

/-- Items with a mark between any two. -/
theorem writes_marked (mark : String) {items : List (List Stroke)} {texts : List String}
    (h : List.Forall₂ Writes items texts) :
    Writes (marked mark items) (mark.intercalate texts) := by
  induction h with
  | nil => exact .none
  | @cons item text items texts hitem hitems ih =>
    cases hitems with
    | nil => simpa [marked] using hitem
    | cons _ _ =>
      simp only [marked, List.intercalate_cons_cons, String.intercalate_cons_cons] at ih ⊢
      exact (hitem.concat mark).append ih

theorem writes_characters (cs : List Char) :
    Writes (cs.flatMap characterStrokes) (String.ofList (escape cs)) := by
  induction cs with
  | nil => exact .none
  | cons c cs ih =>
    by_cases hc : c = '"' ∨ c = '\\'
    · simp only [List.flatMap_cons, characterStrokes, if_pos hc, escape, String.ofList_cons]
      exact .cons (.cons ih)
    · simp only [List.flatMap_cons, characterStrokes, if_neg hc, escape, String.ofList_cons]
      exact .cons ih

mutual

/-- **Types only write**, objects in them included. -/
theorem writes_type : ∀ t : TypeExpr, Writes t.strokes t.render
  | .string => by
    rw [TypeExpr.strokes, TypeExpr.render]
    exact writes_one _
  | .number => by
    rw [TypeExpr.strokes, TypeExpr.render]
    exact writes_one _
  | .any => by
    rw [TypeExpr.strokes, TypeExpr.render]
    exact writes_one _
  | .literal value => by
    rw [TypeExpr.strokes, TypeExpr.render, quote, String.append_assoc]
    exact .cons ((writes_characters value.toList).concat "\"")
  | .identifier name => by
    rw [TypeExpr.strokes, TypeExpr.render]
    exact writes_one _
  | .nullable inner => by
    rw [TypeExpr.strokes, TypeExpr.render]
    by_cases h : inner.needsParens = true
    · have hmark : "?(" = "?" ++ "(" := by decide
      rw [if_pos h, if_pos h, hmark, String.append_assoc, String.append_assoc]
      exact .cons (.cons ((writes_type inner).concat ")"))
    · rw [if_neg h, if_neg h]
      exact .cons (writes_type inner)
  | .array item => by
    rw [TypeExpr.strokes, TypeExpr.render, String.append_assoc]
    exact .cons ((writes_type item).concat ">")
  | .function params returns => by
    rw [TypeExpr.strokes, TypeExpr.render, String.append_assoc, String.append_assoc]
    exact .cons ((writes_object params).append (.cons (writes_type returns)))
  | .object shape => by
    rw [TypeExpr.strokes, TypeExpr.render]
    exact writes_object shape
  | .union [] => by
    rw [TypeExpr.strokes, TypeExpr.render]
    exact writes_one _
  | .union (t :: ts) => by
    simp only [TypeExpr.strokes, TypeExpr.render]
    exact writes_marked " | " (writes_types (t :: ts))

theorem writes_types (ts : List TypeExpr) :
    List.Forall₂ Writes (typeStrokes ts) (renderTypes ts) := by
  cases ts with
  | nil =>
    rw [typeStrokes, renderTypes]
    exact .nil
  | cons t ts =>
    rw [typeStrokes, renderTypes]
    exact .cons (writes_type t) (writes_types ts)

theorem writes_object : ∀ shape : ObjectType, Writes shape.strokes shape.render
  | ⟨[], exact⟩ => by
    rw [ObjectType.strokes, ObjectType.render]
    exact .cons (writes_one _)
  | ⟨p :: ps, exact⟩ => by
    simp only [ObjectType.strokes, ObjectType.render, String.append_assoc]
    exact .cons (.cons ((writes_marked ", " (writes_properties (p :: ps))).append
      (.cons (writes_one _))))

theorem writes_properties (ps : List Property) :
    List.Forall₂ Writes (propertyStrokes ps) (renderProperties ps) := by
  cases ps with
  | nil =>
    rw [propertyStrokes, renderProperties]
    exact .nil
  | cons p ps =>
    rw [propertyStrokes, renderProperties]
    exact .cons (writes_property p) (writes_properties ps)

theorem writes_property : ∀ p : Property, Writes p.strokes p.render
  | ⟨name, type, optional⟩ => by
    rw [Property.strokes, Property.render, String.append_assoc]
    cases optional with
    | true =>
      have hmark : "?: " = "?" ++ ": " := by decide
      simp only [if_true, hmark, String.append_assoc]
      exact .cons (.cons (.cons (writes_type type)))
    | false =>
      exact .cons (.cons (writes_type type))

end

/-! ## Runs -/

namespace Printer

theorem run_append (p : Printer) (xs ys : List Stroke) :
    p.run (xs ++ ys) = (p.run xs).bind fun q => q.run ys := by
  induction xs generalizing p with
  | nil => rfl
  | cons s xs ih =>
    simp only [List.cons_append, run]
    cases p.step s with
    | none => rfl
    | some q => exact ih q

end Printer

/-- The strokes take a printer from `p` to `q`, and at no time is it nested deeper than one
level. -/
structure Passes (p : Printer) (strokes : List Stroke) (q : Printer) : Prop where
  run : p.run strokes = some q
  shallow : ∀ done, done <+: strokes → ∃ r, p.run done = some r ∧ r.depth ≤ 1

namespace Passes

variable {p q r : Printer} {xs ys : List Stroke}

theorem none (hp : p.depth ≤ 1) : Passes p [] p where
  run := rfl
  shallow done hdone := ⟨p, by rw [List.prefix_nil.1 hdone]; rfl, hp⟩

/-- **Step.** -/
theorem one {s : Stroke} (hp : p.depth ≤ 1) (h : p.step s = some q) (hq : q.depth ≤ 1) :
    Passes p [s] q where
  run := by rw [Printer.run, h]; rfl
  shallow done hdone := by
    rcases List.prefix_cons_iff.1 hdone with rfl | ⟨rest, rfl, hrest⟩
    · exact ⟨p, rfl, hp⟩
    · rw [List.prefix_nil.1 hrest]
      exact ⟨q, by rw [Printer.run, h]; rfl, hq⟩

/-- **Run.** -/
theorem append (hx : Passes p xs q) (hy : Passes q ys r) : Passes p (xs ++ ys) r where
  run := by
    rw [Printer.run_append, hx.run]
    exact hy.run
  shallow done hdone := by
    rcases List.prefix_or_prefix_of_prefix hdone (List.prefix_append xs ys) with hle | ⟨rest, rfl⟩
    · exact hx.shallow done hle
    · rw [Printer.run_append, hx.run]
      exact hy.shallow rest ((List.prefix_append_right_inj xs).1 hdone)

end Passes

/-- From one depth to another, the strokes write the text behind whatever stands there. -/
def Draws (o : PrintOptions) (d e : Nat) (strokes : List Stroke) (text : String) : Prop :=
  ∀ out, Passes ⟨o, out, d⟩ strokes ⟨o, out ++ text, e⟩

section Draws

variable {o : PrintOptions} {d e f : Nat} {xs ys : List Stroke} {a b : String}

theorem Draws.append (hx : Draws o d e xs a) (hy : Draws o e f ys b) :
    Draws o d f (xs ++ ys) (a ++ b) := by
  intro out
  rw [← String.append_assoc]
  exact (hx out).append (hy (out ++ a))

theorem Draws.cons {s : Stroke} (hs : Draws o d e [s] a) (hy : Draws o e f ys b) :
    Draws o d f (s :: ys) (a ++ b) := hs.append hy

theorem draws_write (hd : d ≤ 1) (text : String) : Draws o d d [.write text] text :=
  fun _ => .one hd rfl hd

theorem Writes.draws (h : Writes xs a) (hd : d ≤ 1) : Draws o d d xs a := by
  induction h with
  | none => exact fun out => by simpa using Passes.none (p := ⟨o, out, d⟩) hd
  | cons _ ih => exact (draws_write hd _).cons ih

theorem draws_enter : Draws o 0 1 [.enter] "" := fun out => by
  simpa using Passes.one (p := ⟨o, out, 0⟩) (Nat.zero_le 1) rfl (Nat.le_refl 1)

theorem draws_leave : Draws o 1 0 [.leave] "" := fun out => by
  simpa using Passes.one (p := ⟨o, out, 1⟩) (Nat.le_refl 1) rfl (Nat.zero_le 1)

/-- Where nothing is entered, nothing is indented. -/
theorem draws_indent_zero : Draws o 0 0 [.indent] "" := by
  intro out
  refine .one (Nat.zero_le 1) ?_ (Nat.zero_le 1)
  cases htabs : o.tabs <;> simp [Printer.step, Printer.margin?, Printer.append, htabs]

/-- One level deep, the indentation is one unit. -/
theorem draws_indent_one (ho : o.indent < UInt64.size) : Draws o 1 1 [.indent] o.unit := by
  intro out
  refine .one (Nat.le_refl 1) ?_ (Nat.le_refl 1)
  cases htabs : o.tabs <;>
    simp [Printer.step, Printer.margin?, Printer.append, PrintOptions.unit, htabs, ho]

end Draws

/-! ## Declarations -/

/-- A unit of indentation is made of spaces or tabs. -/
theorem mem_unit {o : PrintOptions} : ∀ c ∈ o.unit.toList, c = ' ' ∨ c = '\t' := by
  intro c hc
  cases htabs : o.tabs <;> simp_all [PrintOptions.unit]

theorem writes_supers (supers : List String) :
    Writes (superStrokes supers ++ [.write " "]) (renderSupers supers) := by
  cases supers with
  | nil => exact writes_one " "
  | cons s ss => exact ((writes_one " extends ").concat _).concat " "

section Declarations

variable {o : PrintOptions} (ho : o.indent < UInt64.size)

include ho

theorem draws_line (p : Property) :
    Draws o 1 1 p.lineStrokes (o.unit ++ p.render ++ ",\n") := by
  rw [String.append_assoc]
  exact (draws_indent_one ho).cons (((writes_property p).concat ",\n").draws (Nat.le_refl 1))

theorem draws_lines (ps : List Property) :
    Draws o 1 1 (ps.flatMap Property.lineStrokes)
      (String.join (ps.map fun p => o.unit ++ p.render ++ ",\n")) := by
  induction ps with
  | nil => exact Writes.none.draws (Nat.le_refl 1)
  | cons p ps ih =>
    rw [List.flatMap_cons, List.map_cons, String.join_cons]
    exact (draws_line ho p).append ih

theorem draws_block (shape : ObjectType) :
    Draws o 0 0 shape.blockStrokes (shape.renderBlock o) := by
  obtain ⟨properties, exact⟩ := shape
  cases properties with
  | nil => exact ((writes_one _).concat _).draws (Nat.zero_le 1)
  | cons p ps =>
    have hclose : Draws o 1 0 [.leave, .indent, .write (braces exact).2] (braces exact).2 := by
      simpa using draws_leave.cons (draws_indent_zero.cons
        (draws_write (Nat.zero_le 1) (braces exact).2))
    have hall := (draws_write (o := o) (Nat.zero_le 1) (braces exact).1).cons
      ((draws_write (Nat.zero_le 1) "\n").cons
        (draws_enter.cons ((draws_lines ho (p :: ps)).append hclose)))
    rw [String.empty_append, ← String.append_assoc, ← String.append_assoc] at hall
    exact hall

theorem draws_body (t : TypeExpr) : Draws o 0 0 t.bodyStrokes (t.renderBody o) := by
  cases t with
  | object shape => exact draws_block ho shape
  | _ => exact (writes_type _).draws (Nat.zero_le 1)

/-- **A declaration is drawn** from no depth to no depth. -/
theorem draws_declaration (d : Declaration) : Draws o 0 0 d.strokes (d.render o) := by
  cases d with
  | interface name supers body =>
    have hhead := ((writes_one "export interface ").concat name).append (writes_supers supers)
    have hall := (hhead.draws (Nat.zero_le 1)).append (draws_block ho body)
    simp only [List.append_assoc] at hall
    exact hall
  | typeAlias name body =>
    have hhead := ((writes_one "export type ").concat name).concat " = "
    have hall := ((hhead.draws (Nat.zero_le 1)).append (draws_body ho body)).append
      (draws_write (Nat.zero_le 1) ";")
    rw [List.append_assoc] at hall
    exact hall
  | opaqueType name underlying =>
    have hhead := ((writes_one "export opaque type ").concat name).concat " = "
    have hall := (hhead.append (writes_type underlying)).concat ";"
    rw [List.append_assoc] at hall
    exact hall.draws (Nat.zero_le 1)

end Declarations

/-! ## Programs -/

/-- The first text, and each other one behind a mark. -/
theorem intercalate_eq_append_join (mark text : String) (texts : List String) :
    mark.intercalate (text :: texts) = text ++ String.join (texts.map (mark ++ ·)) := by
  induction texts generalizing text with
  | nil => simp
  | cons t ts ih => simp [ih, String.append_assoc]

/-- Declarations, each behind an empty line. -/
def spacedText (o : PrintOptions) (ds : List Declaration) : String :=
  String.join (ds.map fun d => "\n" ++ (d.render o ++ "\n"))

theorem spacedText_cons (o : PrintOptions) (d : Declaration) (ds : List Declaration) :
    spacedText o (d :: ds) = "\n" ++ (d.render o ++ "\n") ++ spacedText o ds := by
  simp [spacedText]

theorem print_of_pragma {o : PrintOptions} (h : o.pragma = true) (p : Program) :
    p.print o = "// @flow\n" ++ spacedText o p.body := by
  have hmark : "// @flow" ++ "\n" = "// @flow\n" := by simp
  unfold Program.print
  simp only [h, if_true, List.cons_append, List.nil_append, List.map_cons]
  rw [intercalate_eq_append_join, hmark, List.map_map, List.map_map]
  rfl

theorem print_nil {o : PrintOptions} (h : o.pragma = false) : Program.print o ⟨[]⟩ = "" := by
  simp [Program.print, h]

theorem print_of_cons {o : PrintOptions} (h : o.pragma = false) (d : Declaration)
    (ds : List Declaration) :
    Program.print o ⟨d :: ds⟩ = d.render o ++ "\n" ++ spacedText o ds := by
  unfold Program.print
  simp only [h, Bool.false_eq_true, if_false, List.nil_append, List.map_cons]
  rw [intercalate_eq_append_join, List.map_map, List.map_map]
  rfl

section Programs

variable {o : PrintOptions} (ho : o.indent < UInt64.size)

include ho

/-- Behind some text, each declaration stands after an empty line. -/
theorem passes_declarations (ds : List Declaration) : ∀ out, out ≠ "" →
    Passes ⟨o, out, 0⟩ (ds.flatMap fun d => .space :: (d.strokes ++ [.write "\n"]))
      ⟨o, out ++ spacedText o ds, 0⟩ := by
  induction ds with
  | nil =>
    intro out _
    simpa [spacedText] using Passes.none (p := ⟨o, out, 0⟩) (Nat.zero_le 1)
  | cons d ds ih =>
    intro out hout
    have hspace : Passes ⟨o, out, 0⟩ [.space] ⟨o, out ++ "\n", 0⟩ :=
      .one (Nat.zero_le 1) (by simp [Printer.step, Printer.append, hout]) (Nat.zero_le 1)
    have hdraws := (draws_declaration ho d).append (draws_write (Nat.zero_le 1) "\n")
    have hrest := ih (out ++ "\n" ++ (d.render o ++ "\n")) (by simp)
    have hall := (hspace.append (hdraws (out ++ "\n"))).append hrest
    rw [List.flatMap_cons, spacedText_cons, ← String.append_assoc, ← String.append_assoc]
    exact hall

/-- **A program is drawn** by a printer that has written nothing. -/
theorem passes_program (p : Program) :
    Passes (.fresh o) (p.strokes o.pragma) ⟨o, p.print o, 0⟩ := by
  obtain ⟨ds⟩ := p
  cases hpragma : o.pragma with
  | true =>
    have hhead := draws_write (o := o) (Nat.zero_le 1) "// @flow\n" ""
    rw [String.empty_append] at hhead
    rw [print_of_pragma hpragma]
    exact hhead.append (passes_declarations ho ds _ (by simp))
  | false =>
    cases ds with
    | nil =>
      rw [print_nil hpragma]
      exact .none (Nat.zero_le 1)
    | cons d ds =>
      -- nothing is written yet, so the first declaration follows no empty line
      have hspace : Passes (.fresh o) [.space] ⟨o, "", 0⟩ :=
        .one (Nat.zero_le 1) rfl (Nat.zero_le 1)
      have hdraws := (draws_declaration ho d).append (draws_write (Nat.zero_le 1) "\n") ""
      rw [String.empty_append] at hdraws
      rw [print_of_cons hpragma]
      exact (hspace.append hdraws).append (passes_declarations ho ds _ (by simp))

namespace Printer

/-- **Whatever a printer did before**, it prints the text of a program, and is as new after it. -/
theorem print_eq (p : Printer) (hp : p.options = o) (program : Program) :
    p.print program = some (program.print o, .fresh o) := by
  rw [print, hp, (passes_program ho program).run]
  rfl

/-- **One printer for many programs** prints each of them as a new one does. -/
theorem printAll_fresh (programs : List Program) :
    (fresh o).printAll programs = some (programs.map (Program.print o), fresh o) := by
  induction programs with
  | nil => rfl
  | cons program programs ih =>
    rw [printAll, print_eq ho _ rfl]
    simp [ih]

end Printer

end Programs

end SchemaToFlow.Flow
