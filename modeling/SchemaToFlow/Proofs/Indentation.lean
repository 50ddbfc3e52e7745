import SchemaToFlow.Proofs.Printing

/-!
# What the layout decides

The texts of a program in all layouts are one draft (`Drafted`): characters, and a hole for the
indentation of each property that has a line of its own. A hole stands right behind a line feed, and
the line of its property right behind the hole (`Ruled`). Only what fills the holes hangs on the
layout, and since that is blanks at the start of a line, all the texts agree without such blanks
(`Ruled.unindent_fill`).

`print_up_to_indentation` says this of programs, with what the first line adds, and that printers
write this text whatever they wrote before.
-/

namespace SchemaToFlow.Flow

/-! ## Blanks at the start of lines -/

/-- Drops the spaces and tabs at the start of every line. The flag tells whether a line starts. -/
def unindent : Bool → List Char → List Char
  | _, [] => []
  | start, c :: cs =>
    if start ∧ (c = ' ' ∨ c = '\t') then unindent true cs else c :: unindent (c = '\n') cs

theorem unindent_blanks {blanks : List Char} (h : ∀ c ∈ blanks, c = ' ' ∨ c = '\t')
    (cs : List Char) : unindent true (blanks ++ cs) = unindent true cs := by
  induction blanks with
  | nil => rfl
  | cons c blanks ih =>
    rw [List.forall_mem_cons] at h
    rw [List.cons_append, unindent, if_pos ⟨rfl, h.1⟩, ih h.2]

/-- Blanks behind a line feed are dropped. -/
theorem unindent_append_blanks {before blanks : List Char} (hbefore : before.getLast? = some '\n')
    (h : ∀ c ∈ blanks, c = ' ' ∨ c = '\t') (start : Bool) (cs : List Char) :
    unindent start (before ++ (blanks ++ cs)) = unindent start (before ++ cs) := by
  obtain ⟨line, rfl⟩ := List.getLast?_eq_some_iff.1 hbefore
  clear hbefore
  induction line generalizing start with
  | nil => simp [unindent, unindent_blanks h]
  | cons c line ih =>
    simp only [List.cons_append, unindent, ih]

/-! ## Drafts -/

/-- Characters of a draft. -/
def ink (text : String) : List (Option Char) := text.toList.map some

/-- The draft with its holes filled. -/
def fill (unit : List Char) (draft : List (Option Char)) : List Char :=
  draft.flatMap fun c => c.elim unit fun c => [c]

@[simp] theorem fill_append (unit : List Char) (a b : List (Option Char)) :
    fill unit (a ++ b) = fill unit a ++ fill unit b := by
  simp [fill]

@[simp] theorem fill_hole (unit : List Char) (a : List (Option Char)) :
    fill unit (none :: a) = unit ++ fill unit a := rfl

@[simp] theorem fill_ink (unit : List Char) (text : String) :
    fill unit (ink text) = text.toList := by
  simp [fill, ink, List.flatMap_map]

/-- A draft with a hole for each of the properties: the hole follows a line feed, and the line of
the property follows the hole. -/
inductive Ruled : List Property → List (Option Char) → Prop
  | blank : Ruled [] []
  | text {qs : List Property} {before : List (Option Char)} (t : String) :
      Ruled qs before → Ruled qs (before ++ ink t)
  | line {qs : List Property} {before : List (Option Char)} (q : Property) :
      Ruled qs before → before.getLast? = some (some '\n') →
      Ruled (qs ++ [q]) (before ++ none :: ink (q.render ++ ",\n"))

theorem getLast?_fill {unit : List Char} {draft : List (Option Char)} {c : Char}
    (h : draft.getLast? = some (some c)) : (fill unit draft).getLast? = some c := by
  obtain ⟨before, rfl⟩ := List.getLast?_eq_some_iff.1 h
  simp [fill]

/-- **Two ways to fill the holes with blanks** give the same lines without blanks at their start. -/
theorem Ruled.unindent_fill {qs : List Property} {draft : List (Option Char)} (h : Ruled qs draft)
    {unit unit' : List Char} (hunit : ∀ c ∈ unit, c = ' ' ∨ c = '\t')
    (hunit' : ∀ c ∈ unit', c = ' ' ∨ c = '\t') (cs : List Char) :
    unindent true (fill unit draft ++ cs) = unindent true (fill unit' draft ++ cs) := by
  induction h generalizing cs with
  | blank => rfl
  | text t _ ih => simpa using ih (t.toList ++ cs)
  | @line qs before q _ hfeed ih =>
    simp only [fill_append, fill_hole, fill_ink, List.append_assoc]
    rw [unindent_append_blanks (getLast?_fill hfeed) hunit,
      unindent_append_blanks (getLast?_fill hfeed) hunit']
    exact ih _

/-! ## The drafts of programs -/

/-- In every layout the text is one draft, filled, and behind any other draft it adds a hole for
each of the properties. -/
def Drafted (text : PrintOptions → String) (qs : List Property) : Prop :=
  ∃ draft, (∀ o, (text o).toList = fill o.unit.toList draft) ∧
    ∀ rs before, Ruled rs before → Ruled (rs ++ qs) (before ++ draft)

theorem drafted_text (t : String) : Drafted (fun _ => t) [] :=
  ⟨ink t, fun o => (fill_ink _ t).symm, fun rs before h => by simpa using h.text t⟩

theorem Drafted.append {f g : PrintOptions → String} {qs rs : List Property} (hf : Drafted f qs)
    (hg : Drafted g rs) : Drafted (fun o => f o ++ g o) (qs ++ rs) := by
  obtain ⟨a, ha, hqs⟩ := hf
  obtain ⟨b, hb, hrs⟩ := hg
  refine ⟨a ++ b, fun o => by simp [ha, hb], fun ps before h => ?_⟩
  rw [← List.append_assoc, ← List.append_assoc]
  exact hrs _ _ (hqs ps before h)

/-- Each line ends in the line feed that the next one needs. -/
theorem Ruled.lines {rs : List Property} {before : List (Option Char)} (h : Ruled rs before)
    (hfeed : before.getLast? = some (some '\n')) (ps : List Property) :
    Ruled (rs ++ ps) (before ++ ps.flatMap fun p => none :: ink (p.render ++ ",\n")) := by
  induction ps generalizing rs before with
  | nil => simpa using h
  | cons p ps ih =>
    have hlast : (before ++ none :: ink (p.render ++ ",\n")).getLast? = some (some '\n') :=
      List.getLast?_eq_some_iff.2
        ⟨before ++ none :: (ink p.render ++ [some ',']), by simp [ink]⟩
    simpa using ih (h.line p hfeed) hlast

theorem drafted_block (shape : ObjectType) :
    Drafted (fun o => shape.renderBlock o) shape.properties := by
  obtain ⟨properties, exact⟩ := shape
  cases properties with
  | nil => exact drafted_text _
  | cons p ps =>
    have hlines : Drafted (fun o => (braces exact).1 ++ "\n" ++
        String.join ((p :: ps).map fun p => o.unit ++ p.render ++ ",\n")) (p :: ps) := by
      refine ⟨ink ((braces exact).1 ++ "\n") ++
        (p :: ps).flatMap fun p => none :: ink (p.render ++ ",\n"), fun o => ?_,
        fun rs before h => ?_⟩
      · rw [String.toList_append, String.toList_join, fill_append, fill_ink]
        congr 1
        induction p :: ps with
        | nil => rfl
        | cons q qs ih => simp [ih]
      · rw [← List.append_assoc]
        exact (h.text _).lines (by simp [ink]) (p :: ps)
    have hall := hlines.append (drafted_text (braces exact).2)
    rwa [List.append_nil] at hall

/-- The properties that have a line of their own. -/
def Declaration.lineProperties : Declaration → List Property
  | .interface _ _ body => body.properties
  | .typeAlias _ (.object shape) => shape.properties
  | _ => []

/-- The properties that have a line of their own, in order. -/
def Program.lineProperties (p : Program) : List Property :=
  p.body.flatMap Declaration.lineProperties

theorem drafted_declaration (d : Declaration) :
    Drafted (fun o => d.render o) d.lineProperties := by
  cases d with
  | interface name supers body =>
    exact (drafted_text ("export interface " ++ name ++ renderSupers supers)).append
      (drafted_block body)
  | typeAlias name body =>
    have hbody : Drafted (fun o => body.renderBody o)
        (Declaration.typeAlias name body).lineProperties := by
      cases body with
      | object shape => exact drafted_block shape
      | _ => exact drafted_text _
    have hall := ((drafted_text ("export type " ++ name ++ " = ")).append hbody).append
      (drafted_text ";")
    rwa [List.nil_append, List.append_nil] at hall
  | opaqueType name underlying => exact drafted_text _

theorem drafted_spacedText (ds : List Declaration) :
    Drafted (fun o => spacedText o ds) (ds.flatMap Declaration.lineProperties) := by
  induction ds with
  | nil => exact drafted_text _
  | cons d ds ih =>
    have hline := (drafted_text "\n").append ((drafted_declaration d).append (drafted_text "\n"))
    have hall := hline.append ih
    simp only [List.nil_append, List.append_nil, ← spacedText_cons] at hall
    exact hall

/-- The indentation does not hang on the first line. -/
theorem Drafted.pragma {text : PrintOptions → String} {qs : List Property} (h : Drafted text qs)
    (b : Bool) : Drafted (fun o => text { o with pragma := b }) qs := by
  obtain ⟨draft, hdraft, hruled⟩ := h
  exact ⟨draft, fun o => hdraft { o with pragma := b }, hruled⟩

theorem drafted_program (p : Program) (b : Bool) :
    Drafted (fun o => p.print { o with pragma := b }) p.lineProperties := by
  obtain ⟨ds⟩ := p
  cases b with
  | true =>
    have hall := (drafted_text "// @flow\n").append ((drafted_spacedText ds).pragma true)
    simp only [List.nil_append] at hall
    simp only [print_of_pragma]
    exact hall
  | false =>
    cases ds with
    | nil =>
      simp only [print_nil]
      exact drafted_text ""
    | cons d ds =>
      have hall := (((drafted_declaration d).pragma false).append (drafted_text "\n")).append
        ((drafted_spacedText ds).pragma false)
      rw [List.append_nil] at hall
      simp only [print_of_cons]
      exact hall

/-! ## Layouts -/

theorem render_pragma (o : PrintOptions) (b : Bool) (d : Declaration) :
    d.render { o with pragma := b } = d.render o := by
  obtain ⟨draft, hdraft, _⟩ := drafted_declaration d
  rw [← String.toList_inj, hdraft, hdraft]
  rfl

/-- The first line stands before the text without it. -/
theorem print_pragma_eq (o : PrintOptions) (p : Program) :
    p.print { o with pragma := true } =
      "// @flow\n" ++
        if p.body.isEmpty then "" else "\n" ++ p.print { o with pragma := false } := by
  have hspaced (b : Bool) (ds : List Declaration) :
      spacedText { o with pragma := b } ds = spacedText o ds := by
    simp only [spacedText, render_pragma]
  obtain ⟨ds⟩ := p
  cases ds with
  | nil => rw [print_of_pragma rfl]; rfl
  | cons d ds =>
    rw [print_of_pragma rfl, print_of_cons rfl, hspaced, hspaced, spacedText_cons, render_pragma,
      String.append_assoc]
    rfl

/-- **The layout decides the indentation and the first line only.** -/
theorem print_up_to_indentation (p : Program) (o : PrintOptions) :
    (∃ draft, Ruled p.lineProperties draft ∧
      ∀ o' : PrintOptions, o'.pragma = o.pragma → (p.print o').toList = fill o'.unit.toList draft) ∧
    (∀ o' : PrintOptions, o'.pragma = o.pragma →
      unindent true (p.print o').toList = unindent true (p.print o).toList) ∧
    (p.print { o with pragma := true } =
      "// @flow\n" ++ if p.body.isEmpty then "" else "\n" ++ p.print { o with pragma := false }) ∧
    (o.indent < UInt64.size →
      (∀ earlier : List Program, (Printer.fresh o).printAll (earlier ++ [p]) =
        some (earlier.map (Program.print o) ++ [p.print o], Printer.fresh o)) ∧
      (∀ printer : Printer, printer.options = o →
        printer.print p = some (p.print o, Printer.fresh o)) ∧
      ∀ done, done <+: p.strokes o.pragma → ∃ printer, (Printer.fresh o).run done = some printer ∧
        printer.depth ≤ 1 ∧ printer.depth * o.indent < UInt64.size) := by
  obtain ⟨draft, hdraft, hruled⟩ := drafted_program p o.pragma
  have hrules : Ruled p.lineProperties draft := hruled [] [] .blank
  have htext : ∀ o' : PrintOptions, o'.pragma = o.pragma →
      (p.print o').toList = fill o'.unit.toList draft := by
    intro o' ho'
    have h := hdraft o'
    rwa [← ho'] at h
  refine ⟨⟨draft, hrules, htext⟩, fun o' ho' => ?_, print_pragma_eq o p, fun ho => ⟨?_, ?_, ?_⟩⟩
  · rw [htext o' ho', htext o rfl]
    simpa using hrules.unindent_fill (mem_unit (o := o')) (mem_unit (o := o)) []
  · intro earlier
    simpa using Printer.printAll_fresh ho (earlier ++ [p])
  · exact fun printer hoptions => Printer.print_eq ho printer hoptions p
  · intro done hdone
    obtain ⟨printer, hrun, hdepth⟩ := (passes_program ho p).shallow done hdone
    refine ⟨printer, hrun, hdepth, ?_⟩
    calc printer.depth * o.indent ≤ 1 * o.indent := Nat.mul_le_mul_right _ hdepth
      _ = o.indent := Nat.one_mul _
      _ < UInt64.size := ho

/-- A printer with the widest indentation, nested and in the middle of something, an empty program
before, and an object in an object. -/
theorem print_up_to_indentation_widest :
    let o : PrintOptions := { indent := 18446744073709551615 }
    let inner : ObjectType := ⟨[⟨"a", .string, true⟩], false⟩
    let p : Program := ⟨[.typeAlias "T" (.object ⟨[⟨"b", .object inner, false⟩], true⟩)]⟩
    (o.indent < UInt64.size ∧ { o with tabs := true }.pragma = o.pragma) ∧
      unindent true (p.print { o with tabs := true }).toList = unindent true (p.print o).toList ∧
      (Printer.fresh o).printAll [{}, p] =
        some ([Program.print o {}, p.print o], Printer.fresh o) ∧
      (⟨o, "half", 7⟩ : Printer).print p = some (p.print o, Printer.fresh o) ∧
      ∃ printer, (Printer.fresh o).run (p.strokes o.pragma) = some printer ∧ printer.depth ≤ 1 ∧
        printer.depth * o.indent < UInt64.size := by
  intro o inner p
  have ho : o.indent < UInt64.size := by decide
  obtain ⟨_, htabs, _, hprinter⟩ := print_up_to_indentation p o
  obtain ⟨hearlier, hbusy, hdepth⟩ := hprinter ho
  exact ⟨⟨ho, rfl⟩, htabs _ rfl, hearlier [{}], hbusy ⟨o, "half", 7⟩ rfl, hdepth _ List.prefix_rfl⟩

end SchemaToFlow.Flow
