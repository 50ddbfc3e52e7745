import SchemaToFlow.Proofs.Printing
import SchemaToFlow.Proofs.Writing

/-!
# Reading Flow source back

`Program.read?` is a reader for the text of generated programs. A `Scanner` takes characters off the
front of a text; it skips the type-checking mark and all indentation, so it needs no options.

* `Program.readable` tells which programs it reads: names are names of the schema language, a type
  is built from words, arrays and null, functions are the types of properties only, and a union
  has words or literals for members. No word is `string`, `number` or `empty`, which stand for
  something else.
* `read?_print`: the text of such a program is read as the program, however it is laid out.

`Scanner.Scans r t a bar` says that `r` takes the text `t` and gives `a`, provided that the next
character is none for which `bar` holds.
-/

namespace SchemaToFlow.Flow

open Schema

/-! ## The reader -/

/-- Takes characters off the front of a text, or fails. -/
def Scanner (α : Type) : Type := List Char → Option (α × List Char)

namespace Scanner

variable {α β : Type}

instance : Monad Scanner where
  pure a := fun cs => some (a, cs)
  bind r f := fun cs => (r cs).bind fun p => f p.1 p.2

/-- Takes nothing and fails. -/
def fail : Scanner α := fun _ => none

/-- Takes the given text. -/
def text (t : String) : Scanner Unit := fun cs =>
  if t.toList.isPrefixOf cs then some ((), cs.drop t.toList.length) else none

/-- Takes all characters for which `p` holds. -/
def skip (p : Char → Bool) : Scanner Unit := fun cs => some ((), cs.dropWhile p)

/-- Takes a name. -/
def name : Scanner String := fun cs =>
  some (String.ofList (cs.takeWhile isNamePart), cs.dropWhile isNamePart)

/-- Tells whether the character is next. -/
def sees (c : Char) : Scanner Bool := fun cs => some (cs.head? = some c, cs)

/-- Takes the character if it is next, and tells whether it was. -/
def accept (c : Char) : Scanner Bool := fun cs =>
  if cs.head? = some c then some (true, cs.tail) else some (false, cs)

/-- Runs `item` as long as `go` holds of the next character, but at most `n` times. -/
def manyUpTo (go : Char → Bool) (item : Scanner α) : Nat → Scanner (List α)
  | 0 => pure []
  | n + 1 => fun cs =>
    if cs.head?.any go then (do return (← item) :: (← manyUpTo go item n)) cs else some ([], cs)

/-- Runs `item` as long as `go` holds of the next character. -/
def many (go : Char → Bool) (item : Scanner α) : Scanner (List α) := fun cs =>
  manyUpTo go item cs.length cs

/-- Items set apart by a mark that starts with the character. -/
def separated (c : Char) (mark : String) (item : Scanner α) : Scanner (List α) := do
  let first ← item
  let more ← many (· = c) do
    text mark
    item
  return first :: more

/-- The type that a word stands for. -/
def ofWord (w : String) : TypeExpr :=
  if w = "string" then .string else if w = "number" then .number else .identifier w

/-- A type made of words, arrays and null, nested at most `n` levels deep. -/
def typeUpTo : Nat → Scanner TypeExpr
  | 0 => fail
  | n + 1 => do
    if ← accept '?' then
      return .nullable (← typeUpTo n)
    else
      let w ← name
      if ← accept '<' then
        let item ← typeUpTo n
        text ">"
        return .array item
      else
        return ofWord w

/-- A type made of words, arrays and null. -/
def type : Scanner TypeExpr := fun cs => typeUpTo (cs.length + 1) cs

/-- A property whose type is read by `type`. -/
def property (type : Scanner TypeExpr) : Scanner Property := do
  let name ← name
  let optional ← accept '?'
  text ": "
  return ⟨name, ← type, optional⟩

/-- The type of a property: a function of named arguments, or a type without one. -/
def propertyType : Scanner TypeExpr := do
  if ← sees '(' then
    text "(params: \x7b "
    let arguments ← separated ',' ", " (property type)
    text " \x7d) => "
    return .function ⟨arguments, false⟩ (← type)
  else
    type

/-- A property on a line of its own. -/
def line : Scanner Property := do
  skip fun c => c = ' ' || c = '\t'
  let p ← property propertyType
  text ",\n"
  return p

/-- An object type with one property to a line. -/
def block : Scanner ObjectType := do
  text "\x7b"
  let exact ← accept '|'
  let properties ←
    if ← accept '\n' then many (fun c => c ≠ '|' && c ≠ '\x7d') line else pure []
  text (braces exact).2
  return ⟨properties, exact⟩

/-- A member of a union: a literal or a word. -/
def member : Scanner TypeExpr := do
  if ← accept '"' then
    let value ← name
    text "\""
    return .literal value
  else
    return ofWord (← name)

/-- What a type alias stands for: an object type or a union, which may be empty. -/
def aliasBody : Scanner TypeExpr := do
  if ← sees '\x7b' then
    return .object (← block)
  else
    let members ← separated ' ' " | " member
    return .union (members.filter fun m => m.identifier? ≠ some "empty")

/-- The names of the interfaces that an interface extends, if there are any. -/
def supers : Scanner (List String) := do
  if ← sees 'e' then
    text "extends "
    let names ← separated ',' ", " name
    text " "
    return names
  else
    return []

/-- A declaration. -/
def declaration : Scanner Declaration := do
  text "export "
  let kind ← name
  text " "
  if kind = "interface" then
    let name ← name
    text " "
    let supers ← supers
    return .interface name supers (← block)
  else if kind = "type" then
    let name ← name
    text " = "
    let body ← aliasBody
    text ";"
    return .typeAlias name body
  else
    text "type "
    let name ← name
    text " = "
    text "any"
    text ";"
    return .opaqueType name .any

/-- A program, up to the end of the text. -/
def program : Scanner Program := do
  if ← sees '/' then
    text "// @flow\n"
  let body ← many (fun _ => true) do
    skip (· = '\n')
    let d ← declaration
    text "\n"
    return d
  return ⟨body⟩

end Scanner

/-- The program that a text was printed from. -/
def Program.read? (code : String) : Option Program := (Scanner.program code.toList).map Prod.fst

/-! ## Which programs it reads -/

/-- A word that stands for itself. -/
def isOwnWord (w : String) : Bool := w ∉ ["string", "number", "empty"]

/-- A type made of words, arrays and null. -/
def TypeExpr.plain : TypeExpr → Bool
  | .string | .number => true
  | .identifier n => isName n && isOwnWord n
  | .nullable t | .array t => t.plain
  | _ => false

/-- A property without a function. -/
def Property.plain (p : Property) : Bool := isName p.name && p.type.plain

/-- A type that a property may have. -/
def TypeExpr.ofProperty : TypeExpr → Bool
  | .function ⟨arguments, exact⟩ returns =>
    !arguments.isEmpty && arguments.all Property.plain && !exact && returns.plain
  | t => t.plain

/-- A property of a declared object. -/
def Property.readable (p : Property) : Bool := isName p.name && p.type.ofProperty

/-- A type that a union may have for a member. -/
def TypeExpr.ofUnion : TypeExpr → Bool
  | .literal value => isName value
  | .nullable _ | .array _ => false
  | t => t.plain

/-- A type that a type alias may stand for. -/
def TypeExpr.ofAlias : TypeExpr → Bool
  | .object shape => shape.properties.all Property.readable
  | .union members => members.all TypeExpr.ofUnion
  | _ => false

/-- A declaration that can be read back. -/
def Declaration.readable : Declaration → Bool
  | .interface name supers body =>
    isName name && supers.all isName && body.properties.all Property.readable
  | .typeAlias name body => isName name && body.ofAlias
  | .opaqueType name .any => isName name
  | _ => false

/-- A program that can be read back. -/
def Program.readable (p : Program) : Bool := p.body.all Declaration.readable

/-! ## Rules -/

namespace Scanner

variable {α β γ : Type}

/-- The next character is none for which `bar` holds. -/
def Clear (bar : Char → Bool) (rest : List Char) : Prop := ∀ c ∈ rest.head?, bar c = false

/-- The scanner takes the text and gives the result. -/
def Scans (r : Scanner α) (t : List Char) (a : α) (bar : Char → Bool) : Prop :=
  ∀ rest, Clear bar rest → r (t ++ rest) = some (a, rest)

/-- The text and what may follow it do not start with a character for which `bar'` holds. -/
def Leaves (t : List Char) (bar bar' : Char → Bool) : Prop :=
  ∀ rest, Clear bar rest → Clear bar' (t ++ rest)

theorem clear_nil (bar : Char → Bool) : Clear bar [] := by
  rintro c ⟨⟩

theorem clear_cons {bar : Char → Bool} {c : Char} {cs : List Char} :
    Clear bar (c :: cs) ↔ bar c = false := by
  constructor
  · exact fun h => h c rfl
  · rintro h _ ⟨rfl⟩
    exact h

section Rules

variable {bar bar' : Char → Bool} {t u : List Char}

theorem leaves_cons {c : Char} {cs : List Char} (h : bar' c = false) :
    Leaves (c :: cs) bar bar' := fun _ _ => clear_cons.2 h

theorem leaves_nil (h : ∀ c, bar' c = true → bar c = true) : Leaves [] bar bar' := by
  intro rest hrest c hc
  cases hbar : bar' c with
  | false => rfl
  | true => exact (h c hbar).symm.trans (hrest c hc)

theorem leaves_none : Leaves t bar fun _ => false := fun _ _ _ _ => rfl

namespace Scans

variable {r : Scanner α} {f : α → Scanner β} {a : α} {b : β}

theorem done (a : α) : Scans (pure a) [] a bar := fun _ _ => rfl

/-- The text of one scanner and then that of the next. -/
theorem bind (hr : Scans r t a bar') (hu : Leaves u bar bar') (hf : Scans (f a) u b bar) :
    Scans (r >>= f) (t ++ u) b bar := by
  intro rest hrest
  have hfirst := hr (u ++ rest) (hu rest hrest)
  show (r (t ++ u ++ rest)).bind (fun p => f p.1 p.2) = some (b, rest)
  rw [List.append_assoc, hfirst]
  exact hf rest hrest

/-- What comes after the last of the text takes nothing. -/
theorem last (hr : Scans r t a bar) (hf : Scans (f a) [] b bar) : Scans (r >>= f) t b bar := by
  have h := hr.bind (leaves_nil fun _ hc => hc) hf
  rwa [List.append_nil] at h

theorem mono (h : Scans r t a bar') (hbar : ∀ c, bar' c = true → bar c = true) :
    Scans r t a bar := fun rest hrest => h rest (leaves_nil hbar rest hrest)

theorem yes {r' : Scanner α} {c : Prop} [Decidable c] (hc : c) (h : Scans r t a bar) :
    Scans (if c then r else r') t a bar := by
  rwa [if_pos hc]

theorem no {r' : Scanner α} {c : Prop} [Decidable c] (hc : ¬ c) (h : Scans r t a bar) :
    Scans (if c then r' else r) t a bar := by
  rwa [if_neg hc]

theorem ofBound {r : Nat → Scanner α} (h : ∀ n, t.length ≤ n → Scans (r n) t a bar) :
    Scans (fun cs => r cs.length cs) t a bar := by
  intro rest hrest
  refine h _ ?_ rest hrest
  rw [List.length_append]
  exact Nat.le_add_right _ _

section Steps

variable {f : Unit → Scanner β} {g : Bool → Scanner β} {c : Char}

theorem take (m : String) (hf : Scans (f ()) t b bar) :
    Scans (text m >>= f) (m.toList ++ t) b bar := by
  have htext : Scans (text m) m.toList () (fun _ => false) := by
    intro rest _
    have hprefix : m.toList.isPrefixOf (m.toList ++ rest) = true :=
      List.isPrefixOf_iff_prefix.2 (List.prefix_append _ _)
    rw [text, if_pos hprefix, List.drop_left]
  exact htext.bind leaves_none hf

/-- The last of the text. -/
theorem takeLast (m : String) (hf : Scans (f ()) [] b bar) :
    Scans (text m >>= f) m.toList b bar := by
  have h := take m hf
  rwa [List.append_nil] at h

theorem skips {p : Char → Bool} (ht : ∀ c ∈ t, p c = true) (hu : Leaves u bar p)
    (hf : Scans (f ()) u b bar) : Scans (skip p >>= f) (t ++ u) b bar := by
  have hskip : Scans (skip p) t () p := by
    intro rest hrest
    have hrest' : rest.dropWhile p = rest := by
      cases rest with
      | nil => rfl
      | cons c cs =>
        have hc : ¬ p c = true := by
          rw [clear_cons.1 hrest]
          exact Bool.false_ne_true
        rw [List.dropWhile_cons_of_neg hc]
    rw [skip, List.dropWhile_append_of_pos ht, hrest']
  exact hskip.bind hu hf

theorem took (hg : Scans (g true) t b bar) : Scans (accept c >>= g) (c :: t) b bar := by
  intro rest hrest
  have haccept : accept c (c :: (t ++ rest)) = some (true, t ++ rest) := if_pos rfl
  show (accept c (c :: (t ++ rest))).bind (fun p => g p.1 p.2) = some (b, rest)
  rw [haccept]
  exact hg rest hrest

theorem head?_ne_of_clear {rest : List Char} (h : Clear (· = c) rest) : rest.head? ≠ some c := by
  intro hc
  have hne := h c hc
  simp at hne

theorem missed (ht : Leaves t bar (· = c)) (hg : Scans (g false) t b bar) :
    Scans (accept c >>= g) t b bar := by
  intro rest hrest
  have haccept : accept c (t ++ rest) = some (false, t ++ rest) :=
    if_neg (head?_ne_of_clear (ht rest hrest))
  show (accept c (t ++ rest)).bind (fun p => g p.1 p.2) = some (b, rest)
  rw [haccept]
  exact hg rest hrest

theorem saw (hg : Scans (g true) (c :: t) b bar) : Scans (sees c >>= g) (c :: t) b bar := by
  intro rest hrest
  have hsees : sees c (c :: (t ++ rest)) = some (true, c :: (t ++ rest)) := by simp [sees]
  show (sees c (c :: (t ++ rest))).bind (fun p => g p.1 p.2) = some (b, rest)
  rw [hsees]
  exact hg rest hrest

theorem unseen (ht : Leaves t bar (· = c)) (hg : Scans (g false) t b bar) :
    Scans (sees c >>= g) t b bar := by
  intro rest hrest
  have hsees : sees c (t ++ rest) = some (false, t ++ rest) := by
    rw [sees, decide_eq_false (head?_ne_of_clear (ht rest hrest))]
  show (sees c (t ++ rest)).bind (fun p => g p.1 p.2) = some (b, rest)
  rw [hsees]
  exact hg rest hrest

end Steps

/-- The text of one round of a loop: it starts with a character on which the loop goes on. -/
structure Round (r : Scanner α) (t : List Char) (a : α) (go bar : Char → Bool) : Prop where
  starts : ∃ c cs, t = c :: cs ∧ go c = true
  scans : Scans r t a bar

section Loops

variable {go : Char → Bool} {item : Scanner α} {txt : γ → List Char} {v : γ → α}

theorem rounds_upTo (hgo : ∀ c, go c = true → bar' c = false) :
    ∀ (xs : List γ), (∀ x ∈ xs, Round item (txt x) (v x) go bar') → ∀ n, xs.length ≤ n →
      Scans (manyUpTo go item n) (xs.flatMap txt) (xs.map v) fun c => go c || bar' c
  | [], _, 0, _ => done []
  | [], _, n + 1, _ => by
    intro rest hrest
    have hstop : ¬ rest.head?.any go = true := by
      cases rest with
      | nil => exact Bool.false_ne_true
      | cons c cs =>
        have hc := (Bool.or_eq_false_iff.1 (clear_cons.1 hrest)).1
        rw [List.head?_cons, Option.any_some, hc]
        exact Bool.false_ne_true
    show manyUpTo go item (n + 1) rest = _
    unfold manyUpTo
    rw [if_neg hstop]
    rfl
  | x :: xs, hxs, n + 1, hn => by
    rw [List.forall_mem_cons] at hxs
    have hnext : Leaves (xs.flatMap txt) (fun c => go c || bar' c) bar' := by
      cases xs with
      | nil => exact leaves_nil fun c hc => by rw [hc, Bool.or_true]
      | cons y ys =>
        obtain ⟨c, cs, htxt, hc⟩ := (hxs.2 y List.mem_cons_self).starts
        rw [List.flatMap_cons, htxt]
        exact leaves_cons (hgo c hc)
    have hround : Scans (do return (← item) :: (← manyUpTo go item n)) ((x :: xs).flatMap txt)
        ((x :: xs).map v) fun c => go c || bar' c :=
      hxs.1.scans.bind hnext
        (last (rounds_upTo hgo xs hxs.2 n (Nat.le_of_succ_le_succ hn)) (done _))
    intro rest hrest
    have hgo' : ((x :: xs).flatMap txt ++ rest).head?.any go = true := by
      obtain ⟨c, cs, htxt, hc⟩ := hxs.1.starts
      rw [List.flatMap_cons, htxt]
      exact hc
    unfold manyUpTo
    rw [if_pos hgo']
    exact hround rest hrest

theorem rounds (hgo : ∀ c, go c = true → bar' c = false) {xs : List γ}
    (hxs : ∀ x ∈ xs, Round item (txt x) (v x) go bar') :
    Scans (many go item) (xs.flatMap txt) (xs.map v) fun c => go c || bar' c := by
  refine ofBound fun n hn => rounds_upTo hgo xs hxs n ?_
  -- every round takes a character
  have hne (x : γ) (hx : x ∈ xs) : txt x ≠ [] := by
    obtain ⟨c, cs, htxt, _⟩ := (hxs x hx).starts
    rw [htxt]
    exact List.cons_ne_nil c cs
  exact Nat.le_trans (length_le_length_flatMap hne) hn

theorem intercalate_cons (m t : List Char) (ts : List (List Char)) :
    m.intercalate (t :: ts) = t ++ ts.flatMap fun t => m ++ t := by
  induction ts generalizing t with
  | nil => simp
  | cons t' ts ih => rw [List.intercalate_cons_cons, ih, List.flatMap_cons]; simp

/-- Items set apart by a mark. -/
theorem separates {c : Char} {m : String} {cs : List Char} (hm : m.toList = c :: cs)
    (hc : bar' c = false) {xs : List γ} (hne : xs ≠ [])
    (hxs : ∀ x ∈ xs, Scans item (txt x) (v x) bar') :
    Scans (separated c m item) (m.toList.intercalate (xs.map txt)) (xs.map v)
      fun d => decide (d = c) || bar' d := by
  obtain ⟨x, xs, rfl⟩ := List.exists_cons_of_ne_nil hne
  rw [List.forall_mem_cons] at hxs
  have hround : ∀ x ∈ xs, Round (do text m; item) (m.toList ++ txt x) (v x) (· = c) bar' := by
    refine fun x hx => ⟨⟨c, cs ++ txt x, by rw [hm]; rfl, decide_eq_true rfl⟩, ?_⟩
    exact take m (hxs.2 x hx)
  rw [List.map_cons, intercalate_cons, List.flatMap_map]
  refine hxs.1.bind ?_ (last (rounds (fun d hd => of_decide_eq_true hd ▸ hc) hround) (done _))
  cases xs with
  | nil => exact leaves_nil fun d hd => by rw [hd, Bool.or_true]
  | cons y ys =>
    rw [List.flatMap_cons, hm]
    exact leaves_cons hc

end Loops

end Scans

end Rules

open Scans

/-! ## Types -/

/-- Characters that would go on a type. -/
def goesOn (c : Char) : Bool := isNamePart c || c = '<'

theorem goesOn_of_isNamePart {c : Char} (h : isNamePart c = true) : goesOn c = true := by
  rw [goesOn, h]
  rfl

/-- A name starts with no character that cannot start one. -/
theorem leaves_name {n : String} (hn : isName n = true) {bar' : Char → Bool}
    (h : ∀ c, bar' c = true → isNameStart c = false) (t : List Char) (bar : Char → Bool) :
    Leaves (n.toList ++ t) bar bar' := by
  obtain ⟨c, cs, hc, hstart, _⟩ := exists_cons_of_isName hn
  rw [hc]
  refine leaves_cons ?_
  cases hbar : bar' c with
  | false => rfl
  | true => exact absurd hstart (by rw [h c hbar]; exact Bool.false_ne_true)

theorem scans_name {n : String} (h : isName n = true) : Scans name n.toList n isNamePart := by
  obtain ⟨_, _, _, _, hparts⟩ := exists_cons_of_isName h
  intro rest hrest
  have hstop : rest.takeWhile isNamePart = [] ∧ rest.dropWhile isNamePart = rest := by
    cases rest with
    | nil => exact ⟨rfl, rfl⟩
    | cons c cs =>
      have hc : ¬ isNamePart c = true := by
        rw [clear_cons.1 hrest]
        exact Bool.false_ne_true
      exact ⟨List.takeWhile_cons_of_neg hc, List.dropWhile_cons_of_neg hc⟩
  rw [name, List.takeWhile_append_of_pos hparts, List.dropWhile_append_of_pos hparts, hstop.1,
    hstop.2, List.append_nil, String.ofList_toList]

theorem not_isNameStart_of_eq {c d : Char} (hd : isNameStart d = false)
    (h : decide (c = d) = true) : isNameStart c = false := by
  rw [of_decide_eq_true h, hd]

/-- A word, which stands for a type. -/
theorem scans_word {w : String} (hw : isName w = true) (n : Nat) :
    Scans (typeUpTo (n + 1)) w.toList (ofWord w) goesOn := by
  have hquestion : Leaves w.toList goesOn (· = '?') := by
    have h := leaves_name hw (fun _ => not_isNameStart_of_eq (by decide : isNameStart '?' = false))
      [] goesOn
    rwa [List.append_nil] at h
  unfold typeUpTo
  refine missed hquestion (last ((scans_name hw).mono fun _ => goesOn_of_isNamePart) ?_)
  refine missed (leaves_nil fun c hc => ?_) (done _)
  rw [of_decide_eq_true hc]
  rfl

theorem needsParens_of_plain {t : TypeExpr} (h : t.plain = true) : t.needsParens = false := by
  cases t <;> first | rfl | cases h

theorem ofWord_of_isOwnWord {w : String} (h : isOwnWord w = true) :
    ofWord w = .identifier w := by
  simp only [isOwnWord, decide_eq_true_eq, List.mem_cons, not_or] at h
  rw [ofWord, if_neg h.1, if_neg h.2.1]

theorem render_array (item : TypeExpr) : (TypeExpr.array item).render.toList =
    "Array".toList ++ ('<' :: (item.render.toList ++ ">".toList)) := by
  simp [TypeExpr.render]

theorem render_nullable {inner : TypeExpr} (h : inner.plain = true) :
    (TypeExpr.nullable inner).render.toList = '?' :: inner.render.toList := by
  simp [TypeExpr.render, needsParens_of_plain h]

theorem scans_typeUpTo : ∀ (n : Nat) (t : TypeExpr), t.plain = true →
    t.render.toList.length < n → Scans (typeUpTo n) t.render.toList t goesOn
  | n + 1, .string, _, _ => scans_word (by decide : isName "string" = true) n
  | n + 1, .number, _, _ => scans_word (by decide : isName "number" = true) n
  | n + 1, .identifier m, h, _ => by
    obtain ⟨hm, hne⟩ := Bool.and_eq_true_iff.1 h
    have hword := scans_word hm n
    rw [ofWord_of_isOwnWord hne] at hword
    exact hword
  | n + 1, .nullable inner, h, hn => by
    have hinner : inner.plain = true := h
    rw [render_nullable hinner] at hn ⊢
    unfold typeUpTo
    exact took (last (scans_typeUpTo n inner h (Nat.lt_of_succ_lt_succ hn)) (done _))
  | n + 1, .array item, h, hn => by
    rw [render_array] at hn ⊢
    have hlength : item.render.toList.length < n := by
      simp only [List.length_append, List.length_cons] at hn
      omega
    unfold typeUpTo
    refine missed (leaves_cons (by decide)) ?_
    refine (scans_name (by decide : isName "Array" = true)).bind (leaves_cons (by decide)) (took ?_)
    refine (scans_typeUpTo n item h hlength).bind (leaves_cons (by decide)) ?_
    exact takeLast ">" (done _)

theorem scans_type {t : TypeExpr} (h : t.plain = true) : Scans type t.render.toList t goesOn :=
  ofBound (r := fun n => typeUpTo (n + 1)) fun n hn =>
    scans_typeUpTo (n + 1) t h (Nat.lt_succ_of_le hn)

/-! ## Properties -/

theorem render_property (p : Property) : p.render.toList =
    p.name.toList ++ ((if p.optional then ['?'] else []) ++
      (": ".toList ++ p.type.render.toList)) := by
  obtain ⟨name, type, optional⟩ := p
  cases optional <;> simp [Property.render]

theorem scans_property {r : Scanner TypeExpr} {p : Property} {bar : Char → Bool}
    (hname : isName p.name = true) (htype : Scans r p.type.render.toList p.type bar) :
    Scans (property r) p.render.toList p bar := by
  rw [render_property]
  obtain ⟨name, type, optional⟩ := p
  have hrest : Scans (do text ": "; return Property.mk name (← r) optional)
      (": ".toList ++ type.render.toList) ⟨name, type, optional⟩ bar :=
    take ": " (last htype (done _))
  unfold property
  cases optional with
  | true => exact (scans_name hname).bind (leaves_cons (by decide)) (took hrest)
  | false =>
    refine (scans_name hname).bind (leaves_cons (by decide)) ?_
    exact missed (leaves_cons (by decide)) hrest

theorem renderProperties_eq (ps : List Property) :
    renderProperties ps = ps.map Property.render := by
  induction ps with
  | nil => rfl
  | cons p ps ih => rw [renderProperties, ih, List.map_cons]

theorem renderTypes_eq (ts : List TypeExpr) : renderTypes ts = ts.map TypeExpr.render := by
  induction ts with
  | nil => rfl
  | cons t ts ih => rw [renderTypes, ih, List.map_cons]

theorem render_function {arguments : List Property} (h : arguments ≠ []) (returns : TypeExpr) :
    (TypeExpr.function ⟨arguments, false⟩ returns).render.toList =
      "(params: \x7b ".toList ++
        (", ".toList.intercalate (arguments.map fun p => p.render.toList) ++
          (" \x7d) => ".toList ++ returns.render.toList)) := by
  obtain ⟨p, ps, rfl⟩ := List.exists_cons_of_ne_nil h
  simp [TypeExpr.render, ObjectType.render, braces, renderProperties_eq, Function.comp_def]

/-- A type made of words, arrays and null starts like a name or with a question mark. -/
theorem leaves_plain {t : TypeExpr} (h : t.plain = true) {bar' : Char → Bool}
    (hbar : ∀ c, bar' c = true → isNameStart c = false ∧ c ≠ '?') (u : List Char)
    (bar : Char → Bool) : Leaves (t.render.toList ++ u) bar bar' := by
  have hname (c : Char) (hc : bar' c = true) : isNameStart c = false := (hbar c hc).1
  cases t with
  | string => exact leaves_name (by decide : isName "string" = true) hname u bar
  | number => exact leaves_name (by decide : isName "number" = true) hname u bar
  | identifier n => exact leaves_name (Bool.and_eq_true_iff.1 h).1 hname u bar
  | nullable inner =>
    have hinner : inner.plain = true := h
    rw [render_nullable hinner]
    refine leaves_cons ?_
    cases hc : bar' '?' with
    | false => rfl
    | true => exact absurd rfl (hbar '?' hc).2
  | array item =>
    rw [render_array, List.append_assoc]
    exact leaves_name (by decide : isName "Array" = true) hname _ bar
  | any | literal _ | function _ _ | object _ | union _ => cases h

theorem scans_plain {p : Property} (h : p.plain = true) :
    Scans (property type) p.render.toList p goesOn :=
  scans_property (Bool.and_eq_true_iff.1 h).1 (scans_type (Bool.and_eq_true_iff.1 h).2)

theorem scans_function {arguments : List Property} {returns : TypeExpr} (hne : arguments ≠ [])
    (harguments : ∀ p ∈ arguments, p.plain = true) (hreturns : returns.plain = true) :
    Scans propertyType (TypeExpr.function ⟨arguments, false⟩ returns).render.toList
      (.function ⟨arguments, false⟩ returns) goesOn := by
  have hlist : Scans (separated ',' ", " (property type))
      (", ".toList.intercalate (arguments.map fun p => p.render.toList)) arguments
      fun d => decide (d = ',') || goesOn d := by
    have h := separates (v := id) (m := ", ") rfl (by decide) hne
      fun p hp => scans_plain (harguments p hp)
    rwa [List.map_id] at h
  rw [render_function hne]
  unfold propertyType
  refine saw (take "(params: \x7b " ?_)
  refine hlist.bind (leaves_cons (by decide)) (take " \x7d) => " ?_)
  exact last (scans_type hreturns) (done _)

theorem scans_propertyType_plain {t : TypeExpr} (h : t.plain = true) :
    Scans propertyType t.render.toList t goesOn := by
  have hparen : Leaves (t.render.toList ++ []) goesOn (· = '(') := by
    refine leaves_plain h (fun c hc => ?_) [] goesOn
    rw [of_decide_eq_true hc]
    decide
  rw [List.append_nil] at hparen
  exact unseen hparen (scans_type h)

theorem scans_propertyType {t : TypeExpr} (h : t.ofProperty = true) :
    Scans propertyType t.render.toList t goesOn := by
  cases t with
  | function params returns =>
    obtain ⟨arguments, exact⟩ := params
    simp only [TypeExpr.ofProperty, Bool.and_eq_true, Bool.not_eq_true'] at h
    obtain ⟨⟨⟨hne, harguments⟩, rfl⟩, hreturns⟩ := h
    refine scans_function ?_ (List.all_eq_true.1 harguments) hreturns
    rintro rfl
    cases hne
  | string | number | identifier _ | nullable _ | array _ => exact scans_propertyType_plain h
  | any | literal _ | object _ | union _ => cases h

/-! ## Declared objects -/

theorem isBlank_of_mem_unit (o : PrintOptions) :
    ∀ c ∈ o.unit.toList, (decide (c = ' ') || decide (c = '\t')) = true := by
  intro c hc
  simpa using mem_unit c hc

/-- The text of a property on a line of its own. -/
def lineText (o : PrintOptions) (p : Property) : List Char :=
  o.unit.toList ++ (p.render.toList ++ ",\n".toList)

theorem scans_line {p : Property} (h : p.readable = true) (o : PrintOptions) :
    Scans line (lineText o p) p fun _ => false := by
  obtain ⟨hname, htype⟩ := Bool.and_eq_true_iff.1 h
  have hstart : Leaves (p.render.toList ++ ",\n".toList) (fun _ => false)
      fun c => decide (c = ' ') || decide (c = '\t') := by
    rw [render_property, List.append_assoc]
    refine leaves_name hname (fun c hc => ?_) _ _
    simp only [Bool.or_eq_true, decide_eq_true_eq] at hc
    rcases hc with rfl | rfl
    · decide
    · decide
  unfold line
  refine skips (isBlank_of_mem_unit o) hstart ?_
  refine (scans_property hname (scans_propertyType htype)).bind (leaves_cons (by decide)) ?_
  exact takeLast ",\n" (done _)

theorem starts_line {p : Property} (h : p.readable = true) (o : PrintOptions) :
    ∃ c cs, lineText o p = c :: cs ∧ (decide (c ≠ '|') && decide (c ≠ '\x7d')) = true := by
  obtain ⟨hname, _⟩ := Bool.and_eq_true_iff.1 h
  cases hunit : o.unit.toList with
  | nil =>
    obtain ⟨c, cs, hc, hstart, _⟩ := exists_cons_of_isName hname
    refine ⟨c, _, by rw [lineText, hunit, render_property, hc]; rfl, ?_⟩
    have hbar : c ≠ '|' := by
      rintro rfl
      exact absurd hstart (by decide)
    have hbrace : c ≠ '\x7d' := by
      rintro rfl
      exact absurd hstart (by decide)
    simp [hbar, hbrace]
  | cons c cs =>
    refine ⟨c, _, by rw [lineText, hunit]; rfl, ?_⟩
    have hblank := isBlank_of_mem_unit o c (by rw [hunit]; exact List.mem_cons_self)
    simp only [Bool.or_eq_true, decide_eq_true_eq] at hblank
    rcases hblank with rfl | rfl
    · decide
    · decide

theorem renderBlock_eq (o : PrintOptions) (properties : List Property) (exact : Bool) :
    (ObjectType.renderBlock o ⟨properties, exact⟩).toList =
      "\x7b".toList ++ ((if exact then ['|'] else []) ++
        ((if properties = [] then [] else '\n' :: properties.flatMap (lineText o)) ++
          (braces exact).2.toList)) := by
  have hline : lineText o = fun p => o.unit.toList ++ (p.render.toList ++ [',', '\n']) := rfl
  cases properties with
  | nil => cases exact <;> simp [ObjectType.renderBlock, braces]
  | cons p ps =>
    cases exact <;>
      simp [ObjectType.renderBlock, braces, hline, String.toList_join, List.flatMap_map]

theorem scans_block {shape : ObjectType} (h : shape.properties.all Property.readable = true)
    (o : PrintOptions) : Scans block (shape.renderBlock o).toList shape fun _ => false := by
  obtain ⟨properties, exact⟩ := shape
  have hclose (ps : List Property) : Scans (do text (braces exact).2; return ObjectType.mk ps exact)
      (braces exact).2.toList ⟨ps, exact⟩ fun _ => false := takeLast _ (done _)
  have hlines : Scans (do
      let properties ←
        if ← accept '\n' then many (fun c => c ≠ '|' && c ≠ '\x7d') line else pure []
      text (braces exact).2
      return ObjectType.mk properties exact)
      ((if properties = [] then [] else '\n' :: properties.flatMap (lineText o)) ++
        (braces exact).2.toList) ⟨properties, exact⟩ fun _ => false := by
    cases properties with
    | nil =>
      refine missed ?_ (hclose [])
      cases exact
      · exact leaves_cons (by decide)
      · exact leaves_cons (by decide)
    | cons p ps =>
      have hround : ∀ p' ∈ p :: ps, Round line (lineText o p') (id p')
          (fun c => c ≠ '|' && c ≠ '\x7d') fun _ => false := fun p' hp =>
        ⟨starts_line (List.all_eq_true.1 h p' hp) o, scans_line (List.all_eq_true.1 h p' hp) o⟩
      have hmany := rounds (fun _ _ => rfl) hround
      rw [List.map_id] at hmany
      refine took (hmany.bind ?_ (hclose (p :: ps)))
      cases exact
      · exact leaves_cons (by decide)
      · exact leaves_cons (by decide)
  rw [renderBlock_eq]
  unfold block
  refine take "\x7b" ?_
  cases exact with
  | true => exact took hlines
  | false =>
    refine missed ?_ hlines
    cases properties with
    | nil => exact leaves_cons (by decide)
    | cons p ps => exact leaves_cons (by decide)

/-! ## Unions -/

theorem escape_of_isName {n : String} (h : isName n = true) : escape n.toList = n.toList := by
  obtain ⟨_, _, _, _, hparts⟩ := exists_cons_of_isName h
  have hescape : ∀ cs : List Char, (∀ c ∈ cs, isNamePart c = true) → escape cs = cs := by
    intro cs hcs
    induction cs with
    | nil => rfl
    | cons c cs ih =>
      rw [List.forall_mem_cons] at hcs
      have hplain : ¬ (c = '"' ∨ c = '\\') := by
        rintro (rfl | rfl)
        · exact absurd hcs.1 (by decide)
        · exact absurd hcs.1 (by decide)
      rw [escape, if_neg hplain, ih hcs.2]
  exact hescape n.toList hparts

theorem render_literal {value : String} (h : isName value = true) :
    (TypeExpr.literal value).render.toList = '"' :: (value.toList ++ "\"".toList) := by
  simp [TypeExpr.render, quote, escape_of_isName h]

theorem scans_member_word {w : String} (hw : isName w = true) :
    Scans member w.toList (ofWord w) isNamePart := by
  have hquote : Leaves (w.toList ++ []) isNamePart (· = '"') :=
    leaves_name hw (fun _ => not_isNameStart_of_eq (by decide)) [] _
  rw [List.append_nil] at hquote
  unfold member
  exact missed hquote (last (scans_name hw) (done _))

theorem scans_member {t : TypeExpr} (h : t.ofUnion = true) :
    Scans member t.render.toList t isNamePart := by
  cases t with
  | string => exact scans_member_word (by decide : isName "string" = true)
  | number => exact scans_member_word (by decide : isName "number" = true)
  | identifier n =>
    obtain ⟨hn, hne⟩ := Bool.and_eq_true_iff.1 h
    have hword := scans_member_word hn
    rw [ofWord_of_isOwnWord hne] at hword
    exact hword
  | literal value =>
    rw [render_literal h]
    unfold member
    refine took ((scans_name h).bind (leaves_cons (by decide)) ?_)
    exact takeLast "\"" (done _)
  | any | nullable _ | array _ | function _ _ | object _ | union _ => cases h

theorem scans_members (ts : List TypeExpr) (hne : ts ≠ [])
    (h : ∀ t ∈ ts, Scans member t.render.toList t isNamePart) :
    Scans (separated ' ' " | " member) (" | ".toList.intercalate (ts.map fun t => t.render.toList))
      ts fun d => decide (d = ' ') || isNamePart d := by
  have hlist := separates (v := id) (m := " | ") rfl (by decide) hne h
  rwa [List.map_id] at hlist

/-- A union does not start like an object type. -/
theorem leaves_member {t : TypeExpr} (h : t.ofUnion = true) (u : List Char) (bar : Char → Bool) :
    Leaves (t.render.toList ++ u) bar (· = '\x7b') := by
  cases t with
  | string | number | identifier _ =>
    refine leaves_plain h (fun c hc => ?_) u bar
    rw [of_decide_eq_true hc]
    decide
  | literal value =>
    rw [render_literal h]
    exact leaves_cons (by decide)
  | any | nullable _ | array _ | function _ _ | object _ | union _ => cases h

theorem identifier?_ne_empty {t : TypeExpr} (h : t.ofUnion = true) :
    t.identifier? ≠ some "empty" := by
  cases t with
  | identifier n =>
    have hne := of_decide_eq_true (Bool.and_eq_true_iff.1 h).2
    rintro ⟨rfl⟩
    exact hne (by decide)
  | _ => exact Option.some_ne_none _ |>.symm

theorem scans_union {ts : List TypeExpr} (h : ts.all TypeExpr.ofUnion = true) (o : PrintOptions) :
    Scans aliasBody ((TypeExpr.union ts).renderBody o).toList (.union ts)
      fun d => decide (d = ' ') || isNamePart d := by
  unfold aliasBody
  cases ts with
  | nil =>
    have hempty : (TypeExpr.identifier "empty").render.toList = "empty".toList := by
      rw [TypeExpr.render]
    have hword : Scans member (TypeExpr.identifier "empty").render.toList (.identifier "empty")
        isNamePart := hempty ▸ scans_member_word (by decide)
    have hlist := scans_members [.identifier "empty"] (List.cons_ne_nil _ _)
      (List.forall_mem_singleton.2 hword)
    have htext : ((TypeExpr.union []).renderBody o).toList = "empty".toList := by
      rw [TypeExpr.renderBody, TypeExpr.render]
      exact fun _ h => TypeExpr.noConfusion h
    rw [List.map_singleton, hempty, List.intercalate_singleton] at hlist
    rw [htext]
    exact unseen (leaves_cons (by decide)) (last hlist (done _))
  | cons t ts =>
    have hts := List.all_eq_true.1 h
    have htext : ((TypeExpr.union (t :: ts)).renderBody o).toList =
        " | ".toList.intercalate ((t :: ts).map fun t => t.render.toList) := by
      simp [TypeExpr.renderBody, TypeExpr.render, renderTypes_eq, Function.comp_def]
    have hkeep : (t :: ts).filter (fun m => m.identifier? ≠ some "empty") = t :: ts :=
      List.filter_eq_self.2 fun m hm => decide_eq_true (identifier?_ne_empty (hts m hm))
    have hlist := scans_members (t :: ts) (List.cons_ne_nil t ts)
      fun t ht => scans_member (hts t ht)
    rw [htext]
    refine unseen ?_ (last hlist ?_)
    · rw [List.map_cons, intercalate_cons]
      exact leaves_member (hts t List.mem_cons_self) _ _
    · rw [hkeep]
      exact done _

theorem scans_aliasBody {t : TypeExpr} (h : t.ofAlias = true) (o : PrintOptions) :
    Scans aliasBody (t.renderBody o).toList t fun d => decide (d = ' ') || isNamePart d := by
  cases t with
  | object shape =>
    obtain ⟨properties, exact⟩ := shape
    have hblock : Scans block (ObjectType.renderBlock o ⟨properties, exact⟩).toList
        ⟨properties, exact⟩ fun d => decide (d = ' ') || isNamePart d :=
      (scans_block h o).mono fun _ hc => absurd hc Bool.false_ne_true
    show Scans aliasBody (ObjectType.renderBlock o ⟨properties, exact⟩).toList _ _
    rw [renderBlock_eq] at hblock ⊢
    unfold aliasBody
    exact saw (last hblock (done _))
  | union members => exact scans_union h o
  | _ => cases h

/-! ## Declarations -/

/-- The text of the interfaces that an interface extends, after a blank. -/
def supersText : List String → List Char
  | [] => []
  | names => "extends ".toList ++ (", ".toList.intercalate (names.map String.toList) ++ " ".toList)

theorem renderSupers_eq (names : List String) :
    (renderSupers names).toList = " ".toList ++ supersText names := by
  cases names with
  | nil => simp [renderSupers, supersText]
  | cons n ns => simp [renderSupers, supersText]

theorem scans_supers {names : List String} (h : names.all isName = true) :
    Scans supers (supersText names) names (· = 'e') := by
  unfold supers
  cases names with
  | nil => exact unseen (leaves_nil fun _ hc => hc) (done _)
  | cons n ns =>
    have hlist := separates (v := id) (m := ", ") rfl (by decide) (List.cons_ne_nil n ns)
      fun n hn => scans_name (List.all_eq_true.1 h n hn)
    rw [List.map_id] at hlist
    refine saw (take "extends " (hlist.bind (leaves_cons (by decide)) ?_))
    exact takeLast " " (done _)

/-- The text of a row of strings. -/
theorem toList_append_five (a b c d e : String) : (a ++ b ++ c ++ d ++ e).toList =
    a.toList ++ (b.toList ++ (c.toList ++ (d.toList ++ e.toList))) := by
  simp only [String.toList_append, List.append_assoc]

theorem toList_append_four (a b c d : String) : (a ++ b ++ c ++ d).toList =
    a.toList ++ (b.toList ++ (c.toList ++ d.toList)) := by
  simp only [String.toList_append, List.append_assoc]

/-- The mark that a declaration starts with, taken apart. -/
theorem toList_mark {m kind : String} (hm : m = "export " ++ (kind ++ " ")) (t : List Char) :
    m.toList ++ t = "export ".toList ++ (kind.toList ++ (" ".toList ++ t)) := by
  subst hm
  simp only [String.toList_append, List.append_assoc]

theorem render_interface (o : PrintOptions) (name : String) (names : List String)
    (body : ObjectType) : ((Declaration.interface name names body).render o).toList =
      "export ".toList ++ ("interface".toList ++ (" ".toList ++ (name.toList ++ (" ".toList ++
        (supersText names ++ (body.renderBlock o).toList))))) := by
  have hsupers : (renderSupers names).toList ++ (body.renderBlock o).toList =
      " ".toList ++ (supersText names ++ (body.renderBlock o).toList) := by
    rw [renderSupers_eq, List.append_assoc]
  calc ((Declaration.interface name names body).render o).toList
    _ = "export interface ".toList ++
        (name.toList ++ ((renderSupers names).toList ++ (body.renderBlock o).toList)) :=
      toList_append_four _ _ _ _
    _ = "export interface ".toList ++
        (name.toList ++ (" ".toList ++ (supersText names ++ (body.renderBlock o).toList))) :=
      congrArg (fun t => "export interface ".toList ++ (name.toList ++ t)) hsupers
    _ = _ := toList_mark (by simp) _

theorem render_typeAlias (o : PrintOptions) (name : String) (body : TypeExpr) :
    ((Declaration.typeAlias name body).render o).toList =
      "export ".toList ++ ("type".toList ++ (" ".toList ++ (name.toList ++ (" = ".toList ++
        ((body.renderBody o).toList ++ ";".toList))))) :=
  (toList_append_five _ _ _ _ _).trans (toList_mark (by simp) _)

theorem render_opaqueType (o : PrintOptions) (name : String) :
    ((Declaration.opaqueType name .any).render o).toList =
      "export ".toList ++ ("opaque".toList ++ (" ".toList ++ ("type ".toList ++ (name.toList ++
        (" = ".toList ++ ("any".toList ++ ";".toList)))))) := by
  have hany : TypeExpr.any.render = "any" := by rw [TypeExpr.render]
  have hmark : "export opaque type " = "export opaque " ++ "type " := by simp
  calc ((Declaration.opaqueType name .any).render o).toList
    _ = "export opaque type ".toList ++
        (name.toList ++ (" = ".toList ++ ("any".toList ++ ";".toList))) :=
      hany ▸ toList_append_five _ _ _ _ _
    _ = ("export opaque ".toList ++ "type ".toList) ++
        (name.toList ++ (" = ".toList ++ ("any".toList ++ ";".toList))) :=
      congrArg (· ++ (name.toList ++ (" = ".toList ++ ("any".toList ++ ";".toList))))
        ((congrArg String.toList hmark).trans String.toList_append)
    _ = _ := (List.append_assoc _ _ _).trans (toList_mark (by simp) _)

/-- Every declaration starts with its export mark, and its kind follows. -/
theorem scans_kind {α : Type} {kind : String} (hkind : isName kind = true)
    {f : String → Scanner α} {t : List Char} {a : α} {bar : Char → Bool}
    (h : Scans (f kind) t a bar) :
    Scans (do text "export "; let kind ← name; text " "; f kind)
      ("export ".toList ++ (kind.toList ++ (" ".toList ++ t))) a bar :=
  take "export " ((scans_name hkind).bind (leaves_cons (by decide)) (take " " h))

theorem scans_declaration {d : Declaration} (h : d.readable = true) (o : PrintOptions) :
    Scans declaration (d.render o).toList d fun _ => false := by
  unfold declaration
  cases d with
  | interface name names body =>
    simp only [Declaration.readable, Bool.and_eq_true] at h
    obtain ⟨⟨hname, hnames⟩, hbody⟩ := h
    rw [render_interface]
    refine scans_kind (by decide) (yes rfl ?_)
    refine (scans_name hname).bind (leaves_cons (by decide)) (take " " ?_)
    refine (scans_supers hnames).bind ?_ (last (scans_block hbody o) (done _))
    obtain ⟨properties, exact⟩ := body
    rw [renderBlock_eq]
    exact leaves_cons (by decide)
  | typeAlias name body =>
    obtain ⟨hname, hbody⟩ := Bool.and_eq_true_iff.1 h
    rw [render_typeAlias]
    refine scans_kind (by decide) (no (by decide) (yes rfl ?_))
    refine (scans_name hname).bind (leaves_cons (by decide)) (take " = " ?_)
    refine (scans_aliasBody hbody o).bind (leaves_cons (by decide)) ?_
    exact takeLast ";" (done _)
  | opaqueType name underlying =>
    cases underlying with
    | any =>
      rw [render_opaqueType]
      refine scans_kind (by decide) (no (by decide) (no (by decide) (take "type " ?_)))
      refine (scans_name h).bind (leaves_cons (by decide)) ?_
      exact take " = " (take "any" (takeLast ";" (done _)))
    | _ => cases h

/-! ## Programs -/

theorem exists_render {d : Declaration} (h : d.readable = true) (o : PrintOptions) :
    ∃ t, (d.render o).toList = "export ".toList ++ t := by
  cases d with
  | interface name names body => exact ⟨_, render_interface o name names body⟩
  | typeAlias name body => exact ⟨_, render_typeAlias o name body⟩
  | opaqueType name underlying =>
    cases underlying with
    | any => exact ⟨_, render_opaqueType o name⟩
    | _ => cases h

/-- The text of a declaration after some line ends. -/
def declarationText (o : PrintOptions) (d : List Char × Declaration) : List Char :=
  d.1 ++ ((d.2.render o).toList ++ "\n".toList)

/-- Declarations, each after some line ends. -/
theorem scans_declarations (o : PrintOptions) (ds : List (List Char × Declaration))
    (h : ∀ d ∈ ds, (∀ c ∈ d.1, c = '\n') ∧ d.2.readable = true) :
    Scans (many (fun _ => true) do
        skip (· = '\n')
        let d ← declaration
        text "\n"
        return d)
      (ds.flatMap (declarationText o)) (ds.map Prod.snd) fun _ => true := by
  have hround : ∀ d ∈ ds, Round (do
      skip (· = '\n')
      let d ← declaration
      text "\n"
      return d) (declarationText o d) d.2 (fun _ => true) fun _ => false := by
    intro d hd
    obtain ⟨hends, hread⟩ := h d hd
    obtain ⟨t, ht⟩ := exists_render hread o
    have hne : declarationText o d ≠ [] := by simp [declarationText]
    obtain ⟨c, cs, hcs⟩ := List.exists_cons_of_ne_nil hne
    refine ⟨⟨c, cs, hcs, rfl⟩, skips (fun c hc => decide_eq_true (hends c hc)) ?_ ?_⟩
    · rw [ht]
      exact leaves_cons (by decide)
    · exact (scans_declaration hread o).bind leaves_none (takeLast "\n" (done _))
  exact rounds (fun _ _ => rfl) hround

/-- Declarations, each after an empty line. -/
def spaced (ds : List Declaration) : List (List Char × Declaration) := ds.map fun d => (['\n'], d)

theorem map_snd_spaced (ds : List Declaration) : (spaced ds).map Prod.snd = ds := by
  rw [spaced, List.map_map]
  exact List.map_id ds

theorem toList_spacedText (o : PrintOptions) (ds : List Declaration) :
    (spacedText o ds).toList = (spaced ds).flatMap (declarationText o) := by
  simp [spacedText, spaced, declarationText, List.flatMap_map]

theorem print_pragma {o : PrintOptions} (ho : o.pragma = true) (p : Program) :
    (p.print o).toList =
      "// @flow\n".toList ++ (spaced p.body).flatMap (declarationText o) := by
  rw [print_of_pragma ho, String.toList_append, toList_spacedText]

theorem print_cons {o : PrintOptions} (ho : ¬ o.pragma = true) (d : Declaration)
    (ds : List Declaration) :
    (Program.print o ⟨d :: ds⟩).toList = (([], d) :: spaced ds).flatMap (declarationText o) := by
  rw [print_of_cons (Bool.eq_false_iff.2 ho), String.toList_append, String.toList_append,
    toList_spacedText]
  rfl

theorem scans_program {p : Program} (h : p.readable = true) (o : PrintOptions) :
    Scans program (p.print o).toList p fun _ => true := by
  obtain ⟨ds⟩ := p
  have hread : ∀ d ∈ ds, d.readable = true := List.all_eq_true.1 h
  have hspaced {es : List Declaration} (hes : ∀ d ∈ es, d.readable = true) :
      ∀ e ∈ spaced es, (∀ c ∈ e.1, c = '\n') ∧ e.2.readable = true := by
    intro e he
    obtain ⟨d, hd, rfl⟩ := List.mem_map.1 he
    exact ⟨fun c hc => List.mem_singleton.1 hc, hes d hd⟩
  unfold program
  by_cases ho : o.pragma = true
  · have hbody := scans_declarations o (spaced ds) (hspaced hread)
    rw [map_snd_spaced] at hbody
    rw [print_pragma ho]
    exact saw (take "// @flow\n" (last hbody (done _)))
  · cases ds with
    | nil =>
      have htext : (Program.print o ⟨[]⟩).toList = [] := by
        rw [print_nil (Bool.eq_false_iff.2 ho), String.toList_empty]
      have hbody := scans_declarations o [] fun _ hd => absurd hd List.not_mem_nil
      rw [htext]
      exact unseen (leaves_nil fun _ _ => rfl) (last hbody (done _))
    | cons d ds =>
      rw [List.forall_mem_cons] at hread
      obtain ⟨t, ht⟩ := exists_render hread.1 o
      have hbody := scans_declarations o (([], d) :: spaced ds) (List.forall_mem_cons.2
        ⟨⟨fun c hc => absurd hc List.not_mem_nil, hread.1⟩, hspaced hread.2⟩)
      rw [List.map_cons, map_snd_spaced] at hbody
      rw [print_cons ho]
      refine unseen ?_ (last hbody (done _))
      rw [List.flatMap_cons, declarationText, ht]
      exact leaves_cons (by decide)

end Scanner

/-- **Printing loses nothing** of a program that can be read back. -/
theorem Program.read?_print {p : Program} (h : p.readable = true) (o : PrintOptions) :
    Program.read? (p.print o) = some p := by
  have hscan := Scanner.scans_program h o [] (Scanner.clear_nil _)
  rw [List.append_nil] at hscan
  rw [Program.read?, hscan]
  rfl

end SchemaToFlow.Flow
