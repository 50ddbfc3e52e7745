import SchemaToFlow.Proofs.Acceptance
import SchemaToFlow.Proofs.Lexing
import SchemaToFlow.Proofs.Numbering

/-!
# Reading words back

`Reader.Reads T r ws a more` says that `r` takes the words `ws`, gives `a` and reports nothing,
provided that what follows does not start with a token of one of the kinds `more`. Places are
forgotten all along (`State.ofWords`), and the names of the result are numbered as in the table `T`
that all of reading leads to.

* The rules follow the way in which readers are put together, as in `Recognizes`: one token of
  lookahead tells where a part ends (`Guards`, `Opens`).
* `reads_document`: the words of a document are read back as the document, with its names numbered
  anew (`Change.into`).
-/

set_option synthInstance.maxSize 1000

namespace SchemaToFlow

open Text

/-- A number given out early is the number that the name has later. -/
theorem NameTable.intern_of_prefix {t T : NameTable} {n : String}
    (h : (t.add n).names <+: T.names) : (t.intern n).1 = (T.intern n).1 := by
  have hlisted : (addNew t.names n).idxOf n = t.names.idxOf n := by
    by_cases hn : n ∈ t.names
    · rw [addNew_of_mem hn]
    · rw [addNew_of_not_mem hn, List.idxOf_append_of_notMem hn, List.idxOf_eq_length hn,
        List.idxOf_cons_self]
      rfl
  obtain ⟨more, hmore⟩ := h
  have hfinal : T.names.idxOf n = t.names.idxOf n := by
    have hmem : n ∈ (t.add n).names := mem_addNew.2 (.inr rfl)
    rw [← hmore, List.idxOf_append_of_mem hmem]
    exact hlisted
  exact congrArg NameId.mk hfinal.symm

namespace Schema

/-! ## Words ahead -/

/-- The token of a word, without a place. -/
def Word.token (w : Word) : Token := ⟨w.1, ⟨0, 0⟩, w.2⟩

/-- The state before the words, with no place kept and nothing reported. -/
def State.ofWords (ws : List Word) (t : NameTable) : State where
  rest := ws.map Word.token
  finish := 0
  names := t

/-- The words do not start with one of the kinds. -/
def Halts (more : List TokenKind) (ws : List Word) : Prop := Stops more (ws.map Word.token)

theorem halts_cons {more : List TokenKind} {w : Word} {ws : List Word} :
    Halts more (w :: ws) ↔ w.1 ∉ more := stops_cons

theorem Halts.mono {more more' : List TokenKind} {ws : List Word} (h : Halts more ws)
    (hsub : ∀ k ∈ more', k ∈ more) : Halts more' ws := Stops.mono h hsub

/-- The words and what may follow them do not start with one of the kinds `more'`. -/
def Guards (ws : List Word) (more more' : List TokenKind) : Prop :=
  ∀ k, Halts more k → Halts more' (ws ++ k)

/-- The words, if there are any, start with one of the kinds. -/
def Opens (ws : List Word) (heads : List TokenKind) : Prop := ∀ w ∈ ws.head?, w.1 ∈ heads

section Ahead

variable {more more' heads heads' : List TokenKind} {w : Word} {ws vs : List Word}

theorem guards_nil (hsub : ∀ k ∈ more', k ∈ more) : Guards [] more more' := fun _ hk => hk.mono hsub

theorem guards_cons (h : w.1 ∉ more') : Guards (w :: ws) more more' := fun _ _ => halts_cons.2 h

theorem Opens.guards (h : Opens ws heads) (hheads : ∀ k ∈ heads, k ∉ more')
    (hsub : ∀ k ∈ more', k ∈ more) : Guards ws more more' := by
  cases ws with
  | nil => exact guards_nil hsub
  | cons w ws => exact guards_cons (hheads w.1 (h w rfl))

theorem opens_nil : Opens [] heads := by
  rintro w ⟨⟩

theorem opens_cons (h : w.1 ∈ heads) : Opens (w :: ws) heads := by
  rintro v ⟨rfl⟩
  exact h

theorem Opens.mono (h : Opens ws heads) (hsub : ∀ k ∈ heads, k ∈ heads') : Opens ws heads' :=
  fun w hw => hsub w.1 (h w hw)

theorem Opens.append (h : Opens ws heads) (h' : Opens vs heads') :
    Opens (ws ++ vs) (heads ++ heads') := by
  cases ws with
  | nil => exact h'.mono fun k hk => List.mem_append_right _ hk
  | cons w ws => exact opens_cons (List.mem_append_left _ (h w rfl))

theorem enclosed_cons {α : Type} (o c : Punctuator) (word : α → List Word) (a : α) (as : List α) :
    enclosed o c word (a :: as) = .mark o :: ((a :: as).flatMap word ++ [.mark c]) := rfl

theorem opens_enclosed {α : Type} (o c : Punctuator) (word : α → List Word) (as : List α) :
    Opens (enclosed o c word as) [.punct o] := by
  cases as with
  | nil => exact opens_nil
  | cons a as => exact opens_cons List.mem_cons_self

theorem opens_introduced (intro : Word) (ws : List Word) :
    Opens (introduced intro ws) [intro.1] := by
  cases ws with
  | nil => exact opens_nil
  | cons w ws => exact opens_cons List.mem_cons_self

end Ahead

/-- A token of one of the kinds is not next. -/
theorem sees_of_halts {more : List TokenKind} {ws : List Word} (h : Halts more ws)
    {kind : TokenKind} (hkind : kind ∈ more) (hne : kind ≠ .endOfInput) (t : NameTable) :
    (State.ofWords ws t).sees kind = false := by
  refine decide_eq_false ?_
  cases ws with
  | nil => exact hne.symm
  | cons w ws =>
    have hw : w.1 ∉ more := halts_cons.1 h
    rintro rfl
    exact hw hkind

namespace Reader

/-! ## Rules -/

variable {α β γ : Type} {T : NameTable} {more more' : List TokenKind}

/-- The reader takes the words and gives the result, with its names numbered as in `T`. -/
def Reads (T : NameTable) (r : Reader α) (ws : List Word) (a : α) (more : List TokenKind) : Prop :=
  ∀ t k, Halts more k → (r (.ofWords (ws ++ k) t)).2.names.names <+: T.names →
    ∃ t', r (.ofWords (ws ++ k) t) = (a, .ofWords k t')

namespace Reads

variable {r : Reader α} {f : α → Reader β} {a : α} {b : β} {w : Word} {ws vs : List Word}

theorem done (a : α) : Reads T (pure a) [] a more := fun t _ _ _ => ⟨t, rfl⟩

theorem mono (h : Reads T r ws a more) (hsub : ∀ k ∈ more, k ∈ more') : Reads T r ws a more' :=
  fun t k hk => h t k (hk.mono hsub)

/-- Words of one reader and then those of the next. -/
theorem bind [∀ a, Forward (f a)] (hr : Reads T r ws a more') (hv : Guards vs more more')
    (hf : Reads T (f a) vs b more) : Reads T (r >>= f) (ws ++ vs) b more := by
  intro t k hk hT
  rw [List.append_assoc] at hT ⊢
  have hgrow : (r (.ofWords (ws ++ (vs ++ k)) t)).2.names.names <+:
      ((r >>= f) (.ofWords (ws ++ (vs ++ k)) t)).2.names.names :=
    (Forward.leads _).names
  obtain ⟨t', ht'⟩ := hr t (vs ++ k) (hv k hk) (hgrow.trans hT)
  rw [bind_apply, ht'] at hT ⊢
  exact hf t' k hk hT

/-- A value handed to what follows. -/
theorem given (hf : Reads T (f a) ws b more) : Reads T (pure a >>= f) ws b more := hf

/-- One word and then those of the next reader. -/
theorem one [∀ a, Forward (f a)] (hr : Reads T r [w] a []) (hf : Reads T (f a) ws b more) :
    Reads T (r >>= f) (w :: ws) b more :=
  hr.bind (fun _ _ _ _ => List.not_mem_nil) hf

/-- What comes after the last words takes none. -/
theorem last [∀ a, Forward (f a)] (hr : Reads T r ws a more) (hf : Reads T (f a) [] b more) :
    Reads T (r >>= f) ws b more := by
  have h := hr.bind (guards_nil fun _ hk => hk) hf
  rwa [List.append_nil] at h

theorem yes {r' : Reader α} {c : Prop} [Decidable c] (hc : c) (h : Reads T r ws a more) :
    Reads T (if c then r else r') ws a more := by
  rwa [if_pos hc]

theorem no {r' : Reader α} {c : Prop} [Decidable c] (hc : ¬ c) (h : Reads T r ws a more) :
    Reads T (if c then r' else r) ws a more := by
  rwa [if_neg hc]

theorem map {g : α → β} (h : Reads T r ws a more) : Reads T (g <$> r) ws (g a) more := by
  intro t k hk hT
  obtain ⟨t', ht'⟩ := h t k hk hT
  refine ⟨t', ?_⟩
  rw [map_apply, ht']

theorem ofBound {r : Nat → Reader α} (h : ∀ n, ws.length ≤ n → Reads T (r n) ws a more) :
    Reads T (fun s => r s.rest.length s) ws a more := by
  intro t k hk hT
  have hlength : ws.length ≤ (State.ofWords (ws ++ k) t).rest.length := by
    show ws.length ≤ ((ws ++ k).map Word.token).length
    rw [List.length_map, List.length_append]
    exact Nat.le_add_right _ _
  exact h _ hlength t k hk hT

section Steps

variable {f : Token → Reader β} {g : Unit → Reader β} {h : Bool → Reader β} {kind : TokenKind}

/-- A look at the next token for its place. -/
theorem look (hf : ∀ t : Token, t.span = ⟨0, 0⟩ → Reads T (f t) ws b more) :
    Reads T (peek >>= f) ws b more := by
  intro t k hk hT
  refine hf _ ?_ t k hk hT
  cases hws : ws ++ k with
  | nil => rfl
  | cons w vs => rfl

/-- A look at what comes next, which is of none of the kinds. -/
theorem lookAhead {kinds : List TokenKind} (hws : Guards ws more kinds)
    (hend : .endOfInput ∉ kinds) (hf : ∀ t : Token, t.kind ∉ kinds → Reads T (f t) ws b more) :
    Reads T (peek >>= f) ws b more := by
  intro t k hk hT
  refine hf _ ?_ t k hk hT
  have hhalts := hws k hk
  cases hws : ws ++ k with
  | nil => exact hend
  | cons w vs =>
    rw [hws] at hhalts
    exact halts_cons.1 hhalts

/-- A look at the next word. -/
theorem lookAt (hf : Reads T (f w.token) (w :: ws) b more) :
    Reads T (peek >>= f) (w :: ws) b more := hf

theorem skip (hg : Reads T (g ()) ws b more) : Reads T (advance >>= g) (w :: ws) b more := hg

theorem took (hw : w.1 = kind) (hh : Reads T (h true) ws b more) :
    Reads T (accept kind >>= h) (w :: ws) b more := by
  subst hw
  have haccept (k : List Word) (t : NameTable) :
      accept w.1 (.ofWords (w :: (ws ++ k)) t) = (true, .ofWords (ws ++ k) t) :=
    if_pos (decide_eq_true rfl)
  intro t k hk hT
  rw [List.cons_append, bind_apply, haccept] at hT ⊢
  exact hh t k hk hT

theorem missed (hkind : Guards ws more [kind]) (hne : kind ≠ .endOfInput)
    (hh : Reads T (h false) ws b more) : Reads T (accept kind >>= h) ws b more := by
  intro t k hk hT
  have hsees : (State.ofWords (ws ++ k) t).sees kind = false :=
    sees_of_halts (hkind k hk) List.mem_cons_self hne t
  have haccept : accept kind (.ofWords (ws ++ k) t) = (false, .ofWords (ws ++ k) t) :=
    if_neg (by rw [hsees]; exact Bool.false_ne_true)
  rw [bind_apply, haccept] at hT ⊢
  exact hh t k hk hT

theorem expects (hw : w.1 = kind) (hg : Reads T (g ()) ws b more) :
    Reads T (Reader.expect kind >>= g) (w :: ws) b more :=
  took (h := fun found => (if found = true then pure () else expected kind.describe) >>= g) hw hg

theorem spanned {f : Span → Reader β} (hf : Reads T (f ⟨0, 0⟩) ws b more) :
    Reads T (spanFrom 0 >>= f) ws b more := hf

end Steps

/-- Words that one round of a loop takes: there are some, and they start as the loop expects. -/
structure Round (T : NameTable) (r : Reader α) (ws : List Word) (a : α)
    (heads more : List TokenKind) : Prop where
  ne : ws ≠ []
  opens : Opens ws heads
  reads : Reads T r ws a more

/-- Numbering a name. -/
theorem numbered {f : NameId → Reader β} [∀ a, Forward (f a)] {n : String}
    (hf : Reads T (f (T.intern n).1) ws b more) : Reads T (Reader.intern n >>= f) ws b more := by
  intro t k hk hT
  have hgrow : (t.add n).names <+:
      ((Reader.intern n >>= f) (.ofWords (ws ++ k) t)).2.names.names :=
    (Forward.leads (r := f (t.intern n).1) (.ofWords (ws ++ k) (t.add n))).names
  have hnumber := NameTable.intern_of_prefix (hgrow.trans hT)
  have hintern : Reader.intern n (.ofWords (ws ++ k) t) =
      ((T.intern n).1, .ofWords (ws ++ k) (t.add n)) :=
    Prod.ext hnumber rfl
  rw [bind_apply, hintern] at hT ⊢
  exact hf (t.add n) k hk hT

section Loops

variable {go : State → Bool} {step : Reader α} [Forward step] {word : γ → List Word} {val : γ → α}
  {heads : List TokenKind}

theorem rounds_upTo (hgo : ∀ w ws t, w.1 ∈ heads → go (.ofWords (w :: ws) t) = true)
    (hstop : ∀ k t, Halts more k → go (.ofWords k t) = false)
    (hheads : ∀ k ∈ heads, k ∉ more') (hmore : ∀ k ∈ more', k ∈ more) :
    ∀ (xs : List γ), (∀ x ∈ xs, Round T step (word x) (val x) heads more') →
      ∀ n, xs.length ≤ n → Reads T (Reader.manyUpTo go step n) (xs.flatMap word) (xs.map val) more
  | [], _, 0, _ => done []
  | [], _, n + 1, _ => by
    intro t k hk _
    refine ⟨t, ?_⟩
    have hgo' : ¬ go (.ofWords k t) = true := by
      rw [hstop k t hk]
      exact Bool.false_ne_true
    show Reader.manyUpTo go step (n + 1) (.ofWords k t) = _
    unfold Reader.manyUpTo
    rw [if_neg hgo']
    rfl
  | x :: xs, hxs, n + 1, hn => by
    rw [List.forall_mem_cons] at hxs
    have hforward := forward_manyUpTo go step n
    have hnext : Opens (xs.flatMap word) heads := by
      cases xs with
      | nil => exact opens_nil
      | cons y ys =>
        obtain ⟨w, ws, hword⟩ := List.exists_cons_of_ne_nil (hxs.2 y List.mem_cons_self).ne
        have hopens := (hxs.2 y List.mem_cons_self).opens
        rw [List.flatMap_cons, hword]
        rw [hword] at hopens
        exact opens_cons (hopens w rfl)
    have hround : Reads T (do return (← step) :: (← Reader.manyUpTo go step n))
        ((x :: xs).flatMap word) ((x :: xs).map val) more := by
      refine hxs.1.reads.bind (hnext.guards hheads hmore) (last ?_ (done _))
      exact rounds_upTo hgo hstop hheads hmore xs hxs.2 n (Nat.le_of_succ_le_succ hn)
    intro t k hk hT
    obtain ⟨w, ws, hword⟩ := List.exists_cons_of_ne_nil hxs.1.ne
    have hgo' : go (.ofWords ((x :: xs).flatMap word ++ k) t) = true := by
      rw [List.flatMap_cons, hword]
      exact hgo _ _ _ (hxs.1.opens w (by rw [hword]; rfl))
    unfold Reader.manyUpTo at hT ⊢
    rw [if_pos hgo'] at hT ⊢
    exact hround t k hk hT

theorem rounds (hgo : ∀ w ws t, w.1 ∈ heads → go (.ofWords (w :: ws) t) = true)
    (hstop : ∀ k t, Halts more k → go (.ofWords k t) = false)
    (hheads : ∀ k ∈ heads, k ∉ more') (hmore : ∀ k ∈ more', k ∈ more) {xs : List γ}
    (hxs : ∀ x ∈ xs, Round T step (word x) (val x) heads more') :
    Reads T (Reader.many go step) (xs.flatMap word) (xs.map val) more := by
  refine ofBound fun n hn => rounds_upTo hgo hstop hheads hmore xs hxs n ?_
  -- every round takes a word
  exact Nat.le_trans (length_le_length_flatMap fun x hx => (hxs x hx).ne) hn

/-- Rounds up to a token that stops the loop. -/
theorem rounds_before (heads : List TokenKind) {stops : List TokenKind}
    (hheads : ∀ k ∈ heads, k ∉ stops ∧ k ∉ more') (hmore : ∀ k ∈ more', k ∉ stops) {xs : List γ}
    (hxs : ∀ x ∈ xs, Round T step (word x) (val x) heads more') :
    Reads T (Reader.many (State.before stops) step) (xs.flatMap word) (xs.map val)
      (others stops) := by
  refine rounds ?_ ?_ (fun k hk => (hheads k hk).2) (fun k hk => mem_others.2 (hmore k hk)) hxs
  · exact fun w ws t hw => decide_eq_true (hheads w.1 hw).1
  · intro k t hk
    cases k with
    | nil => rfl
    | cons w ws =>
      rw [halts_cons, mem_others, not_not] at hk
      exact decide_eq_false (not_not.2 hk)

/-- Rounds as long as a token of one kind is next. -/
theorem rounds_sees {kind : TokenKind} (hne : kind ≠ .endOfInput) (hheads : ∀ k ∈ more', k ≠ kind)
    (hmore : ∀ k ∈ more', k ∈ more) (hkind : kind ∈ more) {xs : List γ}
    (hxs : ∀ x ∈ xs, Round T step (word x) (val x) [kind] more') :
    Reads T (Reader.many (·.sees kind) step) (xs.flatMap word) (xs.map val) more := by
  refine rounds ?_ ?_ (fun k hk hk' => hheads k hk' (List.mem_singleton.1 hk)) hmore hxs
  · exact fun w ws t hw => decide_eq_true (List.mem_singleton.1 hw)
  · exact fun k t hk => sees_of_halts hk hkind hne t

/-- Rounds between an opening and a closing mark, or nothing at all. -/
theorem between (heads : List TokenKind) {o c : Punctuator} {stops : List TokenKind}
    {f : List α → Reader β} [∀ as, Forward (f as)] (hc : .punct c ∈ stops)
    (hheads : ∀ k ∈ heads, k ∉ stops ∧ k ∉ more') (hmore : ∀ k ∈ more', k ∉ stops) {xs : List γ}
    (hxs : ∀ x ∈ xs, Round T step (word x) (val x) heads more') (hv : Guards vs more [.punct o])
    (hf : Reads T (f (xs.map val)) vs b more) :
    Reads T (accept (.punct o) >>= fun found =>
        if found = true then
          Reader.many (State.before stops) step >>= fun as =>
            Reader.expect (.punct c) >>= fun _ => f as
        else f [])
      (Schema.enclosed o c word xs ++ vs) b more := by
  cases xs with
  | nil => exact missed hv (fun h => TokenKind.noConfusion h) hf
  | cons x xs =>
    rw [enclosed_cons, List.cons_append, List.append_assoc, List.singleton_append]
    refine took rfl ?_
    refine (rounds_before heads hheads hmore hxs).bind (guards_cons ?_) (expects rfl hf)
    rw [mem_others, not_not]
    exact hc

/-- The same with nothing after it. -/
theorem between_last (heads : List TokenKind) {o c : Punctuator} {stops : List TokenKind}
    {f : List α → Reader β} [∀ as, Forward (f as)] (hc : .punct c ∈ stops)
    (hheads : ∀ k ∈ heads, k ∉ stops ∧ k ∉ more') (hmore : ∀ k ∈ more', k ∉ stops) {xs : List γ}
    (hxs : ∀ x ∈ xs, Round T step (word x) (val x) heads more') (ho : .punct o ∈ more)
    (hf : Reads T (f (xs.map val)) [] b more) :
    Reads T (accept (.punct o) >>= fun found =>
        if found = true then
          Reader.many (State.before stops) step >>= fun as =>
            Reader.expect (.punct c) >>= fun _ => f as
        else f [])
      (Schema.enclosed o c word xs) b more := by
  have hnext : Guards [] more [.punct o] :=
    guards_nil fun k hk => List.mem_singleton.1 hk ▸ ho
  have h := between heads hc hheads hmore hxs hnext hf
  rwa [List.append_nil] at h

end Loops

end Reads

end Reader

/-- Names numbered as in another table, and all places forgotten. -/
def Change.into (names T : NameTable) : Change :=
  ⟨fun id => (T.intern (names.text id)).1, fun _ => 0⟩

namespace Reader

open Reads

variable {T names : NameTable} {more : List TokenKind}

/-! ## Names and descriptions -/

theorem isName_ofName (n : String) : (Word.ofName n).1.isName = true := by
  unfold Word.ofName
  cases Keyword.ofSpelling? n <;> rfl

/-- Where no kind serves as a name, no name is one of the kinds. -/
theorem nameWord_notMem {kinds : List TokenKind} (h : ∀ k ∈ kinds, k.isName = false) (id : NameId) :
    (nameWord names id).1 ∉ kinds := by
  intro hmem
  have hname : (nameWord names id).1.isName = true := isName_ofName (names.text id)
  rw [h _ hmem] at hname
  cases hname

theorem reads_name (n : Name) :
    Reads T name [nameWord names n.id] (recast (.into names T) n) more := by
  unfold name
  exact lookAt (yes (isName_ofName _) (numbered (skip (done _))))

theorem reads_typeName (n : Name) :
    Reads T typeName [nameWord names n.id] (recast (.into names T) n) more := by
  unfold typeName
  exact lookAt (yes (isName_ofName _) (numbered (skip (done _))))

theorem kind_textWord (q : String → Quoting) (body : String) :
    (textWord q body).1 = .string ∨ (textWord q body).1 = .blockString := by
  show (q body).kind = _ ∨ (q body).kind = _
  cases q body
  · exact .inl rfl
  · exact .inr rfl

theorem opens_description (q : String → Quoting) (d : Option Description) :
    Opens (descriptionWords q d) descriptionKinds := by
  cases d with
  | none => exact opens_nil
  | some d =>
    refine opens_cons ?_
    simpa [descriptionKinds] using kind_textWord q d.value

theorem reads_description? (names : NameTable) (q : String → Quoting) (d : Option Description) :
    Reads T description? (descriptionWords q d) (recast (.into names T) d) descriptionKinds := by
  unfold description?
  cases d with
  | none =>
    refine lookAhead (guards_nil fun _ hk => hk) (by decide) fun t ht => no ?_ (done _)
    simpa [descriptionKinds] using ht
  | some d =>
    have hbody : (textWord q d.value).token.body = d.value := body_word (q d.value) d.value ⟨0, 0⟩
    refine lookAt (yes (kind_textWord q d.value) (skip ?_))
    rw [hbody]
    exact done _

/-! ## Types -/

theorem words_ne_nil_of_type (type : TypeRef) : type.words names ≠ [] := by
  cases type with
  | named name => exact List.cons_ne_nil _ _
  | list item span => exact List.cons_ne_nil _ _
  | nonNull inner span => exact List.append_ne_nil_of_right_ne_nil _ (List.cons_ne_nil _ _)

theorem reads_typeRefUpTo : ∀ (n : Nat) (type : TypeRef), type.writable names = true →
    (type.words names).length ≤ n →
    Reads T (typeRefUpTo n) (type.words names) (recast (.into names T) type) [.punct .bang]
  | 0, type, _, hn =>
    absurd (List.eq_nil_of_length_eq_zero (Nat.le_zero.1 hn)) (words_ne_nil_of_type type)
  | n + 1, type, hw, hn => by
    have hforward := forward_typeRefUpTo n
    -- a type up to its exclamation mark, whether there is one or not
    have hinner (inner : TypeRef) (hnull : inner.isNonNull = false)
        (hw : inner.writable names = true) (hn : (inner.words names).length ≤ n + 1)
        (tail : List Word) (x : TypeRef)
        (htail : Reads T (do
          if ← accept (.punct .bang) then
            return .nonNull (recast (.into names T) inner) (← spanFrom 0)
          else
            return recast (.into names T) inner) tail x [.punct .bang]) :
        Reads T (typeRefUpTo (n + 1)) (inner.words names ++ tail) x [.punct .bang] := by
      unfold typeRefUpTo typeRefAt
      dsimp only
      refine look fun t ht => ?_
      rw [ht]
      cases inner with
      | named name =>
        refine missed (guards_cons (nameWord_notMem (by decide) name.id)) (by decide) ?_
        exact one (reads_typeName name) htail
      | list item span =>
        rw [TypeRef.words, List.cons_append, List.append_assoc, List.singleton_append]
        refine took rfl ?_
        have hlength : (item.words names).length ≤ n := by
          simp only [TypeRef.words, List.length_cons, List.length_append] at hn
          omega
        refine (reads_typeRefUpTo n item hw hlength).bind (guards_cons (by decide)) ?_
        exact expects rfl (spanned htail)
      | nonNull inner span => cases hnull
    have hnone (inner : TypeRef) : Reads T (do
        if ← accept (.punct .bang) then
          return .nonNull (recast (.into names T) inner) (← spanFrom 0)
        else
          return recast (.into names T) inner) [] (recast (.into names T) inner) [.punct .bang] :=
      missed (guards_nil fun _ hk => hk) (by decide) (done _)
    cases type with
    | named name =>
      have h := hinner (.named name) rfl hw hn [] _ (hnone _)
      rwa [List.append_nil] at h
    | list item span =>
      have h := hinner (.list item span) rfl hw hn [] _ (hnone _)
      rwa [List.append_nil] at h
    | nonNull inner _ =>
      obtain ⟨hnull, hw⟩ := Bool.and_eq_true_iff.1 hw
      refine hinner inner (by simpa using hnull) hw ?_ [.mark .bang] _
        (took rfl (spanned (done _)))
      rw [TypeRef.words, List.length_append] at hn
      omega

theorem reads_typeRef {type : TypeRef} (h : type.writable names = true) :
    Reads T typeRef (type.words names) (recast (.into names T) type) [.punct .bang] :=
  ofBound fun n hn => reads_typeRefUpTo n type h hn

/-! ## Constants -/

section Values

variable (q : String → Quoting)

theorem wordsOfItems_eq (items : List Value) :
    Value.wordsOfItems names q items = items.flatMap (Value.words names q) := by
  induction items with
  | nil => rfl
  | cons item items ih => rw [Value.wordsOfItems, ih, List.flatMap_cons]

/-- The words of a field of a constant. -/
def fieldWords (names : NameTable) (q : String → Quoting) (field : NameId × Value) : List Word :=
  nameWord names field.1 :: .mark .colon :: field.2.words names q

theorem wordsOfFields_eq (fields : List (NameId × Value)) :
    Value.wordsOfFields names q fields = fields.flatMap (fieldWords names q) := by
  induction fields with
  | nil => rfl
  | cons field fields ih =>
    rw [Value.wordsOfFields, ih, List.flatMap_cons]
    rfl

theorem writableItems_eq (items : List Value) :
    Value.writableItems names items = items.all (Value.writable names) := by
  induction items with
  | nil => rfl
  | cons item items ih => rw [Value.writableItems, ih, List.all_cons]

theorem writable_of_mem_fields {fields : List (NameId × Value)}
    (h : Value.writableFields names fields = true) :
    ∀ field ∈ fields, field.2.writable names = true := by
  induction fields with
  | nil => exact fun _ hf => absurd hf List.not_mem_nil
  | cons field fields ih =>
    simp only [Value.writableFields, Bool.and_eq_true] at h
    exact List.forall_mem_cons.2 ⟨h.1.2, ih h.2⟩

theorem mem_valueKinds_of_name (id : NameId) : (nameWord names id).1 ∈ valueKinds :=
  List.mem_append_right _ (mem_nameKinds (isName_ofName _))

theorem exists_words_of_value {v : Value} (h : v.writable names = true) :
    ∃ w ws, v.words names q = w :: ws ∧ w.1 ∈ valueKinds := by
  cases v with
  | int v span => exact ⟨_, _, rfl, List.mem_cons_self⟩
  | float bits span => cases h
  | string body span =>
    refine ⟨_, _, rfl, ?_⟩
    rcases kind_textWord q body with hk | hk
    · rw [hk]
      decide
    · rw [hk]
      decide
  | boolean b span =>
    cases b
    · exact ⟨_, _, rfl, by decide⟩
    · exact ⟨_, _, rfl, by decide⟩
  | null span => exact ⟨_, _, rfl, by decide⟩
  | enum id span => exact ⟨_, _, rfl, mem_valueKinds_of_name id⟩
  | list items span => exact ⟨_, _, rfl, by decide⟩
  | object fields span => exact ⟨_, _, rfl, by decide⟩

/-- A constant as one round of a loop. -/
theorem Reads.round_value {r : Reader Value} {v : Value} (h : v.writable names = true)
    (hr : Reads T r (v.words names q) (recast (.into names T) v) []) :
    Round T r (v.words names q) (recast (.into names T) v) valueKinds [] := by
  obtain ⟨w, ws, hwords, hw⟩ := exists_words_of_value q h
  exact ⟨hwords ▸ List.cons_ne_nil w ws, hwords ▸ opens_cons hw, hr⟩

theorem reads_listValue {item : Reader Value} [Forward item] {items : List Value}
    (hw : ∀ v ∈ items, v.writable names = true)
    (h : ∀ v ∈ items, Reads T item (v.words names q) (recast (.into names T) v) [])
    (span : Text.Span) :
    Reads T (listValue item) ((Value.list items span).words names q)
      (recast (.into names T) (Value.list items span)) more := by
  have hrecast : recast (.into names T) (Value.list items span) =
      .list (items.map (recast (.into names T))) ⟨0, 0⟩ :=
    congrArg (Value.list · ⟨0, 0⟩) (recastItems_eq _ items)
  unfold listValue
  rw [hrecast, Value.words, wordsOfItems_eq]
  refine lookAt (skip ?_)
  refine (rounds_before valueKinds (by decide) (by decide)
    fun v hv => (h v hv).round_value q (hw v hv)).bind (guards_cons (by decide)) ?_
  exact expects rfl (spanned (done _))

theorem reads_objectField {value : Reader Value} [Forward value] {field : NameId × Value}
    (h : Reads T value (field.2.words names q) (recast (.into names T) field.2) []) :
    Reads T (objectField value) (fieldWords names q field) (recast (.into names T) field) [] := by
  unfold objectField
  exact one (reads_name ⟨field.1, ⟨0, 0⟩⟩) (expects rfl (last h (done _)))

theorem reads_objectValue {value : Reader Value} [Forward value] {fields : List (NameId × Value)}
    (h : ∀ field ∈ fields,
      Reads T value (field.2.words names q) (recast (.into names T) field.2) [])
    (span : Text.Span) :
    Reads T (objectValue value) ((Value.object fields span).words names q)
      (recast (.into names T) (Value.object fields span)) more := by
  have hrecast : recast (.into names T) (Value.object fields span) =
      .object (fields.map (recast (.into names T))) ⟨0, 0⟩ :=
    congrArg (Value.object · ⟨0, 0⟩) (recastFields_eq _ fields)
  unfold objectValue
  rw [hrecast, Value.words, wordsOfFields_eq]
  refine lookAt (skip ?_)
  refine (rounds_before nameKinds (by decide) (by decide) fun field hfield =>
    ⟨List.cons_ne_nil _ _, opens_cons (mem_nameKinds (isName_ofName _)),
      reads_objectField q (h field hfield)⟩).bind (guards_cons (by decide)) ?_
  exact expects rfl (spanned (done _))

theorem reads_intLiteral {v : Int} (h : Int64.minValue.toInt ≤ v ∧ v ≤ Int64.maxValue.toInt)
    (span : Text.Span) :
    Reads T (intLiteral (Word.int v).token) [.int v]
      (recast (.into names T) (Value.int v span)) more := by
  have hvalue : Numeral.int64? (Word.int v).token.text = some v := int64?_toString h
  unfold intLiteral
  rw [hvalue]
  exact given (skip (spanned (done _)))

theorem spelling_of_ofSpelling? {n : String} {k : Keyword} (h : Keyword.ofSpelling? n = some k) :
    k.spelling = n := by
  have hfound := List.find?_some h
  exact of_decide_eq_true hfound

/-- A name that is none of `true`, `false` and `null` is read as a constant. -/
theorem reads_enumConstant {id : NameId} (n : Nat)
    (h : names.text id ∉ ["true", "false", "null"]) (span : Text.Span) :
    Reads T (valueUpTo (n + 1)) [nameWord names id]
      (recast (.into names T) (Value.enum id span)) more := by
  have hname : Reads T (do let constant ← name; return Value.enum constant.id constant.span)
      [nameWord names id] (recast (.into names T) (Value.enum id span)) more :=
    last (reads_name ⟨id, ⟨0, 0⟩⟩) (done _)
  unfold valueUpTo valueAt
  refine lookAt ?_
  cases hk : Keyword.ofSpelling? (names.text id) with
  | none =>
    have hkind : (nameWord names id).token.kind = .name := by
      rw [nameWord, Word.ofName, hk]
      rfl
    rw [hkind]
    exact hname
  | some w =>
    have hkind : (nameWord names id).token.kind = .keyword w := by
      rw [nameWord, Word.ofName, hk]
      rfl
    rw [hkind]
    rw [← spelling_of_ofSpelling? hk] at h
    cases w with
    | trueValue | falseValue | nullValue => exact absurd h (by decide)
    | _ => exact hname

theorem length_le_of_mem {α : Type} (word : α → List Word) {x : α} {xs : List α} (h : x ∈ xs) :
    (word x).length ≤ (xs.flatMap word).length := by
  obtain ⟨before, after, rfl⟩ := List.append_of_mem h
  rw [List.flatMap_append, List.flatMap_cons, List.length_append, List.length_append]
  omega

theorem reads_valueUpTo : ∀ (n : Nat) (v : Value), v.writable names = true →
    (v.words names q).length ≤ n →
    Reads T (valueUpTo n) (v.words names q) (recast (.into names T) v) []
  | 0, v, h, hn => by
    obtain ⟨w, ws, hwords, _⟩ := exists_words_of_value q h
    rw [hwords] at hn
    exact absurd hn (Nat.not_succ_le_zero _)
  | n + 1, v, h, hn => by
    have hforward := forward_valueUpTo n
    cases v with
    | int v span =>
      unfold valueUpTo valueAt
      exact lookAt (reads_intLiteral (of_decide_eq_true h) span)
    | float bits span => cases h
    | string body span =>
      have hbody : (textWord q body).token.body = body := body_word (q body) body ⟨0, 0⟩
      have hliteral : Reads T
          (literal (textWord q body).token (.string (textWord q body).token.body))
          [textWord q body] (recast (.into names T) (Value.string body span)) [] := by
        rw [hbody]
        exact skip (spanned (done _))
      unfold valueUpTo valueAt
      refine lookAt ?_
      rcases kind_textWord q body with hk | hk
      · rw [show (textWord q body).token.kind = .string from hk]
        exact hliteral
      · rw [show (textWord q body).token.kind = .blockString from hk]
        exact hliteral
    | boolean b span =>
      cases b
      · exact lookAt (skip (spanned (done _)))
      · exact lookAt (skip (spanned (done _)))
    | null span => exact lookAt (skip (spanned (done _)))
    | enum id span =>
      exact reads_enumConstant n (of_decide_eq_true (Bool.and_eq_true_iff.1 h).2) span
    | list items span =>
      have hitems : ∀ v ∈ items, v.writable names = true :=
        List.all_eq_true.1 ((writableItems_eq items).symm.trans h)
      refine reads_listValue q hitems (fun v hv => ?_) span
      refine reads_valueUpTo n v (hitems v hv) ?_
      have hlength := length_le_of_mem (Value.words names q) hv
      simp only [Value.words, wordsOfItems_eq, List.length_cons, List.length_append] at hn
      omega
    | object fields span =>
      refine reads_objectValue q (fun field hfield => ?_) span
      refine reads_valueUpTo n field.2 (writable_of_mem_fields h field hfield) ?_
      have hlength := length_le_of_mem (fieldWords names q) hfield
      simp only [Value.words, wordsOfFields_eq, List.length_cons, List.length_append] at hn
      simp only [fieldWords, List.length_cons] at hlength
      omega

theorem reads_value {v : Value} (h : v.writable names = true) :
    Reads T value (v.words names q) (recast (.into names T) v) [] :=
  ofBound fun n hn => reads_valueUpTo q n v h hn

end Values

/-! ## Uses of directives -/

section Documents

variable (q : String → Quoting)

theorem reads_argument {a : Argument} (h : a.writable names = true) :
    Reads T argument (a.words names q) (recast (.into names T) a) [] := by
  obtain ⟨_, hvalue⟩ := Bool.and_eq_true_iff.1 h
  unfold argument
  refine look fun t ht => ?_
  rw [ht]
  exact one (reads_name a.name) (expects rfl (last (reads_value q hvalue) (spanned (done _))))

theorem reads_directive {d : Directive} (h : d.writable names = true) :
    Reads T directive (d.words names q) (recast (.into names T) d) [.punct .parenOpen] := by
  have harguments : ∀ a ∈ d.arguments, Round T argument (a.words names q)
      (recast (.into names T) a) nameKinds [] := fun a ha =>
    ⟨List.cons_ne_nil _ _, opens_cons (mem_nameKinds (isName_ofName _)),
      reads_argument q (List.all_eq_true.1 (Bool.and_eq_true_iff.1 h).2 a ha)⟩
  unfold directive
  dsimp only
  refine look fun t ht => skip (one (reads_name d.name) ?_)
  rw [ht]
  exact between_last nameKinds
    (f := fun as => do return Directive.mk (recast (.into names T) d.name) as (← spanFrom 0))
    (by decide) (by decide) (by decide) harguments List.mem_cons_self (spanned (done _))

theorem opens_directives (names : NameTable) (ds : List Directive) :
    Opens (directivesWords names q ds) [.punct .atSign] := by
  cases ds with
  | nil => exact opens_nil
  | cons d ds => exact opens_cons List.mem_cons_self

theorem reads_directives {ds : List Directive} (h : ds.all (Directive.writable names) = true) :
    Reads T directives (directivesWords names q ds) (recast (.into names T) ds)
      afterDirectives := by
  have hround : ∀ d ∈ ds, Round T directive (d.words names q) (recast (.into names T) d)
      [.punct .atSign] [.punct .parenOpen] := fun d hd =>
    ⟨List.cons_ne_nil _ _, opens_cons List.mem_cons_self,
      reads_directive q (List.all_eq_true.1 h d hd)⟩
  exact rounds_sees (by decide) (by decide) (by decide) (by decide) hround

/-! ## Fields and input values -/

section Described

variable {β : Type} {r : Reader β} {b : β} {ws : List Word}

/-- A description and a name. -/
theorem Reads.described {f : Option Description → Token → Name → Reader β}
    [∀ d t n, Forward (f d t n)] (d : Option Description) (n : Name)
    (hf : ∀ t : Token, t.span = ⟨0, 0⟩ →
      Reads T (f (recast (.into names T) d) t (recast (.into names T) n)) ws b more) :
    Reads T (do f (← description?) (← peek) (← name))
      (descriptionWords q d ++ (nameWord names n.id :: ws)) b more := by
  refine (reads_description? names q d).bind (guards_cons (nameWord_notMem (by decide) n.id)) ?_
  exact look fun t ht => one (reads_name n) (hf t ht)

theorem Reads.round_described {d : Option Description} {id : NameId}
    (h : Reads T r (descriptionWords q d ++ (nameWord names id :: ws)) b more) :
    Round T r (descriptionWords q d ++ (nameWord names id :: ws)) b describedKinds more where
  ne := List.append_ne_nil_of_right_ne_nil _ (List.cons_ne_nil _ _)
  opens := (opens_description q d).append (opens_cons (mem_nameKinds (isName_ofName _)))
  reads := h

end Described

/-- The constant after an equals sign, or nothing. -/
theorem Reads.default {β : Type} {f : Option Value → Reader β} [∀ v, Forward (f v)]
    {v : Option Value} (h : v.all (Value.writable names) = true) {ws : List Word} {b : β}
    (hws : Guards ws more [.punct .equals])
    (hf : Reads T (f (recast (.into names T) v)) ws b more) :
    Reads T (do f (← if ← accept (.punct .equals) then some <$> value else pure none))
      (defaultWords names q v ++ ws) b more := by
  cases v with
  | none => exact missed hws (by decide) hf
  | some v =>
    have hwords : defaultWords names q (some v) = .mark .equals :: v.words names q := by
      obtain ⟨w, vs, hv, _⟩ := exists_words_of_value q h
      simp [defaultWords, introduced, hv]
    rw [hwords]
    refine took rfl ?_
    exact (reads_value q h).map.bind (fun _ _ _ _ => List.not_mem_nil) hf

theorem reads_inputValue {v : InputValue} (h : v.writable names = true) :
    Reads T inputValue (v.words names q) (recast (.into names T) v)
      (.punct .bang :: .punct .equals :: afterDirectives) := by
  simp only [InputValue.writable, Bool.and_eq_true] at h
  obtain ⟨⟨⟨⟨_, _⟩, htype⟩, hdefault⟩, hdirectives⟩ := h
  unfold inputValue
  dsimp only
  refine described q v.description v.name fun t ht => expects rfl ?_
  rw [ht]
  have hstart := opens_directives q names v.directives
  have hopens := (opens_introduced (.mark .equals)
    (v.default?.toList.flatMap (Value.words names q))).append hstart
  refine (reads_typeRef htype).bind (hopens.guards (by decide) (by decide)) ?_
  refine Reads.default q hdefault ?_ ?_
  · exact hstart.guards (by decide) (by decide)
  · exact last ((reads_directives q hdirectives).mono (by decide)) (spanned (done _))

theorem reads_inputValues {vs : List InputValue} (h : vs.all (InputValue.writable names) = true) :
    ∀ v ∈ vs, Round T inputValue (v.words names q) (recast (.into names T) v) describedKinds
      (.punct .bang :: .punct .equals :: afterDirectives) :=
  fun v hv => (reads_inputValue q (List.all_eq_true.1 h v hv)).round_described q

theorem reads_argumentDefinitions {vs : List InputValue}
    (h : vs.all (InputValue.writable names) = true) :
    Reads T argumentDefinitions (argumentWords names q vs) (recast (.into names T) vs)
      [.punct .parenOpen] :=
  between_last describedKinds (f := pure) (by decide) (by decide) (by decide)
    (reads_inputValues q h) List.mem_cons_self (done _)

theorem reads_field {f : Field} (h : f.writable names = true) :
    Reads T field (f.words names q) (recast (.into names T) f)
      (.punct .bang :: afterDirectives) := by
  simp only [Field.writable, Bool.and_eq_true] at h
  obtain ⟨⟨⟨⟨_, _⟩, harguments⟩, htype⟩, hdirectives⟩ := h
  unfold field
  dsimp only
  refine described q f.description f.name fun t ht => ?_
  rw [ht]
  refine (reads_argumentDefinitions q harguments).bind (guards_cons (by decide)) (expects rfl ?_)
  have hopens := opens_directives q names f.directives
  refine (reads_typeRef htype).bind (hopens.guards (by decide) (by decide)) ?_
  exact last ((reads_directives q hdirectives).mono (by decide)) (spanned (done _))

theorem reads_enumValue {v : EnumValue} (h : v.writable names = true) :
    Reads T enumValue (v.words names q) (recast (.into names T) v) afterDirectives := by
  simp only [EnumValue.writable, Bool.and_eq_true] at h
  unfold enumValue
  dsimp only
  refine described q v.description v.name fun t ht => ?_
  rw [ht]
  exact last (reads_directives q h.2) (spanned (done _))

/-- Parts in braces, or nothing. -/
theorem reads_braced {α γ : Type} {item : Reader α} [Forward item] {words : γ → List Word}
    {value : γ → α} {after : List TokenKind} {xs : List γ}
    (hxs : ∀ x ∈ xs, Round T item (words x) (value x) describedKinds after)
    (hafter : ∀ k ∈ describedKinds, k ≠ .punct .braceClose ∧ k ∉ after)
    (hclose : .punct .braceClose ∉ after) :
    Reads T (braced item) (enclosed .braceOpen .braceClose words xs) (xs.map value)
      [.punct .braceOpen] :=
  between_last describedKinds (f := pure) List.mem_cons_self
    (fun k hk => ⟨fun hmem => (hafter k hk).1 (List.mem_singleton.1 hmem), (hafter k hk).2⟩)
    (fun _ hk hmem => hclose (List.mem_singleton.1 hmem ▸ hk)) hxs List.mem_cons_self (done _)

/-! ## Names set apart by marks -/

/-- More names, each after its mark. -/
theorem separated_cons (p : Punctuator) (n : Name) (ns : List Name) :
    separated p ((n :: ns).map fun n => nameWord names n.id) =
      nameWord names n.id :: ns.flatMap fun n => [.mark p, nameWord names n.id] := by
  rw [List.map_cons, separated, List.flatMap_map]

theorem reads_implementedInterfaces (ns : List Name) :
    Reads T implementedInterfaces (interfaceWords names ns) (recast (.into names T) ns)
      afterInterfaces := by
  cases ns with
  | nil => exact missed (guards_nil (by decide)) (by decide) (done _)
  | cons n ns =>
    have hstep : ∀ n ∈ ns, Round T (do let _ ← accept (.punct .ampersand); typeName)
        [.mark .ampersand, nameWord names n.id] (recast (.into names T) n)
        [.punct .ampersand] [] := fun n _ =>
      ⟨List.cons_ne_nil _ _, opens_cons List.mem_cons_self, took rfl (reads_typeName n)⟩
    rw [interfaceWords, separated_cons]
    refine took rfl (missed (guards_cons (nameWord_notMem (by decide) n.id)) (by decide) ?_)
    refine one (reads_typeName n) (last ?_ (done _))
    refine rounds ?_ ?_ (by decide) (by decide) hstep
    · intro w ws t hw
      have hsees : (State.ofWords (w :: ws) t).sees (.punct .ampersand) = true :=
        decide_eq_true (List.mem_singleton.1 hw)
      rw [hsees]
      rfl
    · intro k t hk
      have hmark : (State.ofWords k t).sees (.punct .ampersand) = false :=
        sees_of_halts hk (by decide) (by decide) t
      have hname : (State.ofWords k t).sees .name = false :=
        sees_of_halts hk (by decide) (by decide) t
      rw [hmark, hname]
      rfl

theorem reads_unionMembers (ns : List Name) :
    Reads T unionMembers (memberWords names ns) (recast (.into names T) ns)
      [.punct .equals, .punct .pipe] := by
  cases ns with
  | nil => exact missed (guards_nil (by decide)) (by decide) (done _)
  | cons n ns =>
    have hstep : ∀ n ∈ ns, Round T (do advance; typeName)
        [.mark .pipe, nameWord names n.id] (recast (.into names T) n) [.punct .pipe] [] :=
      fun n _ => ⟨List.cons_ne_nil _ _, opens_cons List.mem_cons_self, skip (reads_typeName n)⟩
    rw [memberWords, separated_cons]
    refine took rfl (missed (guards_cons (nameWord_notMem (by decide) n.id)) (by decide) ?_)
    refine one (reads_typeName n) (last ?_ (done _))
    exact rounds_sees (by decide) (by decide) (by decide) (by decide) hstep

theorem ofSpelling?_location (l : Location) : Location.ofSpelling? l.spelling = some l := by
  cases l <;> decide

theorem reads_location? (l : Location) :
    Reads T location? [.ofName l.spelling] (some l) more := by
  have hknown : Location.ofSpelling? (Word.ofName l.spelling).token.text = some l :=
    ofSpelling?_location l
  unfold location?
  dsimp only
  refine lookAt ?_
  rw [hknown]
  exact skip (done _)

theorem reads_locationsUpTo : ∀ (ls : List Location) (l : Location) (n : Nat),
    (l :: ls).length ≤ n →
    Reads T (locationsUpTo n) (locationWords (l :: ls)) (l :: ls) [.punct .pipe]
  | ls, l, n + 1, hn => by
    have hforward := forward_locationsUpTo n
    unfold locationsUpTo locationsAt
    dsimp only
    refine lookAt (yes (isName_ofName _) (one (reads_location? l) ?_))
    cases ls with
    | nil => exact missed (guards_nil fun _ hk => hk) (by decide) (done [l])
    | cons l' ls =>
      exact took rfl (last (reads_locationsUpTo ls l' n (Nat.le_of_succ_le_succ hn)) (done _))

theorem reads_locations {ls : List Location} (h : ls ≠ []) :
    Reads T locations (locationWords ls) ls [.punct .pipe] := by
  obtain ⟨l, ls, rfl⟩ := List.exists_cons_of_ne_nil h
  have hname : (Word.ofName l.spelling).1 ∉ [TokenKind.punct .pipe] := by
    intro hmem
    have hname := isName_ofName l.spelling
    rw [List.mem_singleton.1 hmem] at hname
    cases hname
  refine missed (guards_cons hname) (by decide) (ofBound fun n hn => ?_)
  refine reads_locationsUpTo ls l n (Nat.le_trans ?_ hn)
  simp only [locationWords, List.map_cons, separated, List.length_cons, List.length_flatMap,
    List.length_nil, List.map_const', List.length_map, List.sum_replicate, Nat.nsmul_eq_mul]
  omega

/-! ## Definitions -/

theorem filterMap_some_recast {α : Type} [Recast α] (c : Change) (as : List α) :
    (as.map fun a => some (recast c a)).filterMap id = recast c as := by
  rw [List.filterMap_map]
  exact congrFun List.filterMap_eq_map as

theorem reads_rootOperation? (o : RootOperation) :
    Reads T rootOperation? (o.words names) (some (recast (.into names T) o)) more := by
  have hoperation :
      operationOf? (Word.keyword o.operation.keyword).token.kind = some o.operation := by
    cases o.operation <;> rfl
  unfold rootOperation?
  refine lookAt ?_
  rw [hoperation]
  exact skip (expects rfl (last (reads_typeName o.type) (spanned (done _))))

theorem reads_schemaDefinition {d : SchemaDefinition}
    (h : d.directives.all (Directive.writable names) = true) :
    Reads T (schemaDefinition (recast (.into names T) d.description))
      ((Definition.schema d).bareWords names q) (recast (.into names T) d) more := by
  have hround : ∀ o ∈ d.operations, Round T rootOperation? (o.words names)
      (some (recast (.into names T) o))
      [.keyword .query, .keyword .mutation, .keyword .subscription] [] := by
    refine fun o _ => ⟨List.cons_ne_nil _ _, opens_cons ?_, reads_rootOperation? o⟩
    cases o.operation <;> decide
  have hoperations : (d.operations.map fun o => some (recast (.into names T) o)).filterMap id =
      recast (.into names T) d.operations := filterMap_some_recast _ _
  unfold schemaDefinition
  dsimp only
  refine look fun t ht => skip ?_
  rw [ht]
  refine (reads_directives q h).bind (guards_cons (by decide)) (expects rfl ?_)
  refine (rounds_before _ (by decide) (by decide) hround).bind (guards_cons (by decide)) ?_
  refine expects rfl (spanned ?_)
  rw [hoperations]
  exact done _

theorem reads_fieldsDefinition {d : FieldsDefinition} (h : d.writable names = true) (w : Word) :
    Reads T (fieldsDefinition (recast (.into names T) d.description)) (w :: d.words names q)
      (recast (.into names T) d) afterDefinition := by
  simp only [FieldsDefinition.writable, Bool.and_eq_true] at h
  obtain ⟨⟨⟨_, _⟩, hdirectives⟩, hfields⟩ := h
  have hround : ∀ f ∈ d.fields, Round T field (f.words names q) (recast (.into names T) f)
      describedKinds (.punct .bang :: afterDirectives) :=
    fun f hf => (reads_field q (List.all_eq_true.1 hfields f hf)).round_described q
  unfold fieldsDefinition
  dsimp only
  refine look fun t ht => skip (one (reads_name d.name) ?_)
  rw [ht]
  have hopens := opens_enclosed .braceOpen .braceClose (Field.words names q) d.fields
  refine (reads_implementedInterfaces d.interfaces).bind
    (((opens_directives q names d.directives).append hopens).guards (by decide) (by decide)) ?_
  refine (reads_directives q hdirectives).bind (hopens.guards (by decide) (by decide)) ?_
  exact last ((reads_braced hround (by decide) (by decide)).mono (by decide)) (spanned (done _))

theorem reads_unionDefinition {d : UnionDefinition}
    (h : d.directives.all (Directive.writable names) = true) :
    Reads T (unionDefinition (recast (.into names T) d.description))
      ((Definition.union d).bareWords names q) (recast (.into names T) d) afterDefinition := by
  unfold unionDefinition
  dsimp only
  refine look fun t ht => skip (one (reads_name d.name) ?_)
  rw [ht]
  have hopens := opens_introduced (.mark .equals)
    (separated .pipe (d.members.map fun n => nameWord names n.id))
  refine (reads_directives q h).bind (hopens.guards (by decide) (by decide)) ?_
  exact last ((reads_unionMembers d.members).mono (by decide)) (spanned (done _))

theorem reads_enumDefinition {d : EnumDefinition}
    (h : d.directives.all (Directive.writable names) = true)
    (hvalues : d.values.all (EnumValue.writable names) = true) :
    Reads T (enumDefinition (recast (.into names T) d.description))
      ((Definition.enum d).bareWords names q) (recast (.into names T) d) afterDefinition := by
  have hround : ∀ v ∈ d.values, Round T enumValue (v.words names q) (recast (.into names T) v)
      describedKinds afterDirectives :=
    fun v hv => (reads_enumValue q (List.all_eq_true.1 hvalues v hv)).round_described q
  unfold enumDefinition
  dsimp only
  refine look fun t ht => skip (one (reads_name d.name) ?_)
  rw [ht]
  have hopens := opens_enclosed .braceOpen .braceClose (EnumValue.words names q) d.values
  refine (reads_directives q h).bind (hopens.guards (by decide) (by decide)) ?_
  exact last ((reads_braced hround (by decide) (by decide)).mono (by decide)) (spanned (done _))

theorem reads_inputDefinition {d : InputDefinition}
    (h : d.directives.all (Directive.writable names) = true)
    (hfields : d.fields.all (InputValue.writable names) = true) :
    Reads T (inputDefinition (recast (.into names T) d.description))
      ((Definition.input d).bareWords names q) (recast (.into names T) d) afterDefinition := by
  unfold inputDefinition
  dsimp only
  refine look fun t ht => skip (one (reads_name d.name) ?_)
  rw [ht]
  have hopens := opens_enclosed .braceOpen .braceClose (InputValue.words names q) d.fields
  refine (reads_directives q h).bind (hopens.guards (by decide) (by decide)) ?_
  exact between_last describedKinds
    (f := fun fields => spanFrom 0 >>= fun span =>
      pure (InputDefinition.mk (recast (.into names T) d.description)
        (recast (.into names T) d.name) (recast (.into names T) d.directives) fields span))
    (by decide) (by decide) (by decide) (reads_inputValues q hfields) (by decide)
    (spanned (done _))

theorem reads_scalarDefinition {d : ScalarDefinition}
    (h : d.directives.all (Directive.writable names) = true) :
    Reads T (scalarDefinition (recast (.into names T) d.description))
      ((Definition.scalar d).bareWords names q) (recast (.into names T) d) afterDefinition := by
  unfold scalarDefinition
  dsimp only
  refine look fun t ht => skip (one (reads_name d.name) ?_)
  rw [ht]
  exact last ((reads_directives q h).mono (by decide)) (spanned (done _))

theorem reads_directiveDefinition {d : DirectiveDefinition}
    (h : d.arguments.all (InputValue.writable names) = true) (hlocations : d.locations ≠ []) :
    Reads T (directiveDefinition (recast (.into names T) d.description))
      ((Definition.directive d).bareWords names q) (recast (.into names T) d) afterDefinition := by
  unfold directiveDefinition
  dsimp only
  refine look fun t ht => skip (expects rfl (one (reads_name d.name) ?_))
  rw [ht]
  have hlast (repeatable : Bool) : Reads T (do
      expect (.keyword .onLocation)
      let locations ← locations
      return DirectiveDefinition.mk (recast (.into names T) d.description)
        (recast (.into names T) d.name) (recast (.into names T) d.arguments) repeatable locations
        (← spanFrom 0))
      (.keyword .onLocation :: locationWords d.locations)
      ⟨recast (.into names T) d.description, recast (.into names T) d.name,
        recast (.into names T) d.arguments, repeatable, d.locations, ⟨0, 0⟩⟩ afterDefinition :=
    expects rfl (last ((reads_locations hlocations).mono (by decide)) (spanned (done _)))
  have hrepeatable : recast (.into names T) d = ⟨recast (.into names T) d.description,
      recast (.into names T) d.name, recast (.into names T) d.arguments, d.repeatable,
      d.locations, ⟨0, 0⟩⟩ := rfl
  rw [hrepeatable]
  cases d.repeatable with
  | false =>
    refine (reads_argumentDefinitions q h).bind (guards_cons (by decide)) ?_
    exact missed (guards_cons (by decide)) (by decide) (hlast false)
  | true =>
    refine (reads_argumentDefinitions q h).bind (guards_cons (by decide)) ?_
    exact took rfl (hlast true)

/-- A definition after its description. -/
theorem reads_definitionAt {x : Definition} (h : x.bareWritable names = true)
    (extended : Reader (Option Definition)) [Forward extended] :
    Reads T (definitionAt (recast (.into names T) x.description) extended)
      (x.bareWords names q) (some (recast (.into names T) x)) afterDefinition := by
  unfold definitionAt
  cases x <;> simp only [Definition.bareWritable, Bool.and_eq_true] at h
  case schema d => exact lookAt (last (reads_schemaDefinition q h.1) (done _))
  case object d => exact lookAt (last (reads_fieldsDefinition q h _) (done _))
  case interface d => exact lookAt (last (reads_fieldsDefinition q h _) (done _))
  case union d => exact lookAt (last (reads_unionDefinition q h.1.2) (done _))
  case enum d => exact lookAt (last (reads_enumDefinition q h.1.2 h.2) (done _))
  case input d => exact lookAt (last (reads_inputDefinition q h.1.2 h.2) (done _))
  case scalar d => exact lookAt (last (reads_scalarDefinition q h.2) (done _))
  case directive d =>
    have hlocations : d.locations ≠ [] := by simpa using h.2
    exact lookAt (last (reads_directiveDefinition q h.1.2 hlocations) (done _))

theorem exists_bareWords (names : NameTable) (x : Definition) :
    ∃ w ws, x.bareWords names q = w :: ws ∧ w.1 ∈ definitionKinds := by
  cases x <;> exact ⟨_, _, rfl, by decide⟩

theorem reads_definition? {x : Definition} (h : x.writable names = true) :
    Reads T definition? (x.words names q) (some (recast (.into names T) x)) afterDefinition := by
  obtain ⟨w, ws, hwords, hw⟩ := exists_bareWords q names x
  refine ofBound fun n hn => ?_
  cases n with
  | zero =>
    rw [Definition.words, hwords] at hn
    simp at hn
  | succ n =>
    have hforward := forward_definitionUpTo n
    refine (reads_description? names q x.description).bind ?_
      (reads_definitionAt q (Bool.and_eq_true_iff.1 h).2 _)
    rw [hwords]
    exact guards_cons ((by decide : ∀ k ∈ definitionKinds, k ∉ descriptionKinds) w.1 hw)

theorem reads_definitionOrSkip {x : Definition} (h : x.writable names = true) :
    Reads T definitionOrSkip (x.words names q) (some (recast (.into names T) x))
      afterDefinition := by
  intro t k hk hT
  have hgrow : (definition? (.ofWords (x.words names q ++ k) t)).2.Leads
      (definitionOrSkip (.ofWords (x.words names q ++ k) t)).2 := by
    unfold definitionOrSkip
    rw [bind_apply]
    cases (definition? (.ofWords (x.words names q ++ k) t)).1 with
    | none => exact Forward.leads (r := do recover; return none) _
    | some x => exact .refl _
  obtain ⟨t', ht'⟩ := reads_definition? q h t k hk (hgrow.names.trans hT)
  refine ⟨t', ?_⟩
  rw [definitionOrSkip_apply (by rw [ht']; rfl), ht']

theorem round_definition {x : Definition} (h : x.writable names = true) :
    Round T definitionOrSkip (x.words names q) (some (recast (.into names T) x))
      (descriptionKinds ++ definitionKinds) afterDefinition := by
  obtain ⟨w, ws, hwords, hw⟩ := exists_bareWords q names x
  refine ⟨?_, ?_, reads_definitionOrSkip q h⟩
  · rw [Definition.words, hwords]
    exact List.append_ne_nil_of_right_ne_nil _ (List.cons_ne_nil _ _)
  · rw [Definition.words, hwords]
    exact (opens_description q x.description).append (opens_cons hw)

/-- **The words of a document are read back as the document.** -/
theorem reads_document {d : Document} (h : d.writable names = true) :
    Reads T document (d.words names q) (recast (.into names T) d) allKinds := by
  have hround : ∀ x ∈ d.definitions, Round T definitionOrSkip (x.words names q)
      (some (recast (.into names T) x)) (descriptionKinds ++ definitionKinds) afterDefinition :=
    fun x hx => round_definition q (List.all_eq_true.1 h x hx)
  have hdefinitions : (d.definitions.map fun x => some (recast (.into names T) x)).filterMap id =
      recast (.into names T) d.definitions := filterMap_some_recast _ _
  unfold document
  dsimp only
  refine look fun t ht => ?_
  rw [ht]
  refine last (rounds (fun _ _ _ _ => rfl) ?_ (by decide) (fun k _ => mem_allKinds k) hround) ?_
  · intro k t hk
    cases k with
    | nil => rfl
    | cons w ws => exact absurd (mem_allKinds w.1) (halts_cons.1 hk)
  · refine look fun t ht => ?_
    rw [ht, hdefinitions]
    exact done _

end Documents

end Reader

end Schema

end SchemaToFlow
