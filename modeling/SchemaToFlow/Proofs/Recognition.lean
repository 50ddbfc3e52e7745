import SchemaToFlow.Proofs.Forward
import SchemaToFlow.Proofs.Grammar

/-!
# Readers that recognise a language

A reader recognises a language (`Recognizes`) if

* whenever it reports no error, the tokens it took are a word of the language (`sound`);
* whenever the tokens left start with a word of the language, it takes that word and reports no
  error (`complete`), provided that what follows does not go on with a token it would take, too.

The second half needs one token of lookahead: `Stops more rest` says that `rest` does not start with
a token of one of the kinds `more`, and `Starts l heads` that the words of `l` start with tokens of
the kinds `heads` only. The rules below put readers together as the grammar puts languages together.
-/

set_option synthInstance.maxSize 1000

namespace SchemaToFlow.Schema

open Computability Grammar

/-! ## One token of lookahead -/

/-- The tokens do not start with one of the kinds. -/
def Stops (more : List TokenKind) (rest : List Token) : Prop := ∀ t ∈ rest.head?, t.kind ∉ more

/-- The words of a language start with the kinds given. -/
def Starts (l : Language Token) (heads : List TokenKind) : Prop :=
  ∀ t ts, t :: ts ∈ l → t.kind ∈ heads

theorem stops_nil (more : List TokenKind) : Stops more [] := by
  rintro t ⟨⟩

theorem stops_cons {more : List TokenKind} {t : Token} {ts : List Token} :
    Stops more (t :: ts) ↔ t.kind ∉ more := by
  constructor
  · exact fun h => h t rfl
  · rintro h _ ⟨rfl⟩
    exact h

theorem Stops.mono {more more' : List TokenKind} {rest : List Token} (h : Stops more rest)
    (hsub : ∀ k ∈ more', k ∈ more) : Stops more' rest :=
  fun t ht hk => h t ht (hsub t.kind hk)

/-- A word of `l` and what may follow it do not start with one of the kinds. -/
def Shields (l : Language Token) (more more' : List TokenKind) : Prop :=
  ∀ w ∈ l, ∀ rest, Stops more rest → Stops more' (w ++ rest)

theorem shields_nil (l : Language Token) (more : List TokenKind) : Shields l more [] :=
  fun _ _ _ _ _ _ => List.not_mem_nil

theorem shields_zero (more more' : List TokenKind) : Shields 0 more more' :=
  fun w hw => absurd hw (Language.notMem_zero w)

theorem shields_one {more more' : List TokenKind} (hsub : ∀ k ∈ more', k ∈ more) :
    Shields 1 more more' := by
  rintro w rfl rest hrest
  exact hrest.mono hsub

theorem shields_of_starts {l : Language Token} {heads more more' : List TokenKind}
    (h : Starts l heads) (hheads : ∀ k ∈ heads, k ∉ more') (hsub : ∀ k ∈ more', k ∈ more) :
    Shields l more more' := by
  intro w hw rest hrest
  cases w with
  | nil => exact hrest.mono hsub
  | cons t ts => exact stops_cons.2 (hheads t.kind (h t ts hw))

/-- The same for a language without the empty word. -/
theorem shields_of_starts_of_ne {l : Language Token} {heads more more' : List TokenKind}
    (h : Starts l heads) (hne : [] ∉ l) (hheads : ∀ k ∈ heads, k ∉ more') :
    Shields l more more' := by
  intro w hw rest hrest
  cases w with
  | nil => exact absurd hw hne
  | cons t ts => exact stops_cons.2 (hheads t.kind (h t ts hw))

theorem shields_one_mul {p : Token → Prop} {more' : List TokenKind}
    (hp : ∀ t, p t → t.kind ∉ more') (m : Language Token) (more : List TokenKind) :
    Shields (Grammar.one p * m) more more' := by
  intro w hw rest _
  obtain ⟨u, ⟨t, ht, rfl⟩, v, _, rfl⟩ := Language.mem_mul.1 hw
  exact stops_cons.2 (hp t ht)

theorem shields_tok_mul {k : TokenKind} {more more' : List TokenKind} {m : Language Token}
    (hk : k ∉ more') : Shields (tok k * m) more more' :=
  shields_one_mul (fun _ ht => ht.symm ▸ hk) m more

theorem shields_tok {k : TokenKind} {more more' : List TokenKind} (hk : k ∉ more') :
    Shields (tok k) more more' := by
  rintro w ⟨t, rfl, rfl⟩ rest _
  exact stops_cons.2 hk

theorem shields_name_mul {more more' : List TokenKind} {m : Language Token}
    (hk : ∀ k ∈ more', k.isName = false) : Shields (Grammar.name * m) more more' := by
  refine shields_one_mul (fun t ht hmem => ?_) m more
  rw [hk t.kind hmem] at ht
  cases ht

/-! ## First tokens -/

section Starts

variable {l m : Language Token} {heads heads' : List TokenKind}

theorem Starts.mono (h : Starts l heads) (hsub : ∀ k ∈ heads, k ∈ heads') : Starts l heads' :=
  fun t ts ht => hsub t.kind (h t ts ht)

theorem starts_one : Starts 1 heads := by
  intro t ts h
  cases h

theorem starts_token {p : Token → Prop} (hp : ∀ t, p t → t.kind ∈ heads) :
    Starts (Grammar.one p) heads := by
  rintro t ts ⟨t', ht', heq⟩
  cases heq
  exact hp t ht'

theorem starts_tok (k : TokenKind) : Starts (tok k) [k] :=
  starts_token fun _ hk => List.mem_singleton.2 hk

theorem Starts.add (h : Starts l heads) (h' : Starts m heads) : Starts (l + m) heads := by
  intro t ts ht
  rcases ht with ht | ht
  · exact h t ts ht
  · exact h' t ts ht

theorem Starts.mul (h : Starts l heads) (h' : Starts m heads) : Starts (l * m) heads := by
  intro t ts ht
  obtain ⟨u, hu, v, hv, huv⟩ := Language.mem_mul.1 ht
  cases u with
  | nil =>
    rw [List.nil_append] at huv
    exact h' t ts (huv ▸ hv)
  | cons t' u =>
    obtain ⟨rfl, _⟩ := List.cons.inj huv
    exact h t' u hu

/-- Only the first factor counts if it has no empty word. -/
theorem Starts.mul_of_ne (h : Starts l heads) (hne : [] ∉ l) (m : Language Token) :
    Starts (l * m) heads := by
  intro t ts ht
  obtain ⟨u, hu, v, hv, huv⟩ := Language.mem_mul.1 ht
  cases u with
  | nil => exact absurd hu hne
  | cons t' u =>
    obtain ⟨rfl, _⟩ := List.cons.inj huv
    exact h t' u hu

theorem Starts.opt (h : Starts l heads) : Starts (Grammar.opt l) heads := starts_one.add h

theorem Starts.kstar (h : Starts l heads) : Starts l∗ heads := by
  intro t ts ht
  rw [Language.mem_kstar_iff_exists_nonempty] at ht
  obtain ⟨pieces, hflat, hpieces⟩ := ht
  cases pieces with
  | nil => cases hflat
  | cons y ys =>
    obtain ⟨hy, hne⟩ := hpieces y List.mem_cons_self
    cases y with
    | nil => exact absurd rfl hne
    | cons t' y =>
      obtain ⟨rfl, _⟩ := List.cons.inj hflat
      exact h t y hy

theorem nil_notMem_one (p : Token → Prop) : [] ∉ Grammar.one p := by
  rintro ⟨t, _, h⟩
  cases h

theorem starts_tok_mul (k : TokenKind) (m : Language Token) : Starts (tok k * m) [k] :=
  (starts_tok k).mul_of_ne (nil_notMem_one _) m

theorem cons_mem_one_iff {p : Token → Prop} {t : Token} {ts : List Token} :
    t :: ts ∈ Grammar.one p ↔ p t ∧ ts = [] := by
  constructor
  · rintro ⟨t', ht', heq⟩
    cases heq
    exact ⟨ht', rfl⟩
  · rintro ⟨ht, rfl⟩
    exact ⟨t, ht, rfl⟩

theorem cons_mem_one_mul_iff {p : Token → Prop} {t : Token} {ts : List Token} :
    t :: ts ∈ Grammar.one p * m ↔ p t ∧ ts ∈ m := by
  constructor
  · intro h
    obtain ⟨u, ⟨t', ht', rfl⟩, v, hv, heq⟩ := Language.mem_mul.1 h
    cases heq
    exact ⟨ht', hv⟩
  · rintro ⟨ht, hts⟩
    exact Language.append_mem_mul (a := [t]) ⟨t, ht, rfl⟩ hts

theorem nil_notMem_mul (hne : [] ∉ l) (m : Language Token) : [] ∉ l * m := by
  intro h
  obtain ⟨u, hu, v, _, huv⟩ := Language.mem_mul.1 h
  obtain ⟨rfl, _⟩ := List.append_eq_nil_iff.1 huv
  exact hne hu

theorem nil_notMem_add (hl : [] ∉ l) (hm : [] ∉ m) : [] ∉ l + m := by
  rintro (h | h)
  · exact hl h
  · exact hm h

end Starts

/-- The kinds that serve as names. -/
def nameKinds : List TokenKind := .name :: Keyword.all.map .keyword

theorem mem_nameKinds {k : TokenKind} (h : k.isName) : k ∈ nameKinds := by
  cases k with
  | name => exact List.mem_cons_self
  | keyword w =>
    refine List.mem_cons_of_mem _ (List.mem_map_of_mem ?_)
    cases w <;> decide
  | _ => cases h

theorem starts_name : Starts Grammar.name nameKinds := starts_token fun _ => mem_nameKinds

/-- Every kind of token. -/
def allKinds : List TokenKind :=
  [.endOfInput, .invalid, .name, .int, .float, .string, .blockString] ++
    Keyword.all.map .keyword ++ Punctuator.all.map .punct

theorem mem_allKinds (k : TokenKind) : k ∈ allKinds := by
  cases k with
  | keyword w => cases w <;> decide
  | punct p => cases p <;> decide
  | _ => decide

/-- The kinds that are none of those given. -/
def others (kinds : List TokenKind) : List TokenKind := allKinds.filter fun k => k ∉ kinds

theorem mem_others {kinds : List TokenKind} {k : TokenKind} : k ∈ others kinds ↔ k ∉ kinds := by
  simp [others, mem_allKinds]

/-! ## Recognition -/

namespace State

/-- At most `n` tokens are left. -/
def Within (n : Nat) (s : State) : Prop := s.rest.length ≤ n

/-- The next token is `t`, and at most `n` tokens follow it. -/
def At (t : Token) (n : Nat) (s : State) : Prop := ∃ ts, s.rest = t :: ts ∧ ts.length ≤ n

theorem Leads.within {n : Nat} {s s' : State} (h : s.Leads s') (hs : s.Within n) : s'.Within n :=
  h.length_le.trans hs

theorem At.within_advance {t : Token} {n : Nat} {s : State} (h : s.At t n) :
    s.advance.Within n := by
  obtain ⟨ts, hts, hn⟩ := h
  unfold Within
  rw [rest_advance hts]
  exact hn

theorem Within.toAt {t : Token} {ts : List Token} {n : Nat} {s : State} (h : s.Within n)
    (hts : s.rest = t :: ts) : s.At t (n - 1) := by
  unfold Within at h
  rw [hts, List.length_cons] at h
  exact ⟨ts, hts, by omega⟩

theorem Within.at_of_sees {k : TokenKind} (hk : k ≠ .endOfInput) {n : Nat} {s : State}
    (h : s.Within n) (hsees : s.sees k = true) :
    s.current.kind = k ∧ s.At s.current (n - 1) := by
  have hcur : s.current.kind = k := of_decide_eq_true hsees
  obtain ⟨ts, hts⟩ := exists_rest_of_current (hcur.symm ▸ hk)
  exact ⟨hcur, h.toAt hts⟩

end State

namespace Reader

open State

variable {α β : Type}

/-- **A reader recognises a language** in the states that `P` holds of. -/
structure Recognizes (P : State → Prop) (r : Reader α) (l : Language Token)
    (more : List TokenKind) : Prop where
  sound : ∀ s, P s → (r s).2.Clean → ∃ w ∈ l, s.rest = w ++ (r s).2.rest
  complete : ∀ s w rest, P s → s.Clean → w ∈ l → s.rest = w ++ rest → Stops more rest →
    (r s).2.Clean ∧ (r s).2.rest = rest

namespace Recognizes

variable {P Q : State → Prop} {r : Reader α} {f : α → Reader β} {l m : Language Token}
  {more more' : List TokenKind} {n : Nat}

theorem mono (h : Recognizes P r l more) (hsub : ∀ k ∈ more, k ∈ more') :
    Recognizes P r l more' where
  sound := h.sound
  complete s w rest hP hc hw hrest hstop := h.complete s w rest hP hc hw hrest (hstop.mono hsub)

theorem weaken (h : Recognizes P r l more) (hQ : ∀ s, Q s → P s) : Recognizes Q r l more where
  sound s hs := h.sound s (hQ s hs)
  complete s w rest hs := h.complete s w rest (hQ s hs)

/-- A reader that changes nothing. -/
theorem quiet (h : ∀ s, (r s).2 = s) : Recognizes P r 1 more where
  sound s _ _ := by
    refine ⟨[], rfl, ?_⟩
    rw [h]
    rfl
  complete s w rest _ hc hw hrest _ := by
    cases hw
    rw [h]
    exact ⟨hc, hrest⟩

/-- A reader that changes nothing, and another after it. -/
theorem skip (h : ∀ s, (r s).2 = s) (hf : ∀ a, Recognizes P (f a) l more) :
    Recognizes P (r >>= f) l more where
  sound s hs hc := by
    rw [bind_apply, h s] at hc ⊢
    exact (hf _).sound s hs hc
  complete s w rest hs hc hw hrest hstop := by
    rw [bind_apply, h s]
    exact (hf _).complete s w rest hs hc hw hrest hstop

/-- A reader, and another after it that changes nothing. -/
theorem bind_quiet (h : Recognizes P r l more) (hf : ∀ a s, (f a s).2 = s) :
    Recognizes P (r >>= f) l more where
  sound s hs hc := by
    rw [bind_apply, hf] at hc ⊢
    exact h.sound s hs hc
  complete s w rest hs hc hw hrest hstop := by
    rw [bind_apply, hf]
    exact h.complete s w rest hs hc hw hrest hstop

theorem map {g : α → β} (h : Recognizes P r l more) : Recognizes P (g <$> r) l more where
  sound s := h.sound s
  complete s := h.complete s

/-- Two languages with the same words where a reader is used. -/
theorem congr {l' : Language Token} (h : Recognizes P r l' more)
    (hl : ∀ s w rest, P s → s.rest = w ++ rest → (w ∈ l' ↔ w ∈ l)) :
    Recognizes P r l more where
  sound s hs hc := by
    obtain ⟨w, hw, heq⟩ := h.sound s hs hc
    exact ⟨w, (hl s w _ hs heq).1 hw, heq⟩
  complete s w rest hs hc hw hrest hstop :=
    h.complete s w rest hs hc ((hl s w rest hs hrest).2 hw) hrest hstop

/-- Where the next token is known, only the words that start with it count. -/
theorem at_head {l' : Language Token} {t : Token}
    (h : Recognizes (fun s => P s ∧ s.current = t) r l' more) (hnil' : [] ∉ l') (hnil : [] ∉ l)
    (hl : ∀ ts, t :: ts ∈ l' ↔ t :: ts ∈ l) :
    Recognizes (fun s => P s ∧ s.current = t) r l more := by
  refine h.congr ?_
  rintro s w rest ⟨_, rfl⟩ hs
  cases w with
  | nil => exact iff_of_false hnil' hnil
  | cons t ts =>
    rw [← current_of_rest hs]
    exact hl ts

/-- A reader whose bound is the number of tokens left. -/
theorem ofBound {r : Nat → Reader α} (h : ∀ i, Recognizes (Within i) (r i) l more) :
    Recognizes (Within n) (fun s => r s.rest.length s) l more where
  sound s _ hc := (h s.rest.length).sound s (Nat.le_refl _) hc
  complete s w rest _ := (h s.rest.length).complete s w rest (Nat.le_refl _)

/-- A reader that always reports an error, where no word of the language stands. -/
theorem refuse (h : ∀ s, ¬ (r s).2.Clean)
    (hl : ∀ s w rest, P s → w ∈ l → s.rest ≠ w ++ rest) : Recognizes P r l more where
  sound s _ hc := absurd hc (h s)
  complete s w rest hP _ hw hrest _ := absurd hrest (hl s w rest hP hw)

/-- One reader after the other. -/
theorem bind' [Forward r] [∀ a, Forward (f a)] (hr : Recognizes P r l more')
    (hf : ∀ a, Recognizes Q (f a) m more) (hPQ : ∀ s, P s → Q (r s).2)
    (hs : Shields m more more') : Recognizes P (r >>= f) (l * m) more where
  sound s hP hc := by
    rw [bind_apply] at hc ⊢
    obtain ⟨u, hu, hsu⟩ := hr.sound s hP (Forward.clean _ hc)
    obtain ⟨v, hv, hsv⟩ := (hf _).sound _ (hPQ s hP) hc
    refine ⟨u ++ v, Language.append_mem_mul hu hv, ?_⟩
    rw [List.append_assoc, ← hsv, hsu]
  complete s w rest hP hc hw hrest hstop := by
    rw [bind_apply]
    obtain ⟨u, hu, v, hv, rfl⟩ := Language.mem_mul.1 hw
    rw [List.append_assoc] at hrest
    obtain ⟨hclean, hmid⟩ := hr.complete s u (v ++ rest) hP hc hu hrest (hs v hv rest hstop)
    exact (hf _).complete _ v rest (hPQ s hP) hclean hv hmid hstop

theorem bind [Forward r] [∀ a, Forward (f a)] (hr : Recognizes (Within n) r l more')
    (hs : Shields m more more') (hf : ∀ a, Recognizes (Within n) (f a) m more) :
    Recognizes (Within n) (r >>= f) (l * m) more :=
  hr.bind' hf (fun s h => (Forward.leads s).within h) hs

/-- Looking at the next token first. -/
theorem look_at {f : Token → Reader β}
    (h : ∀ t, Recognizes (fun s => P s ∧ s.current = t) (f t) l more) :
    Recognizes P (peek >>= f) l more where
  sound s hP hc := (h s.current).sound s ⟨hP, rfl⟩ hc
  complete s w rest hP := (h s.current).complete s w rest ⟨hP, rfl⟩

theorem look {f : Token → Reader β} (h : ∀ t, Recognizes P (f t) l more) :
    Recognizes P (peek >>= f) l more :=
  look_at fun t => (h t).weaken fun _ hs => hs.1

/-- Taking the next token, which is as it should be. -/
theorem next {f : Unit → Reader β} {p : Token → Prop} {t : Token} (hp : p t)
    (h : ∀ a, Recognizes (Within n) (f a) l more) :
    Recognizes (At t n) (advance >>= f) (one p * l) more where
  sound s hP hc := by
    obtain ⟨w, hw, heq⟩ := (h ()).sound s.advance hP.within_advance hc
    obtain ⟨ts, hts, _⟩ := hP
    refine ⟨[t] ++ w, Language.append_mem_mul ⟨t, hp, rfl⟩ hw, ?_⟩
    rw [rest_advance hts] at heq
    exact hts.trans (congrArg (t :: ·) heq)
  complete s w rest hP hc hw hrest hstop := by
    obtain ⟨u, ⟨t', _, rfl⟩, v, hv, rfl⟩ := Language.mem_mul.1 hw
    exact (h ()).complete s.advance v rest hP.within_advance hc hv (rest_advance hrest) hstop

/-- A reader that starts with a given token. -/
theorem of_at {t : Token} (h : Recognizes (At t (n - 1)) r l more) (ht : t.kind ≠ .endOfInput) :
    Recognizes (fun s => s.Within n ∧ s.current = t) r l more := by
  refine h.weaken ?_
  rintro s ⟨hn, rfl⟩
  obtain ⟨ts, hts⟩ := exists_rest_of_current ht
  exact hn.toAt hts

/-- Taking the next token if it is of a kind, and going on accordingly. -/
theorem branch {k : TokenKind} (hk : k ≠ .endOfInput) {r r' : Reader β}
    (h : Recognizes (Within (n - 1)) r l more) (h' : Recognizes (Within n) r' m more)
    (hs : Shields m more [k]) :
    Recognizes (Within n) (accept k >>= fun b => if b = true then r else r') (tok k * l + m)
      more where
  sound s hn hc := by
    rw [bind_apply] at hc ⊢
    unfold Reader.accept at hc ⊢
    by_cases hsees : s.sees k
    · rw [if_pos hsees] at hc ⊢
      have hcur : s.current.kind = k := of_decide_eq_true hsees
      obtain ⟨ts, hts⟩ := exists_rest_of_current (hcur.symm ▸ hk)
      obtain ⟨w, hw, heq⟩ := h.sound s.advance (hn.toAt hts).within_advance hc
      refine ⟨[s.current] ++ w, .inl (Language.append_mem_mul ⟨_, hcur, rfl⟩ hw), ?_⟩
      rw [rest_advance hts] at heq
      exact hts.trans (congrArg (s.current :: ·) heq)
    · rw [if_neg hsees] at hc ⊢
      obtain ⟨w, hw, heq⟩ := h'.sound s hn hc
      exact ⟨w, .inr hw, heq⟩
  complete s w rest hn hc hw hrest hstop := by
    rw [bind_apply]
    unfold Reader.accept
    rcases hw with hw | hw
    · obtain ⟨u, ⟨t, ht, rfl⟩, v, hv, rfl⟩ := Language.mem_mul.1 hw
      have hsees : s.sees k := by
        unfold sees
        rw [current_of_rest hrest]
        exact decide_eq_true ht
      rw [if_pos hsees]
      exact h.complete s.advance v rest (hn.toAt hrest).within_advance hc hv (rest_advance hrest)
        hstop
    · have hsees : ¬ s.sees k := by
        intro hsees
        have hcur : s.current.kind = k := of_decide_eq_true hsees
        obtain ⟨ts, hts⟩ := exists_rest_of_current (hcur.symm ▸ hk)
        have hstops := hs w hw rest hstop
        rw [← hrest, hts, stops_cons] at hstops
        exact hstops (List.mem_singleton.2 hcur)
      rw [if_neg hsees]
      exact h'.complete s w rest hn hc hw hrest hstop

/-- Something introduced by a token, which may be missing, before something else. -/
theorem branch_opt {k : TokenKind} (hk : k ≠ .endOfInput) {r r' : Reader β}
    (h : Recognizes (Within (n - 1)) r (l * m) more) (h' : Recognizes (Within n) r' m more)
    (hs : Shields m more [k]) :
    Recognizes (Within n) (Reader.accept k >>= fun b => if b = true then r else r')
      (opt (tok k * l) * m) more := by
  have hl : opt (tok k * l) * m = tok k * (l * m) + m := by
    rw [opt, add_mul, one_mul, mul_assoc, add_comm]
  rw [hl]
  exact branch hk h h' hs

/-- Something introduced by a token, which may be missing. -/
theorem branch_quiet {k : TokenKind} (hk : k ≠ .endOfInput) {r r' : Reader β}
    (h : Recognizes (Within (n - 1)) r l more) (h' : ∀ s, (r' s).2 = s) (hmem : k ∈ more) :
    Recognizes (Within n) (Reader.accept k >>= fun b => if b = true then r else r')
      (opt (tok k * l)) more := by
  have hl : opt (tok k * l) = tok k * l + 1 := by rw [opt, add_comm]
  rw [hl]
  refine branch hk h (quiet h') (shields_one ?_)
  exact fun k' hk' => List.mem_singleton.1 hk' ▸ hmem

/-- A token that may be missing. -/
theorem branch_token {k : TokenKind} (hk : k ≠ .endOfInput) {r r' : Reader β}
    (h : ∀ s, (r s).2 = s) (h' : ∀ s, (r' s).2 = s) (hmem : k ∈ more) :
    Recognizes (Within n) (Reader.accept k >>= fun b => if b = true then r else r')
      (opt (tok k)) more := by
  rw [← mul_one (tok k)]
  exact branch_quiet hk (quiet h) h' hmem

/-! ## Repetition -/

section Many

variable {go : State → Bool} {step : Reader α} {heads : List TokenKind}

theorem sound_manyUpTo [Forward step]
    (hstep : Recognizes (fun s => s.Within n ∧ go s = true) step l more) :
    ∀ i s, s.Within n → (manyUpTo go step i s).2.Clean →
      ∃ w ∈ l∗, s.rest = w ++ (manyUpTo go step i s).2.rest
  | 0, s, _, _ => ⟨[], Language.nil_mem_kstar l, rfl⟩
  | i + 1, s, hn, hc => by
    unfold manyUpTo at hc ⊢
    split at hc
    · rename_i hgo
      rw [if_pos hgo]
      have hforward := forward_manyUpTo go step i
      obtain ⟨u, hu, hsu⟩ := hstep.sound s ⟨hn, hgo⟩ (hforward.leads _ |>.clean hc)
      obtain ⟨v, hv, hsv⟩ := sound_manyUpTo hstep i _ ((Forward.leads s).within hn) hc
      refine ⟨u ++ v, ?_, ?_⟩
      · rw [← Language.one_add_self_mul_kstar_eq_kstar]
        exact .inr (Language.append_mem_mul hu hv)
      · rw [hsu, hsv, List.append_assoc]
        rfl
    · rename_i hgo
      rw [if_neg hgo]
      exact ⟨[], Language.nil_mem_kstar l, rfl⟩

/-- The rounds of a repetition take the pieces of a word one by one. -/
theorem complete_manyUpTo [Forward step]
    (hstep : Recognizes (fun s => s.Within n ∧ go s = true) step l more)
    (hstart : Starts l heads) (hheads : ∀ k ∈ heads, k ∉ more)
    (hgo : ∀ s t ts, s.rest = t :: ts → t.kind ∈ heads → go s = true)
    {rest : List Token} (hrest : ∀ s, s.rest = rest → go s = false) (hstop : Stops more rest) :
    ∀ (pieces : List (List Token)) (i : Nat) (s : State), (∀ y ∈ pieces, y ∈ l ∧ y ≠ []) →
      s.Within n → s.Within i → s.Clean → s.rest = pieces.flatten ++ rest →
      (manyUpTo go step i s).2.Clean ∧ (manyUpTo go step i s).2.rest = rest
  | [], i, s, _, _, _, hc, hs => by
    cases i with
    | zero => exact ⟨hc, hs⟩
    | succ i =>
      unfold manyUpTo
      rw [if_neg (by rw [hrest s hs]; exact Bool.false_ne_true)]
      exact ⟨hc, hs⟩
  | [] :: ys, _, _, hpieces, _, _, _, _ => absurd rfl (hpieces [] List.mem_cons_self).2
  | (t :: y) :: ys, i, s, hpieces, hn, hi, hc, hs => by
    obtain ⟨hy, _⟩ := hpieces _ List.mem_cons_self
    rw [List.flatten_cons, List.append_assoc] at hs
    have hgo' : go s = true := hgo s t _ hs (hstart t y hy)
    -- what follows the piece starts with the next one, or is what follows them all
    have hnext : Stops more (ys.flatten ++ rest) := by
      refine shields_of_starts hstart.kstar hheads (fun k hk => hk) _ ?_ rest hstop
      exact Language.join_mem_kstar fun w hw => (hpieces w (List.mem_cons_of_mem _ hw)).1
    obtain ⟨hclean, hmid⟩ := hstep.complete s (t :: y) _ ⟨hn, hgo'⟩ hc hy hs hnext
    cases i with
    | zero =>
      unfold Within at hi
      rw [hs] at hi
      cases hi
    | succ i =>
      unfold manyUpTo
      rw [if_pos hgo']
      have hi' : (step s).2.Within i := by
        unfold Within at hi ⊢
        rw [hs, List.cons_append, List.length_cons, List.length_append] at hi
        rw [hmid]
        omega
      exact complete_manyUpTo hstep hstart hheads hgo hrest hstop ys i _
        (fun w hw => hpieces w (List.mem_cons_of_mem _ hw)) ((Forward.leads s).within hn) hi'
        hclean hmid

/-- Repetition: `heads` start a round, and `more'` lists what would start one more. -/
theorem rounds [Forward step]
    (hstep : Recognizes (fun s => s.Within n ∧ go s = true) step l more)
    (hstart : Starts l heads) (hheads : ∀ k ∈ heads, k ∉ more)
    (hgo : ∀ s t ts, s.rest = t :: ts → t.kind ∈ heads → go s = true)
    (hstop : ∀ s, Stops more' s.rest → go s = false) (hsub : ∀ k ∈ more, k ∈ more') :
    Recognizes (Within n) (many go step) l∗ more' where
  sound s hn hc := sound_manyUpTo hstep _ s hn hc
  complete s w rest hn hc hw hs hrest := by
    rw [Language.mem_kstar_iff_exists_nonempty] at hw
    obtain ⟨pieces, rfl, hpieces⟩ := hw
    exact complete_manyUpTo hstep hstart hheads hgo (fun s' hs' => hstop s' (hs' ▸ hrest))
      (hrest.mono hsub) pieces _ s hpieces hn (Nat.le_refl _) hc hs

/-- Without errors a repetition goes on as long as it may, since every round takes a token. -/
theorem go_manyUpTo [Forward step]
    (hstep : Recognizes (fun s => s.Within n ∧ go s = true) step l more) (hl : [] ∉ l)
    (hend : ∀ s : State, s.rest = [] → go s = false) :
    ∀ i s, s.Within n → s.Within i → (manyUpTo go step i s).2.Clean →
      go (manyUpTo go step i s).2 = false
  | 0, s, _, hi, _ => hend s (List.eq_nil_of_length_eq_zero (Nat.le_zero.1 hi))
  | i + 1, s, hn, hi, hc => by
    unfold manyUpTo at hc ⊢
    split at hc
    · rename_i hgo
      rw [if_pos hgo]
      have hforward := forward_manyUpTo go step i
      obtain ⟨u, hu, hsu⟩ := hstep.sound s ⟨hn, hgo⟩ (hforward.leads _ |>.clean hc)
      have hi' : (step s).2.Within i := by
        unfold Within at hi ⊢
        have hpos : 0 < u.length := List.length_pos_iff.2 fun h => hl (h ▸ hu)
        rw [hsu, List.length_append] at hi
        omega
      exact go_manyUpTo hstep hl hend i _ ((Forward.leads s).within hn) hi' hc
    · rename_i hgo
      rw [if_neg hgo]
      exact Bool.eq_false_iff.2 hgo

/-- Repetition up to one of the kinds `stops`. -/
theorem many_before {stops : List TokenKind} [Forward step]
    (hstep : Recognizes (Within n) step l more) (hstart : Starts l heads)
    (hheads : ∀ k ∈ heads, k ∉ stops ++ more) (hmore : ∀ k ∈ more, k ∉ stops) :
    Recognizes (Within n) (Reader.many (State.before stops) step) l∗ (others stops) := by
  refine rounds (hstep.weaken fun s hs => hs.1) hstart ?_ ?_ ?_ ?_
  · exact fun k hk hm => hheads k hk (List.mem_append_right _ hm)
  · intro s t ts hs ht
    unfold State.before State.atEnd
    rw [current_of_rest hs, hs, Bool.and_eq_true]
    exact ⟨rfl, decide_eq_true fun hm => hheads t.kind ht (List.mem_append_left _ hm)⟩
  · intro s hs
    unfold State.before State.atEnd
    cases hr : s.rest with
    | nil => rfl
    | cons t ts =>
      rw [hr, stops_cons, mem_others, not_not] at hs
      rw [current_of_rest hr, Bool.and_eq_false_iff]
      exact .inr (decide_eq_false fun hn => hn hs)
  · exact fun k hk => mem_others.2 (hmore k hk)

theorem sees_of_rest {k : TokenKind} {s : State} {t : Token} {ts : List Token}
    (hs : s.rest = t :: ts) : s.sees k = decide (t.kind = k) := by
  unfold State.sees
  rw [current_of_rest hs]

theorem sees_eq_false {k : TokenKind} (hk : k ≠ .endOfInput) {s : State} {kinds : List TokenKind}
    (hmem : k ∈ kinds) (hs : Stops kinds s.rest) : s.sees k = false := by
  cases hr : s.rest with
  | nil =>
    unfold State.sees
    rw [current_of_rest_nil hr]
    exact decide_eq_false hk.symm
  | cons t ts =>
    rw [sees_of_rest hr]
    rw [hr, stops_cons] at hs
    exact decide_eq_false fun ht => hs (ht ▸ hmem)

/-- Repetition as long as the next token is of a kind, which each round takes. -/
theorem many_sees {k : TokenKind} (hk : k ≠ .endOfInput) [Forward step]
    (hstep : ∀ t n, t.kind = k → Recognizes (At t n) step l more) (hstart : Starts l [k])
    (hmore : k ∉ more) :
    Recognizes (Within n) (Reader.many (fun s => s.sees k) step) l∗ (k :: more) := by
  have hround : Recognizes (fun s => s.Within n ∧ s.sees k = true) step l more := by
    constructor
    · intro s hs
      obtain ⟨hcur, hat⟩ := hs.1.at_of_sees hk hs.2
      exact (hstep _ _ hcur).sound s hat
    · intro s w rest hs
      obtain ⟨hcur, hat⟩ := hs.1.at_of_sees hk hs.2
      exact (hstep _ _ hcur).complete s w rest hat
  refine rounds hround hstart ?_ ?_ ?_ ?_
  · exact fun k' hk' => List.mem_singleton.1 hk' ▸ hmore
  · intro s t ts hs ht
    rw [sees_of_rest hs]
    exact decide_eq_true (List.mem_singleton.1 ht)
  · exact fun s hs => sees_eq_false hk List.mem_cons_self hs
  · exact fun k' hk' => List.mem_cons_of_mem k hk'

end Many

/-! ## Single tokens -/

/-- A reader that takes the next token. -/
theorem take {p : Token → Prop} {t : Token} (hrest : ∀ s, (r s).2.rest = s.rest.tail)
    (hclean : ∀ s, s.Clean → (r s).2.Clean) (ht : t.kind ≠ .endOfInput) (hp : p t) :
    Recognizes (fun s => P s ∧ s.current = t) r (one p) more where
  sound s hP _ := by
    obtain ⟨ts, hts⟩ := exists_rest_of_current (hP.2.symm ▸ ht)
    refine ⟨[t], ⟨t, hp, rfl⟩, ?_⟩
    rw [hrest, hts, hP.2]
    rfl
  complete s w rest hP hc hw hs _ := by
    obtain ⟨t', _, rfl⟩ := hw
    refine ⟨hclean s hc, ?_⟩
    rw [hrest, hs]
    rfl

/-- A reader that refuses the next token. -/
theorem refuse_head {t : Token} (h : ∀ s, ¬ (r s).2.Clean) (hnil : [] ∉ l)
    (hl : ∀ ts, t :: ts ∉ l) : Recognizes (fun s => P s ∧ s.current = t) r l more := by
  refine refuse h ?_
  rintro s w rest ⟨_, rfl⟩ hw hs
  cases w with
  | nil => exact hnil hw
  | cons t ts =>
    rw [← current_of_rest hs] at hw
    exact hl ts hw

theorem refuse_first {p : Token → Prop} {t : Token} (h : ∀ s, ¬ (r s).2.Clean) (hp : ¬ p t) :
    Recognizes (fun s => P s ∧ s.current = t) r (one p * l) more :=
  refuse_head h (nil_notMem_mul (nil_notMem_one p) l) fun _ ht => hp (cons_mem_one_mul_iff.1 ht).1

theorem refuse_token {p : Token → Prop} {t : Token} (h : ∀ s, ¬ (r s).2.Clean) (hp : ¬ p t) :
    Recognizes (fun s => P s ∧ s.current = t) r (one p) more :=
  refuse_head h (nil_notMem_one p) fun _ ht => hp (cons_mem_one_iff.1 ht).1

/-- A reader of something that may be missing, where it is not. -/
theorem opt_of_mem (h : Recognizes P r l more) (hP : ∀ s, P s → ¬ Stops more s.rest) :
    Recognizes P r (opt l) more where
  sound s hs hc := by
    obtain ⟨w, hw, heq⟩ := h.sound s hs hc
    exact ⟨w, .inr hw, heq⟩
  complete s w rest hs hc hw hrest hstop := by
    rcases hw with rfl | hw
    · exact absurd (hrest ▸ hstop) (hP s hs)
    · exact h.complete s w rest hs hc hw hrest hstop

/-- A reader of something that may be missing, where it is. -/
theorem opt_of_quiet (h : ∀ s, (r s).2 = s)
    (hl : ∀ s w rest, P s → w ∈ l → s.rest ≠ w ++ rest) : Recognizes P r (opt l) more where
  sound s hs hc := by
    obtain ⟨w, hw, heq⟩ := (quiet h : Recognizes P r 1 more).sound s hs hc
    exact ⟨w, .inl hw, heq⟩
  complete s w rest hs hc hw hrest hstop := by
    rcases hw with hw | hw
    · exact (quiet h).complete s w rest hs hc hw hrest hstop
    · exact absurd hrest (hl s w rest hs hw)

end Recognizes

open Recognizes

variable {n : Nat} {more : List TokenKind}

theorem kind_ne_endOfInput {k : TokenKind} (h : k.isName) : k ≠ .endOfInput := by
  rintro rfl
  cases h

theorem recognizes_name : Recognizes (Within n) name Grammar.name more := by
  unfold name
  refine look_at fun t => ?_
  split
  · rename_i hn
    exact take (fun _ => rfl) (fun _ => id) (kind_ne_endOfInput hn) hn
  · rename_i hn
    refine refuse_token (fun s hc => ?_) hn
    exact not_clean_expected "name" s (Forward.clean skipOffending hc)

theorem recognizes_typeName : Recognizes (Within n) typeName Grammar.name more := by
  unfold typeName
  refine look_at fun t => ?_
  split
  · rename_i hn
    exact take (fun _ => rfl) (fun _ => id) (kind_ne_endOfInput hn) hn
  · rename_i hn
    exact refuse_token (fun s hc => not_clean_expected "type name" s hc) hn

theorem recognizes_expect {k : TokenKind} (hk : k ≠ .endOfInput) :
    Recognizes (Within n) (expect k) (tok k) more := by
  have hnone : Recognizes (Within n) (expected k.describe) 0 more :=
    refuse (not_clean_expected _) fun _ _ _ _ hw => absurd hw (Language.notMem_zero _)
  have h : Recognizes (Within n) (expect k) (tok k * 1 + 0) more :=
    branch hk (quiet fun _ => rfl) hnone (shields_zero _ _)
  rwa [mul_one, add_zero] at h

/-- A token that may be missing. -/
theorem recognizes_accept {k : TokenKind} (hk : k ≠ .endOfInput) :
    Recognizes (Within n) (accept k) (opt (tok k)) [k] := by
  have heq : accept k = accept k >>= fun b => if b = true then pure true else pure false := by
    funext s
    rw [bind_apply]
    unfold accept
    split <;> rfl
  rw [heq]
  exact branch_token hk (fun _ => rfl) (fun _ => rfl) List.mem_cons_self

/-- The kinds of descriptions. -/
def descriptionKinds : List TokenKind := [.string, .blockString]

theorem description_eq :
    Grammar.description = opt (one fun t => t.kind ∈ descriptionKinds) := by
  unfold Grammar.description
  congr 1
  ext w
  constructor
  · rintro (⟨t, ht, rfl⟩ | ⟨t, ht, rfl⟩)
    · exact ⟨t, by simp [descriptionKinds, ht], rfl⟩
    · exact ⟨t, by simp [descriptionKinds, ht], rfl⟩
  · rintro ⟨t, ht, rfl⟩
    rcases List.mem_cons.1 ht with ht | ht
    · exact .inl ⟨t, ht, rfl⟩
    · exact .inr ⟨t, List.mem_singleton.1 ht, rfl⟩

theorem starts_description : Starts Grammar.description descriptionKinds := by
  rw [description_eq]
  exact (starts_token fun _ h => h).opt

theorem recognizes_description? :
    Recognizes (Within n) description? Grammar.description descriptionKinds := by
  rw [description_eq]
  unfold description?
  refine look_at fun t => ?_
  split
  · rename_i ht
    have hmem : t.kind ∈ descriptionKinds := by simpa [descriptionKinds] using ht
    have hne : t.kind ≠ .endOfInput := by
      intro hk
      rw [hk] at hmem
      simp [descriptionKinds] at hmem
    refine opt_of_mem (take (fun _ => rfl) (fun _ => id) hne hmem) ?_
    rintro s ⟨_, rfl⟩ hstop
    obtain ⟨ts, hts⟩ := exists_rest_of_current hne
    rw [hts, stops_cons] at hstop
    exact hstop hmem
  · rename_i ht
    refine opt_of_quiet (fun s => rfl) ?_
    rintro s w rest ⟨_, rfl⟩ ⟨t, hmem, rfl⟩ hs
    rw [current_of_rest hs] at ht
    exact ht (by simpa [descriptionKinds] using hmem)

end Reader

end SchemaToFlow.Schema
