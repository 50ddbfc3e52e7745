import Mathlib.Data.List.Forall2
import Mathlib.Logic.Relation

/-!
# Runs that may fail

A computation that stops at the first fault succeeds exactly if each of its steps does.

* `bind_eq_ok_iff`: one step after another; `mapM_eq_ok_iff`: a step for every element of a list.
* `foldlM_append_cons_eq_ok_iff`: a state that is handed on through a list, taken apart at an element.
* `reflTransGen_of_foldlM`: where every step leads from state to state, so does the run.
* `mapM_map_result`, `foldlM_map_state`: what commutes with every step commutes with the run.
-/

namespace SchemaToFlow

variable {α β γ σ ε : Type}

/-- A step and the steps after it succeed exactly if each of them does. -/
theorem bind_eq_ok_iff {x : Except ε α} {f : α → Except ε β} {b : β} :
    x >>= f = .ok b ↔ ∃ a, x = .ok a ∧ f a = .ok b := by
  cases x with
  | error e => exact ⟨nofun, nofun⟩
  | ok a => exact ⟨fun h => ⟨a, rfl, h⟩, fun ⟨_, ha, h⟩ => Except.ok.inj ha ▸ h⟩

/-! ## Lists in step -/

section Lists

variable {R : α → β → Prop} {as : List α} {bs : List β}

theorem exists_right_of_forall₂ (h : List.Forall₂ R as bs) {a : α} (ha : a ∈ as) :
    ∃ b ∈ bs, R a b := by
  induction h with
  | nil => cases ha
  | cons hab _ ih =>
    rcases List.mem_cons.1 ha with rfl | ha
    · exact ⟨_, List.mem_cons_self, hab⟩
    · obtain ⟨b, hb, hr⟩ := ih ha
      exact ⟨b, List.mem_cons_of_mem _ hb, hr⟩

theorem exists_left_of_forall₂ (h : List.Forall₂ R as bs) {b : β} (hb : b ∈ bs) :
    ∃ a ∈ as, R a b :=
  exists_right_of_forall₂ h.flip hb

end Lists

/-! ## A step for every element -/

/-- A run over a list succeeds exactly when every element does. -/
theorem mapM_eq_ok_iff {f : α → Except ε β} :
    ∀ {as : List α} {bs : List β},
      as.mapM f = .ok bs ↔ List.Forall₂ (fun a b => f a = .ok b) as bs
  | [], bs => by
    rw [List.mapM_nil, List.forall₂_nil_left_iff]
    exact ⟨fun h => (Except.ok.inj h).symm, fun h => h ▸ rfl⟩
  | a :: as, bs => by
    rw [List.mapM_cons, List.forall₂_cons_left_iff]
    constructor
    · intro h
      obtain ⟨b, hb, h⟩ := bind_eq_ok_iff.1 h
      obtain ⟨bs', hbs, h⟩ := bind_eq_ok_iff.1 h
      exact ⟨b, bs', hb, mapM_eq_ok_iff.1 hbs, (Except.ok.inj h).symm⟩
    · rintro ⟨b, bs', hb, hbs, rfl⟩
      rw [hb, mapM_eq_ok_iff.2 hbs]
      rfl

theorem exists_of_mem_of_mapM_eq_ok {f : α → Except ε β} {as : List α} {bs : List β}
    (h : as.mapM f = .ok bs) {b : β} (hb : b ∈ bs) : ∃ a ∈ as, f a = .ok b :=
  exists_left_of_forall₂ (mapM_eq_ok_iff.1 h) hb

theorem mapM_congr_mem {m : Type → Type} [Monad m] [LawfulMonad m] {f g : α → m β} :
    ∀ {as : List α}, (∀ a ∈ as, f a = g a) → as.mapM f = as.mapM g
  | [], _ => rfl
  | a :: as, h => by
    rw [List.mapM_cons, List.mapM_cons, h a List.mem_cons_self,
      mapM_congr_mem fun x hx => h x (List.mem_cons_of_mem a hx)]

theorem mapM_map_result (g : β → γ) (f : α → Except ε β) :
    ∀ as : List α, (as.mapM fun a => g <$> f a) = List.map g <$> as.mapM f
  | [] => rfl
  | a :: as => by
    simp only [List.mapM_cons, mapM_map_result g f as, map_bind, bind_map_left, map_pure,
      List.map_cons]

/-! ## A state that is handed on -/

theorem foldlM_map_state {g : σ → σ} {f f' : σ → α → Except ε σ} :
    ∀ {as : List α}, (∀ s, ∀ a ∈ as, f' (g s) a = g <$> f s a) →
      ∀ s, as.foldlM f' (g s) = g <$> as.foldlM f s
  | [], _, _ => rfl
  | a :: as, h, s => by
    rw [List.foldlM_cons, List.foldlM_cons, h s a List.mem_cons_self, map_bind, bind_map_left]
    refine bind_congr fun s' => ?_
    exact foldlM_map_state (fun s x hx => h s x (List.mem_cons_of_mem a hx)) s'

/-- A run over a list passes every element in turn. -/
theorem foldlM_append_cons_eq_ok_iff {f : σ → α → Except ε σ} {before after : List α} {a : α}
    {s s' : σ} :
    (before ++ a :: after).foldlM f s = .ok s' ↔ ∃ s₁ s₂,
      before.foldlM f s = .ok s₁ ∧ f s₁ a = .ok s₂ ∧ after.foldlM f s₂ = .ok s' := by
  simp only [List.foldlM_append, List.foldlM_cons, bind_eq_ok_iff, exists_and_left]

/-- Where every step leads from state to state, so does the run. -/
theorem reflTransGen_of_foldlM {R : σ → σ → Prop} {f : σ → α → Except ε σ} :
    ∀ {as : List α} {s s' : σ},
      (∀ a ∈ as, ∀ s s', f s a = .ok s' → Relation.ReflTransGen R s s') →
      as.foldlM f s = .ok s' → Relation.ReflTransGen R s s'
  | [], _, _, _, hrun => Except.ok.inj hrun ▸ .refl
  | a :: as, s, s', h, hrun => by
    obtain ⟨s₁, hfirst, hrest⟩ := bind_eq_ok_iff.1 (List.foldlM_cons.symm.trans hrun)
    exact (h a List.mem_cons_self s s₁ hfirst).trans
      (reflTransGen_of_foldlM (fun x hx => h x (List.mem_cons_of_mem a hx)) hrest)

end SchemaToFlow
