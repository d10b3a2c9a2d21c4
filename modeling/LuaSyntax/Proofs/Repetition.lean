import LuaSyntax.Proofs.Outcome.Scan
import LuaSyntax.Proofs.Outcome.Rule

/-! # Repetition

A loop is a chain of steps that ends where the next step declines. The bound on the number
of steps is never reached, because every step reads at least one byte.
-/
namespace LuaSyntax
variable {α β σ : Type}

/-- One step after the other, each from the value and the state that the last one left. -/
inductive Steps (next : α → σ → α → σ → Prop) : α → σ → α → σ → Prop
  | refl {x s} : Steps next x s x s
  | cons {x s y m z s'} (h : next x s y m) (hs : Steps next y m z s') : Steps next x s z s'

/-- What every step keeps holds after any number of steps. -/
theorem Steps.invariant {next : α → σ → α → σ → Prop} {P : α → Prop} {x z : α} {s s' : σ}
    (h : ∀ {x s y s'}, P x → next x s y s' → P y) (hx : P x) (hs : Steps next x s z s') : P z := by
  induction hs with
  | refl => exact hx
  | cons hnext _ ih => exact ih (h hx hnext)

theorem Steps.keeps {next : α → σ → α → σ → Prop} {P : α → σ → Prop} {x z : α} {s s' : σ}
    (h : ∀ {x s y s'}, P x s → next x s y s' → P y s') (hx : P x s) (hs : Steps next x s z s') : P z s' := by
  induction hs with
  | refl => exact hx
  | cons hnext _ ih => exact ih (h hx hnext)

theorem Steps.snoc {next : α → σ → α → σ → Prop} {x y z : α} {s m s' : σ}
    (hs : Steps next x s y m) (h : next y m z s') : Steps next x s z s' := by
  induction hs with
  | refl => exact .cons h .refl
  | cons h₁ _ ih => exact .cons h₁ (ih h)

/-- What computations in a row keep holds of a repetition, if it holds of every step. -/
theorem iterateWithin_of {m : Type → Type} [Monad m] {P : {γ : Type} → m γ → Prop}
    (hbind : ∀ {γ δ : Type} {x : m γ} {f : γ → m δ}, P x → (∀ a, P (f a)) → P (x >>= f))
    (hpure : ∀ {γ : Type} (a : γ), P (pure a : m γ)) {step : α → m (Option α)} (h : ∀ a, P (step a)) (bound : List β)
    (a : α) : P (iterateWithin step bound a) := by
  induction bound generalizing a with
  | nil => exact hbind (h a) fun _ => hpure _
  | cons _ fewer ih =>
    refine hbind (h a) fun found => ?_
    cases found with
    | none => exact hpure a
    | some next => exact ih next

/-- Two repetitions are related as their steps are, by a relation that computations in a row keep. -/
theorem iterateWithin_rel {m m' : Type → Type} [Monad m] [Monad m']
    {R : {γ δ : Type} → (γ → δ → Prop) → m γ → m' δ → Prop}
    (hbind : ∀ {γ δ γ' δ' : Type} {V : γ → δ → Prop} {W : γ' → δ' → Prop} {x : m γ} {y : m' δ} {f : γ → m γ'}
      {g : δ → m' δ'}, R V x y → (∀ {a b}, V a b → R W (f a) (g b)) → R W (x >>= f) (y >>= g))
    (hpure : ∀ {γ δ : Type} {V : γ → δ → Prop} {a : γ} {b : δ}, V a b → R V (pure a) (pure b)) {V : α → β → Prop}
    {step : α → m (Option α)} {step' : β → m' (Option β)} (h : ∀ {a b}, V a b → R (Option.Rel V) (step a) (step' b))
    {ι : Type} (bound : List ι) {a : α} {b : β} (hab : V a b) :
    R V (iterateWithin step bound a) (iterateWithin step' bound b) := by
  induction bound generalizing a b with
  | nil =>
    refine hbind (h hab) fun hfound => hpure ?_
    cases hfound with
    | none => exact hab
    | some hnext => exact hnext
  | cons _ fewer ih =>
    refine hbind (h hab) fun hfound => ?_
    cases hfound with
    | none => exact hpure hab
    | some hnext => exact ih hnext

section
variable {m : Type → Type} [Monad m] (ok : ∀ {γ : Type}, m γ → σ → γ → σ → Prop) (size : σ → Nat)
  (hbind : ∀ {γ δ : Type} {x : m γ} {f : γ → m δ} {s b s'},
    ok (x >>= f) s b s' ↔ ∃ a t, ok x s a t ∧ ok (f a) t b s')
  (hpure : ∀ {γ : Type} {a b : γ} {s s'}, ok (pure a : m γ) s b s' ↔ a = b ∧ s = s')
  {step : α → m (Option α)} (stays : ∀ {x s s'}, ok (step x) s none s' → s' = s)
  (shrinks : ∀ {x s y s'}, ok (step x) s (some y) s' → size s' < size s)
include hbind hpure stays shrinks

/-- In any monad whose successful runs compose: a repetition whose bound is no smaller
than the state is a chain of steps after which the next one declines. -/
theorem iterateWithin_iff {bound : List β} {x z : α} {s s' : σ} (hb : size s ≤ bound.length) :
    ok (iterateWithin step bound x) s z s' ↔
      Steps (fun x s y s' => ok (step x) s (some y) s') x s z s' ∧ ok (step z) s' none s' := by
  induction bound generalizing x s with
  | nil =>
    have hnot : ∀ y t, ¬ ok (step x) s (some y) t := by
      intro y t h
      have := shrinks h
      simp only [List.length_nil] at hb
      omega
    simp only [iterateWithin, hbind, hpure]
    constructor
    · rintro ⟨_ | y, t, h, rfl, rfl⟩
      · obtain rfl := stays h
        exact ⟨.refl, h⟩
      · exact (hnot y t h).elim
    · rintro ⟨hsteps, h⟩
      cases hsteps with
      | refl => exact ⟨none, _, h, rfl, rfl⟩
      | cons h₁ _ => exact (hnot _ _ h₁).elim
  | cons b bound ih =>
    have hfewer : ∀ {y t}, ok (step x) s (some y) t → size t ≤ bound.length := by
      intro y t h
      have := shrinks h
      simp only [List.length_cons] at hb
      omega
    simp only [iterateWithin, hbind]
    constructor
    · rintro ⟨_ | y, t, h, hr⟩
      · obtain rfl := stays h
        obtain ⟨rfl, rfl⟩ := hpure.mp hr
        exact ⟨.refl, h⟩
      · obtain ⟨hsteps, hz⟩ := (ih (hfewer h)).mp hr
        exact ⟨.cons h hsteps, hz⟩
    · rintro ⟨hsteps, h⟩
      cases hsteps with
      | refl => exact ⟨none, _, h, hpure.mpr ⟨rfl, rfl⟩⟩
      | cons h₁ hsteps => exact ⟨some _, _, h₁, (ih (hfewer h₁)).mpr ⟨hsteps, h⟩⟩
end

/-- A scan that declines where it started or reads something. -/
structure Scan.Steady (scan : Scan (Option α)) : Prop where
  stays : ∀ {p p'}, scan p = .ok (none, p') → p' = p
  advances : ∀ {p a p'}, scan p = .ok (some a, p') → p < p'

/-- The steps of a loop of scans. -/
abbrev Scan.Next (step : α → Scan (Option α)) (x : α) (p : Place) (y : α) (p' : Place) : Prop :=
  step x p = .ok (some y, p')

theorem Scan.iterate_eq_ok {step : α → Scan (Option α)} {x z : α} {p p' : Place}
    (hs : ∀ x, Steady (step x)) :
    iterate step x p = .ok (z, p') ↔
      Steps (Next step) x p z p' ∧ step z p' = .ok (none, p') := by
  have hw : iterateWithin step p.rest x p = .ok (z, p') ↔ _ :=
    iterateWithin_iff (fun {γ} (scan : Scan γ) p a p' => scan p = .ok (a, p'))
      (fun p => p.rest.length) bind_eq_ok pure_eq_ok (fun {x _ _} h => (hs x).stays h)
      (fun {x _ _ _} h => Place.length_lt ((hs x).advances h)) (Nat.le_refl _)
  rw [← hw]
  simp only [iterate, bind_eq_ok, rest_eq_ok]
  constructor
  · rintro ⟨_, _, ⟨rfl, rfl⟩, h⟩
    exact h
  · exact fun h => ⟨_, _, ⟨rfl, rfl⟩, h⟩

/-- A rule that declines where it started or reads something. -/
structure Rule.Steady (rule : Rule α) : Prop where
  stays : ∀ {c c'}, rule c = .ok none c' → c' = c
  advances : ∀ {c a c'}, rule c = .ok (some a) c' → c.toPlace < c'.toPlace

/-- The steps of a loop of rules. -/
abbrev Parse.Next (rule : α → Rule α) (x : α) (c : Cursor) (y : α) (c' : Cursor) : Prop :=
  rule x c = .ok (some y) c'

theorem Parse.iterate_eq_ok {rule : α → Rule α} {x z : α} {c c' : Cursor}
    (hs : ∀ x, (rule x).Steady) :
    iterate rule x c = .ok z c' ↔
      Steps (Next rule) x c z c' ∧ rule z c' = .ok none c' := by
  have hw : iterateWithin rule c.rest x c = .ok z c' ↔ _ :=
    iterateWithin_iff (fun {γ} (parse : Parse γ) c a c' => parse c = .ok a c')
      (fun c => c.rest.length) bind_eq_ok pure_eq_ok (fun {x _ _} h => (hs x).stays h)
      (fun {x _ _ _} h => Place.length_lt ((hs x).advances h)) (Nat.le_refl _)
  rw [← hw]
  simp only [iterate, rest, bind_eq_ok, get_eq_ok, pure_eq_ok]
  constructor
  · rintro ⟨_, _, ⟨_, _, ⟨rfl, rfl⟩, rfl, rfl⟩, h⟩
    exact h
  · exact fun h => ⟨_, _, ⟨_, _, ⟨rfl, rfl⟩, rfl, rfl⟩, h⟩

end LuaSyntax
