import LuaSyntax.Proofs.Outcome.Scan
import LuaSyntax.Proofs.Repetition

/-! # Failing outcomes

A composite scan or rule fails where one of its parts does, after the parts before it have succeeded. A
loop fails in a step, after a chain of steps.
-/
namespace LuaSyntax
variable {α β σ ε : Type}

section
variable {m : Type → Type} [Monad m] (ok : ∀ {γ : Type}, m γ → σ → γ → σ → Prop)
  (fails : ∀ {γ : Type}, m γ → σ → ε → Prop)
  (hbind : ∀ {γ δ : Type} {x : m γ} {f : γ → m δ} {s e},
    fails (x >>= f) s e → fails x s e ∨ ∃ a t, ok x s a t ∧ fails (f a) t e)
  (hpure : ∀ {γ : Type} {a : γ} {s e}, ¬ fails (pure a : m γ) s e)
  {step : α → m (Option α)}
include hbind hpure

/-- In any monad whose failing runs come apart: a repetition that fails does so in a step. -/
theorem iterateWithin_fails {bound : List β} {x : α} {s : σ} {e : ε} (h : fails (iterateWithin step bound x) s e) :
    ∃ y t, Steps (fun x s y s' => ok (step x) s (some y) s') x s y t ∧ fails (step y) t e := by
  induction bound generalizing x s with
  | nil =>
    rcases hbind h with h | ⟨found, t, -, h⟩
    · exact ⟨x, s, .refl, h⟩
    · exact (hpure h).elim
  | cons b bound ih =>
    rcases hbind h with h | ⟨found, t, hok, h⟩
    · exact ⟨x, s, .refl, h⟩
    · cases found with
      | none => exact (hpure h).elim
      | some next =>
        obtain ⟨y, u, hsteps, hstep⟩ := ih h
        exact ⟨y, u, .cons hok hsteps, hstep⟩
end

namespace Parse

theorem bind_of_ok {p : Parse α} {f : α → Parse β} {c m : Cursor} {a : α} (h : p c = .ok a m) :
    (p >>= f) c = f a m := by
  change EStateM.bind p f c = _
  simp only [EStateM.bind, h]

theorem bind_of_error {p : Parse α} {f : α → Parse β} {c m : Cursor} {failure : Failure}
    (h : p c = .error failure m) : (p >>= f) c = .error failure m := by
  change EStateM.bind p f c = _
  simp only [EStateM.bind, h]

theorem bind_eq_error {p : Parse α} {f : α → Parse β} {c c' : Cursor} {failure : Failure} :
    (p >>= f) c = .error failure c' ↔
      p c = .error failure c' ∨ ∃ a m, p c = .ok a m ∧ f a m = .error failure c' := by
  cases hp : p c with
  | ok a m =>
    rw [bind_of_ok hp]
    constructor
    · exact fun h => .inr ⟨a, m, rfl, h⟩
    · rintro (h | ⟨_, _, h, hf⟩)
      · cases h
      · cases h
        exact hf
  | error failure m =>
    rw [bind_of_error hp]
    constructor
    · intro h
      cases h
      exact .inl rfl
    · rintro (h | ⟨_, _, h, -⟩)
      · cases h
        rfl
      · cases h

end Parse

namespace Rule
open Parse

theorem andThen_eq_error {rule : Rule α} {f : α → Parse β} {c c' : Cursor} {failure : Failure} :
    rule.andThen f c = .error failure c' ↔ rule c = .error failure c' ∨
      ∃ a m, rule c = .ok (some a) m ∧ f a m = .error failure c' := by
  rw [andThen, bind_eq_error]
  refine or_congr Iff.rfl ?_
  constructor
  · rintro ⟨_ | a, m, h, hf⟩
    · cases hf
    · rcases bind_eq_error.mp hf with hf | ⟨_, _, -, hf⟩
      · exact ⟨a, m, h, hf⟩
      · cases hf
  · rintro ⟨a, m, h, hf⟩
    exact ⟨some a, m, h, bind_eq_error.mpr (.inl hf)⟩

theorem both_eq_error {first : Rule α} {second : Rule β} {c c' : Cursor} {e : Failure} :
    both first second c = .error e c' ↔
      first c = .error e c' ∨ ∃ a m, first c = .ok (some a) m ∧ second m = .error e c' := by
  rw [both, bind_eq_error]
  constructor
  · intro h
    obtain h | ⟨_, _, hget, h⟩ := h
    · cases h
    obtain ⟨rfl, rfl⟩ := get_eq_ok.mp hget
    obtain h | ⟨found, m, ho, h⟩ := bind_eq_error.mp h
    · exact .inl h
    cases found with
    | none => cases h
    | some a =>
      obtain h | ⟨found, m', -, h⟩ := bind_eq_error.mp h
      · exact .inr ⟨a, m, ho, h⟩
      · cases found <;> cases h
  · intro h
    refine .inr ⟨c, c, rfl, bind_eq_error.mpr ?_⟩
    obtain h | ⟨a, m, ho, h⟩ := h
    · exact .inl h
    · exact .inr ⟨some a, m, ho, bind_eq_error.mpr (.inl h)⟩

end Rule

theorem Parse.iterate_eq_error {rule : α → Rule α} {x : α} {c c' : Cursor} {e : Failure}
    (h : iterate rule x c = .error e c') :
    ∃ y m, Steps (Next rule) x c y m ∧ rule y m = .error e c' := by
  change iterateWithin rule c.rest x c = _ at h
  refine iterateWithin_fails (fun {γ} (parse : Parse γ) c a c' => parse c = .ok a c')
    (fun {γ} (parse : Parse γ) c (e : Failure × Cursor) => parse c = .error e.1 e.2) (fun h => ?_) ?_
    (show _ = EStateM.Result.error (e, c').1 (e, c').2 from h)
  · exact bind_eq_error.mp h
  · intro _ _ _ _ h
    cases h

/-- A token fails in front of it or in the trivia after it. -/
theorem Rule.token_eq_error {scan : Scan (Option α)} {c c' : Cursor} {e : Failure} :
    token scan c = .error e c' ↔ scan c.toPlace = .error e ∧ c' = c ∨
      ∃ a place, scan c.toPlace = .ok (some a, place) ∧ Parse.skipTrivia ⟨place, place.offset⟩ = .error e c' := by
  have hskip {p : Parse Unit} {b : α × Span} {m : Cursor} :
      (p >>= fun _ => pure (some b)) m = .error e c' ↔ p m = .error e c' := by
    rw [Parse.bind_eq_error]
    exact or_iff_left fun ⟨_, _, _, h⟩ => nomatch h
  unfold token
  change EStateM.bind (fun c => .ok c c) _ c = _ ↔ _
  simp only [EStateM.bind]
  cases hscan : scan c.toPlace with
  | error failure =>
    constructor
    · intro h
      obtain ⟨rfl, rfl⟩ := EStateM.Result.error.inj h
      exact .inl ⟨rfl, rfl⟩
    · rintro (⟨h, rfl⟩ | ⟨_, _, h, -⟩)
      · obtain rfl := Except.error.inj h
        rfl
      · cases h
  | ok result =>
    obtain ⟨_ | a, place⟩ := result
    · refine iff_of_false (fun h => nomatch h) ?_
      rintro (⟨h, -⟩ | ⟨_, _, h, -⟩) <;> cases h
    · refine hskip.trans ?_
      constructor
      · exact fun h => .inr ⟨a, place, rfl, h⟩
      · rintro (⟨h, -⟩ | ⟨_, _, h, h'⟩)
        · cases h
        · cases h
          exact h'

namespace Scan
variable {p p' : Place} {e : Failure}

theorem bind_eq_error {x : Scan α} {f : α → Scan β} :
    (x >>= f) p = .error e ↔ x p = .error e ∨ ∃ a m, x p = .ok (a, m) ∧ f a m = .error e := by
  change (x p >>= fun (a, m) => f a m) = _ ↔ _
  cases h : x p with
  | error failure =>
    refine ⟨fun h => .inl (congrArg Except.error (Except.error.inj h)), ?_⟩
    rintro (h | ⟨_, _, h, -⟩)
    · exact congrArg Except.error (Except.error.inj h)
    · cases h
  | ok result =>
    obtain ⟨a, m⟩ := result
    constructor
    · exact fun h => .inr ⟨a, m, rfl, h⟩
    · rintro (h | ⟨_, _, ha, h⟩)
      · cases h
      · cases ha
        exact h

theorem map_eq_error {x : Scan α} {f : α → β} : (f <$> x) p = .error e ↔ x p = .error e := by
  rw [← bind_pure_comp, bind_eq_error]
  exact or_iff_left fun ⟨_, _, _, h⟩ => nomatch h

theorem pure_ne_error {a : α} : ¬ (pure a : Scan α) p = .error e := fun h => nomatch h

theorem rest_ne_error : ¬ rest p = .error e := fun h => nomatch h

theorem advance_ne_error {n : Nat} : ¬ advance n p = .error e := fun h => nomatch h

theorem takeWhile_ne_error {q : UInt8 → Bool} : ¬ takeWhile q p = .error e := fun h => nomatch h

theorem fail_eq_error {label : Label} : (fail label : Scan α) p = .error e ↔ e = .expected label p.offset := by
  change Except.error _ = Except.error _ ↔ _
  exact ⟨fun h => (Except.error.inj h).symm, fun h => congrArg _ h.symm⟩

theorem failAt_eq_error {label : Label} {offset : Nat} :
    (failAt label offset : Scan α) p = .error e ↔ e = .expected label offset := by
  change Except.error _ = Except.error _ ↔ _
  exact ⟨fun h => (Except.error.inj h).symm, fun h => congrArg _ h.symm⟩

/-- What comes after the bytes that are left does not fail of itself. -/
theorem rest_bind_eq_error {f : Bytes → Scan α} : (rest >>= f) p = .error e ↔ f p.rest p = .error e := by
  rw [bind_eq_error]
  constructor
  · rintro (h | ⟨_, _, h, hf⟩)
    · exact (rest_ne_error h).elim
    · obtain ⟨rfl, rfl⟩ := rest_eq_ok.mp h
      exact hf
  · exact fun h => .inr ⟨_, _, rest_eq_ok.mpr ⟨rfl, rfl⟩, h⟩

theorem advance_bind_eq_error {n : Nat} {f : Unit → Scan α} :
    (advance n >>= f) p = .error e ↔ f () (p.advance n) = .error e := by
  rw [bind_eq_error]
  constructor
  · rintro (h | ⟨_, _, h, hf⟩)
    · exact (advance_ne_error h).elim
    · obtain rfl := advance_eq_ok.mp h
      exact hf
  · exact fun h => .inr ⟨(), _, advance_eq_ok.mpr rfl, h⟩

theorem takeWhile_bind_eq_error {q : UInt8 → Bool} {f : Bytes → Scan α} :
    (takeWhile q >>= f) p = .error e ↔
      f (p.rest.takeWhile q) (p.advance (p.rest.takeWhile q).length) = .error e := by
  rw [bind_eq_error]
  constructor
  · rintro (h | ⟨_, _, h, hf⟩)
    · exact (takeWhile_ne_error h).elim
    · obtain ⟨rfl, rfl⟩ := takeWhile_eq_ok.mp h
      exact hf
  · exact fun h => .inr ⟨_, _, takeWhile_eq_ok.mpr ⟨rfl, rfl⟩, h⟩

/-- A check fails where it applies, and what comes after it where it does not. -/
theorem text_ne_error {bytes : Bytes} {barred : UInt8 → Bool} : ¬ text bytes barred p = .error e := by
  rw [text, rest_bind_eq_error]
  intro he
  split at he
  · rw [advance_bind_eq_error] at he
    exact pure_ne_error he
  · exact pure_ne_error he

theorem name_ne_error : ¬ name p = .error e := by
  rw [name, rest_bind_eq_error]
  intro he
  split at he
  · rw [takeWhile_bind_eq_error] at he
    exact pure_ne_error he
  · exact pure_ne_error he

theorem ite_fail_eq_error {cond : Prop} [Decidable cond] {label : Label} {x : Unit → Scan α} {y : Scan α} :
    (if cond then fail label >>= x else y) p = .error e ↔
      cond ∧ e = .expected label p.offset ∨ ¬ cond ∧ y p = .error e := by
  have hfail : (fail label >>= x) p = .error e ↔ e = .expected label p.offset := by
    rw [bind_eq_error, fail_eq_error]
    exact or_iff_left fun ⟨_, _, h, _⟩ => fail_ne_ok h
  split
  · next hc => simp [hc, hfail]
  · next hc => simp [hc]

theorem ite_failAt_eq_error {cond : Prop} [Decidable cond] {label : Label} {offset : Nat} {x : Unit → Scan α}
    {y : Scan α} :
    (if cond then failAt label offset >>= x else y) p = .error e ↔
      cond ∧ e = .expected label offset ∨ ¬ cond ∧ y p = .error e := by
  have hfail : (failAt label offset >>= x) p = .error e ↔ e = .expected label offset := by
    rw [bind_eq_error, failAt_eq_error]
    exact or_iff_left fun ⟨_, _, h, _⟩ => failAt_ne_ok h
  split
  · next hc => simp [hc, hfail]
  · next hc => simp [hc]

theorem digits_eq_error {q : UInt8 → Bool} {missing : Label} :
    digits q missing p = .error e ↔ p.rest.takeWhile q = [] ∧ e = .expected missing p.offset := by
  rw [digits, takeWhile_bind_eq_error, ite_fail_eq_error]
  constructor
  · rintro (⟨hnil, rfl⟩ | ⟨-, h⟩)
    · have hrun : p.rest.takeWhile q = [] := List.isEmpty_iff.mp hnil
      refine ⟨hrun, ?_⟩
      rw [hrun]
      rfl
    · exact (pure_ne_error h).elim
  · rintro ⟨hrun, rfl⟩
    refine .inl ⟨List.isEmpty_iff.mpr hrun, ?_⟩
    rw [hrun]
    rfl

theorem iterate_eq_error {step : α → Scan (Option α)} {x : α} (h : iterate step x p = .error e) :
    ∃ y m, Steps (Next step) x p y m ∧ step y m = .error e := by
  have hwithin : iterateWithin step p.rest x p = .error e := rest_bind_eq_error.mp h
  refine iterateWithin_fails (fun {γ} (scan : Scan γ) p a p' => scan p = .ok (a, p'))
    (fun {γ} (scan : Scan γ) p e => scan p = .error e) (fun h => ?_) pure_ne_error hwithin
  exact bind_eq_error.mp h

/-- A loop whose bound is no shorter than what is left fails where one of its steps does. -/
theorem iterateWithin_of_error {step : α → Scan (Option α)} {bound : List β} {x y : α} {m : Place}
    (hs : ∀ x, Steady (step x)) (hb : p.rest.length ≤ bound.length) (hsteps : Steps (Next step) x p y m)
    (h : step y m = .error e) : iterateWithin step bound x p = .error e := by
  induction hsteps generalizing bound with
  | refl => cases bound <;> exact bind_eq_error.mpr (.inl h)
  | cons hnext _ ih =>
    have hlt := Place.length_lt ((hs _).advances hnext)
    cases bound with
    | nil => exact (Nat.not_lt_zero _ (Nat.lt_of_lt_of_le hlt hb)).elim
    | cons _ fewer =>
      rw [List.length_cons] at hb
      exact bind_eq_error.mpr (.inr ⟨_, _, hnext, ih (by omega) h⟩)

theorem iterate_of_error {step : α → Scan (Option α)} {x y : α} {m : Place} (hs : ∀ x, Steady (step x))
    (hsteps : Steps (Next step) x p y m) (h : step y m = .error e) : iterate step x p = .error e :=
  rest_bind_eq_error.mpr (iterateWithin_of_error hs (Nat.le_refl _) hsteps h)

end Scan

end LuaSyntax
