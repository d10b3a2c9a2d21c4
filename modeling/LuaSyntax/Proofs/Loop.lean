import LuaSyntax.Proofs.Limit.Combinators

/-! # Loops, one step after the other

A loop goes on after a step as if it began there. Its bound plays no part as long as it is no
shorter than what is left of the source.
-/
namespace LuaSyntax
variable {α ι κ : Type}

namespace Parse

theorem bind_of_eq {β : Type} {p q : Parse α} {f : α → Parse β} {c c' : Cursor} (h : p c = q c') :
    (p >>= f) c = (q >>= f) c' := by
  change EStateM.bind p f c = EStateM.bind q f c'
  rw [EStateM.bind, EStateM.bind, h]

section Repetition
variable {rule : α → Rule α} (hs : ∀ a, (rule a).Steady) {a b : α} {c m c' : Cursor}
include hs

theorem iterateWithin_eq {bound : List ι} (hb : c.rest.length ≤ bound.length) :
    iterateWithin rule bound a c = match rule a c with
      | .ok (some next) m => iterateWithin rule bound.tail next m
      | .ok none m => .ok a m
      | .error e m => .error e m := by
  cases bound with
  | nil =>
    cases hr : rule a c with
    | error e m => exact bind_of_error hr
    | ok found m =>
      cases found with
      | none => exact bind_of_ok hr
      | some next =>
        have hlt := Place.length_lt ((hs a).advances hr)
        exact (Nat.not_lt_zero _ (Nat.lt_of_lt_of_le hlt hb)).elim
  | cons _ fewer =>
    cases hr : rule a c with
    | error e m => exact bind_of_error hr
    | ok found m => cases found <;> exact bind_of_ok hr

theorem iterateWithin_congr {bound : List ι} {bound' : List κ} (hb : c.rest.length ≤ bound.length)
    (hb' : c.rest.length ≤ bound'.length) : iterateWithin rule bound a c = iterateWithin rule bound' a c := by
  induction bound generalizing bound' a c with
  | nil =>
    rw [iterateWithin_eq hs hb, iterateWithin_eq hs hb']
    cases hr : rule a c with
    | error e m => rfl
    | ok found m =>
      cases found with
      | none => rfl
      | some next =>
        have hlt := Place.length_lt ((hs a).advances hr)
        exact (Nat.not_lt_zero _ (Nat.lt_of_lt_of_le hlt hb)).elim
  | cons _ fewer ih =>
    rw [iterateWithin_eq hs hb, iterateWithin_eq hs hb']
    cases hr : rule a c with
    | error e m => rfl
    | ok found m =>
      cases found with
      | none => rfl
      | some next =>
        have hlt := Place.length_lt ((hs a).advances hr)
        simp only [List.length_cons] at hb
        exact ih (by omega) (by rw [List.length_tail]; omega)

theorem iterate_of_next (h : rule a c = .ok (some b) m) : iterate rule a c = iterate rule b m := by
  have hlt := Place.length_lt ((hs a).advances h)
  change iterateWithin rule c.rest a c = iterateWithin rule m.rest b m
  rw [iterateWithin_eq hs (Nat.le_refl _), h]
  exact iterateWithin_congr hs (by rw [List.length_tail]; omega) (Nat.le_refl _)

theorem iterate_of_steps (h : Steps (Next rule) a c b m) : iterate rule a c = iterate rule b m := by
  induction h with
  | refl => rfl
  | cons hnext _ ih => exact (iterate_of_next hs hnext).trans ih

theorem iterate_of_error {e : Failure} (h : rule a c = .error e m) : iterate rule a c = .error e m := by
  change iterateWithin rule c.rest a c = _
  rw [iterateWithin_eq hs (Nat.le_refl _), h]

end Repetition

end Parse

end LuaSyntax
