import LuaSyntax.Proofs.Congruence.Basic

/-! # Invariants of the cursor

A property of the cursor that reading keeps holds of every cursor at which a computation stops,
where it fails as where it succeeds, and what a failure reports is then true of such a cursor.
Every way of putting computations together keeps this.
-/
namespace LuaSyntax
variable {α β : Type} {P : Cursor → Prop} {Q : Failure → Prop}

/-- A computation that starts at a cursor with a property stops at one, and its failures have a
property of their own. -/
structure Parse.Keeps (P : Cursor → Prop) (Q : Failure → Prop) (p : Parse α) : Prop where
  ok : ∀ {c a c'}, P c → p c = .ok a c' → P c'
  error : ∀ {c e c'}, P c → p c = .error e c' → P c' ∧ Q e

/-- A failure at a cursor with the property may be reported. -/
structure Reports (P : Cursor → Prop) (Q : Failure → Prop) : Prop where
  expected : ∀ {c} label, P c → Q (.expected label c.offset)
  tooDeep : ∀ {c : Cursor}, P c → Q (.tooDeep c.offset)

/-- A computation that keeps a property of the cursor, and whose results have a property too. -/
structure Parse.Ensures (P : Cursor → Prop) (Q : Failure → Prop) (R : α → Prop) (p : Parse α) : Prop
    extends p.Keeps P Q where
  result : ∀ {c a c'}, P c → p c = .ok a c' → R a

namespace Parse
variable {p : Parse α} {f : α → Parse β} {R : α → Prop} {S : β → Prop}

theorem Ensures.bind (h : p.Ensures P Q R) (hf : ∀ a, R a → (f a).Ensures P Q S) : (p >>= f).Ensures P Q S := by
  refine ⟨⟨fun hc ho => ?_, fun hc ho => ?_⟩, fun hc ho => ?_⟩
  · obtain ⟨a, m, ho, ho'⟩ := bind_eq_ok.mp ho
    exact (hf a (h.result hc ho)).ok (h.ok hc ho) ho'
  · rcases bind_eq_error.mp ho with ho | ⟨a, m, ho, ho'⟩
    · exact h.error hc ho
    · exact (hf a (h.result hc ho)).error (h.ok hc ho) ho'
  · obtain ⟨a, m, ho, ho'⟩ := bind_eq_ok.mp ho
    exact (hf a (h.result hc ho)).result (h.ok hc ho) ho'

theorem Ensures.pure {a : α} (h : R a) : (Pure.pure a : Parse α).Ensures P Q R := by
  refine ⟨⟨fun hc ho => ?_, fun _ ho => nomatch ho⟩, fun _ ho => ?_⟩
  · obtain ⟨-, rfl⟩ := pure_eq_ok.mp ho
    exact hc
  · obtain ⟨rfl, -⟩ := pure_eq_ok.mp ho
    exact h

theorem Ensures.get {R : Cursor → Prop} (h : ∀ c, P c → R c) : (MonadState.get : Parse Cursor).Ensures P Q R := by
  refine ⟨⟨fun hc ho => ?_, fun _ ho => nomatch ho⟩, fun hc ho => ?_⟩
  · obtain ⟨-, rfl⟩ := get_eq_ok.mp ho
    exact hc
  · obtain ⟨rfl, -⟩ := get_eq_ok.mp ho
    exact h _ hc

theorem Ensures.failAt {label : Label} {offset : Nat} (h : Q (.expected label offset)) :
    (failAt label offset : Parse α).Ensures P Q R := by
  refine ⟨⟨fun _ ho => (failAt_ne_ok ho).elim, fun hc ho => ?_⟩, fun _ ho => (failAt_ne_ok ho).elim⟩
  obtain ⟨rfl, rfl⟩ := EStateM.Result.error.inj ho
  exact ⟨hc, h⟩

end Parse

namespace Rule
open Parse
variable {rule : Rule α}

/-- Two rules in a row, of which the first is given back where the second declines. -/
theorem keeps_both {second : Rule β} (h : Keeps P Q rule) (h' : Keeps P Q second) :
    Keeps P Q (both rule second) where
  ok {c found c'} hc ho := by
    cases found with
    | none =>
      rcases both_eq_none.mp ho with ho | ⟨rfl, -⟩
      · exact h.ok hc ho
      · exact hc
    | some found =>
      obtain ⟨m, ho, ho'⟩ := both_eq_some.mp ho
      exact h'.ok (h.ok hc ho) ho'
  error hc ho := by
    rcases both_eq_error.mp ho with ho | ⟨a, m, ho, ho'⟩
    · exact h.error hc ho
    · exact h'.error (h.ok hc ho) ho'

/-- A rule that is tried only where a test does not hold. -/
theorem ensures_guarded {t : Cursor → Bool} {R : Option α → Prop} (h : Ensures P Q R rule) (hnone : R none) :
    Ensures P Q R fun cursor => if t cursor then .ok none cursor else rule cursor := by
  refine ⟨⟨fun hc ho => ?_, fun hc ho => ?_⟩, fun hc ho => ?_⟩
  all_goals split at ho
  · cases ho
    exact hc
  · exact h.ok hc ho
  · cases ho
  · exact h.error hc ho
  · cases ho
    exact hnone
  · exact h.result hc ho

theorem keeps_token {scan : Scan (Option α)} (hskip : Keeps P Q skipTrivia)
    (hfound : ∀ {c a place}, P c → scan c.toPlace = .ok (some a, place) → P ⟨place, place.offset⟩)
    (hfail : ∀ {c e}, P c → scan c.toPlace = .error e → Q e) : Keeps P Q (token scan) where
  ok {c found c'} hc ho := by
    cases found with
    | none =>
      obtain ⟨-, rfl⟩ := token_eq_none.mp ho
      exact hc
    | some found =>
      obtain ⟨place, hscan, -, ho⟩ := token_eq_some.mp ho
      exact hskip.ok (hfound hc hscan) ho
  error hc ho := by
    rcases token_eq_error.mp ho with ⟨hscan, rfl⟩ | ⟨a, place, hscan, ho⟩
    · exact ⟨hc, hfail hc hscan⟩
    · exact hskip.error (hfound hc hscan) ho

end Rule

/-- The terminals keep a property of the cursor, and failures at cursors with it are reported. -/
structure Guards (P : Cursor → Prop) (Q : Failure → Prop) : Prop extends Reports P Q where
  text : ∀ {bytes} barred, isPlain bytes → Parse.Keeps P Q (Rule.token (Scan.text bytes barred))
  name : Parse.Keeps P Q (Rule.token Scan.name)
  numeral : Parse.Keeps P Q (Rule.token Scan.numeral)
  string : Parse.Keeps P Q (Rule.token Scan.string)

end LuaSyntax
