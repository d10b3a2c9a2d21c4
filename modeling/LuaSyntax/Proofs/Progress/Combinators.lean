import LuaSyntax.Proofs.Trivia
import LuaSyntax.Proofs.Literal.Numeral
import LuaSyntax.Proofs.Literal.Quoted

/-! # Progress

Reading never goes back, a rule that matches has read something, and one that declines has
moved nowhere. Every way of putting rules together keeps these properties.
-/
namespace LuaSyntax
variable {α β : Type}

theorem startsWith_iff {text source : Bytes} {barred : UInt8 → Bool} :
    startsWith text barred source ↔
      text <+: source ∧ ∀ b ∈ (source.drop text.length).head?, ¬ barred b := by
  simp only [startsWith, Bool.and_eq_true, List.isPrefixOf_iff_prefix, Bool.not_eq_true',
    Option.any_eq_false, Option.mem_def, Bool.not_eq_true]

@[simp]
theorem not_never (b : UInt8) : ¬ never b := Bool.false_ne_true

theorem startsWith_never {text source : Bytes} : startsWith text never source ↔ text <+: source :=
  startsWith_iff.trans (and_iff_left fun b _ => not_never b)

namespace Scan
variable {p p' : Place}

theorem steady_text {bytes : Bytes} (barred : UInt8 → Bool) (hne : bytes ≠ []) :
    Steady (text bytes barred) where
  stays h := (text_eq_none.mp h).2.symm
  advances h := by
    obtain ⟨hs, rfl⟩ := text_eq_some.mp h
    exact ⟨bytes, hne, Place.passes_of_prefix (startsWith_iff.mp hs).1⟩

theorem takeWhile_name_ne_nil {source : Bytes} (h : startsName source) :
    source.takeWhile isNamePart ≠ [] := by
  cases source with
  | nil => simp [startsName] at h
  | cons b tail =>
    have hb : isNamePart b := by
      simp only [startsName, List.head?_cons, Option.any_some] at h
      simp [isNamePart, h]
    simp [hb]

theorem steady_name : Steady name where
  stays h := (name_eq_none.mp h).2.symm
  advances h := by
    obtain ⟨hs, -, rfl, rfl⟩ := name_eq_some.mp h
    exact ⟨_, takeWhile_name_ne_nil hs, Place.passes_takeWhile _⟩

theorem steady_numeral : Steady numeral where
  stays h := (numeral_eq_none.mp h).2.2.symm
  advances h := by
    obtain ⟨text, ht, hp⟩ := numeral_spelling h
    exact ⟨text, ht.ne_nil, hp⟩

theorem steady_string : Steady string where
  stays h := (string_eq_none.mp h).2.2.2.symm
  advances h := by
    obtain ⟨text, ht, hp⟩ := string_spelling h
    exact ⟨text, ht.ne_nil, hp⟩

end Scan

theorem Place.offset_le {p p' : Place} (h : p ≤ p') : p.offset ≤ p'.offset := by
  obtain ⟨bytes, hp⟩ := h
  exact hp.offset ▸ Nat.le_add_right _ _

theorem Place.offset_lt {p p' : Place} (h : p < p') : p.offset < p'.offset := by
  obtain ⟨bytes, hne, hp⟩ := h
  have hlength := List.length_pos_iff.mpr hne
  rw [hp.offset]
  omega

/-- A computation that does not go back where it succeeds. -/
structure Parse.Forward (parse : Parse α) : Prop where
  le : ∀ {c a c'}, parse c = .ok a c' → c.toPlace ≤ c'.toPlace

/-- A computation that does not go back, and whose results have a property. -/
structure Parse.Gives (P : α → Prop) (parse : Parse α) : Prop extends parse.Forward where
  result : ∀ {c a c'}, parse c = .ok a c' → P a

/-- A rule that makes progress, and whose matches have a property. -/
structure Rule.Gives (P : α → Prop) (rule : Rule α) : Prop extends rule.Steady where
  result : ∀ {c a c'}, rule c = .ok (some a) c' → P a

open Parse

namespace Parse
variable {P : α → Prop} {Q : β → Prop} {parse : Parse α} {f : α → Parse β}

theorem Forward.offset_le (h : parse.Forward) {c c' : Cursor} {a : α} (ho : parse c = .ok a c') : c.offset ≤ c'.offset :=
  Place.offset_le (h.le ho)

theorem Forward.gives (h : parse.Forward) : parse.Gives fun _ => True := ⟨h, fun _ => trivial⟩

theorem Gives.bind (h : parse.Gives P) (hf : ∀ a, P a → (f a).Gives Q) : (parse >>= f).Gives Q := by
  refine ⟨⟨fun ho => ?_⟩, fun ho => ?_⟩
  · obtain ⟨a, m, ho, ho'⟩ := bind_eq_ok.mp ho
    exact Place.le_trans (h.le ho) ((hf a (h.result ho)).le ho')
  · obtain ⟨a, m, ho, ho'⟩ := bind_eq_ok.mp ho
    exact (hf a (h.result ho)).result ho'

theorem Gives.pure {a : α} (h : P a) : (Pure.pure a : Parse α).Gives P := by
  refine ⟨⟨fun ho => ?_⟩, fun ho => ?_⟩
  · obtain ⟨-, rfl⟩ := pure_eq_ok.mp ho
    exact Place.le_refl _
  · obtain ⟨rfl, -⟩ := pure_eq_ok.mp ho
    exact h

theorem Gives.get {P : Cursor → Prop} (h : ∀ c, P c) : (MonadState.get : Parse Cursor).Gives P := by
  refine ⟨⟨fun ho => ?_⟩, fun _ => h _⟩
  obtain ⟨-, rfl⟩ := get_eq_ok.mp ho
  exact Place.le_refl _

theorem Gives.failAt {label : Label} {offset : Nat} : (failAt label offset : Parse α).Gives P :=
  ⟨⟨fun ho => (failAt_ne_ok ho).elim⟩, fun ho => (failAt_ne_ok ho).elim⟩

theorem Forward.bind (hp : parse.Forward) (hf : ∀ a, (f a).Forward) : (parse >>= f).Forward :=
  (hp.gives.bind fun a _ => (hf a).gives).toForward

theorem Forward.pure (a : α) : (Pure.pure a : Parse α).Forward :=
  (Gives.pure (P := fun _ => True) trivial).toForward

theorem Forward.nodeFrom (first : Span) (form : Form Node) : (nodeFrom first form).Forward :=
  .bind (Gives.get fun _ => trivial).toForward fun _ => .pure _

theorem Forward.expect {rule : Rule α} (h : rule.Steady) (label : Label) :
    (expect rule label).Forward :=
  ⟨fun ho => Place.le_of_lt (h.advances (expect_eq_ok.mp ho))⟩

end Parse

namespace Rule
variable {P : α → Prop} {Q : β → Prop} {rule : Rule α} {f : α → Parse β}

theorem Steady.gives (h : rule.Steady) : rule.Gives fun _ => True := ⟨h, fun _ => trivial⟩

theorem Steady.forward (h : rule.Steady) : Forward rule := by
  constructor
  intro c found c' ho
  cases found with
  | none => exact h.stays ho ▸ Place.le_refl _
  | some a => exact Place.le_of_lt (h.advances ho)

theorem Gives.rel {V : α → β → Prop} (h : rule.Gives fun a => ∃ b, V a b) :
    Parse.Gives (fun found => ∃ found', Option.Rel V found found') rule := by
  refine ⟨h.forward, fun {c found c'} ho => ?_⟩
  cases found with
  | none => exact ⟨none, .none⟩
  | some a =>
    obtain ⟨b, hv⟩ := h.result ho
    exact ⟨some b, .some hv⟩

theorem Gives.declines : Rule.Gives P (Pure.pure none : Parse (Option α)) := by
  refine ⟨⟨fun ho => ?_, fun ho => ?_⟩, fun ho => ?_⟩
  · exact (pure_eq_ok.mp ho).2.symm
  · exact nomatch (pure_eq_ok.mp ho).1
  · exact nomatch (pure_eq_ok.mp ho).1

theorem Gives.andThen (h : rule.Gives P) (hf : ∀ a, P a → (f a).Gives Q) : Gives Q (rule.andThen f) := by
  refine ⟨⟨fun ho => h.stays (andThen_eq_none.mp ho), fun ho => ?_⟩, fun ho => ?_⟩
  · obtain ⟨a, m, ho, ho'⟩ := andThen_eq_some.mp ho
    exact Place.lt_of_lt_of_le (h.advances ho) ((hf a (h.result ho)).le ho')
  · obtain ⟨a, m, ho, ho'⟩ := andThen_eq_some.mp ho
    exact (hf a (h.result ho)).result ho'

theorem Gives.orElse {others : List (Rule α)} (h : rule.Gives P) (ho : Gives P (firstOf others)) :
    Gives P (firstOf (rule :: others)) := by
  refine ⟨⟨fun hc => ?_, fun hc => ?_⟩, fun hc => ?_⟩
  · obtain ⟨m, hc, hc'⟩ := firstOf_cons_eq_none.mp hc
    rw [ho.stays hc', h.stays hc]
  · rcases firstOf_cons_eq_some.mp hc with hc | ⟨m, hc, hc'⟩
    · exact h.advances hc
    · exact h.stays hc ▸ ho.advances hc'
  · rcases firstOf_cons_eq_some.mp hc with hc | ⟨m, -, hc'⟩
    · exact h.result hc
    · exact ho.result hc'

theorem Gives.always (h : rule.Gives P) (label : Label) : Gives P (some <$> expect rule label : Parse (Option α)) := by
  refine ⟨⟨fun ho => ?_, fun ho => ?_⟩, fun ho => ?_⟩
  · obtain ⟨a, -, ha⟩ := map_eq_ok.mp ho
    cases ha
  · obtain ⟨a, ho, ha⟩ := map_eq_ok.mp ho
    exact h.advances (expect_eq_ok.mp ho)
  · obtain ⟨a, ho, ha⟩ := map_eq_ok.mp ho
    cases ha
    exact h.result (expect_eq_ok.mp ho)

theorem Gives.both {second : Rule β} (h : rule.Gives P) (h' : second.Gives Q) :
    Gives (fun found => P found.1 ∧ Q found.2) (both rule second) := by
  refine ⟨⟨fun ho => ?_, fun {c found c'} ho => ?_⟩, fun {c found c'} ho => ?_⟩
  · rcases both_eq_none.mp ho with ho | ⟨rfl, -⟩
    · exact h.stays ho
    · rfl
  · obtain ⟨a, b⟩ := found
    obtain ⟨m, ho, ho'⟩ := both_eq_some.mp ho
    exact Place.lt_of_lt_of_le (h.advances ho) (h'.forward.le ho')
  · obtain ⟨a, b⟩ := found
    obtain ⟨m, ho, ho'⟩ := both_eq_some.mp ho
    exact ⟨h.result ho, h'.result ho'⟩

theorem Gives.both_rel {γ δ : Type} {second : Rule β} {V : α → γ → Prop} {W : β → δ → Prop}
    (h : rule.Gives fun a => ∃ c, V a c) (h' : second.Gives fun b => ∃ d, W b d) :
    Gives (fun found => ∃ found' : γ × δ, V found.1 found'.1 ∧ W found.2 found'.2) (Rule.both rule second) := by
  refine ⟨(h.both h').toSteady, fun ho => ?_⟩
  obtain ⟨⟨c, hc⟩, d, hd⟩ := (h.both h').result ho
  exact ⟨(c, d), hc, hd⟩

/-- A rule that is tried only where a test does not hold. -/
theorem Gives.guarded {t : Cursor → Bool} (h : rule.Gives P) :
    Gives P fun cursor => if t cursor then .ok none cursor else rule cursor := by
  have hrun {c c' : Cursor} {found : Option α} (ho : (if t c then .ok none c else rule c) = .ok found c') :
      (found = none ∧ c' = c) ∨ rule c = .ok found c' := by
    split at ho
    · cases ho
      exact .inl ⟨rfl, rfl⟩
    · exact .inr ho
  refine ⟨⟨fun ho => ?_, fun ho => ?_⟩, fun ho => ?_⟩
  · rcases hrun ho with ⟨-, rfl⟩ | ho
    · rfl
    · exact h.stays ho
  · rcases hrun ho with ⟨hnone, -⟩ | ho
    · cases hnone
    · exact h.advances ho
  · rcases hrun ho with ⟨hnone, -⟩ | ho
    · cases hnone
    · exact h.result ho

theorem Steady.andThen (h : rule.Steady) (hf : ∀ a, (f a).Forward) : Steady (rule.andThen f) :=
  (h.gives.andThen fun a _ => (hf a).gives).toSteady

theorem Steady.map (h : rule.Steady) (g : α → β) : Steady (rule.map g) :=
  h.andThen fun a => Forward.pure (g a)

theorem Steady.token {scan : Scan (Option α)} (h : scan.Steady) : Steady (token scan) where
  stays ho := (token_eq_none.mp ho).2.symm
  advances {c a c'} ho := by
    obtain ⟨a, span⟩ := a
    obtain ⟨place, hs, -, hskip⟩ := token_eq_some.mp ho
    obtain ⟨text, -, -, hp, -⟩ := skipTrivia_spelling hskip
    exact Place.lt_of_lt_of_le (h.advances hs) ⟨text, hp⟩

theorem steady_symbolUnless (barred : UInt8 → Bool) {text : String} (hne : Bytes.ofString text ≠ []) :
    Steady (symbolUnless barred text) := (Steady.token (Scan.steady_text barred hne)).map _

theorem steady_symbol {text : String} (hne : Bytes.ofString text ≠ []) : Steady (symbol text) :=
  steady_symbolUnless _ hne

theorem steady_keyword {word : String} (hne : Bytes.ofString word ≠ []) : Steady (keyword word) :=
  steady_symbolUnless _ hne

theorem steady_single {c : Char} (hne : Bytes.ofString c.toString ≠ []) : Steady (single c) :=
  steady_symbolUnless _ hne

theorem steady_openBracket : openBracket.Steady :=
  (steady_symbol (by decide)).gives.guarded (t := fun c => (LongBracket.level? c.rest).isSome) |>.toSteady

end Rule

end LuaSyntax
