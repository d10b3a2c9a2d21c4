import LuaSyntax.Proofs.Keep.Combinators
import LuaSyntax.Proofs.Congruence.Grammar

/-! # Invariants of the cursor in the grammar

Every rule of the grammar keeps a property of the cursor that its terminals keep, at every nesting
level, and reports what a cursor with the property may report. The few failures that are reported
further back are reported where a target or a statement begins, and there the property held.
-/
namespace LuaSyntax

open Parse Rule

variable {P : Cursor → Prop} {Q : Failure → Prop} {α : Type}

/-- A property of the cursor holds in between, and where a token starts a failure may be reported. -/
abbrev Sequencing.keeps (hr : Reports P Q) : Sequencing where
  toLikeness := .same (fun _ => True) (fun p => ∀ label, Q (.expected label (p - 1))) P fun hc label => hr.expected label hc
  Runs _ _ _ V p _ := p.Ensures P Q fun a => ∃ b, V a b
  weaken h := h
  pure hv := .pure ⟨_, hv⟩
  bind h hf := h.bind fun _ ha => ha.elim fun _ hv => hf hv
  get := .get fun c hc => ⟨c, rfl, hc⟩
  failAt hp := .failAt (hp.2 _)

abbrev Combining.keeps (hr : Reports P Q) : Combining := (Sequencing.keeps hr).combining fun h => h

theorem Parse.Keeps.iterate (hr : Reports P Q) {step : α → Rule α} (h : ∀ a, Keeps P Q (step a)) (a : α) :
    (iterate step a).Keeps P Q := by
  have hstep (a : α) : (step a).Ensures P Q fun found => ∃ found', Option.Rel (fun _ (_ : α) => True) found found' := by
    refine ⟨h a, fun {c found c'} _ _ => ?_⟩
    cases found with
    | none => exact ⟨none, .none⟩
    | some next => exact ⟨some next, .some trivial⟩
  refine ((Sequencing.keeps hr).iterate_of_rest (V := fun _ _ => True) (f := step) (g := step) (b := a) ?_ ?_
    trivial).toKeeps
  · exact fun hc => congrArg (·.rest) hc.1
  · exact fun {a _} _ => hstep a

theorem ensures_read (hr : Reports P Q) {scan : Scan (Option α)} (h : Keeps P Q (token scan)) :
    Ensures P Q (fun found => ∃ found', Option.Rel (Sequencing.keeps hr).read found found') (token scan) := by
  refine ⟨h, fun {c found c'} hc ho => ?_⟩
  cases found with
  | none => exact ⟨none, .none⟩
  | some found =>
    obtain ⟨a, span⟩ := found
    obtain ⟨place, -, rfl, -⟩ := token_eq_some.mp ho
    exact ⟨_, .some ⟨rfl, ⟨rfl, fun label => hr.expected label hc⟩, rfl⟩⟩

/-- Every rule keeps what the tokens keep. -/
abbrev Congruence.keeps (hg : Guards P Q) : Congruence where
  toCombining := .keeps hg.toReports
  Tests _ := True
  tests_level := trivial
  tests_endsBlock := trivial
  guarded {_ _ _ _ _ test _} _ h := ensures_guarded (t := fun c => test c.rest) h ⟨none, .none⟩
  iterate h hab := (Sequencing.keeps hg.toReports).iterate_of_rest (fun hc => congrArg (·.rest) hc.1) h hab
  iterate_items {_ _ _ _ _ _ item' separator} h hs _ :=
    (Sequencing.keeps hg.toReports).iterate_of_rest (g := itemStep item' separator) (fun hc => congrArg (·.rest) hc.1)
      (fun hl => (Combining.keeps hg.toReports).itemStep h hs hl) (a := ([], true)) (b := ([], true)) ⟨.nil, rfl⟩
  read_bind h _ hnone hf := (Sequencing.keeps hg.toReports).bind_found h hnone hf
  read_andThen h _ hf := (Combining.keeps hg.toReports).andThen h hf
  both h _ _ h' _ := by
    refine ⟨keeps_both h.toKeeps h'.toKeeps, fun {c found c'} hc ho => ?_⟩
    cases found with
    | none => exact ⟨none, .none⟩
    | some found =>
      obtain ⟨m, ho, ho'⟩ := both_eq_some.mp ho
      obtain ⟨_, hv⟩ := h.result hc ho
      obtain ⟨_, hw⟩ := h'.result (h.ok hc ho) ho'
      cases hv with
      | some hv =>
        cases hw with
        | some hw => exact ⟨some (_, _), .some ⟨hv, hw⟩⟩
  read_word hw := ensures_read hg.toReports (hg.text _ (isWord_iff.mp hw).1)
  read_semicolon := ensures_read hg.toReports (hg.text _ (by decide))
  read_name := ensures_read hg.toReports hg.name
  read_numeral := by
    have hread : (Combining.keeps hg.toReports).Rules true (Sequencing.keeps hg.toReports).read (token Scan.numeral)
        (token Scan.numeral) := ensures_read hg.toReports hg.numeral
    exact (Combining.keeps hg.toReports).ruleMono hread (.intro trivial)
  read_string := ensures_read hg.toReports hg.string

namespace Congruence.keeps
variable (hg : Guards P Q) {V : α → α → Prop} {late : Bool}

theorem of_runs {p : Parse α} (h : (Congruence.keeps hg).Runs late V p p) : p.Keeps P Q := Parse.Ensures.toKeeps h

theorem of_rules {r : Rule α} (h : (Congruence.keeps hg).Rules late V r r) : Keeps P Q r :=
  of_runs hg (Combining.run _ h)

end Congruence.keeps

namespace Grammar

theorem keeps_tooDeep (h : Reports P Q) : (tooDeep : Parse α).Keeps P Q where
  ok _ ho := nomatch ho
  error hc ho := by
    obtain ⟨rfl, rfl⟩ := EStateM.Result.error.inj ho
    exact ⟨hc, h.tooDeep hc⟩

/-- The rules keep what their terminals keep however many nesting levels are left. -/
theorem keeps_nesting (hg : Guards P Q) (levels : Nat) :
    Nested.Congr (.keeps hg) (nesting levels) (nesting levels) := by
  induction levels with
  | zero =>
    have hdeep {α : Type} {R : α → Prop} : (tooDeep : Parse α).Ensures P Q R := ⟨keeps_tooDeep hg.toReports, nofun⟩
    exact ⟨hdeep, hdeep, hdeep, hdeep⟩
  | succ levels ih => exact ih.succ

/-- A whole source is read so too, if skipping at its start keeps the property. -/
theorem keeps_chunk (hg : Guards P Q) (hline : ∀ c, P c → P (skipShebang c)) (hskip : skipTrivia.Keeps P Q) (limit : Nat) :
    (chunk limit).Keeps P Q := by
  have hshebang : (modify skipShebang : Parse PUnit).Keeps P Q :=
    ⟨fun hc ho => modify_eq_ok.mp ho ▸ hline _ hc, fun _ ho => nomatch ho⟩
  refine (congr_chunk (keeps_nesting hg limit) ⟨hshebang, fun _ _ => ⟨_, rfl⟩⟩ ⟨hskip, fun _ _ => ⟨_, rfl⟩⟩ rfl ?_).toKeeps
  intro c d hc
  rw [hc.1]
  exact ⟨rfl, rfl⟩

end Grammar

end LuaSyntax
