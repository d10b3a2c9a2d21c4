import LuaSyntax.Proofs.Outcome.Failure
import LuaSyntax.Proofs.Shift.Combinators
import LuaSyntax.Proofs.Progress.Grammar

/-! # Tokens in a larger source

Trivia end in front of the same byte in the larger source, and tokens with them.
-/
namespace LuaSyntax
variable {α β : Type} {x : Shift}

namespace Parse

theorem shifts_skipTrivium (ht : x.tail = []) : Rule.Shifts x Eq skipTrivium skipTrivium := by
  have hgives : Rule.Gives (fun a => ∃ b, a = b) skipTrivium := ⟨steady_skipTrivium, fun _ => ⟨_, rfl⟩⟩
  refine ⟨hgives, hgives.rel, ?_, fun _ => ?_⟩
  · intro c found c' ho _ _
    obtain ⟨hscan, hlast⟩ := skipTrivium_eq_ok.mp ho
    have hsame : Option.Rel Eq found found := by
      cases found with
      | none => exact .none
      | some _ => exact .some rfl
    refine ⟨found, hsame, skipTrivium_eq_ok.mpr ⟨?_, congrArg (· + x.ahead) hlast⟩⟩
    have hmoves := Scan.moves_trivium ht c.toPlace
    rwa [hscan] at hmoves
  · intro c e c' ho _
    unfold skipTrivium at ho ⊢
    have hmoves := Scan.moves_trivium ht c.toPlace
    cases hscan : Scan.trivium c.toPlace with
    | ok result =>
      rw [hscan] at ho
      cases ho
    | error failure =>
      rw [hscan] at ho hmoves
      obtain ⟨rfl, rfl⟩ := EStateM.Result.error.inj ho
      simp only [Shift.cursor, hmoves, Shift.scanned]

theorem shifts_skipTrivia : Parse.Shifts x Eq skipTrivia skipTrivia where
  le ho := by
    obtain ⟨text, -, -, hp, -⟩ := skipTrivia_spelling ho
    exact ⟨text, hp⟩
  result _ := ⟨(), rfl⟩
  ok := by
    intro c u c' ho hp hl
    obtain ⟨text, htext, hn, hpasses, hlast⟩ := skipTrivia_spelling ho
    refine ⟨(), rfl, skipTrivia_of_spelling (htext.congr hl.head) ?_ (Shift.passes hpasses) (congrArg (· + x.ahead) hlast)⟩
    exact fun hstarts => hn (startsTrivium_shift hl ▸ hstarts)
  error ht _ _ _ ho hp := by
    have hloop : Parse.Shifts x Eq (iterate (fun _ => skipTrivium) ()) (iterate (fun _ => skipTrivium) ()) :=
      .iterate (fun _ => shifts_skipTrivium ht) rfl
    exact hloop.error ht ho hp

end Parse

namespace Rule

/-- How a scan for a token goes in a larger source. -/
structure Scans (x : Shift) (scan : Scan (Option α)) : Prop where
  steady : scan.Steady
  found : ∀ {p a p'}, scan p = .ok (some a, p') → p.rest <:+ x.whole → x.Leaves p'.rest →
    scan (x.place p) = .ok (some a, x.place p')
  absent : ∀ {p p'}, scan p = .ok (none, p') → x.Leaves p.rest → ∃ p', scan (x.place p) = .ok (none, p')
  fails : x.tail = [] → ∀ {p e}, scan p = .error e → scan (x.place p) = .error (x.failure e)

theorem read_span (a : α) (span : Span) (h : 0 < span.pos) : (Likeness.shifts x).read (a, span) (a, x.span span) :=
  ⟨rfl, ⟨rfl, h⟩, rfl⟩

theorem Scans.token {scan : Scan (Option α)} (h : Scans x scan) :
    Rule.Shifts x (Likeness.shifts x).read (Rule.token scan) (Rule.token scan) := by
  have hgives : Rule.Gives (fun found => ∃ found', (Likeness.shifts x).read found found') (Rule.token scan) := by
    refine ⟨.token h.steady, fun {c found c'} ho => ?_⟩
    obtain ⟨a, span⟩ := found
    obtain ⟨place, -, rfl, -⟩ := token_eq_some.mp ho
    exact ⟨_, read_span a _ (Nat.succ_pos _)⟩
  refine ⟨hgives, hgives.rel, ?_, fun ht => ?_⟩
  · intro c found c' ho hp hl
    cases found with
    | none =>
      obtain ⟨⟨place, hscan⟩, rfl⟩ := token_eq_none.mp ho
      exact ⟨none, .none, token_eq_none.mpr ⟨h.absent hscan hl, rfl⟩⟩
    | some found =>
      obtain ⟨a, span⟩ := found
      obtain ⟨place, hscan, rfl, hskip⟩ := token_eq_some.mp ho
      have hlt := h.steady.advances hscan
      have hplace := (Place.suffix_of_le (Place.le_of_lt hlt)).trans hp
      have htrivia : Parse.Shifts x Eq Parse.skipTrivia Parse.skipTrivia := Parse.shifts_skipTrivia
      have hleaves := hl.before (htrivia.le hskip) hplace
      obtain ⟨_, -, hskip'⟩ := htrivia.ok hskip hplace hl
      refine ⟨_, .some (read_span a _ (Nat.succ_pos _)), token_eq_some.mpr ⟨x.place place, h.found hscan hp hleaves, ?_, hskip'⟩⟩
      simp only [Shift.span, Shift.cursor, Shift.place, Nat.add_right_comm]
  · intro c e c' ho hp
    rw [token_eq_error] at ho ⊢
    rcases ho with ⟨hscan, rfl⟩ | ⟨a, place, hscan, hskip⟩
    · exact .inl ⟨h.fails ht hscan, rfl⟩
    · have hplace := (Place.suffix_of_le (Place.le_of_lt (h.steady.advances hscan))).trans hp
      exact .inr ⟨a, x.place place, h.found hscan hp ⟨hplace, .inl ht⟩, Parse.shifts_skipTrivia.error ht hskip hplace⟩

variable {c c' : Cursor}

theorem Scans.of_moves {scan : Scan (Option α)} (hs : scan.Steady) (hm : x.tail = [] → Scan.Moves x scan scan)
    (hf : ∀ {p a p'}, scan p = .ok (some a, p') → p.rest <:+ x.whole → x.Leaves p'.rest →
      scan (x.place p) = .ok (some a, x.place p'))
    (ha : ∀ {p p'}, scan p = .ok (none, p') → x.Leaves p.rest → ∃ p', scan (x.place p) = .ok (none, p')) :
    Scans x scan where
  steady := hs
  found := hf
  absent := ha
  fails ht p e h := by
    have hmoves := hm ht p
    rwa [h] at hmoves

theorem scans_text {bytes : Bytes} {barred : UInt8 → Bool} (hne : bytes ≠ []) (hs : semicolon ∉ bytes.dropLast)
    (hb : semicolon ∈ bytes → ∀ b, ¬ barred b) : Scans x (Scan.text bytes barred) := by
  refine .of_moves (Scan.steady_text barred hne) (fun ht => Scan.moves_text ht bytes barred) ?_ ?_
  · intro p _ p' h hp hl
    obtain ⟨hstarts, rfl⟩ := Scan.text_eq_some.mp h
    have hlength := (startsWith_iff.mp hstarts).1.length_le
    have hleaves := hl.before (Place.le_of_lt ((Scan.steady_text barred hne).advances h)) hp
    exact Scan.text_eq_some.mpr ⟨(startsWith_shift hleaves hs hb).mpr hstarts, (Shift.place_advance (.inr hlength)).symm⟩
  · intro p p' h hl
    obtain ⟨hstarts, rfl⟩ := Scan.text_eq_none.mp h
    exact ⟨_, Scan.text_eq_none.mpr ⟨fun hshift => hstarts ((startsWith_shift hl hs hb).mp hshift), rfl⟩⟩

theorem scans_name : Scans x Scan.name := by
  refine .of_moves Scan.steady_name Scan.moves_name ?_ ?_
  · intro p text p' h hp hl
    cases (Place.Reads.name h).shift hp hl with
    | name h => exact h
  · intro p p' h hl
    obtain ⟨hn, rfl⟩ := Scan.name_eq_none.mp h
    refine ⟨_, Scan.name_eq_none.mpr ⟨fun hname => hn ?_, rfl⟩⟩
    have hrun : (x.place p).rest.takeWhile isNamePart = p.rest.takeWhile isNamePart := takeWhile_shift hl (by decide)
    have hhead : (x.place p).rest.head? = p.rest.head? := hl.head
    rwa [hrun, startsName, hhead] at hname

theorem scans_numeral : Scans x Scan.numeral := by
  refine .of_moves Scan.steady_numeral Scan.moves_numeral ?_ ?_
  · intro p value p' h hp hl
    cases (Place.Reads.number h).shift hp hl with
    | number h => exact h
  · intro p p' h hl
    obtain ⟨hhex, hdec, rfl⟩ := Scan.numeral_eq_none.mp h
    refine ⟨_, Scan.numeral_eq_none.mpr ⟨?_, ?_, rfl⟩⟩
    · exact (startsHexadecimal_shift hl).trans hhex
    · exact (startsDecimal_shift hl).trans hdec

theorem scans_string : Scans x Scan.string := by
  refine .of_moves Scan.steady_string Scan.moves_string ?_ ?_
  · intro p value p' h hp hl
    cases (Place.Reads.string h).shift hp hl with
    | string h => exact h
  · intro p p' h hl
    obtain ⟨hdouble, hsingle, hlevel, rfl⟩ := Scan.string_eq_none.mp h
    have hhead : (x.place p).rest.head? = p.rest.head? := hl.head
    refine ⟨_, Scan.string_eq_none.mpr ⟨?_, ?_, (level?_shift hl).trans hlevel, rfl⟩⟩
    · rwa [hhead]
    · rwa [hhead]

section Retreats

/-- Something is left of the source after a match that leaves its last semicolon. -/
theorem LeavesSemicolon.leaves {rule : Rule α} (h : rule.LeavesSemicolon) (hf : Parse.Forward rule) {a : α} {m : Cursor}
    (ho : rule c = .ok (some a) m) (hl : x.Leaves c.rest) : x.Leaves m.rest := by
  refine ⟨(Place.suffix_of_le (hf.le ho)).trans hl.part, ?_⟩
  rcases x.ends with htail | hends
  · exact .inl htail
  · obtain ⟨front, hfront⟩ := hl.part
    exact .inr (h ho (hfront ▸ hends))

variable {V : α → α → Prop} {W : β → β → Prop} {first : Rule α} {second : Rule β}

/-- Two rules in a row, where the first leaves something of the source. -/
theorem shifts_both (h : Rule.Shifts x V first first) (h' : Rule.Shifts x W second second) (hl : first.LeavesSemicolon) :
    Rule.Shifts x (fun a b => V a.1 b.1 ∧ W a.2 b.2) (both first second) (both first second) := by
  have hgives := h.toGives.both_rel h'.toGives
  refine ⟨hgives, hgives.rel, fun {c found c'} ho hp hc => ?_, fun ht => ?_⟩
  · cases found with
    | none =>
      refine ⟨none, .none, both_eq_none.mpr ?_⟩
      rcases both_eq_none.mp ho with ho | ⟨rfl, a, m, m', ho, ho'⟩
      · obtain ⟨_, hfound, ho⟩ := h.run.ok ho hp hc
        cases hfound with
        | none => exact .inl ho
      · obtain rfl := h'.stays ho'
        have hm := hl.leaves h.forward ho hc
        obtain ⟨_, hfound, ho⟩ := h.run.ok ho hp hm
        obtain ⟨_, hfound', ho'⟩ := h'.run.ok ho' hm.part hm
        cases hfound with
        | some hv =>
          cases hfound' with
          | none => exact .inr ⟨rfl, _, _, _, ho, ho'⟩
    | some found =>
      obtain ⟨a, b⟩ := found
      obtain ⟨m, ho, ho'⟩ := both_eq_some.mp ho
      have hle := Place.le_of_lt (h.advances ho)
      have hm := (Place.suffix_of_le hle).trans hp
      obtain ⟨_, hfound, ho⟩ := h.run.ok ho hp (hc.before (Place.le_of_lt (h'.advances ho')) hm)
      obtain ⟨_, hfound', ho'⟩ := h'.run.ok ho' hm hc
      cases hfound with
      | some hv =>
        cases hfound' with
        | some hw => exact ⟨some (_, _), .some ⟨hv, hw⟩, both_eq_some.mpr ⟨x.cursor m, ho, ho'⟩⟩
  · intro c e c' ho hp
    refine both_eq_error.mpr ?_
    rcases both_eq_error.mp ho with ho | ⟨a, m, ho, ho'⟩
    · exact .inl (h.run.error ht ho hp)
    · have hm := (Place.suffix_of_le (Place.le_of_lt (h.advances ho))).trans hp
      obtain ⟨_, hfound, ho⟩ := h.run.ok ho hp ⟨hm, .inl ht⟩
      cases hfound with
      | some hv => exact .inr ⟨_, x.cursor m, ho, h'.run.error ht ho' hm⟩

end Retreats

end Rule

end LuaSyntax
