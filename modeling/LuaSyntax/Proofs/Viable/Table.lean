import LuaSyntax.Proofs.Viable.Function

/-! # Tables in two sources

A field with a name for a key is told from an expression by the equals sign behind the name, which is why
what comes next behind a name matters where a field begins.
-/
namespace LuaSyntax.Grammar

open Rule Parse Phrase

variable {ι : Type} {deep : Prop} {start stop : Ahead} {nested nested' : Nested}

theorem expect_andThen {α β : Type} {rule : Rule α} {f : α → Parse β} {label : Label} :
    expect (rule.andThen f) label = expect rule label >>= f := by
  funext c
  cases h : rule c with
  | error e m => exact (bind_of_error (bind_of_error h)).trans (bind_of_error (bind_of_error h)).symm
  | ok found m =>
    cases found with
    | none =>
      have hfails : expect rule label c = .error (.expected label m.offset) m := expect_eq_error.mpr (.inr ⟨h, rfl⟩)
      rw [bind_of_error hfails]
      exact expect_eq_error.mpr (.inr ⟨andThen_eq_none.mpr h, rfl⟩)
    | some a =>
      have hexpect : expect rule label c = .ok a m := expect_eq_ok.mpr h
      rw [bind_of_ok hexpect]
      cases hf : f a m with
      | error e m' => exact expect_eq_error.mpr (.inl (andThen_eq_error.mpr (.inr ⟨a, m, h, hf⟩)))
      | ok b m' => exact expect_eq_ok.mpr (andThen_eq_some.mpr ⟨a, m, h, hf⟩)

/-- The equals sign behind a key in brackets, which may be the front of a longer symbol. -/
theorem grabs_equals : Rule.Grabs (symbol "=") (· = .fixed "=") .anything := by
  have hjoins : ∀ b, joins "=" b → never b ∨ b ∈ doublingBytes := by
    intro b hb
    rw [joins_equals] at hb
    have hbyte : b = '='.toUInt8 := by simpa [isByte] using hb
    exact .inr (hbyte ▸ by decide +kernel)
  exact grabs_symbolUnless (by decide) (by decide) hjoins (fun _ hb => (Bool.false_ne_true hb).elim) fun _ _ _ => trivial

/-- The value of a field, behind the equals sign. -/
def pairValue (nested : Nested) (first : Span) (key : Node) : Parse Node := do
  let value ← expect nested.expression .pairValue
  nodeFrom first (.pair key value)

/-- The equals sign and the value of a field, behind a key in brackets. -/
def equalsValue (nested : Nested) (first : Span) (key : Node) : Rule Node :=
  (symbol "=").andThen fun _ => pairValue nested first key

theorem bracketField_eq : bracketField nested = openBracket.andThen fun first =>
    expect nested.expression .pairKey >>= fun key => expect (symbol "]") .pairKeyClose >>= fun _ =>
    expect (equalsValue nested first key) .pairAssign := by
  simp only [equalsValue, expect_andThen]
  rfl

variable (h : Nested.Tracks deep nested nested')
include h

theorem tracks_pairValue {first : Span} {first' : ι → Span} {key : Node} {key' : ι → Node} :
    (pairValue nested first key).Tracks deep (fun i => pairValue nested' (first' i) (key' i)) AnyResult .anything .closed :=
  (h.expression.expect fun _ => Iff.rfl).bind fun _ => .nodeFrom

theorem tracks_equalsValue {first : Span} {first' : ι → Span} {key : Node} {key' : ι → Node} :
    (expect (equalsValue nested first key) .pairAssign).Tracks deep
      (fun i => expect (equalsValue nested' (first' i) (key' i)) .pairAssign) AnyResult .anything .closed := by
  have hvalue : nested.expression.Tracks deep (fun _ : ι => nested'.expression) AnyResult .anything .closed :=
    h.expression.tracks_of.within (Ahead.within_anything _) (.refl _)
  have hrest : (equalsValue nested first key).Tracks deep (fun i => equalsValue nested' (first' i) (key' i)) AnyResult
      .anything .closed :=
    grabs_equals.tracks (fun _ => trivial) hvalue h.expression.steady h.expression.avoids
      (h.expression.supplies fun _ => Iff.rfl) fun _ _ => .nodeFrom
  have hsteady : (equalsValue nested first key).Steady :=
    (steady_symbol (by decide)).andThen fun _ => .bind (.expect h.steady.expression _) fun _ => .nodeFrom _ _
  refine hrest.expect hsteady fun hd => ?_
  have hequals : Label.Supplies .pairAssign .anything .anything fun s s' => ∀ _ : ι, (symbol "=").Gets (fun _ => True) s s' :=
    Label.supplies_fixed (grabs_equals.gets rfl) (by decide) (fun _ => Iff.rfl) trivial
  have hvalue : (pairValue nested first key).Tracks deep (fun i => pairValue nested' (first' i) (key' i)) AnyResult
      .anything .closed := tracks_pairValue h
  refine (hequals.before (hvalue.closes hd)).mono ?_
  rintro s s' ⟨t, hall, hall'⟩ i
  exact (hall i).andThen fun _ _ => hall' i

theorem tracks_bracketField (hstart : start.Admits "[") :
    (bracketField nested).Tracks deep (fun _ : ι => bracketField nested') AnyResult start .closed := by
  rw [bracketField_eq, bracketField_eq]
  exact (lexes_openBracket.tracks_fixed hstart).andThen fun first =>
    .bind (h.expression.expect fun _ => Iff.rfl) fun key =>
    .bind (tracks_expectSymbol (by decide) (fun _ => Iff.rfl) (by decide)) fun _ =>
    tracks_equalsValue h

/-- What comes next in a table: a field or its end where a separator came last, or else a separator. -/
def fieldAhead : Bool → Ahead
  | true => .limited ["\x7d"] [] true
  | false => .limited ["\x7d"] [.number] false

/-- What comes next behind the fields of a table. -/
def tableAhead : Ahead := .limited ["\x7d"] [.number] true

omit h in
theorem within_fieldAhead (separated : Bool) : tableAhead.Within (fieldAhead separated) := by
  cases separated <;> decide

omit h in
/-- A name with an equals sign behind it. -/
theorem tracks_namedKey : Rule.Tracks deep (both key (single '=')) (fun _ : ι => both key (single '=')) AnyResult
    (fieldAhead true) .anything := by
  have hkey : key.Tracks deep (fun _ : ι => key) AnyResult (fieldAhead true) (.limited [] [] false) :=
    tracks_key (by decide) (by decide)
  have hequals : Label.Supplies .pairAssign .anything .anything fun s s' => ∀ _ : ι, (single '=').Gets (fun _ => True) s s' :=
    Label.supplies_fixed (lexes_equals.gets rfl) (by decide) (fun _ => Iff.rfl) trivial
  exact hkey.both (lexes_equals.tracks_fixed (by decide)) (fun _ => completed_key (by decide)) fun _ => hequals.closed

omit h in
/-- Where a name has no equals sign behind it, it has none in the other source. -/
theorem lacks_namedKey {c c' : Cursor} {s : Stream} (ho : both key (single '=') c = .ok none c')
    (hsees : (fieldAhead true).Sees c s) : Rule.Lacks (both key (single '=')) s := by
  have hkeys : Rule.Settles True key key [.name] [] := settles_key
  have hsigns : Rule.Settles True (single '=') (single '=') ["="] [] := settles_equals
  intro d hd
  by_cases hname : s.Next [.name]
  · obtain ⟨v, t, text, hid, span, htakes, rfl⟩ := key_of_next hd hname
    obtain ⟨d', hok, hd'⟩ := predicts_key.follows.complete hd ⟨text, hid, span, htakes, rfl⟩
    suffices hequals : ¬ t.Next ["="] from
      both_eq_none.mpr (.inr ⟨rfl, _, d', d', hok, (predicts_equals.follows.declines hd').mpr hequals⟩)
    rcases hsees.1 with ⟨⟨token, hopens, hn⟩, hfirm⟩ | hnil | hends
    · rw [htakes.next] at hn
      obtain rfl := Option.some.inj hn
      rcases both_eq_none.mp ho with hnone | ⟨-, a, m, m', hkey, hnone⟩
      · exact (hkeys.tells hnone hopens List.mem_cons_self).elim
      · obtain ⟨lexeme, hreads, text', htoken, -⟩ := lexes_key.reads hkey
        have hsame : text' = text := by
          obtain ⟨place, hread, -⟩ := hreads.token
          rw [htoken] at hread
          cases hread with
          | name hscan =>
            cases hopens with
            | reads hread' =>
              cases hread' with
              | name hscan' =>
                rw [hscan] at hscan'
                cases hscan'
                rfl
        subst hsame
        rw [← htoken] at htakes
        rcases hfirm rfl hreads (by rw [htoken]; rfl) htakes with ⟨token, hopens, hn⟩ | hnil | hends
        · rintro ⟨token', hn', hk⟩
          rw [hn] at hn'
          obtain rfl := Option.some.inj hn'
          exact hsigns.tells hnone hopens hk
        · exact Stream.not_next_of_nil hnil
        · exact hends.disjoint (by decide)
    · exact (Stream.not_next_of_nil hnil hname).elim
    · exact (hends.disjoint (by decide) hname).elim
  · exact both_eq_none.mpr (.inl ((predicts_key.follows.declines hd).mpr hname))

theorem tracks_namedField :
    (namedField nested).Tracks deep (fun _ : ι => namedField nested') AnyResult (fieldAhead true) .closed :=
  tracks_namedKey.andThen fun _ => tracks_pairValue h

theorem tracks_field :
    (field nested).Tracks deep (fun _ : ι => field nested') AnyResult (fieldAhead true) (fieldAhead false) := by
  have hbracket : (bracketField nested).Tracks deep (fun _ : ι => bracketField nested') AnyResult (fieldAhead true) .closed :=
    tracks_bracketField h (by decide)
  have hlast : nested.expression.Tracks deep (fun _ : ι => nested'.expression) AnyResult (fieldAhead true) .closed :=
    h.expression.tracks_of.within (by decide) (.refl _)
  have hothers := (tracks_namedField h).firstOf_of (steady_namedField h.steady) (fun hnone _ hsees _ _ _ =>
    (lacks_namedKey (andThen_eq_none.mp hnone) hsees).andThen) hlast.singleton
  have hall := hbracket.firstOf_cons (fun _ => settles_openBracket.andThen _ _) (steady_bracketField h.steady) (by decide) hothers
  exact hall.within (.refl _) (by decide)

theorem settles_field : Rule.Settles deep (field nested) (field nested') ("[" :: expressionKinds) [] := by
  have hnamed : Rule.Settles deep (namedField nested) (namedField nested') [] [.name] := by
    refine ⟨fun _ _ _ => List.not_mem_nil, fun _ s hn d hd => andThen_eq_none.mpr (both_eq_none.mpr (.inl ?_))⟩
    exact (predicts_key.follows.declines hd).mpr hn
  have hbracket : Rule.Settles deep (bracketField nested) (bracketField nested') ["["] [] :=
    settles_openBracket.andThen _ _
  exact (hbracket.firstOf_cons (hnamed.firstOf_cons (h.settles.singleton h.steady.expression) (steady_namedField h.steady))
    (steady_bracketField h.steady)).congr (by decide) (by decide)

omit h in
theorem tracks_separator : Rule.Tracks deep (firstOf [symbol ",", symbol ";"]) (fun _ : ι => firstOf [symbol ",", symbol ";"])
    AnyResult (fieldAhead false) stop := by
  have hcomma : (symbol ",").Tracks deep (fun _ : ι => symbol ",") AnyResult (fieldAhead false) stop :=
    (lexes_symbol (by decide)).tracks_fixed (by decide)
  have hsemicolon : (symbol ";").Tracks deep (fun _ : ι => symbol ";") AnyResult (fieldAhead false) stop :=
    (lexes_symbol (by decide)).tracks_fixed (by decide)
  exact hcomma.firstOf_cons (fun _ => settles_symbol (by decide)) (steady_symbol (by decide)) (by decide) hsemicolon.singleton

omit h in
theorem settles_separator : Rule.Settles deep (firstOf [symbol ",", symbol ";"]) (firstOf [symbol ",", symbol ";"])
    [",", ";"] [] := by
  have hcomma : (symbol ",").Settles deep (symbol ",") [","] [] := settles_symbol (by decide)
  have hsemicolon : (symbol ";").Settles deep (symbol ";") [";"] [] := settles_symbol (by decide)
  exact hcomma.firstOf_cons (hsemicolon.singleton (steady_symbol (by decide))) (steady_symbol (by decide))

/-- A step of the loop over the fields of a table. What comes next depends on whether a separator came last. -/
theorem carried_fieldStep {a b : List Node × Bool} {c m : Cursor} (hc : c.Ready) (ho : fieldStep nested a c = .ok (some b) m) :
    c.Carried m (fieldAhead a.2) (fieldAhead b.2) fun s s' =>
      ∀ (_ : ι) a', a.2 = a'.2 → (fieldStep nested' a').Gets (fun b' => b.2 = b'.2) s s' := by
  obtain ⟨listed, separated⟩ := a
  cases separated with
  | false => cases ho
  | true =>
    obtain ⟨next, m₁, hfield, ho⟩ := andThen_eq_some.mp ho
    obtain ⟨separator, m₂, hseparator, ho⟩ := bind_eq_ok.mp ho
    obtain ⟨rfl, rfl⟩ := pure_eq_ok.mp ho
    have hfields : (field nested).Tracks deep (fun _ : ι => field nested') AnyResult (fieldAhead true) (fieldAhead false) :=
      tracks_field h
    have hseparators : Rule.Tracks deep (firstOf [symbol ",", symbol ";"]) (fun _ : ι => firstOf [symbol ",", symbol ";"])
        AnyResult (fieldAhead false) (fieldAhead true) := tracks_separator
    have hsettles : Rule.Settles deep (firstOf [symbol ",", symbol ";"]) (firstOf [symbol ",", symbol ";"]) [",", ";"] [] :=
      settles_separator
    have hfirst := hfields.ok hc hfield
    cases separator with
    | some span =>
      refine (hfirst.trans (hseparators.ok (hfirst.ready hc) hseparator)).mono ?_
      rintro s s' ⟨t, hall, hall'⟩ i ⟨listed', _⟩ rfl
      exact (hall i).andThen fun next _ => (hall' i).bind fun _ _ => .pure rfl
    | none =>
      obtain rfl := steady_separator.stays hseparator
      refine hfirst.sees.mono ?_
      rintro s s' ⟨hall, hsees⟩ i ⟨listed', _⟩ rfl
      exact (hall i).andThen fun next _ => (hsettles.sees hseparator hsees (by decide)).bind (.pure rfl)

theorem completed_fieldStep (hd : deep) {a : List Node × Bool} {c c' : Cursor} {label : Label} {offset : Nat} (hc : c.Ready)
    (he : fieldStep nested a c = .error (.expected label offset) c') :
    c.Completed label offset (fieldAhead a.2) tableAhead fun s s' =>
      ∀ (_ : ι) a', a.2 = a'.2 → (fieldStep nested' a').Gets (fun _ => True) s s' := by
  obtain ⟨listed, separated⟩ := a
  cases separated with
  | false => cases he
  | true =>
    have hfields : (field nested).Tracks deep (fun _ : ι => field nested') AnyResult (fieldAhead true) (fieldAhead false) :=
      tracks_field h
    have hseparators : Rule.Tracks deep (firstOf [symbol ",", symbol ";"]) (fun _ : ι => firstOf [symbol ",", symbol ";"])
        AnyResult (fieldAhead false) tableAhead := tracks_separator
    have hsettles : Rule.Settles deep (firstOf [symbol ",", symbol ";"]) (firstOf [symbol ",", symbol ";"]) [",", ";"] [] :=
      settles_separator
    rcases andThen_eq_error.mp he with he | ⟨next, m, hfield, he⟩
    · refine (((hfields.error hd hc he).within (.refl _) (by decide)).ends).mono ?_
      rintro s s' ⟨hall, hends⟩ i ⟨listed', _⟩ rfl
      exact (hall i).andThen fun next _ => (hsettles.ends hd hends (by decide)).bind (.pure trivial)
    · rcases bind_eq_error.mp he with he | ⟨_, _, -, he⟩
      · have hfirst := hfields.ok hc hfield
        refine (hfirst.completed hc (hseparators.error hd (hfirst.ready hc) he)).mono ?_
        rintro s s' ⟨t, hall, hall'⟩ i ⟨listed', _⟩ rfl
        exact (hall i).andThen fun next _ => (hall' i).bind fun _ _ => .pure trivial
      · cases he

theorem tracks_fields :
    (fields nested).Tracks deep (fun _ : ι => fields nested') AnyResult (fieldAhead true) tableAhead := by
  have hfields : Rule.Settles deep (field nested) (field nested') ("[" :: expressionKinds) [] := settles_field h
  have hlacks {b : List Node × Bool} {s : Stream} (hfield : b.2 = true → (field nested').Lacks s) :
      (fieldStep nested' b).Lacks s := by
    obtain ⟨listed, separated⟩ := b
    cases separated with
    | false => exact fun _ _ => rfl
    | true => exact (hfield rfl).andThen
  have hloop : (iterate (fieldStep nested) ([], true)).Tracks deep (fun _ : ι => iterate (fieldStep nested') ([], true))
      (fun a b => a.2 = b.2) (fieldAhead true) tableAhead := by
    refine .iterate_of (steady_fieldStep h.steady) (fun _ => steady_fieldStep h.steady') (carried_fieldStep h)
      (fun hd => completed_fieldStep h hd) (fun a => within_fieldAhead a.2) (.refl _) ?_ ?_ fun _ => rfl
    · rintro i ⟨listed, separated⟩ b c c' s hab hnone hsees
      refine hlacks fun hb => ?_
      obtain rfl : separated = true := hab.trans hb
      exact hfields.sees (andThen_eq_none.mp hnone) hsees (by decide)
    · intro hd i b s hends
      exact hlacks fun _ => hfields.ends hd hends (by decide)
  exact hloop.bind fun x => .pure fun _ => trivial

theorem tracks_table (hstart : start.Admits "\x7b") :
    (table nested).Tracks deep (fun _ : ι => table nested') AnyResult start stop :=
  ((lexes_symbol (by decide)).tracks_fixed hstart).andThen fun first =>
    .bind (tracks_fields h) fun fields =>
    .bind (tracks_expectSymbol (by decide) (fun _ => Iff.rfl) (by decide))
      fun _ => .nodeFrom

end LuaSyntax.Grammar
