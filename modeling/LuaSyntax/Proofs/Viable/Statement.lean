import LuaSyntax.Proofs.Viable.Assignment

/-! # Statements of one level in two sources

Statements, and blocks of them, if the rules of the next level match as much. Behind a statement another one
comes next, or the end of its block.
-/
namespace LuaSyntax.Grammar

open Rule Parse Phrase

variable {ι : Type} {deep : Prop} {start stop : Ahead} {nested nested' : Nested} (h : Nested.Tracks deep nested nested')
include h

theorem tracks_branch {condition closing : Label} (hcondition : condition.AsksNil)
    (hclosing : ∀ item, closing.Asks item ↔ item = lineFeed :: Bytes.ofString "then") :
    (branch nested condition closing).Tracks deep (fun _ : ι => branch nested' condition closing) AnyResult .anything .ended :=
  (h.expression.expect hcondition).bind fun test =>
    .bind (tracks_expectKeyword (by decide) hclosing (by decide)) fun _ =>
    .bind (h.block.reindex fun _ => ()) fun body => .pure fun _ => trivial

theorem tracks_branches {branches : List (Node × Node)} {branches' : ι → List (Node × Node)} :
    (iterate (branchStep nested) branches).Tracks deep (fun i => iterate (branchStep nested') (branches' i)) AnyResult
      .ended .ended := by
  have hword : (keyword "elseif").Tracks deep (fun _ : ι × List (Node × Node) => keyword "elseif") AnyResult .ended .anything :=
    (lexes_keyword (by decide)).tracks_fixed (by decide)
  have hstep (branches : List (Node × Node)) : (branchStep nested branches).Tracks deep
      (fun x : ι × List (Node × Node) => branchStep nested' x.2) AnyResult .ended .ended :=
    hword.andThen fun _ => (tracks_branch h (fun _ => Iff.rfl) fun _ => Iff.rfl).bind fun branch => .pure fun _ => trivial
  exact .iterateAny (steady_branchStep h.steady) (fun _ => steady_branchStep h.steady') hstep (.refl _)
    (fun _ _ _ => (settles_keyword (by decide)).andThen _ _) (by decide)

theorem tracks_otherwise : Parse.Tracks deep ((keyword "else").andThen fun _ => nested.block)
    (fun _ : ι => (keyword "else").andThen fun _ => nested'.block) AnyResult .ended .ended := by
  have hword : (keyword "else").Tracks deep (fun _ : ι => keyword "else") AnyResult .ended .further :=
    (lexes_keyword (by decide)).tracks_fixed (by decide)
  have hrule : Rule.Tracks deep ((keyword "else").andThen fun _ => nested.block)
      (fun _ : ι => (keyword "else").andThen fun _ => nested'.block) AnyResult .ended .ended :=
    hword.andThen fun _ => h.block.reindex fun _ => ()
  exact hrule.optional (fun _ => (settles_keyword (by decide)).andThen _ _)
    ((steady_keyword (by decide)).andThen fun _ => h.steady.block) (.refl _) (by decide)

theorem tracks_ifStatement :
    (ifStatement nested).Tracks deep (fun _ : ι => ifStatement nested') AnyResult .further stop :=
  ((lexes_keyword (by decide)).tracks_fixed (by decide)).andThen fun first =>
    .bind (tracks_branch h (fun _ => Iff.rfl) fun _ => Iff.rfl) fun head =>
    .bind (tracks_branches h) fun branches =>
    .bind (tracks_otherwise h) fun otherwise =>
    .bind (tracks_expectKeyword (by decide) (fun _ => Iff.rfl) (by decide)) fun _ => .nodeFrom

theorem tracks_doStatement :
    (doStatement nested).Tracks deep (fun _ : ι => doStatement nested') AnyResult .further stop :=
  ((lexes_keyword (by decide)).tracks_fixed (by decide)).andThen fun first =>
    .bind (h.block.reindex fun _ => ()) fun body =>
    .bind (tracks_expectKeyword (by decide) (fun _ => Iff.rfl) (by decide)) fun _ => .nodeFrom

theorem tracks_whileStatement :
    (whileStatement nested).Tracks deep (fun _ : ι => whileStatement nested') AnyResult .further stop :=
  ((lexes_keyword (by decide)).tracks_fixed (by decide)).andThen fun first =>
    .bind (h.expression.expect fun _ => Iff.rfl) fun condition =>
    .bind (tracks_expectKeyword (by decide) (fun _ => Iff.rfl) (by decide)) fun _ =>
    .bind (h.block.reindex fun _ => ()) fun body =>
    .bind (tracks_expectKeyword (by decide) (fun _ => Iff.rfl) (by decide)) fun _ => .nodeFrom

theorem tracks_repeatStatement :
    (repeatStatement nested).Tracks deep (fun _ : ι => repeatStatement nested') AnyResult .further .further :=
  ((lexes_keyword (by decide)).tracks_fixed (by decide)).andThen fun first =>
    .bind (h.block.reindex fun _ => ()) fun body =>
    .bind (tracks_expectKeyword (by decide) (fun _ => Iff.rfl) (by decide)) fun _ =>
    .bind ((h.expression.expect fun _ => Iff.rfl).within (.refl _) (by decide)) fun condition => .nodeFrom

section Loops

theorem tracks_forBody (hstart : start.Wants "do") :
    (forBody nested).Tracks deep (fun _ : ι => forBody nested') AnyResult start stop :=
  (tracks_expectKeyword (by decide) (fun _ => Iff.rfl) hstart).bind fun _ =>
    .bind (h.block.reindex fun _ => ()) fun body =>
    .bind (tracks_expectKeyword (by decide) (fun _ => Iff.rfl) (by decide)) fun _ => .pure fun _ => trivial

/-- What comes next behind the values of a loop. -/
def forAhead : Ahead := .limited ["do"] [.number] false

/-- The step of a numeric loop, where there is one. -/
theorem tracks_forStep : Parse.Tracks deep ((symbol ",").andThen fun _ => expect nested.expression .forStep)
    (fun _ : ι => (symbol ",").andThen fun _ => expect nested'.expression .forStep) AnyResult forAhead forAhead := by
  have hcomma : (symbol ",").Tracks deep (fun _ : ι => symbol ",") AnyResult forAhead .anything :=
    (lexes_symbol (by decide)).tracks_fixed (by decide)
  have hrule : Rule.Tracks deep ((symbol ",").andThen fun _ => expect nested.expression .forStep)
      (fun _ : ι => (symbol ",").andThen fun _ => expect nested'.expression .forStep) AnyResult forAhead forAhead :=
    hcomma.andThen fun _ => (h.expression.expect fun _ => Iff.rfl).within (.refl _) (by decide)
  exact hrule.optional (fun _ => (settles_symbol (by decide)).andThen _ _)
    ((steady_symbol (by decide)).andThen fun _ => .expect h.steady.expression _) (.refl _) (by decide)

theorem tracks_numericFor {first : Span} {counter : Node} {first' : ι → Span} {counter' : ι → Node} :
    (numericFor nested first counter).Tracks deep (fun i => numericFor nested' (first' i) (counter' i)) AnyResult
      .anything stop :=
  (h.expression.expect fun _ => Iff.rfl).bind fun start =>
    .bind (tracks_expectSymbol (by decide) (fun _ => Iff.rfl) (by decide)) fun _ =>
    .bind ((h.expression.expect fun _ => Iff.rfl).within (.refl _) (by decide)) fun limit =>
    .bind (tracks_forStep h) fun step =>
    .bind (tracks_forBody h (by decide)) fun body => .nodeFrom

end Loops

section Names
variable {loop : Ahead} {first : Node} {first' : ι → Node}

omit h in
theorem tracks_nameStep (hloop : loop.Admits ",") (names : List Node) :
    (nameStep names).Tracks deep (fun x : ι × List Node => nameStep x.2) AnyResult loop loop := by
  have hcomma : (symbol ",").Tracks deep (fun _ : ι × List Node => symbol ",") AnyResult loop .anything :=
    (lexes_symbol (by decide)).tracks_fixed hloop
  have hname : name.Tracks deep (fun _ : ι × List Node => name) AnyResult .anything loop :=
    lexes_name.tracks_name (Ahead.anything_admits _)
  have hclose : Label.Supplies .localName .anything loop fun s s' => ∀ _ : ι × List Node, name.Gets (fun _ => True) s s' :=
    lexes_name.supplies_name (fun _ => Iff.rfl) (Ahead.anything_wants _)
  exact (hcomma.both hname hcomma.error fun _ => hclose.closed).map

omit h in
theorem settles_nameStep {names names' : List Node} : (nameStep names).Settles deep (nameStep names') [] [","] where
  tells _ _ _ := List.not_mem_nil
  lacks _ _ hn := by
    have hcomma : (symbol ",").Lacks _ := (predicts_symbol (by decide)).lacks hn
    exact fun d hd => map_eq_none.mpr (both_eq_none.mpr (.inl (hcomma hd)))

omit h in
theorem tracks_nameList (hloop : loop.Admits ",") (hstop : stop.Within loop) (hk : stop.Spares [] [","]) :
    (nameList first).Tracks deep (fun i => nameList (first' i)) AnyResult loop stop := by
  have hnames : (iterate nameStep [first]).Tracks deep (fun i : ι => iterate nameStep [first' i]) AnyResult loop stop :=
    .iterateAny steady_nameStep (fun _ => steady_nameStep) (tracks_nameStep hloop) hstop (fun _ _ _ => settles_nameStep) hk
  exact hnames.bind fun names => .pure fun _ => trivial

/-- What comes next behind the first name of a loop. -/
def forNames : Ahead := .limited ["in"] [] false

theorem tracks_genericFor {span : Span} {span' : ι → Span} :
    (genericFor nested span first).Tracks deep (fun i => genericFor nested' (span' i) (first' i)) AnyResult forNames stop := by
  have hnames : (nameList first).Tracks deep (fun i => nameList (first' i)) AnyResult forNames (.limited ["in"] [","] false) :=
    tracks_nameList (by decide) (by decide) (by decide)
  have hbody {ι : Type} : (forBody nested).Tracks deep (fun _ : ι => forBody nested') AnyResult forAhead stop :=
    tracks_forBody h (by decide)
  exact hnames.bind fun names =>
    .bind (tracks_expectKeyword (by decide) (fun _ => Iff.rfl) (by decide)) fun _ =>
    .bind (tracks_expectExpressions h (fun _ => Iff.rfl) (fun _ => Iff.rfl) (by decide) (by decide)) fun values =>
    .bind hbody fun body => .nodeFrom

theorem tracks_forStatement :
    (forStatement nested).Tracks deep (fun _ : ι => forStatement nested') AnyResult .further stop := by
  have hsign {ι : Type} : (single '=').Tracks deep (fun _ : ι => single '=') AnyResult forNames .anything :=
    lexes_equals.tracks_fixed (by decide)
  exact ((lexes_keyword (by decide)).tracks_fixed (by decide)).andThen fun span =>
    .bind (lexes_name.tracks_expectName steady_name fun _ => Iff.rfl) fun first =>
    hsign.bindOptional (fun _ => settles_equals) (steady_single (by decide)) (by decide) (fun _ => tracks_numericFor h)
      (tracks_genericFor h)

omit h in
/-- A name of a declaration that has to be there. -/
theorem tracks_localName (hstart : start.Wants .name) (hadmits : start.Admits .name) :
    (expect name .localName).Tracks deep (fun _ : ι => expect name .localName) AnyResult start stop :=
  (lexes_name.tracks_name hadmits).expect steady_name fun _ => lexes_name.supplies_name (fun _ => Iff.rfl) hstart

theorem tracks_localValues :
    Parse.Tracks deep ((single '=').andThen fun _ => expect (expressions nested .listValue) .localValues)
      (fun _ : ι => (single '=').andThen fun _ => expect (expressions nested' .listValue) .localValues) AnyResult
      .further .further := by
  have hsign : (single '=').Tracks deep (fun _ : ι => single '=') AnyResult .further .anything :=
    lexes_equals.tracks_fixed (by decide)
  have hrule : Rule.Tracks deep ((single '=').andThen fun _ => expect (expressions nested .listValue) .localValues)
      (fun _ : ι => (single '=').andThen fun _ => expect (expressions nested' .listValue) .localValues) AnyResult
      .further .further :=
    hsign.andThen fun _ => tracks_expectExpressions h (fun _ => Iff.rfl) (fun _ => Iff.rfl) (by decide) (by decide)
  exact hrule.optional (fun _ => settles_equals.andThen _ _)
    ((steady_single (by decide)).andThen fun _ => .expect (steady_expressions h.steady _) _) (.refl _) (by decide)

/-- What comes next behind the word of a declaration. -/
def localAhead : Ahead := .limited [.name] [] false

theorem tracks_localNames {span : Span} {span' : ι → Span} :
    (localNames nested span).Tracks deep (fun i => localNames nested' (span' i)) AnyResult localAhead .further := by
  have hnames {ι : Type} {first : Node} {first' : ι → Node} :
      (nameList first).Tracks deep (fun i => nameList (first' i)) AnyResult (.limited ["end", "until", .name] [.number] false)
        .further :=
    tracks_nameList (by decide) (by decide) (by decide)
  exact (tracks_localName (by decide) (by decide)).bind fun first => hnames.bind fun names =>
    .bind (tracks_localValues h) fun values => .nodeFrom

theorem tracks_localStatement :
    (localStatement nested).Tracks deep (fun _ : ι => localStatement nested') AnyResult .further .further := by
  have hword {ι : Type} : (keyword "function").Tracks deep (fun _ : ι => keyword "function") AnyResult localAhead .anything :=
    (lexes_keyword (by decide)).tracks_fixed (by decide)
  exact ((lexes_keyword (by decide)).tracks_fixed (by decide)).andThen fun span =>
    hword.bindOptional (fun _ => settles_keyword (by decide)) (steady_keyword (by decide)) (by decide)
      (fun _ => tracks_localFunction h) (tracks_localNames h)

end Names

section Words

omit h in
theorem tracks_breakStatement :
    breakStatement.Tracks deep (fun _ : ι => breakStatement) AnyResult .further stop :=
  ((lexes_keyword (by decide)).tracks_fixed (by decide)).map

omit h in
theorem tracks_labelStatement :
    labelStatement.Tracks deep (fun _ : ι => labelStatement) AnyResult .further stop :=
  ((lexes_symbol (by decide)).tracks_fixed (by decide)).andThen fun first =>
    .bind (lexes_nameToken.tracks_expectName predicts_nameToken.steady fun _ => Iff.rfl) fun found =>
    .bind (tracks_expectSymbol (by decide) (fun _ => Iff.rfl) (Ahead.anything_wants _)) fun _ => .nodeFrom

omit h in
theorem tracks_gotoStatement :
    gotoStatement.Tracks deep (fun _ : ι => gotoStatement) AnyResult .further stop :=
  ((lexes_keyword (by decide)).tracks_fixed (by decide)).andThen fun first =>
    .bind (lexes_nameToken.tracks_expectName predicts_nameToken.steady fun _ => Iff.rfl) fun found => .nodeFrom

/-- What comes next behind the word of a statement that stands last in its block. -/
def returnAhead : Ahead := .limited ["end", "until"] [] false

/-- The values that are returned, where there are some. -/
theorem tracks_returnValues : Parse.Tracks deep (expressions nested .returnValue)
    (fun _ : ι => expressions nested' .returnValue) AnyResult returnAhead .ended := by
  have hstart : Ahead.same.Within returnAhead := by decide
  exact ((tracks_expressions h (fun _ => Iff.rfl) (by decide) (by decide)).within hstart (.refl _)).optional
    (fun _ => settles_expressions h) (steady_expressions h.steady _) (by decide) (by decide)

theorem tracks_returnStatement :
    (returnStatement nested).Tracks deep (fun _ : ι => returnStatement nested') AnyResult .ended .ended := by
  have hsemicolon {ι : Type} : (symbol ";").Tracks deep (fun _ : ι => symbol ";") AnyResult .ended .ended :=
    (lexes_symbol (by decide)).tracks_fixed (by decide)
  exact ((lexes_keyword (by decide)).tracks_fixed (by decide)).andThen fun first => (tracks_returnValues h).bind fun values =>
    .bind (hsemicolon.optional (fun _ => settles_symbol (by decide)) (steady_symbol (by decide)) (.refl _) (by decide))
      fun _ => .nodeFrom

end Words

end LuaSyntax.Grammar
