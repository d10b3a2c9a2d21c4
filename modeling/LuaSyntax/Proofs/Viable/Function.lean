import LuaSyntax.Proofs.Viable.Operand
import LuaSyntax.Proofs.Phrase.Function

/-! # Functions in two sources

The nested rules of a source and of another that has more levels, lists of expressions, and functions.
-/
namespace LuaSyntax.Grammar

open Rule Parse Phrase

/-- The nested rules of another source match at least as much. -/
structure Nested.Tracks (deep : Prop) (nested nested' : Nested) : Prop where
  steady : nested.Steady
  steady' : nested'.Steady
  follows : ∃ phrases, nested'.Follows phrases
  expression : Rule.Operand deep nested.expression nested'.expression
  concatenation : Rule.Operand deep nested.concatenation nested'.concatenation
  unary : Rule.Operand deep nested.unary nested'.unary
  settles : Rule.Settles deep nested.expression nested'.expression expressionKinds []
  block : nested.block.Tracks deep (fun _ : Unit => nested'.block) AnyResult .further .ended

variable {ι : Type} {deep : Prop} {start stop : Ahead} {nested nested' : Nested}

section Lists
variable {missing : Label} (h : Nested.Tracks deep nested nested')
include h

theorem tracks_expressions (hlabel : missing.AsksNil) (hstop : stop.Within .closed) (hk : stop.Spares [","] []) :
    (expressions nested missing).Tracks deep (fun _ : ι => expressions nested' missing) AnyResult .same stop :=
  h.expression.tracks_of.separated h.steady.expression (fun _ => h.steady'.expression) (steady_symbol (by decide))
    ((lexes_symbol (by decide)).tracks_fixed (by decide)) (h.expression.expect hlabel) (settles_symbol (by decide)) hstop hk

theorem settles_expressions :
    Rule.Settles deep (expressions nested missing) (expressions nested' missing) expressionKinds [] :=
  h.settles.andThen _ _

/-- A list of expressions that has to be there. -/
theorem tracks_expectExpressions {label : Label} (hmissing : missing.AsksNil) (hlabel : label.AsksNil)
    (hstop : stop.Within .closed) (hk : stop.Spares [","] []) :
    (expect (expressions nested missing) label).Tracks deep (fun _ : ι => expect (expressions nested' missing) label)
      AnyResult .anything stop := by
  refine ((tracks_expressions h hmissing hstop hk).within (Ahead.within_anything _) (.refl _)).expect
    (steady_expressions h.steady _) fun hd => ?_
  have hnil : label.Supplies .anything stop fun s s' => ∀ _ : ι, nested'.expression.Gets (fun _ => True) s s' :=
    (h.expression.supplies hlabel hd).within (.refl _) hstop
  refine hnil.ends.mono ?_
  rintro s s' ⟨hall, hends⟩ i
  exact (hall i).separated ((settles_symbol (by decide)).ends trivial hends hk) h.steady'.expression (steady_symbol (by decide))

end Lists

section Parameters

/-- What comes next in a list of parameters. -/
def parameterAhead : Ahead := .limited [")"] [] false

theorem spares_parameterAhead : parameterAhead.Spares [","] [] := by decide

/-- Both nodes are of one tag. -/
def SameTag (a b : Node) : Prop := a.tag = b.tag

/-- Both lists of parameters are at their end, or neither is. -/
def EndAlike (listed listed' : List Node) : Prop := EndsParameters listed ↔ EndsParameters listed'

theorem tag_of_varargs {c c' : Cursor} {v : Node} (h : varargs c = .ok (some v) c') : v.tag = .varargs := by
  obtain ⟨span, -, rfl⟩ := map_eq_some.mp h
  rfl

theorem tag_of_name {c c' : Cursor} {v : Node} (h : name c = .ok (some v) c') : v.tag = .name := by
  obtain ⟨⟨text, span⟩, -, rfl⟩ := map_eq_some.mp h
  rfl

theorem tracks_varargs (hstart : start.Admits "...") :
    varargs.Tracks deep (fun _ : ι => varargs) SameTag start stop :=
  ((lexes_varargs.tracks_fixed hstart).results tag_of_varargs tag_of_varargs).mono fun _ _ h => h.1.trans h.2.symm

theorem tracks_parameterName (hstart : start.Admits .name) :
    name.Tracks deep (fun _ : ι => name) SameTag start stop :=
  ((lexes_name.tracks_name hstart).results tag_of_name tag_of_name).mono fun _ _ h => h.1.trans h.2.symm

/-- One further parameter, whatever is listed so far. -/
def parameterAfter (listed : List Node) : Rule (List Node) :=
  (symbol ",").andThen fun _ => do return (← expect (firstOf [name, varargs]) .parameter) :: listed

theorem parameterStep_of_not {listed : List Node} (h : ¬ EndsParameters listed) :
    parameterStep listed = parameterAfter listed :=
  funext fun _ => if_neg h

/-- A parameter after a comma. -/
theorem tracks_parameter : (expect (firstOf [name, varargs]) .parameter).Tracks deep
    (fun _ : ι => expect (firstOf [name, varargs]) .parameter) SameTag .anything parameterAhead := by
  have hname : name.Tracks deep (fun _ : ι => name) SameTag .anything parameterAhead := tracks_parameterName trivial
  have hvarargs : varargs.Tracks deep (fun _ : ι => varargs) SameTag .anything parameterAhead := tracks_varargs trivial
  have hitem : Rule.Tracks deep (firstOf [name, varargs]) (fun _ : ι => firstOf [name, varargs]) SameTag
      .anything parameterAhead :=
    hname.firstOf_of steady_name (fun _ _ _ _ _ hgets =>
      predicts_name.lacks_of_gets predicts_varargs.firstOf_singleton (by decide) hgets) hvarargs.singleton
  refine hitem.expect (predicts_name.firstOf_cons predicts_varargs.firstOf_singleton (by decide)).steady fun _ => ?_
  exact (lexes_name.supplies_name (fun _ => Iff.rfl) (Ahead.anything_wants _)).mono fun _ _ hall i => (hall i).firstOf_head

theorem tracks_parameterAfter (listed : List Node) :
    (parameterAfter listed).Tracks deep parameterAfter EndAlike parameterAhead parameterAhead := by
  have hcomma : (symbol ",").Tracks deep (fun _ : List Node => symbol ",") AnyResult parameterAhead .anything :=
    (lexes_symbol (by decide)).tracks_fixed (by decide)
  refine hcomma.andThen fun _ => tracks_parameter.bindAlike (fun v => .pure fun x => ?_)
    fun _ => .refl fun _ _ _ _ => .pure trivial
  change (v.tag == .varargs) = true ↔ (x.2.1.tag == .varargs) = true
  rw [show v.tag = x.2.1.tag from x.2.2]

theorem lacks_parameterStep {listed : List Node} {s : Stream} (h : EndsParameters listed ∨ ¬ s.Next [","]) :
    (parameterStep listed).Lacks s :=
  fun _ hd => ((follows_parameterStep listed).declines hd).mpr h

/-- Parameters after the first, unless it ends the list. -/
theorem tracks_parameterSteps {listed : List Node} {listed' : ι → List Node} (h : ∀ i, EndAlike listed (listed' i)) :
    (iterate parameterStep listed).Tracks deep (fun i => iterate parameterStep (listed' i)) EndAlike
      parameterAhead parameterAhead := by
  have hafter (a : List Node) : (parameterAfter a).Tracks deep parameterAfter EndAlike parameterAhead parameterAhead :=
    tracks_parameterAfter a
  have hcomma (a : List Node) : (parameterAfter a).Settles deep (parameterAfter a) [","] [] :=
    (settles_symbol (by decide)).andThen _ _
  have hgets {a a' : List Node} {P : List Node → Prop} {s s' : Stream} (hends : ¬ EndsParameters a) (halike : EndAlike a a')
      (h : (parameterAfter a').Gets P s s') : (parameterStep a').Gets P s s' := by
    rwa [parameterStep_of_not fun h => hends (halike.mpr h)]
  have hstep {a : List Node} {c : Cursor} (h : parameterStep a c ≠ .ok none c) : ¬ EndsParameters a :=
    fun hends => h (if_pos hends)
  refine .iterate_of steady_parameterStep (fun _ => steady_parameterStep) ?_ ?_ (fun _ => .refl _) (.refl _) ?_ ?_ h
  · intro a c b m hc ho
    have hends : ¬ EndsParameters a := hstep (by rw [ho]; nofun)
    rw [parameterStep_of_not hends] at ho
    exact ((hafter a).ok hc ho).mono fun _ _ hall _ a' halike => hgets hends halike (hall a')
  · intro hd a c label offset c' hc he
    have hends : ¬ EndsParameters a := hstep (by rw [he]; nofun)
    rw [parameterStep_of_not hends] at he
    exact ((hafter a).error hd hc he).mono fun _ _ hall _ a' halike => hgets hends halike (hall a')
  · intro _ a b c c' s halike ho hsees
    refine lacks_parameterStep ?_
    by_cases hends : EndsParameters a
    · exact .inl (halike.mp hends)
    · rw [parameterStep_of_not hends] at ho
      exact .inr (hsees.not_next spares_parameterAhead ((hcomma a).tells ho))
  · intro _ _ b s hends
    exact lacks_parameterStep (.inr (hends.not_next spares_parameterAhead))

theorem tracks_parameters :
    parameters.Tracks deep (fun _ : ι => parameters) AnyResult parameterAhead parameterAhead := by
  have hvarargs : varargs.Tracks deep (fun _ : ι => varargs) SameTag parameterAhead parameterAhead :=
    tracks_varargs (by decide)
  have hname : name.Tracks deep (fun _ : ι => name) SameTag parameterAhead parameterAhead :=
    tracks_parameterName (by decide)
  have hfirst := hvarargs.firstOf_cons (fun _ => settles_varargs) steady_varargs (by decide) hname.singleton
  have hsettles : Rule.Settles deep (firstOf [varargs, name]) (firstOf [varargs, name]) ["...", .name] [] :=
    settles_varargs.firstOf_cons (settles_name.singleton steady_name) steady_varargs
  rw [parameters_eq]
  refine hfirst.bindOptionalAlike (fun _ => hsettles)
    (predicts_varargs.firstOf_cons predicts_name.firstOf_singleton (by decide)).steady (by decide) (fun first => ?_)
    (fun _ => .refl fun s hends _ a => ?_) (.pure fun _ => trivial)
  · refine (tracks_parameterSteps fun x => ?_).bind fun listed => .pure fun _ => trivial
    change (first.tag == .varargs) = true ↔ (x.2.1.tag == .varargs) = true
    rw [show first.tag = x.2.1.tag from x.2.2]
  · have hlacks : (parameterStep [a]).Lacks s := lacks_parameterStep (.inr (hends.not_next spares_parameterAhead))
    have hdone := Parse.Gets.iterate_done (P := fun _ => True) steady_parameterStep hlacks trivial
    exact hdone.bind fun _ _ => .pure trivial

end Parameters

section Functions
variable (h : Nested.Tracks deep nested nested')
include h

theorem tracks_functionBody (hstart : start.Wants "(") {first : Span} {first' : ι → Span} {isMethod : Bool}
    {isMethod' : ι → Bool} : (functionBody nested first isMethod).Tracks deep
      (fun i => functionBody nested' (first' i) (isMethod' i)) AnyResult start stop :=
  (tracks_expectSymbol (by decide) (fun _ => Iff.rfl) hstart).bind fun opening =>
  .bind tracks_parameters fun listed =>
  .bind (tracks_expectSymbol (by decide) (fun _ => Iff.rfl) (by decide)) fun _ =>
  .bind (h.block.reindex fun _ => ()) fun body =>
  .bind (tracks_expectKeyword (by decide) (fun _ => Iff.rfl) (by decide)) fun _ => .nodeFrom

theorem tracks_functionLiteral (hstart : start.Admits "function") :
    (functionLiteral nested).Tracks deep (fun _ : ι => functionLiteral nested') AnyResult start stop :=
  ((lexes_keyword (by decide)).tracks_fixed hstart).andThen fun _ => tracks_functionBody h (Ahead.anything_wants _)

/-- A dotted name may end with a method name, and goes on with a list of parameters. -/
def nameAhead : Ahead := .limited ["("] [.number] false

omit h in
theorem tracks_functionName :
    functionName.Tracks deep (fun _ : ι => functionName) AnyResult .anything nameAhead := by
  have hdot {ι : Type} : (single '.').Tracks deep (fun _ : ι => single '.') AnyResult .anything .anything :=
    lexes_dot.tracks_fixed trivial
  have hcolon {ι : Type} : (single ':').Tracks deep (fun _ : ι => single ':') AnyResult nameAhead .anything :=
    lexes_colon.tracks_fixed (by decide)
  have hstep (object : Node) : (pathStep object).Tracks deep pathStep AnyResult .anything .anything :=
    hdot.andThen fun _ => (lexes_key.tracks_expectName steady_key fun _ => Iff.rfl).bind fun key => .pure fun _ => trivial
  have hpath (base : Node) : (iterate pathStep base).Tracks deep (fun x : ι × Node => iterate pathStep x.2) AnyResult
      .anything nameAhead :=
    .iterateAny steady_pathStep (fun _ => steady_pathStep) (fun object => (hstep object).reindex Prod.snd)
      (Ahead.within_anything _) (fun _ _ _ => settles_dot.andThen _ _) (by decide)
  refine (lexes_name.tracks_expectName steady_name fun _ => Iff.rfl).bind fun base => (hpath base).bind fun path => ?_
  refine hcolon.bindOptional (fun _ => settles_colon) (steady_single (by decide)) (by decide) (fun _ => ?_)
    (.pure fun _ => trivial)
  exact (lexes_key.tracks_expectName steady_key fun _ => Iff.rfl).bind fun key => .pure fun _ => trivial

theorem tracks_functionStatement (hstart : start.Admits "function") :
    (functionStatement nested).Tracks deep (fun _ : ι => functionStatement nested') AnyResult start stop :=
  ((lexes_keyword (by decide)).tracks_fixed hstart).andThen fun _ =>
    .bind tracks_functionName fun target =>
    .bind (tracks_functionBody h (by decide)) fun function => .nodeFrom

theorem tracks_localFunction {first second : Span} {first' second' : ι → Span} :
    (localFunction nested first second).Tracks deep (fun i => localFunction nested' (first' i) (second' i)) AnyResult
      .anything stop :=
  (lexes_name.tracks_expectName steady_name fun _ => Iff.rfl).bind fun _ =>
    .bind (tracks_functionBody h (Ahead.anything_wants _)) fun _ => .nodeFrom

end Functions

end LuaSyntax.Grammar
