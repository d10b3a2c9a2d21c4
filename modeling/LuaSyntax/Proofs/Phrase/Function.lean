import LuaSyntax.Proofs.Phrase.Nested

/-! # Functions follow the grammar -/
namespace LuaSyntax.Grammar

open Rule Parse Phrase

section Parameters

/-- The last parameter listed is `...`. -/
def EndsParameters (listed : List Node) : Prop := listed.head?.any (·.tag == .varargs)

/-- The phrase of one further parameter. -/
def ParameterStep (listed : List Node) : Phrase (List Node) := fun s next s' =>
  ¬ EndsParameters listed ∧ ∃ v, After "," (fun s v s' => Name s v s' ∨ Varargs s v s') s v s' ∧
    next = v :: listed

theorem follows_parameterStep (listed : List Node) :
    Rule.Follows (parameterStep listed) (ParameterStep listed)
      (fun s => EndsParameters listed ∨ ¬ s.Next [","]) := by
  have hitem := predicts_name.firstOf_cons predicts_varargs.firstOf_singleton (by decide)
  have hcomma := predicts_symbol (by decide : "," ∈ plainSymbols)
  refine ((hcomma.follows.andThen fun _ => (hitem.expect .parameter).return (· :: listed)).unless
    (E := fun _ => EndsParameters listed) fun _ => Iff.rfl).congr (fun s next s' => ?_) fun _ => Iff.rfl
  refine and_congr_right fun _ => ⟨?_, ?_⟩
  · rintro ⟨span, m, hs, v, hv, rfl⟩
    exact ⟨v, ⟨span, m, hs, hv⟩, rfl⟩
  · rintro ⟨v, ⟨span, m, hs, hv⟩, rfl⟩
    exact ⟨span, m, hs, v, hv, rfl⟩

theorem endsParameters_cons {v : Node} {listed : List Node} {s s' : Stream} :
    (Name s v s' → ¬ EndsParameters (v :: listed)) ∧ (Varargs s v s' → EndsParameters (v :: listed)) := by
  refine ⟨?_, ?_⟩
  · rintro ⟨text, -, span, -, rfl⟩
    exact Bool.false_ne_true
  · rintro ⟨span, -, rfl⟩
    rfl

/-- The steps after a first parameter, which may be `...`, make up a parameter list. -/
theorem parameters_of_steps {x z : List Node} {m s' : Stream}
    (hs : Steps (fun x s y s' => ParameterStep x s y s') x m z s')
    (hend : EndsParameters z ∨ ¬ s'.Next [","]) {first : Node} {listed : List Node} {s : Stream}
    (hx : x = first :: listed) (hf : Name s first m ∨ Varargs s first m) :
    ∃ others, Parameters s others s' ∧ z = others.reverse ++ listed := by
  induction hs generalizing first listed s with
  | refl =>
    subst hx
    refine ⟨[first], ?_, rfl⟩
    rcases hf with hf | hf
    · exact .last hf (hend.resolve_left (endsParameters_cons.1 hf))
    · exact .varargs hf
  | cons hstep _ ih =>
    subst hx
    obtain ⟨hne, v, ⟨span, m', hc, hv⟩, rfl⟩ := hstep
    have hf := hf.resolve_right fun hf => hne (endsParameters_cons.2 hf)
    obtain ⟨others, ho, rfl⟩ := ih hend rfl hv
    exact ⟨first :: others, .more hf hc ho, by simp⟩

theorem steps_of_parameters {s s' : Stream} {all : List Node} (h : Parameters s all s')
    (listed : List Node) :
    ∃ first m, (Name s first m ∨ Varargs s first m) ∧
      Steps (fun x s y s' => ParameterStep x s y s') (first :: listed) m (all.reverse ++ listed) s' ∧
      (EndsParameters (all.reverse ++ listed) ∨ ¬ s'.Next [","]) := by
  induction h generalizing listed with
  | last h hs => exact ⟨_, _, .inl h, .refl, .inr hs⟩
  | varargs h => exact ⟨_, _, .inr h, .refl, .inl (endsParameters_cons.2 h)⟩
  | @more s m m' s' v span others h hc _ ih =>
    obtain ⟨first, m'', hf, hsteps, hend⟩ := ih (v :: listed)
    refine ⟨v, m, .inl h, .cons ⟨endsParameters_cons.1 h, first, ⟨span, m', hc, hf⟩, rfl⟩ ?_, ?_⟩
    · simpa using hsteps
    · simpa using hend

theorem parameters_eq : parameters = firstOf [varargs, name] >>= fun found =>
    found.elim (pure []) fun first =>
      iterate parameterStep [first] >>= fun listed => pure listed.reverse := by
  refine congrArg (firstOf [varargs, name] >>= ·) (funext fun found => ?_)
  cases found with
  | none => rfl
  | some first => rfl

theorem follows_parameters : parameters.Follows fun s listed s' =>
    Parameters s listed s' ∨ ¬ s.Next ["...", .name] ∧ listed = [] ∧ s' = s := by
  have hitem := predicts_varargs.firstOf_cons predicts_name.firstOf_singleton (by decide)
  rw [parameters_eq]
  refine (Parse.Follows.bindOptional hitem.optional
    (fun first => (Follows.iterate follows_parameterStep steady_parameterStep [first]).return List.reverse)
    (.pure [])).congr fun s listed s' => or_congr ⟨?_, fun h => ?_⟩ Iff.rfl
  · rintro ⟨first, m, hf, z, ⟨hs, hend⟩, rfl⟩
    obtain ⟨others, ho, rfl⟩ := parameters_of_steps hs hend rfl hf.symm
    simpa using ho
  · obtain ⟨first, m, hf, hs, hend⟩ := steps_of_parameters h []
    exact ⟨first, m, hf.symm, _, ⟨hs, hend⟩, by simp⟩

end Parameters

theorem follows_functionName : functionName.Follows FunctionName := by
  have hstep : ∀ object, Rule.Follows (pathStep object) (PathStep object) Stream.NoDot := fun object =>
    follows_dot.andThen fun _ => (predicts_key.expect .functionField).return (indexed object)
  exact .bind (predicts_name.expect _) fun base => .bind (.iterate hstep steady_pathStep base) fun path =>
    .bindOptional predicts_colon.optional
      (fun _ => (predicts_key.expect .functionMethod).return fun key => (indexed path key, true))
      (.pure (path, false))

variable {nested : Nested} {phrases : Phrases} (h : nested.Follows phrases)
include h

theorem follows_functionBody (first : Span) (isMethod : Bool) :
    (functionBody nested first isMethod).Follows (FunctionBody phrases first isMethod) :=
  .bind ((predicts_symbol (by decide)).expect _) fun _ =>
  .bind follows_parameters fun _ =>
  .bind ((predicts_symbol (by decide)).expect _) fun _ =>
  .bind h.block fun _ =>
  .node ((predicts_keyword (by decide)).expect _) first _

theorem predicts_functionLiteral :
    Rule.Predicts (functionLiteral nested) (FunctionLiteral phrases) ["function"] :=
  (predicts_keyword (by decide)).andThen (fun first => follows_functionBody h first false)
    (steady_functionLiteral h.steady)

theorem predicts_functionStatement :
    Rule.Predicts (functionStatement nested) (FunctionStatement phrases) ["function"] :=
  (predicts_keyword (by decide)).andThen (fun first =>
    .bind follows_functionName fun target =>
    .node (follows_functionBody h first target.2) first _) (steady_functionStatement h.steady)

theorem follows_localFunction (first second : Span) :
    (localFunction nested first second).Follows (LocalFunction phrases first second) :=
  .bind (predicts_name.expect _) fun _ => .node (follows_functionBody h second false) first _

end LuaSyntax.Grammar
