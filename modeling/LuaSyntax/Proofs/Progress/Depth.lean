import LuaSyntax.Proofs.Progress.Counter
import LuaSyntax.Proofs.Progress.Grammar

/-! # Progress at a depth

A rule that declines leaves a parser as it was, a rule that matches has read something and is back at the
depth where it began, and so is one that fails. Hence every pass of a loop reads something, and a loop ends
only where a pass declines.
-/
namespace LuaSyntax

open Grammar Parse Rule

variable {α β σ : Type}

namespace Grammar

/-- The rules that may decline: the tokens, and the rules for expressions and their parts. -/
inductive MayDecline : {α : Type} → (Nested → Rule α) → Prop
  | nameToken : MayDecline fun _ => token Scan.name
  | numeralToken : MayDecline fun _ => token Scan.numeral
  | stringToken : MayDecline fun _ => token Scan.string
  /-- A reserved word or a symbol, whatever may not follow it. -/
  | symbolUnless (barred : UInt8 → Bool) (text : String) (h : isPlain (.ofString text)) :
      MayDecline fun _ => symbolUnless barred text
  | openBracket : MayDecline fun _ => openBracket
  | name : MayDecline fun _ => name
  | key : MayDecline fun _ => key
  | number : MayDecline fun _ => number
  | string : MayDecline fun _ => string
  | varargs : MayDecline fun _ => varargs
  | binaryOperator (op : BinaryOp) : MayDecline fun _ => binaryOperator op
  | binaryOperators (tier : Tier) : MayDecline fun _ => firstOf (tier.operators.map binaryOperator)
  | unaryOperator (op : UnaryOp) : MayDecline fun _ => unaryOperator op
  | unaryOperators : MayDecline fun _ => firstOf (unaryOperators.map unaryOperator)
  | bracketField : MayDecline bracketField
  | namedField : MayDecline namedField
  | field : MayDecline field
  | table : MayDecline table
  | arguments : MayDecline arguments
  | parenthesized : MayDecline parenthesized
  | primary : MayDecline primary
  | suffix (object : Node) : MayDecline (suffix · object)
  | suffixed : MayDecline suffixed
  | functionLiteral : MayDecline functionLiteral
  | simple : MayDecline simple
  | power : MayDecline power
  | unary : MayDecline unary
  | tightChains (tiers : List Tier) : MayDecline fun nested => chains (unary nested) tiers
  | concatenation : MayDecline concatenation
  | looseChains (tiers : List Tier) : MayDecline fun nested => chains (concatenation nested) tiers
  | expression : MayDecline expression
  | nestedExpression : MayDecline (·.expression)
  | nestedConcatenation : MayDecline (·.concatenation)
  | nestedUnary : MayDecline (·.unary)
  | expressions (missing : Label) : MayDecline (expressions · missing)

/-- What a congruence knows of the tokens it knows of all rules that may decline. -/
theorem MayDecline.congr {rule : Nested → Rule α} (h : MayDecline rule) {C : Congruence}
    (hbegun : ∀ v, C.begun v v) (htext : ∀ {text : String} (barred : UInt8 → Bool), isPlain (.ofString text) →
      ∃ V : Span → Span → Prop, C.Rules true V (Rule.symbolUnless barred text) (Rule.symbolUnless barred text))
    {nested : Nested} (hn : Nested.Congr C nested nested) :
    ∃ V : α → α → Prop, C.Rules false V (rule nested) (rule nested) := by
  have hlate {rule : Rule α} {V : α → α → Prop} (h : C.Rules true V rule rule) :
      ∃ V : α → α → Prop, C.Rules false V rule rule := ⟨V, C.weakenRule h⟩
  cases h with
  | nameToken => exact hlate C.read_name
  | numeralToken => exact hlate C.read_numeral
  | stringToken => exact hlate C.read_string
  | symbolUnless barred text h =>
    obtain ⟨V, h⟩ := htext barred h
    exact hlate h
  | openBracket => exact hlate Congruence.Terminal.openBracket.like
  | name => exact hlate terminal_name.like
  | key => exact hlate terminal_key.like
  | number => exact hlate terminal_number.like
  | string => exact hlate terminal_string.like
  | varargs => exact hlate terminal_varargs.like
  | binaryOperator op => exact hlate (terminal_binaryOperator op).like
  | binaryOperators tier => exact hlate (terminal_binaryOperators tier).like
  | unaryOperator op => exact hlate (terminal_unaryOperator op).like
  | unaryOperators => exact hlate terminal_unaryOperators.like
  | bracketField => exact hlate (congr_bracketField hn)
  | namedField => exact hlate (congr_namedField hn)
  | field => exact ⟨_, congr_field hn⟩
  | table => exact hlate (congr_table hn)
  | arguments => exact hlate (congr_arguments hn)
  | parenthesized => exact hlate (congr_parenthesized hn)
  | primary => exact hlate (congr_primary hn)
  | suffix object => exact hlate (congr_suffix hn (hbegun object))
  | suffixed => exact hlate (congr_suffixed hn)
  | functionLiteral => exact hlate (congr_functionLiteral hn)
  | simple => exact hlate (congr_simple hn)
  | power => exact hlate (congr_power hn)
  | unary => exact hlate (congr_unary hn)
  | tightChains tiers => exact hlate (congr_chains (congr_unary hn) tiers)
  | concatenation => exact hlate (congr_concatenation hn)
  | looseChains tiers => exact hlate (congr_chains (congr_concatenation hn) tiers)
  | expression => exact hlate (congr_expression hn)
  | nestedExpression => exact ⟨_, hn.expression⟩
  | nestedConcatenation => exact ⟨_, hn.concatenation⟩
  | nestedUnary => exact ⟨_, hn.unary⟩
  | expressions missing => exact ⟨_, congr_expressions hn missing⟩

theorem MayDecline.steady {rule : Nested → Rule α} (h : MayDecline rule) {nested : Nested} (hs : nested.Steady) :
    (rule nested).Steady := by
  have htext {text : String} (barred : UInt8 → Bool) (ht : isPlain (.ofString text)) :
      ∃ V : Span → Span → Prop, Congruence.steady.Rules true V (Rule.symbolUnless barred text)
        (Rule.symbolUnless barred text) :=
    ⟨fun _ _ => True, steady_symbolUnless barred (isPlain_iff.mp ht).1, fun {_ span _} _ => ⟨span, trivial⟩⟩
  obtain ⟨V, h⟩ := h.congr Congruence.steady.begun_self htext hs.congr
  exact Congruence.steady.of_rules h

/-- What a loop does in one pass, to what it has read so far. -/
inductive LoopPass : {σ : Type} → (Nested → σ → Rule σ) → Prop
  | statement : LoopPass statementStep
  | suffix : LoopPass suffix
  | tightOperator (tiers : List Tier) (tier : Tier) : LoopPass fun nested => chainStep (chains (unary nested) tiers) tier
  | looseOperator (tiers : List Tier) (tier : Tier) :
      LoopPass fun nested => chainStep (chains (concatenation nested) tiers) tier
  | value (missing : Label) : LoopPass (valueStep · missing)
  | name : LoopPass fun _ => nameStep
  | target : LoopPass targetStep
  | path : LoopPass fun _ => pathStep
  | field : LoopPass fieldStep
  | parameter : LoopPass fun _ => parameterStep
  | branch : LoopPass branchStep

theorem LoopPass.steady {pass : Nested → σ → Rule σ} (h : LoopPass pass) {nested : Nested} (hs : nested.Steady) (x : σ) :
    (pass nested x).Steady := by
  cases h with
  | statement => exact steady_statementStep hs x
  | suffix => exact steady_suffix hs x
  | tightOperator tiers tier => exact steady_chainStep (steady_chains (steady_unary hs) tiers) tier x
  | looseOperator tiers tier => exact steady_chainStep (steady_chains (steady_concatenation hs) tiers) tier x
  | value missing => exact steady_valueStep hs missing x
  | name => exact steady_nameStep x
  | target => exact steady_targetStep hs x
  | path => exact steady_pathStep x
  | field => exact steady_fieldStep hs x
  | parameter => exact steady_parameterStep x
  | branch => exact steady_branchStep hs x

/-- The loops of the grammar, by their passes. -/
structure Loops (nested : Nested) : Prop where
  statements : statements nested = do
    let listed ← iterate (statementStep nested) []
    let last ← returnStatement nested
    return (last.toList ++ listed).reverse
  suffixed : suffixed nested = (primary nested).andThen (iterate (suffix nested))
  chain : ∀ operand tier, chain operand tier = operand.andThen (iterate (chainStep operand tier))
  expressions : ∀ missing, expressions nested missing = nested.expression.andThen fun first => do
    return (← iterate (valueStep nested missing) [first]).reverse
  nameList : ∀ first, nameList first = do
    return .ofItems .nameList (← iterate nameStep [first]).reverse 0
  assignment : ∀ first, assignment nested first = do
    let targets ← iterate (targetStep nested) [first]
    match ← single '=' with
    | none => failAt .statement (first.span.pos - 1)
    | some _ =>
      let values ← expect (Grammar.expressions nested .listValue) .assignmentValues
      let targets : Node := .ofItems .targetList targets.reverse 0
      nodeFrom first.span (.assignment targets (valueList values targets))
  functionName : functionName = do
    let base ← expect name .functionName
    let path ← iterate pathStep base
    match ← single ':' with
    | some _ => return (indexed path (← expect key .functionMethod), true)
    | none => return (path, false)
  fields : fields nested = do
    let (listed, _) ← iterate (fieldStep nested) ([], true)
    return listed.reverse
  parameters : parameters = do
    match ← firstOf [varargs, name] with
    | none => return []
    | some first => return (← iterate parameterStep [first]).reverse
  ifStatement : ifStatement nested = (keyword "if").andThen fun first => do
    let head ← branch nested .ifCondition .ifThen
    let branches ← iterate (branchStep nested) [head]
    let otherwise ← (keyword "else").andThen fun _ => nested.block
    let _ ← expect (keyword "end") .ifEnd
    nodeFrom first (.conditional branches.reverse otherwise)

theorem loops (nested : Nested) : Loops nested where
  statements := rfl
  suffixed := rfl
  chain _ _ := rfl
  expressions _ := rfl
  nameList _ := rfl
  assignment _ := rfl
  functionName := rfl
  fields := rfl
  parameters := rfl
  ifStatement := rfl

end Grammar

namespace Parser

/-- A computation that leaves a parser as it was where it declines, reads something where it matches, and
comes back to the depth where it began. -/
structure Steady (rule : Parsing (Option α)) : Prop where
  declines : ∀ {s s'}, rule s = .ok none s' → s' = s
  reads : ∀ {s a s'}, rule s = .ok (some a) s' → s.toPlace < s'.toPlace ∧ s'.depth = s.depth ∧ s'.limit = s.limit
  fails : ∀ {s e s'}, rule s = .error e s' → s'.depth = s.depth ∧ s'.limit = s.limit

theorem steady_run {rule : Nested → Rule α} (h : ∀ levels, (rule (nesting levels)).Steady) : Steady (run rule) where
  declines hrun := by
    obtain ⟨c, ho, rfl⟩ := run_eq_ok.mp hrun
    rw [(h _).stays ho]
  reads hrun := by
    obtain ⟨c, ho, rfl⟩ := run_eq_ok.mp hrun
    exact ⟨(h _).advances ho, rfl, rfl⟩
  fails hrun := by
    obtain ⟨c, -, rfl⟩ := run_eq_error.mp hrun
    exact ⟨rfl, rfl⟩

/-- A rule that declines leaves the parser alone, and one that matches has read something; whatever becomes of
it, it comes back to the depth where it began, though its parts run one after the other and the nested rules among
them go deeper. So each pass of a loop reads something, and a loop is over only where a pass declines. -/
theorem run_progress :
    (∀ {α : Type} {rule : Nested → Rule α}, MayDecline rule → Steady (run rule)) ∧
    (∀ {σ : Type} {pass : Nested → σ → Rule σ}, LoopPass pass → ∀ x,
      Steady (run (pass · x)) ∧
      ∀ levels c z c', iterate (pass (nesting levels)) x c = .ok z c' ↔
        Steps (Next (pass (nesting levels))) x c z c' ∧ pass (nesting levels) z c' = .ok none c') ∧
    (∀ nested, Loops nested) ∧
    (∀ {α β : Type} (rule : Nested → Parse α) (next : α → Nested → Parse β),
      run (fun nested => rule nested >>= (next · nested)) = run rule >>= fun a => run (next a)) ∧
    run (·.expression) = deeper (run expression) ∧ run (·.concatenation) = deeper (run concatenation) ∧
      run (·.unary) = deeper (run unary) ∧ run (·.block) = deeper (run block) := by
  refine ⟨fun h => steady_run fun levels => h.steady (steady_nesting levels), fun h x => ⟨?_, fun levels c z c' => ?_⟩,
    loops, run_bind, run_nested⟩
  · exact steady_run fun levels => h.steady (steady_nesting levels) x
  · exact Parse.iterate_eq_ok fun y => h.steady (steady_nesting levels) y

/-- In front of `a == b` the rule for a field with a name goes back over the name, and the expression is read one
level deeper, where there is one. Behind a name the loop of suffixes goes on with `.c`. -/
theorem run_progress_field :
    (∃ s', run namedField ⟨.start (.ofString "a == b"), 1, 3⟩ = .ok none s' ∧ s' = ⟨.start (.ofString "a == b"), 1, 3⟩) ∧
    (∃ node s', run field ⟨.start (.ofString "a == b"), 1, 3⟩ = .ok (some node) s' ∧
      (Cursor.start (.ofString "a == b")).toPlace < s'.toPlace ∧ s'.depth = 1) ∧
    (∃ s', run field ⟨.start (.ofString "a == b"), 3, 3⟩ = .error (.tooDeep 0) s' ∧ s'.depth = 3) ∧
    ∃ node s', run (suffix · ⟨.name (.ofString "a"), ⟨1, 1⟩⟩) ⟨.start (.ofString ".c"), 1, 3⟩ = .ok (some node) s' ∧
      (Cursor.start (.ofString ".c")).toPlace < s'.toPlace := by
  have hback : run namedField ⟨.start (.ofString "a == b"), 1, 3⟩ = .ok none ⟨.start (.ofString "a == b"), 1, 3⟩ := rfl
  have hfield : run field ⟨.start (.ofString "a == b"), 1, 3⟩ =
      .ok (some (.binary .eq ⟨.name (.ofString "a"), ⟨1, 1⟩⟩ ⟨.name (.ofString "b"), ⟨6, 6⟩⟩)) ⟨⟨⟨[], 6⟩, 6⟩, 1, 3⟩ := rfl
  have hdeep : run field ⟨.start (.ofString "a == b"), 3, 3⟩ =
      .error (.tooDeep 0) ⟨.start (.ofString "a == b"), 3, 3⟩ := rfl
  have hsuffix : run (suffix · ⟨.name (.ofString "a"), ⟨1, 1⟩⟩) ⟨.start (.ofString ".c"), 1, 3⟩ =
      .ok (some (indexed ⟨.name (.ofString "a"), ⟨1, 1⟩⟩ ⟨.string (.ofString "c"), ⟨2, 2⟩⟩)) ⟨⟨⟨[], 2⟩, 2⟩, 1, 3⟩ := rfl
  obtain ⟨hread, hdepth, -⟩ := (run_progress.1 .field).reads hfield
  refine ⟨⟨_, hback, (run_progress.1 .namedField).declines hback⟩, ⟨_, _, hfield, hread, hdepth⟩, ⟨_, hdeep, ?_⟩,
    _, _, hsuffix, ?_⟩
  · exact ((run_progress.1 .field).fails hdeep).1
  · exact ((run_progress.2.1 .suffix _).1.reads hsuffix).1

end Parser

end LuaSyntax
