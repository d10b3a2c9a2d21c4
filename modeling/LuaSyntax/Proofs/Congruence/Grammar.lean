import LuaSyntax.Proofs.Congruence.Basic

/-! # The grammar in two runs

Every rule of the grammar corresponds to itself where the nested rules of the two runs correspond. This is the one
traversal of the grammar that the properties of its runs share: each is a congruence.
-/
namespace LuaSyntax

open Parse Rule Congruence
open List (Forall₂)

namespace Grammar

/-- One further expression of a list, in front of those listed so far in reverse. -/
def valueStep (nested : Nested) (missing : Label) (values : List Node) : Rule (List Node) :=
  (symbol ",").andThen fun _ => do return (← expect nested.expression missing) :: values

/-- One further parameter, in front of those listed so far, unless `...` was the last. -/
def parameterStep (listed : List Node) : Rule (List Node) := fun cursor =>
  if listed.head?.any (·.tag == .varargs) then .ok none cursor
  else (symbol ",").andThen (fun _ => do
    return (← expect (firstOf [name, varargs]) .parameter) :: listed) cursor

/-- One further name of a dotted name. -/
def pathStep (object : Node) : Rule Node :=
  (single '.').andThen fun _ => do return indexed object (← expect key .functionField)

/-- One operator of a tier and its right operand, after the left operand. -/
def chainStep (operand : Rule Node) (tier : Tier) (left : Node) : Rule Node :=
  Rule.andThen (firstOf (tier.operators.map binaryOperator)) fun op => do
    return .binary op left (← expect operand tier.missing)

/-- One field and its separator, after those listed so far in reverse. -/
def fieldStep (nested : Nested) : List Node × Bool → Rule (List Node × Bool) :=
  fun (listed, separated) cursor =>
    if separated then
      (field nested).andThen (fun next => do
        let separator ← firstOf [symbol ",", symbol ";"]
        return (next :: listed, separator.isSome)) cursor
    else .ok none cursor

/-- One further name of a name list, in front of those listed so far in reverse. -/
def nameStep (names : List Node) : Rule (List Node) :=
  Rule.map (both (symbol ",") name) fun (_, next) => next :: names

/-- One further branch of a conditional, in front of those listed so far in reverse. -/
def branchStep (nested : Nested) (branches : List (Node × Node)) : Rule (List (Node × Node)) :=
  (keyword "elseif").andThen fun _ => do return (← branch nested .elseifCondition .elseifThen) :: branches

/-- One further assignment target, in front of those listed so far in reverse. -/
def targetStep (nested : Nested) (targets : List Node) : Rule (List Node) :=
  (symbol ",").andThen fun _ => do return (← target nested) :: targets

/-- One further statement, in front of those listed so far in reverse. -/
def statementStep (nested : Nested) (listed : List Node) : Rule (List Node) := fun cursor =>
  if endsBlock cursor.rest then .ok none cursor
  else (some <$> (· ++ listed) <$> Option.toList <$> statement nested) cursor

/-- The nested rules of two runs correspond. -/
structure Nested.Congr (C : Congruence) (nested nested' : Nested) : Prop where
  expression : C.Rules false C.node nested.expression nested'.expression
  concatenation : C.Rules false C.node nested.concatenation nested'.concatenation
  unary : C.Rules false C.node nested.unary nested'.unary
  block : C.Runs false C.node nested.block nested'.block

variable {C : Congruence}

section Terminals

/-- A leaf of the tree with what a token stands for. -/
theorem terminal_leaf {α : Type} {scan : Scan (Option α)} {P : α → Prop} {form : α → Form Node} (hs : scan.Shallow)
    (h : C.Rules true (fun a b => P a.1 ∧ C.read a b) (token scan) (token scan))
    (hf : ∀ a, P a → Form.Rel C.number C.node (form a) (form a)) :
    C.Terminal C.begun (Rule.map (token scan) fun (a, span) => ⟨form a, span⟩) := by
  refine Terminal.map ⟨h, shallow_token hs⟩ fun {a b} hread => ?_
  obtain ⟨a, span⟩ := a
  obtain ⟨b, span'⟩ := b
  obtain ⟨hp, rfl, hspan⟩ := hread
  exact C.begun_mk (hf a hp) hspan

theorem terminal_name : C.Terminal C.begun name :=
  terminal_leaf (P := fun _ => True) Scan.shallow_name (C.ruleMono C.read_name (.intro trivial)) fun _ _ => .name

theorem terminal_key : C.Terminal C.begun key :=
  terminal_leaf (P := fun _ => True) Scan.shallow_name (C.ruleMono C.read_name (.intro trivial)) fun _ _ => .string

theorem terminal_number : C.Terminal C.begun number :=
  terminal_leaf Scan.shallow_numeral C.read_numeral fun _ => .number

theorem terminal_string : C.Terminal C.begun string :=
  terminal_leaf (P := fun _ => True) Scan.shallow_string (C.ruleMono C.read_string (.intro trivial)) fun _ _ => .string

theorem terminal_varargs : C.Terminal C.begun varargs := Terminal.map (.symbol (by decide)) (C.begun_mk .varargs)

/-- A reserved word that is an expression. -/
theorem congr_word {word : String} {form : Form Node} (hw : isWord (.ofString word)) (hf : Form.Rel C.number C.node form form) :
    C.Rules true C.node ((keyword word).map fun span => ⟨form, span⟩) ((keyword word).map fun span => ⟨form, span⟩) :=
  C.ruleMap (Terminal.keyword hw).like fun h => (C.begun_mk hf h).1

end Terminals

variable {nested nested' : Nested} {first first' : Span} {v w : Node}

section Functions

theorem congr_parameterStep {listed listed' : List Node} (hl : Forall₂ C.node listed listed') :
    C.Rules true (Forall₂ C.node) (parameterStep listed) (parameterStep listed') := by
  have htag : listed.head?.any (·.tag == .varargs) = listed'.head?.any (·.tag == .varargs) := by
    cases hl with
    | nil => rfl
    | cons hv _ => exact congrArg (· == Tag.varargs) (C.tag hv)
  have hnext : C.Terminal C.begun (firstOf [name, varargs]) := .firstOf (by
    simp only [List.mem_cons, List.not_mem_nil, or_false, forall_eq_or_imp, forall_eq]
    exact ⟨terminal_name, terminal_varargs⟩)
  have hcomma : C.Terminal C.token (symbol ",") := .symbol (by decide)
  unfold parameterStep
  rw [← htag]
  cases listed.head?.any (·.tag == .varargs) with
  | true => exact C.declines
  | false => exact hcomma.andThen fun _ => C.weaken (C.bind (C.expect hnext.like) fun hv => C.pure (.cons hv.1 hl))

theorem congr_parameters : C.Runs true (Forall₂ C.node) parameters parameters := by
  have hfirst : C.Terminal C.begun (firstOf [varargs, name]) := .firstOf (by
    simp only [List.mem_cons, List.not_mem_nil, or_false, forall_eq_or_imp, forall_eq]
    exact ⟨terminal_varargs, terminal_name⟩)
  refine C.bind_found (C.run hfirst.like) (C.pure .nil) fun hv => ?_
  exact C.bind (C.iterate congr_parameterStep (.cons hv.1 .nil)) fun hl => C.pure (List.forall₂_reverse_iff.mpr hl)

theorem congr_pathStep (h : C.begun v w) : C.Rules true C.begun (pathStep v) (pathStep w) :=
  (Terminal.single (by decide)).andThen fun _ =>
    C.weaken (C.bind (C.expect terminal_key.like) fun hk => C.pure (C.begun_indexed h hk.1))

theorem congr_functionName : C.Runs true (fun a b => C.begun a.1 b.1 ∧ a.2 = b.2) functionName functionName := by
  have hcolon : C.Terminal C.token (single ':') := .single (by decide)
  refine C.bind (C.expect terminal_name.like) fun hb => C.bind (C.iterate congr_pathStep hb) fun hp => ?_
  refine C.bind_found (C.run hcolon.like) (C.pure ⟨hp, rfl⟩) fun _ => ?_
  exact C.bind (C.expect terminal_key.like) fun hk => C.pure ⟨C.begun_indexed hp hk.1, rfl⟩

variable (h : Nested.Congr C nested nested')
include h

theorem congr_valueStep (missing : Label) {values values' : List Node} (hv : Forall₂ C.node values values') :
    C.Rules true (Forall₂ C.node) (valueStep nested missing values) (valueStep nested' missing values') :=
  (Terminal.symbol (by decide)).andThen fun _ => C.bind (C.expect h.expression) fun hn => C.pure (.cons hn hv)

theorem congr_expressions (missing : Label) :
    C.Rules false (Forall₂ C.node) (expressions nested missing) (expressions nested' missing) :=
  C.andThen h.expression fun hv =>
    C.bind (C.iterate (congr_valueStep h missing) (.cons hv .nil)) fun hl => C.pure (List.forall₂_reverse_iff.mpr hl)

theorem congr_functionBody (hs : C.start first.pos first'.pos) (isMethod : Bool) :
    C.Runs true C.begun (functionBody nested first isMethod) (functionBody nested' first' isMethod) := by
  refine C.bind (C.expect (Terminal.symbol (by decide)).like) fun ho => C.bind congr_parameters fun hl => ?_
  refine (Terminal.symbol (by decide)).expect fun _ => C.bind h.block fun hb => ?_
  refine C.bind (C.expect (Terminal.keyword (by decide)).like) fun _ => C.nodeFrom_begun hs (.function ?_ hb)
  cases isMethod with
  | false => exact hl
  | true => exact .cons (C.node_selfParameter ho) hl

theorem congr_functionLiteral : C.Rules true C.node (functionLiteral nested) (functionLiteral nested') :=
  C.andThen (Terminal.keyword (by decide)).like fun hs => C.mono (congr_functionBody h hs.1 false) And.left

theorem congr_functionStatement : C.Rules true C.node (functionStatement nested) (functionStatement nested') := by
  refine C.andThen (Terminal.keyword (by decide)).like fun hs => C.bind congr_functionName fun {found found'} hf => ?_
  obtain ⟨target, isMethod⟩ := found
  obtain ⟨target', isMethod'⟩ := found'
  obtain ⟨ht, rfl⟩ := hf
  refine C.bind (congr_functionBody h hs.1 isMethod) fun hb => C.nodeFrom hs.1 (.assignment ?_ ?_)
  · exact C.node_mk (.targetList (.cons ht.1 .nil)) (C.node_pos ht.1) (C.node_endPos ht.1)
  · exact C.node_mk (.valueList (.cons hb.1 .nil)) (C.node_pos hb.1) (C.node_endPos hb.1)

theorem congr_localFunction {second second' : Span} (hs : C.start first.pos first'.pos) (hs' : C.start second.pos second'.pos) :
    C.Runs true C.node (localFunction nested first second) (localFunction nested' first' second') := by
  refine C.bind (C.expect terminal_name.like) fun hn => C.bind (congr_functionBody h hs' false) fun hb =>
    C.nodeFrom hs (.localFunction ?_ ?_)
  · exact C.node_mk (.nameList (.cons hn.1 .nil)) (C.node_pos hn.1) (C.node_endPos hn.1)
  · exact C.node_mk (.valueList (.cons hb.1 .nil)) (C.node_pos hb.1) (C.node_endPos hb.1)

end Functions

section Expressions

theorem terminal_binaryOperator (op : BinaryOp) : C.Terminal Eq (binaryOperator op) :=
  (Terminal.symbolUnless _ (by cases op <;> decide)).map fun _ => rfl

theorem terminal_binaryOperators (tier : Tier) : C.Terminal Eq (firstOf (tier.operators.map binaryOperator)) := by
  refine .firstOf fun rule hm => ?_
  obtain ⟨op, -, rfl⟩ := List.mem_map.mp hm
  exact terminal_binaryOperator op

theorem terminal_unaryOperator (op : UnaryOp) : C.Terminal C.read (unaryOperator op) :=
  (Terminal.symbolUnless _ (by cases op <;> decide)).map fun h => ⟨rfl, h⟩

theorem terminal_unaryOperators : C.Terminal C.read (firstOf (unaryOperators.map unaryOperator)) := by
  refine .firstOf fun rule hm => ?_
  obtain ⟨op, -, rfl⟩ := List.mem_map.mp hm
  exact terminal_unaryOperator op

theorem terminal_separator : C.Terminal C.token (firstOf [symbol ",", symbol ";"]) := .firstOf (by
  simp only [List.mem_cons, List.not_mem_nil, or_false, forall_eq_or_imp, forall_eq]
  exact ⟨.symbol (by decide), .semicolon⟩)

section Operands
variable {operand operand' right right' : Rule Node}

theorem congr_chainStep (ho : C.Rules true C.node operand operand') (tier : Tier) (hv : C.node v w) :
    C.Rules true C.node (chainStep operand tier v) (chainStep operand' tier w) :=
  C.andThen (terminal_binaryOperators tier).like fun hop => C.bind (C.expect ho) fun hr =>
    C.pure (hop ▸ C.node_binary _ hv hr)

theorem congr_chain (ho : C.Rules true C.node operand operand') (tier : Tier) :
    C.Rules true C.node (chain operand tier) (chain operand' tier) :=
  C.andThen ho fun hv => C.iterate (congr_chainStep ho tier) hv

theorem congr_chains (ho : C.Rules true C.node operand operand') (tiers : List Tier) :
    C.Rules true C.node (chains operand tiers) (chains operand' tiers) := by
  induction tiers with
  | nil => exact ho
  | cons tier tighter ih => exact congr_chain ih tier

theorem congr_withRight (ho : C.Rules true C.node operand operand') (hr : C.Rules false C.node right right') (op : BinaryOp)
    (missing : Label) : C.Rules true C.node (withRight operand op right missing) (withRight operand' op right' missing) := by
  refine C.andThen ho fun hv => (terminal_binaryOperator op).bind (C.pure hv) fun hop => ?_
  exact C.bind (C.expect hr) fun hw => C.pure (hop ▸ C.node_binary _ hv hw)

end Operands

variable (h : Nested.Congr C nested nested')
include h

theorem congr_parenthesized : C.Rules true C.begun (parenthesized nested) (parenthesized nested') :=
  (Terminal.symbol (by decide)).andThen fun hs =>
  C.bind (C.expect h.expression) fun hv =>
  C.bind (C.expect (Terminal.symbol (by decide)).like) fun _ => C.nodeFrom_begun hs.1 (.paren hv)

theorem congr_bracketField : C.Rules true C.node (bracketField nested) (bracketField nested') :=
  Terminal.openBracket.andThen fun hs =>
  C.bind (C.expect h.expression) fun hk =>
  C.bind (C.expect (Terminal.symbol (by decide)).like) fun _ =>
  (Terminal.symbol (by decide)).expect fun _ =>
  C.bind (C.expect h.expression) fun hv => C.nodeFrom hs.1 (.pair hk hv)

theorem congr_namedField : C.Rules true C.node (namedField nested) (namedField nested') :=
  (terminal_key.both (.single (by decide)) (leavesSemicolon_name.map _)).andThen fun hk =>
  C.bind (C.expect h.expression) fun hv => C.nodeFrom hk.1.2 (.pair hk.1.1 hv)

theorem congr_field : C.Rules false C.node (field nested) (field nested') :=
  C.orElse_late (congr_bracketField h) <| C.orElse_late (congr_namedField h) <| C.orElse h.expression C.declines

theorem congr_fieldStep {a b : List Node × Bool} (hl : Forall₂ C.node a.1 b.1 ∧ a.2 = b.2) :
    C.Rules false (fun a b => Forall₂ C.node a.1 b.1 ∧ a.2 = b.2) (fieldStep nested a) (fieldStep nested' b) :=
  C.itemStep (congr_field h) terminal_separator.like hl

theorem congr_fields : C.Runs false (Forall₂ C.node) (fields nested) (fields nested') :=
  have hseparator : C.Terminal C.token (firstOf [symbol ",", symbol ";"]) := terminal_separator
  C.bind (C.iterate_items (congr_field h) hseparator.like hseparator.shallow) fun hl =>
    C.pure (List.forall₂_reverse_iff.mpr hl.1)

theorem congr_table : C.Rules true C.node (table nested) (table nested') :=
  (Terminal.symbol (by decide)).andThen fun hs =>
  C.bind (congr_fields h) fun hl =>
  C.bind (C.expect (Terminal.symbol (by decide)).like) fun _ => C.nodeFrom hs.1 (.table hl)

omit h in
/-- Values that may be missing. -/
theorem forall₂_getD {found found' : Option (List Node)} (hf : Option.Rel (Forall₂ C.node) found found') :
    Forall₂ C.node (found.getD []) (found'.getD []) := by
  cases hf with
  | none => exact .nil
  | some hl => exact hl

theorem congr_arguments : C.Rules true (Forall₂ C.node) (arguments nested) (arguments nested') := by
  refine C.orElse ?_ <| C.orElse (C.ruleMap (congr_table h) fun hv => .cons hv .nil) <|
    C.orElse (C.ruleMap terminal_string.like fun hv => .cons hv.1 .nil) C.declines
  exact (Terminal.symbol (by decide)).andThen fun _ =>
    C.bind (C.run (congr_expressions h _)) fun hl =>
    C.bind (C.expect (Terminal.symbol (by decide)).like) fun _ => C.pure (forall₂_getD hl)

theorem congr_suffix (hv : C.begun v w) : C.Rules true C.begun (suffix nested v) (suffix nested' w) := by
  refine C.orElse ?_ <| C.orElse ?_ <| C.orElse ?_ <| C.orElse ?_ C.declines
  · exact C.andThen (Terminal.single (by decide)).like fun _ =>
      C.bind (C.expect terminal_key.like) fun hk => C.pure (C.begun_indexed hv hk.1)
  · exact Terminal.openBracket.andThen fun _ =>
      C.bind (C.expect h.expression) fun hk =>
      C.bind (C.expect (Terminal.symbol (by decide)).like) fun _ => C.nodeFrom_begun hv.2 (.index hv.1 hk)
  · exact C.andThen (Terminal.single (by decide)).like fun _ =>
      C.bind (C.expect terminal_key.like) fun hm =>
      C.bind (C.expect (congr_arguments h)) fun ha => C.nodeFrom_begun hv.2 (.invoke hv.1 hm.1 ha)
  · exact C.andThen (congr_arguments h) fun ha => C.nodeFrom_begun hv.2 (.call hv.1 ha)

theorem congr_primary : C.Rules true C.begun (primary nested) (primary nested') :=
  C.orElse terminal_name.like <| C.orElse (congr_parenthesized h) C.declines

theorem congr_suffixed : C.Rules true C.begun (suffixed nested) (suffixed nested') :=
  C.andThen (congr_primary h) fun hv => C.iterate (congr_suffix h) hv

theorem congr_simple : C.Rules true C.node (simple nested) (simple nested') :=
  C.orElse (C.ruleMono terminal_number.like And.left) <| C.orElse (C.ruleMono terminal_string.like And.left) <|
  C.orElse (congr_word (by decide) .nil) <| C.orElse (congr_word (by decide) .boolean) <|
  C.orElse (congr_word (by decide) .boolean) <| C.orElse (C.ruleMono terminal_varargs.like And.left) <|
  C.orElse (congr_functionLiteral h) <| C.orElse (congr_table h) <|
  C.orElse (C.ruleMono (congr_suffixed h) And.left) C.declines

theorem congr_power : C.Rules true C.node (power nested) (power nested') :=
  congr_withRight (congr_simple h) h.unary _ _

theorem congr_unaryOperation : C.Rules true C.node (unaryOperation nested) (unaryOperation nested') :=
  terminal_unaryOperators.andThen fun hop =>
    C.bind (C.expect h.unary) fun hv => C.pure (hop.1 ▸ C.node_unary hop.2 hv)

theorem congr_unary : C.Rules true C.node (unary nested) (unary nested') :=
  C.orElse (congr_unaryOperation h) <| C.orElse (congr_power h) C.declines

theorem congr_concatenation : C.Rules true C.node (concatenation nested) (concatenation nested') :=
  congr_withRight (congr_chains (congr_unary h) _) h.concatenation _ _

theorem congr_expression : C.Rules true C.node (expression nested) (expression nested') :=
  congr_chains (congr_concatenation h) _

end Expressions

section Statements

theorem congr_nameStep {V : List Node → List Node → Prop} {names names' : List Node}
    (hV : ∀ {v w}, C.node v w → V (v :: names) (w :: names')) : C.Rules true V (nameStep names) (nameStep names') := by
  have hcomma : C.Terminal C.token (symbol ",") := .symbol (by decide)
  exact C.ruleMap (hcomma.both terminal_name leavesSemicolon_comma).like fun hv => hV hv.2.1

theorem congr_nameList (hv : C.node v w) : C.Runs true C.node (nameList v) (nameList w) :=
  C.bind (C.iterate (fun hn => congr_nameStep hn.cons) (.one hv)) fun hn => C.pure (C.node_listed .nameList hn)

theorem congr_breakStatement : C.Rules true C.node breakStatement breakStatement :=
  congr_word (by decide) .breakLoop

theorem congr_labelStatement : C.Rules true C.node labelStatement labelStatement :=
  C.andThen (Terminal.symbol (by decide)).like fun hs =>
  C.bind (C.expect C.read_name) fun {found found'} hn => by
    obtain ⟨text, _⟩ := found
    obtain ⟨text', _⟩ := found'
    obtain ⟨rfl, -⟩ := hn
    exact C.bind (C.expect (Terminal.symbol (by decide)).like) fun _ => C.nodeFrom hs.1 .label

theorem congr_gotoStatement : C.Rules true C.node gotoStatement gotoStatement :=
  C.andThen (Terminal.keyword (by decide)).like fun hs =>
  C.bind (C.expect C.read_name) fun {found found'} hn => by
    obtain ⟨text, _⟩ := found
    obtain ⟨text', _⟩ := found'
    obtain ⟨rfl, -⟩ := hn
    exact C.nodeFrom hs.1 .goto

variable (h : Nested.Congr C nested nested')
include h

theorem congr_branch (condition closing : Label) :
    C.Runs false (fun a b => C.node a.1 b.1 ∧ C.node a.2 b.2) (branch nested condition closing)
      (branch nested' condition closing) :=
  C.bind (C.expect h.expression) fun hc =>
  (Terminal.keyword (by decide)).expect fun _ =>
  C.bind h.block fun hb => C.pure ⟨hc, hb⟩

theorem congr_branchStep {branches branches' : List (Node × Node)}
    (hb : Forall₂ (fun a b => C.node a.1 b.1 ∧ C.node a.2 b.2) branches branches') :
    C.Rules true (Forall₂ fun a b => C.node a.1 b.1 ∧ C.node a.2 b.2) (branchStep nested branches)
      (branchStep nested' branches') :=
  (Terminal.keyword (by decide)).andThen fun _ => C.bind (congr_branch h _ _) fun hv => C.pure (.cons hv hb)

theorem congr_ifStatement : C.Rules true C.node (ifStatement nested) (ifStatement nested') :=
  (Terminal.keyword (by decide)).andThen fun hs =>
  C.bind (congr_branch h _ _) fun hv =>
  C.bind (C.iterate (congr_branchStep h) (.cons hv .nil)) fun hb =>
  C.bind (C.run ((Terminal.keyword (by decide)).andThen fun _ => h.block)) fun ho =>
  C.bind (C.expect (Terminal.keyword (by decide)).like) fun _ =>
  C.nodeFrom hs.1 (.conditional (List.forall₂_reverse_iff.mpr hb) ho)

theorem congr_doStatement : C.Rules true C.node (doStatement nested) (doStatement nested') :=
  (Terminal.keyword (by decide)).andThen fun hs =>
  C.bind h.block fun hb =>
  C.bind (C.expect (Terminal.keyword (by decide)).like) fun _ => C.nodeFrom hs.1 (.doBlock hb)

theorem congr_whileStatement : C.Rules true C.node (whileStatement nested) (whileStatement nested') :=
  (Terminal.keyword (by decide)).andThen fun hs =>
  C.bind (C.expect h.expression) fun hc =>
  (Terminal.keyword (by decide)).expect fun _ =>
  C.bind h.block fun hb =>
  C.bind (C.expect (Terminal.keyword (by decide)).like) fun _ => C.nodeFrom hs.1 (.whileLoop hc hb)

theorem congr_repeatStatement : C.Rules true C.node (repeatStatement nested) (repeatStatement nested') :=
  (Terminal.keyword (by decide)).andThen fun hs =>
  C.bind h.block fun hb =>
  (Terminal.keyword (by decide)).expect fun _ =>
  C.bind (C.expect h.expression) fun hc => C.nodeFrom hs.1 (.repeatLoop hb hc)

theorem congr_forBody : C.Runs true C.node (forBody nested) (forBody nested') :=
  (Terminal.keyword (by decide)).expect fun _ =>
  C.bind h.block fun hb =>
  C.bind (C.expect (Terminal.keyword (by decide)).like) fun _ => C.pure hb

theorem congr_numericFor (hs : C.start first.pos first'.pos) (hv : C.node v w) :
    C.Runs false C.node (numericFor nested first v) (numericFor nested' first' w) :=
  C.bind (C.expect h.expression) fun hb =>
  (Terminal.symbol (by decide)).expect fun _ =>
  C.bind (C.expect h.expression) fun hl =>
  C.bind (C.run ((Terminal.symbol (by decide)).andThen fun _ => C.expect h.expression)) fun hp =>
  C.bind (congr_forBody h) fun hbody => C.nodeFrom hs (.numericFor hv hb hl hp hbody)

theorem congr_genericFor (hs : C.start first.pos first'.pos) (hv : C.node v w) :
    C.Runs true C.node (genericFor nested first v) (genericFor nested' first' w) :=
  C.bind (congr_nameList hv) fun hn =>
  (Terminal.keyword (by decide)).expect fun _ =>
  C.bind (C.expect (congr_expressions h _)) fun hl =>
  C.bind (congr_forBody h) fun hb => C.nodeFrom hs (.genericFor hn (C.node_valueList hl hn) hb)

theorem congr_forStatement : C.Rules true C.node (forStatement nested) (forStatement nested') :=
  C.andThen (Terminal.keyword (by decide)).like fun hs =>
  C.bind (C.expect terminal_name.like) fun hv =>
  (Terminal.single (by decide)).bind (congr_genericFor h hs.1 hv.1) fun _ => congr_numericFor h hs.1 hv.1

theorem congr_localNames (hs : C.start first.pos first'.pos) :
    C.Runs true C.node (localNames nested first) (localNames nested' first') :=
  C.bind (C.expect terminal_name.like) fun hv =>
  C.bind (congr_nameList hv.1) fun hn =>
  C.bind (C.run ((Terminal.single (by decide)).andThen fun _ => C.expect (congr_expressions h _))) fun hl =>
  C.nodeFrom hs (.localNames hn (C.node_valueList (forall₂_getD hl) hn))

theorem congr_localStatement : C.Rules true C.node (localStatement nested) (localStatement nested') := by
  have hfunction : C.Terminal C.token (keyword "function") := .keyword (by decide)
  exact C.andThen (Terminal.keyword (by decide)).like fun hs =>
    C.bind_found (C.run hfunction.like) (congr_localNames h hs.1) fun hs' => congr_localFunction h hs.1 hs'.1

theorem congr_returnStatement : C.Rules true C.node (returnStatement nested) (returnStatement nested') :=
  (Terminal.keyword (by decide)).andThen fun hs =>
  C.bind (C.run (congr_expressions h _)) fun hl =>
  C.bind (C.run Terminal.semicolon.like) fun _ => C.nodeFrom hs.1 (.returnValues (forall₂_getD hl))

theorem congr_target : C.Runs true C.node (target nested) (target nested') := by
  refine C.bind C.get fun hc => C.bind (C.expect (congr_suffixed h)) fun hv => ?_
  rw [← Form.isAssignable_eq_of_tag (C.tag hv.1)]
  split
  · exact C.pure hv.1
  · exact C.failAt (C.cursor_start hc)

theorem congr_targetStep {V : List Node → List Node → Prop} {targets targets' : List Node}
    (hV : ∀ {v w}, C.node v w → V (v :: targets) (w :: targets')) :
    C.Rules true V (targetStep nested targets) (targetStep nested' targets') :=
  C.andThen (Terminal.symbol (by decide)).like fun _ => C.bind (congr_target h) fun hv => C.pure (hV hv)

theorem congr_assignment (hv : C.begun v w) : C.Runs true C.node (assignment nested v) (assignment nested' w) := by
  refine C.bind (C.iterate (V := C.Listed) (fun ht => congr_targetStep h ht.cons) (.one hv.1)) fun ht => ?_
  refine (Terminal.single (by decide)).bind (C.failAt hv.2) fun _ => C.bind (C.expect (congr_expressions h _)) fun hl => ?_
  have htargets := C.node_listed .targetList ht
  exact C.nodeFrom hv.2 (.assignment htargets (C.node_valueList hl htargets))

theorem congr_expressionStatement : C.Rules true C.node (expressionStatement nested) (expressionStatement nested') := by
  refine C.andThen (congr_suffixed h) fun hv => ?_
  rw [← Form.isCall_eq_of_tag (C.tag hv.1), ← Form.isAssignable_eq_of_tag (C.tag hv.1)]
  split
  · exact C.pure hv.1
  · split
    · exact congr_assignment h hv
    · exact C.failAt hv.2

theorem congr_statementForms :
    Forall₂ (C.Rules true (Option.Rel C.node)) (statementForms nested) (statementForms nested') := by
  have hsome {r s : Rule Node} (hr : C.Rules true C.node r s) :
      C.Rules true (Option.Rel C.node) (r.map some) (s.map some) := C.ruleMap hr .some
  exact .cons (C.ruleMap Terminal.semicolon.like fun _ => .none) <|
    .cons (hsome (congr_ifStatement h)) <| .cons (hsome (congr_doStatement h)) <| .cons (hsome (congr_whileStatement h)) <|
    .cons (hsome (congr_repeatStatement h)) <| .cons (hsome (congr_forStatement h)) <| .cons (hsome (congr_localStatement h)) <|
    .cons (hsome (congr_functionStatement h)) <| .cons (hsome congr_breakStatement) <| .cons (hsome congr_labelStatement) <|
    .cons (hsome congr_gotoStatement) <| .cons (hsome (congr_expressionStatement h)) .nil

theorem congr_statement : C.Runs true (Option.Rel C.node) (statement nested) (statement nested') :=
  C.expect (C.firstOf (congr_statementForms h))

/-- The lists of the two runs may correspond in another way than item by item. -/
theorem congr_statementStep {V : List Node → List Node → Prop} {listed listed' : List Node}
    (hV : ∀ {found found'}, Option.Rel C.node found found' → V (found.toList ++ listed) (found'.toList ++ listed')) :
    C.Rules true V (statementStep nested listed) (statementStep nested' listed') := by
  have hone (nested : Nested) (listed : List Node) :
      (some <$> (· ++ listed) <$> Option.toList <$> statement nested : Parse (Option (List Node))) =
        Rule.map (some <$> statement nested : Parse (Option (Option Node))) fun found => found.toList ++ listed := by
    simp only [Rule.map, Rule.andThen, map_eq_pure_bind, bind_assoc, pure_bind]
  unfold statementStep
  rw [hone, hone]
  exact C.guarded C.tests_endsBlock (C.ruleMap (C.always (C.firstOf (congr_statementForms h))) hV)

theorem congr_listed : C.Runs true (Forall₂ C.node) (iterate (statementStep nested) [])
    (iterate (statementStep nested') []) := by
  refine C.iterate (fun hl => congr_statementStep h fun hfound => ?_) .nil
  cases hfound with
  | none => exact hl
  | some hv => exact .cons hv hl

theorem congr_statements : C.Runs true (Forall₂ C.node) (statements nested) (statements nested') := by
  refine C.bind (congr_listed h) fun hl => C.bind (C.run (congr_returnStatement h)) fun hlast => C.pure ?_
  refine List.forall₂_reverse_iff.mpr ?_
  cases hlast with
  | none => exact hl
  | some hv => exact .cons hv hl

theorem congr_block : C.Runs true C.node (block nested) (block nested') :=
  C.bind C.get fun hc => C.bind (congr_statements h) fun hl =>
    C.pure (C.node_ofItems (.block hl) hl fun _ => C.pos_of_start (C.cursor_start hc))

end Statements

/-- With one more level each the nested rules still correspond. -/
theorem Nested.Congr.succ {levels levels' : Nat} (h : Nested.Congr C (nesting levels) (nesting levels')) :
    Nested.Congr C (nesting (levels + 1)) (nesting (levels' + 1)) :=
  ⟨C.weakenRule (congr_expression h), C.weakenRule (congr_concatenation h), C.weakenRule (congr_unary h),
    C.weaken (congr_block h)⟩

/-- A whole source, if what comes before the first token is read alike and the source ends alike. -/
theorem congr_chunk {limit limit' : Nat} (h : Nested.Congr C (nesting limit) (nesting limit'))
    (hline : C.Runs true Eq (modify skipShebang) (modify skipShebang)) (hskip : C.Runs true Eq skipTrivia skipTrivia)
    (hstart : C.pos 1 1)
    (hend : ∀ {c d}, C.cursor c d → c.rest.isEmpty = d.rest.isEmpty ∧ C.pos (max 1 c.offset) (max 1 d.offset)) :
    C.Runs true C.node (chunk limit) (chunk limit') := by
  refine C.bind hline fun _ => C.bind hskip fun _ => C.bind (congr_statements h) fun hl => C.bind C.get fun {c d} hc => ?_
  rw [← (hend hc).1]
  split
  · exact C.pure (C.node_mk (.block hl) hstart (hend hc).2)
  · exact C.fail

end Grammar

end LuaSyntax
