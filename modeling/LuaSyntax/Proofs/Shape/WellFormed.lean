import LuaSyntax.Proofs.Shape.Phrase
import LuaSyntax.Proofs.Excerpt.Standing

/-! # Well-formed trees

The type of a tree lets any node stand anywhere. What the grammar builds is well formed: the
form of a node tells of what kind each of its children is. Statements stand in blocks only,
lists and blocks where they belong, and everything else is an expression.
-/
namespace LuaSyntax

/-- The kinds of statements that are no expressions. -/
def Tag.isStatement : Tag → Bool
  | .doBlock | .conditional | .whileLoop | .repeatLoop | .numericFor | .genericFor | .localNames
  | .localFunction | .assignment | .label | .goto | .breakLoop | .returnValues => true
  | _ => false

def Tag.isExpression : Tag → Bool
  | .name | .string | .number | .boolean | .nil | .varargs | .table | .function | .call | .invoke
  | .index | .paren | .operation => true
  | _ => false

/-- The kinds of expressions that can be called and indexed. -/
def Tag.isBase : Tag → Bool
  | .name | .paren | .index | .call | .invoke => true
  | _ => false

namespace Node

def isStatement (node : Node) : Bool := node.tag.isStatement || node.form.isCall

/-- An expression that is no method. -/
def isOperand (node : Node) : Bool := node.tag.isExpression && !node.isMethod

/-- A string that could be a name. -/
def IsKey (node : Node) : Prop := ∃ text, Identifier text ∧ node.form = .string text

def IsValueList (node : Node) : Prop :=
  node.tag = .valueList ∧ ∀ value ∈ node.children, value.isOperand

/-- The one target of a method definition ends with the name of the method, and the method is
the one value. -/
def DefinesMethod (targets values : Node) : Prop :=
  ∃ object key span method, targets.children = [⟨.index object key, span⟩] ∧ key.IsKey ∧
    values.children = [method] ∧ method.isMethod

/-- Every child of a node is of a kind that the form of the node asks for. -/
def WellFormed (node : Node) : Prop :=
  match node.form with
  | .block statements =>
    (∀ v ∈ statements, v.isStatement) ∧ ∀ v ∈ statements.dropLast, v.tag ≠ .returnValues
  | .doBlock body => body.tag = .block
  | .conditional branches otherwise =>
    branches ≠ [] ∧ (∀ branch ∈ branches, branch.1.isOperand ∧ branch.2.tag = .block) ∧
      ∀ body ∈ otherwise, body.tag = .block
  | .whileLoop condition body => condition.isOperand ∧ body.tag = .block
  | .repeatLoop body condition => body.tag = .block ∧ condition.isOperand
  | .numericFor counter start limit step body =>
    counter.tag = .name ∧ start.isOperand ∧ limit.isOperand ∧ (∀ v ∈ step, v.isOperand) ∧
      body.tag = .block
  | .genericFor names values body =>
    names.tag = .nameList ∧ values.IsValueList ∧ values.children ≠ [] ∧ body.tag = .block
  | .localNames names values => names.tag = .nameList ∧ values.IsValueList
  | .localFunction names values =>
    names.tag = .nameList ∧ names.children.length = 1 ∧ values.IsValueList ∧
      values.children.map tag = [.function]
  | .assignment targets values =>
    targets.tag = .targetList ∧ values.tag = .valueList ∧ values.children ≠ [] ∧
      (DefinesMethod targets values ∨ values.IsValueList)
  | .returnValues values => ∀ v ∈ values, v.isOperand
  | .nameList names => names ≠ [] ∧ ∀ v ∈ names, v.tag = .name
  | .targetList targets => targets ≠ [] ∧ ∀ v ∈ targets, v.tag = .name ∨ v.tag = .index
  | .valueList values => ∀ v ∈ values, v.tag.isExpression
  | .table fields => ∀ v ∈ fields, v.tag = .pair ∨ v.isOperand
  | .pair key value => key.isOperand ∧ value.isOperand
  | .function parameters body isMethod =>
    (∃ (names : List Node) (rest : Option Node), parameters = names ++ rest.toList ∧
      (∀ v ∈ names, v.tag = .name) ∧ ∀ v ∈ rest, v.tag = .varargs) ∧
    body.tag = .block ∧
    (isMethod → ∃ self ∈ parameters.head?, self.form = .name (.ofString "self"))
  | .call callee arguments => callee.tag.isBase ∧ ∀ v ∈ arguments, v.isOperand
  | .invoke object method arguments =>
    object.tag.isBase ∧ method.IsKey ∧ ∀ v ∈ arguments, v.isOperand
  | .index object key => object.tag.isBase ∧ key.isOperand
  | .paren inner => inner.isOperand
  | .binary _ left right => left.isOperand ∧ right.isOperand
  | .unary _ operand => operand.isOperand
  | .label _ | .goto _ | .breakLoop | .name _ | .string _ | .number _ | .boolean _ | .nil
  | .varargs => True

variable {node child : Node}

theorem isOperand_of_isBase (h : node.tag.isBase) : node.isOperand := by
  obtain ⟨form, span⟩ := node
  cases form <;> first | rfl | cases h

theorem IsKey.isOperand (h : node.IsKey) : node.isOperand := by
  obtain ⟨form, span⟩ := node
  obtain ⟨text, -, rfl⟩ := h
  rfl

theorem isExpression_of_isOperand (h : node.isOperand) : node.tag.isExpression :=
  (Bool.and_eq_true_iff.mp h).1

end Node

/-- What the role of a node says about its kind. -/
def Role.Fits : Role → Node → Prop
  | .block, v => v.tag = .block
  | .statement, v => v.isStatement ∧ v.tag ≠ .returnValues
  | .last, v => v.tag = .returnValues
  | .names, v => v.tag = .nameList
  | .targets, v => v.tag = .targetList
  | .values, v => v.IsValueList
  | .expression, v => v.isOperand
  | .base, v => v.tag.isBase
  | .field, v => v.tag = .pair ∨ v.isOperand
  | .function, v => v.tag = .function ∧ v.isMethod = false
  | .method, v => v.tag = .function ∧ v.isMethod
  | .name, v => v.tag = .name
  | .key, v => v.IsKey
  | .rest, v => v.tag = .varargs
  | .path, v => v.tag.isBase

/-- A tree of the shape of a role, or the values that a method definition assigns. -/
def Node.Grown (node : Node) : Prop :=
  (∃ role, Shaped role node) ∨
    ∃ function span, node = ⟨.valueList [function], span⟩ ∧ Shaped .method function

namespace Shaped
variable {role : Role} {v : Node}

theorem fits (h : Shaped role v) : role.Fits v := by
  induction h with
  | key h => exact ⟨_, h, rfl⟩
  | values _ ih => exact ⟨rfl, ih⟩
  | pathName _ ih | baseName _ ih => simp_all [Role.Fits, Tag.isBase]
  | expressionFunction _ ih => simp_all [Role.Fits, Node.isOperand, Tag.isExpression]
  | expressionBase _ ih => exact Node.isOperand_of_isBase ih
  | fieldItem _ ih => exact .inr ih
  | pair => exact .inl rfl
  | statementCall _ hc ih =>
    refine ⟨by simp [Node.isStatement, hc], fun hreturn => ?_⟩
    rw [Role.Fits, hreturn] at ih
    cases ih
  | _ => first | rfl | exact ⟨rfl, rfl⟩ | exact ⟨rfl, fun h => nomatch h⟩

/-- Only the last statement of a block can be a return. -/
theorem wellFormed_block {statements : List Node} {last : Option Node} {span : Span}
    (hs : ∀ v ∈ statements, Role.statement.Fits v) (hl : ∀ v ∈ last, Role.last.Fits v) :
    Node.WellFormed ⟨.block (statements ++ last.toList), span⟩ := by
  have hdrop : ∀ v ∈ (statements ++ last.toList).dropLast, v ∈ statements := by
    intro v hv
    cases last with
    | none =>
      rw [Option.toList_none, List.append_nil] at hv
      exact List.dropLast_subset _ hv
    | some last =>
      rwa [Option.toList_some, List.dropLast_concat] at hv
  refine ⟨List.forall_mem_append.mpr ⟨fun v hm => (hs v hm).1, fun v hm => ?_⟩, fun v hm => ?_⟩
  · have htag : v.tag = .returnValues := hl v (Option.mem_toList.mp hm)
    simp [Node.isStatement, htag, Tag.isStatement]
  · exact (hs v (hdrop v hm)).2

theorem wellFormed (h : Shaped role v) : v.WellFormed := by
  induction h with
  | pathName _ ih | baseName _ ih | expressionFunction _ ih | expressionBase _ ih | fieldItem _ ih
  | statementCall _ _ ih => exact ih
  | pathIndex ho hk => exact ⟨ho.fits, hk.fits.isOperand⟩
  | paren h => exact h.fits
  | index ho hk => exact ⟨ho.fits, hk.fits⟩
  | call hc ha => exact ⟨hc.fits, fun v hm => (ha v hm).fits⟩
  | invoke ho hm ha => exact ⟨ho.fits, hm.fits, fun v hm => (ha v hm).fits⟩
  | table h => exact fun v hm => (h v hm).fits
  | binary hl hr => exact ⟨hl.fits, hr.fits⟩
  | unary h => exact h.fits
  | pair hk hv => exact ⟨hk.fits, hv.fits⟩
  | function hn hr hb =>
    exact ⟨⟨_, _, rfl, fun v hm => (hn v hm).fits, fun v hm => (hr v hm).fits⟩, hb.fits, fun h => nomatch h⟩
  | @method names rest _ _ _ hn hr hb =>
    refine ⟨⟨_ :: names, rest, rfl, ?_, fun v hm => (hr v hm).fits⟩, hb.fits, fun _ => ⟨_, rfl, rfl⟩⟩
    exact List.forall_mem_cons.mpr ⟨rfl, fun v hm => (hn v hm).fits⟩
  | names h hne => exact ⟨hne, fun v hm => (h v hm).fits⟩
  | targets h ha hne =>
    refine ⟨hne, fun v hm => ?_⟩
    have hassignable := ha v hm
    obtain ⟨form, span⟩ := v
    cases form <;> first | exact .inl rfl | exact .inr rfl | cases hassignable
  | values h => exact fun v hm => Node.isExpression_of_isOperand (h v hm).fits
  | doBlock h => exact h.fits
  | conditional hne hc hb ho =>
    exact ⟨hne, fun branch hm => ⟨(hc branch hm).fits, (hb branch hm).fits⟩, fun v hm => (ho v hm).fits⟩
  | whileLoop hc hb => exact ⟨hc.fits, hb.fits⟩
  | repeatLoop hb hc => exact ⟨hb.fits, hc.fits⟩
  | numericFor hn hs hl hp hb =>
    exact ⟨hn.fits, hs.fits, hl.fits, fun v hm => (hp v hm).fits, hb.fits⟩
  | genericFor hn hv hne hb => exact ⟨hn.fits, hv.fits, hne, hb.fits⟩
  | localNames hn hv => exact ⟨hn.fits, hv.fits⟩
  | localFunction hn hf =>
    exact ⟨rfl, rfl, (Shaped.values (List.forall_mem_singleton.mpr (.expressionFunction hf))).fits,
      congrArg (fun tag => [tag]) hf.fits.1⟩
  | assignment ht hv hne => exact ⟨ht.fits, hv.fits.1, hne, .inr hv.fits⟩
  | methodDefinition ho hk hf =>
    exact ⟨rfl, rfl, List.cons_ne_nil _ _, .inl ⟨_, _, _, _, rfl, hk.fits, rfl, hf.fits.2⟩⟩
  | returnValues h => exact fun v hm => (h v hm).fits
  | block hs hl => exact wellFormed_block (fun v hm => (hs v hm).fits) fun v hm => (hl v hm).fits
  | name | key | rest | string | number | boolean | nil | varargs | label | goto | breakLoop => trivial

/-- Below a tree of the right shape there are such trees only, and the values that a method
definition assigns. -/
theorem child (h : Shaped role v) : ∀ child ∈ v.children, child.Grown := by
  unfold Node.Grown
  induction h with
  | pathName _ ih | baseName _ ih | expressionFunction _ ih | expressionBase _ ih | fieldItem _ ih
  | statementCall _ _ ih => exact ih
  | localFunction hn hf =>
    refine List.forall_mem_cons.mpr ⟨.inl ⟨.names, .names ?_ (List.cons_ne_nil _ _)⟩,
      List.forall_mem_singleton.mpr (.inl ⟨.values, .values ?_⟩)⟩
    · exact List.forall_mem_singleton.mpr hn
    · exact List.forall_mem_singleton.mpr (.expressionFunction hf)
  | methodDefinition ho hk hf =>
    obtain ⟨hbase, -⟩ := Phrase.shaped_of_path (.pathIndex ho hk)
    refine List.forall_mem_cons.mpr ⟨.inl ⟨.targets, .targets ?_ ?_ (List.cons_ne_nil _ _)⟩,
      List.forall_mem_singleton.mpr (.inr ⟨_, _, rfl, hf⟩)⟩
    · exact List.forall_mem_singleton.mpr hbase
    · exact List.forall_mem_singleton.mpr rfl
  | @method names rest body span anchor hn hr hb =>
    have hparts : (Bytes.ofString "self").all isNamePart = true := by decide
    have hself : Shaped .name ⟨.name (.ofString "self"), anchor⟩ :=
      .name ⟨by decide, List.all_eq_true.mp hparts, by decide⟩
    intro child hm
    simp only [Node.children, Form.children, List.mem_append, List.mem_cons, List.not_mem_nil, or_false,
      Option.mem_toList, Option.mem_def] at *
    grind
  | _ =>
    intro child hm
    simp only [Node.children, Form.children, List.mem_append, List.mem_cons, List.mem_flatMap,
      List.not_mem_nil, or_false, Option.mem_toList, Option.mem_def] at * <;> grind

end Shaped

namespace Node
variable {node child : Node}

theorem Grown.every_wellFormed (h : node.Grown) : node.Every WellFormed := by
  induction node using children_induction with
  | h node ih =>
    rcases h with ⟨role, h⟩ | ⟨function, span, rfl, h⟩
    · exact forall_mem_preorder.mpr ⟨h.wellFormed, fun child hm => ih child hm (h.child child hm)⟩
    · refine every_mk.mpr ⟨List.forall_mem_singleton.mpr ?_, fun child hm => ih child hm ?_⟩
      · obtain ⟨htag, -⟩ : function.tag = .function ∧ function.isMethod := h.fits
        rw [htag]
        rfl
      · obtain rfl : child = function := List.mem_singleton.mp hm
        exact .inl ⟨_, h⟩

theorem isMethod_eq_false (h : node.tag ≠ .function) : node.isMethod = false := by
  obtain ⟨form, span⟩ := node
  cases form <;> first | rfl | exact (h rfl).elim

theorem isMethod_eq_false_of_isStatement (h : node.isStatement) : node.isMethod = false := by
  obtain ⟨form, span⟩ := node
  cases form <;> first | rfl | cases h

theorem isStatement_eq_false_of_isExpression (h : node.tag.isExpression) : node.tag.isStatement = false := by
  obtain ⟨form, span⟩ := node
  cases form <;> first | rfl | cases h

/-- Statements are found nowhere but in blocks, and methods nowhere but in value lists. -/
theorem WellFormed.parent (h : node.WellFormed) (hc : child ∈ node.children) :
    (child.tag.isStatement → node.tag = .block) ∧ (child.isMethod → node.tag = .valueList) := by
  have hoperand : child.isOperand → child.tag.isStatement = false ∧ child.isMethod = false := fun h =>
    ⟨isStatement_eq_false_of_isExpression (isExpression_of_isOperand h),
      by simpa [isOperand] using (Bool.and_eq_true_iff.mp h).2⟩
  have htag : child.tag ≠ .function → child.isMethod = false := isMethod_eq_false
  have hbase : child.tag.isBase → child.isOperand := isOperand_of_isBase
  have hkey : child.IsKey → child.isOperand := IsKey.isOperand
  obtain ⟨form, span⟩ := node
  cases form with
  | block statements =>
    have hmethod := isMethod_eq_false_of_isStatement (h.1 child hc)
    exact ⟨fun _ => rfl, fun h => by simp [hmethod] at h⟩
  | valueList values =>
    have hstatement := isStatement_eq_false_of_isExpression (h child hc)
    exact ⟨fun h => by simp [hstatement] at h, fun _ => rfl⟩
  | _ =>
    simp only [WellFormed, children, Form.children, List.mem_append, List.mem_cons, List.mem_flatMap,
      List.not_mem_nil, or_false, Option.mem_toList, Option.mem_def] at h hc <;>
    grind [IsValueList, Tag.isStatement]

end Node

/-- In a parsed tree every child is of a kind that the form of its parent asks for. Below the root,
which is a block, statements stand in blocks only, and methods are the values of their
definitions only. -/
theorem parse_wellFormed {source : Bytes} {limit : Nat} {filename : String} {root : Node}
    (h : parse source limit filename = .ok root) :
    root.tag = .block ∧ ∀ node ∈ root.preorder, node.WellFormed ∧
      ∀ child ∈ node.children, (child.tag.isStatement → node.tag = .block) ∧
        (child.isMethod → node.tag = .valueList) := by
  have hroot := shaped_of_parse h
  have hevery : root.Every Node.WellFormed := Node.Grown.every_wellFormed (.inl ⟨_, hroot⟩)
  refine ⟨hroot.fits, fun node hm => ⟨hevery node hm, fun child hc => ?_⟩⟩
  exact (hevery node hm).parent hc

theorem parse_wellFormed_method : ∃ root, parse (.ofString "function a.b:c(...) return end") 2 "" = .ok root ∧
    root.tag = .block ∧ ∀ node ∈ root.preorder, node.WellFormed ∧
      ∀ child ∈ node.children, (child.tag.isStatement → node.tag = .block) ∧
        (child.isMethod → node.tag = .valueList) := by
  have hok : (parse (.ofString "function a.b:c(...) return end") 2 "").toBool = true := by decide +kernel
  cases hparse : parse (.ofString "function a.b:c(...) return end") 2 "" with
  | ok root => exact ⟨root, rfl, parse_wellFormed hparse⟩
  | error failure =>
    rw [hparse] at hok
    cases hok

end LuaSyntax
