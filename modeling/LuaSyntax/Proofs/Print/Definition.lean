import LuaSyntax.Proofs.Print.Statement

/-! # Reading printed definitions

Loops with variables, declarations, assignments and the definitions of methods and of local
functions are read back, and so are the statements that are single tokens, jumps or calls.
-/
namespace LuaSyntax

open Phrase
open Grammar (valueList indexed)

namespace Node

variable {body values function : Node} {levels : Nat} {s s' : Stream} {span inner inner' : Span}

section Loops

theorem reads_forBody (hb : body.ReadsBlock) (hw : body.weight < levels)
    (hs : s.Spells (.fixed "do" :: body.tokens ++ [.fixed "end"]) s') :
    ∃ body', ForBody (phrases levels) s body' s' ∧ body'.EqBare body := by
  obtain ⟨m₂, ⟨found, m₁, hdo, hblock⟩, last, m, hend, rfl⟩ := Stream.spells_append.mp hs
  obtain ⟨body', hbody, halike⟩ := hb.nested hw hblock (.inr (hend.opens.mono (by decide)))
  exact ⟨body', ⟨found, m₁, hdo, body', m₂, hbody, last, hend, rfl⟩, halike⟩

theorem reads_numericFor {counter start limit : Node} {step : Option Node} (hn : counter.ReadsName)
    (hstart : start.ReadsExpression) (hlimit : limit.ReadsExpression) (hstep : ∀ v ∈ step, v.ReadsExpression)
    (hb : body.ReadsBlock) : ReadsStatement ⟨.numericFor counter start limit step body, span⟩ := by
  intro levels hw s s' hs _
  have hweight : ∀ child ∈ Form.children (.numericFor counter start limit step body), child.weight < levels :=
    fun child hm => weight_child hw hm
  simp only [Form.children, List.forall_mem_append, List.forall_mem_cons, List.not_mem_nil, false_imp_iff, implies_true,
    and_true, Option.mem_toList] at hweight
  obtain ⟨⟨⟨-, hwstart, hwlimit⟩, hwstep⟩, hwb⟩ := hweight
  simp only [tokens, List.append_assoc, List.cons_append] at hs
  obtain ⟨first, m₁, hfor, hs⟩ := hs
  obtain ⟨m₂, hcounter, equals, m₃, hequals, hs⟩ := Stream.spells_append.mp hs
  obtain ⟨m₄, hs₄, comma, m₅, hcomma, hs⟩ := Stream.spells_append.mp hs
  obtain ⟨m₆, hs₆, hs⟩ := Stream.spells_append.mp hs
  obtain ⟨m₇, hs₇, hs⟩ := Stream.spells_append.mp hs
  obtain ⟨counter', hcounter, halike⟩ := hn hcounter trivial
  obtain ⟨start', hstart, hsalike⟩ := hstart.nested hwstart hs₄ (.inr (hcomma.opens.mono (by decide)))
  obtain ⟨body', hbody, hbalike⟩ := reads_forBody hb hwb hs
  have hdo : m₇.Next ["do"] := hs.next
  have hoptional : ∃ step', Optional (After "," (phrases levels).expression) (¬ ·.Next [","]) m₆ step' m₇ ∧
      step'.map bare = step.map bare ∧ m₆.Next [",", "do"] := by
    cases step with
    | none =>
      obtain rfl : m₇ = m₆ := hs₇
      exact ⟨none, ⟨hdo.disjoint (by decide), rfl⟩, rfl, hdo.mono (by decide)⟩
    | some v =>
      obtain ⟨found, m, hc, hv⟩ := hs₇
      obtain ⟨v', hv', hvalike⟩ := (hstep v rfl).nested (hwstep v rfl) hv (.inr (hdo.mono (by decide)))
      exact ⟨some v', ⟨found, m, hc, hv'⟩, congrArg some hvalike, hc.opens.mono (by decide)⟩
  obtain ⟨step', hstep', hpalike, hnext⟩ := hoptional
  obtain ⟨limit', hlimit, hlalike⟩ := hlimit.nested hwlimit hs₆ (.inr (hnext.mono (by decide)))
  refine ⟨⟨.numericFor counter' start' limit' step' body', first.pos, s'.lastEnd⟩, .inr (.inr (.inr (.inr (.inl
    ⟨first, m₁, hfor, counter', m₂, hcounter, .inl ⟨equals, m₃, hequals, start', m₄, hstart, comma, m₅, hcomma, limit', m₆,
      hlimit, step', m₇, hstep', body', hbody, rfl⟩⟩)))), ?_⟩
  simp only [EqBare, bare, respan, respanOption_eq_map] at halike hsalike hlalike hpalike hbalike ⊢
  simp only [halike, hsalike, hlalike, hbalike]
  exact congrArg (fun step => Node.mk (.numericFor _ _ _ step _) _) hpalike

theorem reads_genericFor {v w : Node} {names others : List Node} (hn : ∀ u ∈ v :: names, u.ReadsName)
    (hv : ∀ u ∈ w :: others, u.ReadsExpression) (hb : body.ReadsBlock) :
    ReadsStatement ⟨.genericFor ⟨.nameList (v :: names), inner⟩ ⟨.valueList (w :: others), inner'⟩ body, span⟩ := by
  intro levels hw s s' hs _
  have hwv : weight ⟨.valueList (w :: others), inner'⟩ < levels :=
    weight_child hw (List.mem_cons_of_mem _ List.mem_cons_self)
  have hwb : body.weight < levels :=
    weight_child hw (List.mem_cons_of_mem _ (List.mem_cons_of_mem _ List.mem_cons_self))
  rw [tokens] at hs
  simp only [List.append_assoc, List.cons_append] at hs
  obtain ⟨first, m₁, hfor, hs⟩ := hs
  obtain ⟨m₃, hnames, span, m₄, hin, hs⟩ := Stream.spells_append.mp hs
  obtain ⟨m₅, hvalues, hs⟩ := Stream.spells_append.mp hs
  have hdo : m₅.Next ["do"] := hs.next
  obtain ⟨body', hbody, hbalike⟩ := reads_forBody hb hwb hs
  obtain ⟨declared, m₂, names', hdeclared, hnames, hnalike, hnext⟩ :=
    reads_names hn hnames (hin.opens.disjoint (by decide))
  obtain ⟨values, hvalues, hvalike⟩ := reads_values hv (fun u hm => weight_child (Nat.le_of_lt hwv) hm)
    hvalues (.inr (hdo.mono (by decide))) (hdo.disjoint (by decide))
  have hequals : ¬ m₂.Next ["="] := by
    rcases hnext with rfl | hnext
    · exact hin.opens.disjoint (by decide)
    · exact hnext.disjoint (by decide)
  refine ⟨⟨.genericFor names' (valueList values names') body', first.pos, s'.lastEnd⟩, .inr (.inr (.inr (.inr (.inl
    ⟨first, m₁, hfor, declared, m₂, hdeclared, .inr ⟨hequals, names', m₃, hnames, span, m₄, hin, values, m₅, hvalues, body',
      hbody, rfl⟩⟩)))), ?_⟩
  have hlist : (valueList values names').EqBare ⟨.valueList (w :: others), inner'⟩ := eqBare_valueList hvalike
  simp only [EqBare, bare] at hnalike hlist hbalike ⊢
  simp only [respan, hnalike, hlist, hbalike]

end Loops

section Declarations

theorem reads_localNames {v : Node} {names values : List Node} (hn : ∀ u ∈ v :: names, u.ReadsName)
    (hv : ∀ u ∈ values, u.ReadsExpression) :
    ReadsStatement ⟨.localNames ⟨.nameList (v :: names), inner⟩ ⟨.valueList values, inner'⟩, span⟩ := by
  intro levels hw s s' hs hf
  have hwv : weight ⟨.valueList values, inner'⟩ < levels :=
    weight_child hw (List.mem_cons_of_mem _ List.mem_cons_self)
  rw [tokens] at hs
  simp only [List.cons_append] at hs
  obtain ⟨first, m₁, hlocal, hs⟩ := hs
  obtain ⟨m₃, hnames, hs⟩ := Stream.spells_append.mp hs
  have hvalues : ∃ found, Optional (After "=" (Expressions (phrases levels))) (¬ ·.Next ["="]) m₃ found s' ∧
      AllEqBare (found.getD []) values ∧ ¬ m₃.Next [","] := by
    cases values with
    | nil =>
      obtain rfl : s' = m₃ := hs
      exact ⟨none, ⟨hf.not_next (by decide), rfl⟩, rfl, hf.not_next (by decide)⟩
    | cons w others =>
      obtain ⟨found, m, ht, hs⟩ := hs
      obtain ⟨values, hvalues, halike⟩ := reads_values hv
        (fun u hm => weight_child (Nat.le_of_lt hwv) hm) hs hf.closes (hf.not_next (by decide))
      exact ⟨some values, ⟨found, m, ht, hvalues⟩, halike, ht.opens.disjoint (by decide)⟩
  obtain ⟨found, hfound, hvalike, hcomma⟩ := hvalues
  obtain ⟨declared, m₂, names', hdeclared, hnames, hnalike, -⟩ := reads_names hn hnames hcomma
  have hfunction : ¬ m₁.Next ["function"] := by
    obtain ⟨text, -, span, ht, -⟩ := hdeclared
    exact ht.opens.disjoint (by simp [Token.kind])
  refine ⟨⟨.localNames names' (valueList (found.getD []) names'), first.pos, s'.lastEnd⟩, .inr (.inr (.inr (.inr (.inr
    (.inl ⟨first, m₁, hlocal, .inr ⟨hfunction, declared, m₂, hdeclared, names', m₃, hnames, found, hfound, rfl⟩⟩))))), ?_⟩
  simp only [AllEqBare, EqBare, bare] at hnalike hvalike ⊢
  simp only [respan, hnalike, valueList, ofItems, respanEach_eq_map, hvalike]

theorem reads_localFunction {declared body : Node} {parameters : List Node} {outer : Span} (hn : declared.ReadsName)
    (hf : ReadsFunction false ⟨.function parameters body false, outer⟩) :
    ReadsStatement ⟨.localFunction ⟨.nameList [declared], inner⟩
      ⟨.valueList [⟨.function parameters body false, outer⟩], inner'⟩, span⟩ := by
  intro levels hw s s' hs _
  have hwl : weight ⟨.valueList [⟨.function parameters body false, outer⟩], inner'⟩ < levels :=
    weight_child hw (List.mem_cons_of_mem _ List.mem_cons_self)
  have hwf := weight_child (Nat.le_of_lt hwl) List.mem_cons_self
  rw [tokens] at hs
  simp only [List.cons_append] at hs
  obtain ⟨first, m₁, hlocal, second, m₂, hfunction, hs⟩ := hs
  obtain ⟨m₃, hdeclared, hs⟩ := Stream.spells_append.mp hs
  obtain ⟨declared', hdeclared, hnalike⟩ := hn hdeclared trivial
  obtain ⟨function, hbody, hfalike⟩ := hf levels second (Nat.le_of_lt hwf) hs trivial
  refine ⟨_, .inr (.inr (.inr (.inr (.inr (.inl ⟨first, m₁, hlocal, .inl ⟨second, m₂, hfunction, declared', m₃, hdeclared,
    function, hbody, rfl⟩⟩))))), ?_⟩
  simp only [EqBare, bare] at hnalike hfalike ⊢
  simp only [respan, respanEach_eq_map, List.map_cons, List.map_nil] at hfalike ⊢
  rw [hnalike, hfalike]

end Declarations

section Assignments

/-- A dotted name that may go on. -/
def OpenPath : Phrase Node := fun s v s' =>
  ∃ base m, Name s base m ∧ Steps (fun x s y s' => PathStep x s y s') base m v s'

/-- A dotted name is read back, whatever follows. -/
def ReadsPath (v : Node) : Prop := Readable OpenPath Anywhere v.pathTokens v

theorem readsPath_name {text : Bytes} (h : Identifier text) : ReadsPath ⟨.name text, span⟩ := by
  intro s s' hs _
  have hname : ReadsName ⟨.name text, span⟩ := readsName_of_identifier h
  obtain ⟨v', hv', halike⟩ := hname hs trivial
  exact ⟨v', ⟨v', s', hv', .refl⟩, halike⟩

theorem readsPath_index {object key : Node} (ho : object.ReadsPath) (hk : key.ReadsKey) :
    ReadsPath ⟨.index object key, span⟩ := by
  intro s s' hs _
  rw [pathTokens] at hs
  obtain ⟨m₁, hobject, dot, m₂, hdot, hkey⟩ := Stream.spells_append.mp hs
  obtain ⟨object', ⟨base, m, hbase, hsteps⟩, hoalike⟩ := ho hobject trivial
  obtain ⟨key', hkey', hkalike⟩ := hk hkey trivial
  refine ⟨indexed object' key', ⟨base, m, hbase, hsteps.snoc ⟨dot, m₂, hdot, key', hkey', rfl⟩⟩, ?_⟩
  simp only [EqBare, bare, indexed, respan] at hoalike hkalike ⊢
  rw [hoalike, hkalike]

theorem reads_methodDefinition {object key body : Node} {parameters : List Node} {outer outer' : Span}
    (ho : object.ReadsPath) (hk : key.ReadsKey) (hf : ReadsFunction true ⟨.function parameters body true, outer⟩) :
    ReadsStatement ⟨.assignment ⟨.targetList [⟨.index object key, outer'⟩], inner⟩
      ⟨.valueList [⟨.function parameters body true, outer⟩], inner'⟩, span⟩ := by
  intro levels hw s s' hs _
  have hwl : weight ⟨.valueList [⟨.function parameters body true, outer⟩], inner'⟩ < levels :=
    weight_child hw (List.mem_cons_of_mem _ List.mem_cons_self)
  have hwf := weight_child (Nat.le_of_lt hwl) List.mem_cons_self
  rw [tokens, targetTokens] at hs
  simp only [List.append_assoc, List.cons_append] at hs
  obtain ⟨first, m₁, hfunction, hs⟩ := hs
  obtain ⟨m₂, hobject, colon, m₃, hcolon, hs⟩ := Stream.spells_append.mp hs
  obtain ⟨m₄, hkey, hs⟩ := Stream.spells_append.mp hs
  have hbodyTokens : bodyTokens ⟨.function parameters body true, outer⟩ =
      functionTokens (tokensEach parameters).tail body.tokens := by
    rw [bodyTokens, if_pos rfl, List.drop_one]
  rw [← hbodyTokens] at hs
  obtain ⟨object', ⟨base, m, hbase, hsteps⟩, hoalike⟩ := ho hobject trivial
  obtain ⟨key', hkey', hkalike⟩ := hk hkey trivial
  obtain ⟨function, hbody, hfalike⟩ := hf levels first (Nat.le_of_lt hwf) hs trivial
  have hdot : m₂.NoDot := Stream.noDot_of_next hcolon.opens (by decide) (by decide)
  have hname : FunctionName m₁ (indexed object' key', true) m₄ :=
    ⟨base, m, hbase, object', m₂, ⟨hsteps, hdot⟩, .inl ⟨colon, m₃, hcolon, key', hkey', rfl⟩⟩
  refine ⟨_, .inr (.inr (.inr (.inr (.inr (.inr (.inl ⟨first, m₁, hfunction, _, m₄, hname, function, hbody, rfl⟩)))))), ?_⟩
  simp only [EqBare, bare] at hoalike hkalike hfalike ⊢
  simp only [respan, respanEach_eq_map, List.map_cons, List.map_nil, indexed] at hfalike ⊢
  rw [hoalike, hkalike, hfalike]

/-- An expression with suffixes is read back in full where nothing goes on with it. -/
theorem ReadsBase.closed {v : Node} (h : v.ReadsBase) (hw : v.weight ≤ levels) :
    Readable (Suffixed (phrases levels)) Stream.Closes v.tokens v := by
  intro s s' hs hf
  obtain ⟨v', ⟨first, m, hfirst, hsteps⟩, halike⟩ := h.suffixed levels hw hs trivial
  exact ⟨v', ⟨first, m, hfirst, hsteps, (hf.stops 0).1⟩, halike⟩

/-- An assignment that defines no method is written as one. -/
theorem tokens_assignment {targets : Node} {values : List Node}
    (h : ∀ v ∈ values, ∀ parameters body, v.form ≠ .function parameters body true) :
    tokens ⟨.assignment targets ⟨.valueList values, inner⟩, span⟩ =
      targets.tokens ++ .fixed "=" :: tokens ⟨.valueList values, inner⟩ := by
  rw [tokens]
  intro target _ parameters body outer _ _ hvalues
  simp only [Node.mk.injEq, Form.valueList.injEq] at hvalues
  exact h ⟨.function parameters body true, outer⟩ (hvalues.1 ▸ List.mem_cons_self) parameters body rfl

theorem reads_assignment {v w : Node} {targets values : List Node} (ht : ∀ u ∈ v :: targets, u.ReadsBase)
    (ha : ∀ u ∈ v :: targets, u.form.isAssignable) (hv : ∀ u ∈ w :: values, u.ReadsExpression)
    (hm : ∀ u ∈ w :: values, ∀ parameters body, u.form ≠ .function parameters body true) :
    ReadsStatement ⟨.assignment ⟨.targetList (v :: targets), inner⟩ ⟨.valueList (w :: values), inner'⟩, span⟩ := by
  intro levels hw s s' hs hf
  have hwt : weight ⟨.targetList (v :: targets), inner⟩ < levels := weight_child hw List.mem_cons_self
  have hwv : weight ⟨.valueList (w :: values), inner'⟩ < levels :=
    weight_child hw (List.mem_cons_of_mem _ List.mem_cons_self)
  rw [tokens_assignment hm] at hs
  obtain ⟨m₁, htargets, equals, m₂, hequals, hvalues⟩ := Stream.spells_append.mp hs
  rw [tokens, tokensEach_eq_map] at htargets
  have hread : ∀ u ∈ v :: targets, Readable (Target (phrases levels)) Stream.Closes u.tokens u := by
    intro u hu s s' hs hf
    have hwu := weight_child (Nat.le_of_lt hwt) hu
    obtain ⟨u', hu', halike⟩ := (ht u hu).closed (Nat.le_of_lt hwu) hs hf
    exact ⟨u', ⟨hu', (isAssignable_of_eqBare halike).trans (ha u hu)⟩, halike⟩
  obtain ⟨v', m, targets', ⟨hv', hassignable⟩, htargets', halikes⟩ :=
    readable_list hread (fun hn => .inr (hn.mono (by decide))) htargets (.inr (hequals.opens.mono (by decide)))
  obtain ⟨values', hvalues', hvalike⟩ := reads_values hv
    (fun u hm => weight_child (Nat.le_of_lt hwv) hm) hvalues hf.closes (hf.not_next (by decide))
  have hcall : ¬ v'.form.isCall := by
    obtain ⟨form, span⟩ := v'
    cases form <;> first | exact Bool.false_ne_true | cases hassignable
  refine ⟨_, .inr (.inr (.inr (.inr (.inr (.inr (.inr (.inr (.inr (.inr ⟨v', m, hv', .inr ⟨hcall, hassignable, targets', m₁,
    ⟨htargets', hequals.opens.disjoint (by decide)⟩, equals, m₂, hequals, values', hvalues', rfl⟩⟩))))))))), ?_⟩
  simp only [AllEqBare, EqBare, bare] at halikes hvalike ⊢
  simp only [respan, respanEach_eq_map, valueList, ofItems, halikes, hvalike]

theorem reads_statementCall {v : Node} (h : v.ReadsBase) (hc : v.form.isCall) : v.ReadsStatement := by
  intro levels hw s s' hs hf
  obtain ⟨v', hv', halike⟩ := h.closed hw hs hf.closes
  have hcall := (isCall_of_eqBare halike).trans hc
  exact ⟨v', .inr (.inr (.inr (.inr (.inr (.inr (.inr (.inr (.inr (.inr ⟨v', s', hv', .inl ⟨hcall, rfl, rfl⟩⟩))))))))),
    halike⟩

end Assignments

section Jumps
variable {text : Bytes}

theorem reads_breakLoop : ReadsStatement ⟨.breakLoop, span⟩ := by
  intro levels _ s s' hs _
  obtain ⟨found, ht⟩ := Stream.spells_singleton.mp hs
  exact ⟨⟨.breakLoop, found⟩, .inr (.inr (.inr (.inr (.inr (.inr (.inr (.inl ⟨found, ht, rfl⟩))))))), rfl⟩

theorem reads_label (h : Identifier text) : ReadsStatement ⟨.label text, span⟩ := by
  intro levels _ s s' hs _
  obtain ⟨first, m₁, hopen, found, m₂, hname, last, m₃, hclose, rfl⟩ := hs
  exact ⟨⟨.label text, first.pos, s'.lastEnd⟩, .inr (.inr (.inr (.inr (.inr (.inr (.inr (.inr (.inl ⟨first, m₁, hopen, text,
    found, m₂, ⟨hname, h⟩, last, hclose, rfl⟩)))))))), rfl⟩

theorem reads_goto (h : Identifier text) : ReadsStatement ⟨.goto text, span⟩ := by
  intro levels _ s s' hs _
  obtain ⟨first, m₁, hgoto, found, m₂, hname, rfl⟩ := hs
  exact ⟨⟨.goto text, first.pos, s'.lastEnd⟩, .inr (.inr (.inr (.inr (.inr (.inr (.inr (.inr (.inr (.inl ⟨first, m₁, hgoto,
    text, found, ⟨hname, h⟩, rfl⟩))))))))), rfl⟩

theorem reads_returnValues {values : List Node} (h : ∀ v ∈ values, v.ReadsExpression) :
    ReadsLast ⟨.returnValues values, span⟩ := by
  intro levels hw s s' hs hf
  rw [tokens] at hs
  obtain ⟨first, m₁, hreturn, hs⟩ := hs
  have hpos : 0 < levels := Nat.lt_of_lt_of_le (weight_pos _) hw
  have hvalues : ∃ found, Optional (Expressions (phrases levels)) (phrases levels).noExpression m₁ found s' ∧
      AllEqBare (found.getD []) values := by
    cases values with
    | nil =>
      obtain rfl : s' = m₁ := hs
      obtain ⟨levels, rfl⟩ : ∃ n, levels = n + 1 := ⟨levels - 1, by omega⟩
      have habsent : ¬ s'.Next expressionKinds := hf.statement.not_next (by decide)
      exact ⟨none, ⟨habsent, rfl⟩, rfl⟩
    | cons v others =>
      have hlist : m₁.Spells (tokens ⟨.valueList (v :: others), span⟩) s' := by
        rw [tokens]
        exact hs
      obtain ⟨values, hvalues, halike⟩ := reads_values h (fun u hm => weight_child hw hm) hlist hf.statement.closes
        (hf.statement.not_next (by decide))
      exact ⟨some values, hvalues, halike⟩
  obtain ⟨found, hfound, halike⟩ := hvalues
  have hsemicolon : ¬ s'.Next [";"] := by
    rcases hf with hf | hf
    · exact Stream.not_next_of_nil hf
    · exact hf.disjoint (by decide)
  refine ⟨_, ⟨first, m₁, hreturn, found, s', hfound, none, ⟨hsemicolon, rfl⟩, rfl⟩, ?_⟩
  simp only [AllEqBare, EqBare, bare] at halike ⊢
  simp only [respan, respanEach_eq_map, halike]

end Jumps

end Node

end LuaSyntax
