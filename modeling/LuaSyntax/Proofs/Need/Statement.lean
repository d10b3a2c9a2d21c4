import LuaSyntax.Proofs.Need.Expression

/-! # The nesting levels of statements

Statements and blocks are read exactly where as many levels are left as their trees need.
-/
namespace LuaSyntax
variable {α : Type} {limit levels : Nat}

open Node (need need_le_iff entries attempts Fits FitsBelow)

namespace Phrase

open Grammar (valueList)

variable {s s' m : Stream} {v : Node}

theorem needs_optional (phrase : Nat → Phrase α) {fits : α → Nat → Prop} {absent : Stream → Prop}
    {found : Option α} (hp : Needs limit phrase fits levels) (ho : s.Ordered limit)
    (h : Optional (phrase levels) absent s found s') :
    (∀ a ∈ found, fits a levels) ∧
      ∀ more, (∀ a ∈ found, fits a more) → Optional (phrase more) absent s found s' := by
  cases found with
  | none => exact ⟨nofun, fun _ _ => h⟩
  | some a =>
    obtain ⟨hle, hmore⟩ := hp ho h
    refine ⟨fun b hb => Option.mem_some.mp hb ▸ hle, fun more hm => ?_⟩
    exact hmore more (hm a rfl)

theorem needs_after {separator : Token} {phrase : Nat → Phrase α} {fits : α → Nat → Prop}
    (hp : Needs limit phrase fits levels) : Needs limit (fun n => After separator (phrase n)) fits levels := by
  rintro s v s' ho ⟨span, m, ht, hv⟩
  obtain ⟨hle, hmore⟩ := hp (ho.takes ht).1 hv
  exact ⟨hle, fun more hm => ⟨span, m, ht, hmore more hm⟩⟩

/-- A list of values is entered for each of them. -/
theorem values_fitBelow {values : List Node} (before : Node) {n : Nat} (hne : values ≠ []) :
    (valueList values before).FitsBelow n ↔ ∀ v ∈ values, v.FitsBelow n := by
  cases n with
  | zero =>
    obtain ⟨v, hm⟩ := List.exists_mem_of_ne_nil _ hne
    refine iff_of_false (by rw [FitsBelow]; omega) fun h => ?_
    have hv := h v hm
    rw [FitsBelow] at hv
    omega
  | succ n =>
    rw [FitsBelow, Nat.add_comm, Nat.add_le_add_iff_right, valueList, Node.ofItems, need_le_iff]
    simp [entries, attempts, FitsBelow, Nat.add_comm 1]

theorem need_nameList {declared names : Node} (hd : declared.need = 0)
    (h : NameList declared s names s') : names.need = 0 := by
  obtain ⟨others, ⟨hothers, -⟩, rfl⟩ := h
  have hall : ∀ v ∈ declared :: others, v.need = 0 := by
    refine List.forall_mem_cons.mpr ⟨hd, ?_⟩
    exact forall_of_sequence (fun ⟨_, _, _, hv⟩ => need_name hv) hothers
  refine Nat.le_zero.mp (need_le_iff.mpr ⟨Nat.le_refl _, ?_⟩)
  simp only [Node.ofItems, entries, List.forall_mem_map]
  exact fun v hm => Nat.le_of_eq ((Nat.zero_add _).trans (hall v hm))

theorem nameList_ordered {declared names : Node} (ho : s.Ordered limit)
    (h : NameList declared s names s') : s'.Ordered limit := by
  obtain ⟨others, ⟨hothers, -⟩, -⟩ := h
  refine (Sequence.lists (f := fun v => [v]) (fun hs ha => ?_) ho hothers).ordered
  obtain ⟨span, m, ht, hv⟩ := ha
  exact (spanned_name (hs.takes ht).1 hv).lists_after hs ht

variable (h : Phrases.Needs limit levels)
include h

theorem needs_branch : Needs limit (fun n => Branch (phrases n))
    (fun branch n => branch.1.FitsBelow n ∧ branch.2.FitsBelow n) levels := by
  rintro s v s' ho ⟨condition, m₁, hcondition, span, m₂, hthen, body, hbody, rfl⟩
  have ho₁ := ((phrases_spanned limit levels).expression ho hcondition).ordered
  obtain ⟨hle, hmore⟩ := h.expression ho hcondition
  obtain ⟨hle', hmore'⟩ := h.block (ho₁.takes hthen).1 hbody
  refine ⟨⟨hle, hle'⟩, fun more hm => ?_⟩
  exact ⟨condition, m₁, hmore more hm.1, span, m₂, hthen, body, hmore' more hm.2, rfl⟩

omit h in
theorem conditional_fits {branches : List (Node × Node)} {otherwise : Option Node} {span : Span} {n : Nat} :
    Fits ⟨.conditional branches otherwise, span⟩ n ↔
      (∀ branch ∈ branches, branch.1.FitsBelow n ∧ branch.2.FitsBelow n) ∧
        ∀ body ∈ otherwise, body.FitsBelow n := by
  rw [Fits, need_le_iff]
  simp only [entries, attempts, Nat.zero_le, true_and, List.forall_mem_append, List.forall_mem_map,
    Option.mem_toList, List.mem_flatMap, forall_exists_index, and_imp, List.mem_cons, List.not_mem_nil,
    or_false]
  refine and_congr_left fun _ => ⟨fun h branch hm => ?_, ?_⟩
  · exact ⟨h _ branch hm (.inl rfl), h _ branch hm (.inr rfl)⟩
  · rintro h entry branch hm (rfl | rfl)
    · exact (h branch hm).1
    · exact (h branch hm).2

theorem needs_ifStatement : Needs limit (fun n => IfStatement (phrases n)) Fits levels := by
  have hspans := phrases_spanned limit levels
  rintro s v s' ho ⟨first, m₁, hif, head, m₂, hhead, others, m₃, ⟨hothers, hend⟩, otherwise, m₄,
    hotherwise, last, hlast, rfl⟩
  have ho₁ := (ho.takes hif).1
  have ho₂ := (branch_within hspans ho₁ hhead).1
  have ho₃ := (branches_within hspans ho₂ hothers).1
  have hordered {s v s'} (ho : s.Ordered limit) (h : After "elseif" (Branch (phrases levels)) s v s') :
      s'.Ordered limit := by
    obtain ⟨span, m, ht, hv⟩ := h
    exact (branch_within hspans (ho.takes ht).1 hv).1
  obtain ⟨hle, hmore⟩ := needs_branch h ho₁ hhead
  obtain ⟨hle', hmore'⟩ := needs_sequence (fun n => After "elseif" (Branch (phrases n)))
    (needs_after (needs_branch h)) hordered ho₂ hothers
  obtain ⟨hle'', hmore''⟩ := needs_optional (fun n => After "else" (phrases n).block)
    (needs_after h.block) ho₃ hotherwise
  refine ⟨conditional_fits.mpr ⟨List.forall_mem_cons.mpr ⟨hle, hle'⟩, hle''⟩, fun more hv => ?_⟩
  obtain ⟨hb, hbody⟩ := conditional_fits.mp hv
  obtain ⟨hhead, hothers⟩ := List.forall_mem_cons.mp hb
  exact ⟨first, m₁, hif, head, m₂, hmore more hhead, others, m₃, ⟨hmore' more hothers, hend⟩, otherwise, m₄,
    hmore'' more hbody, last, hlast, rfl⟩

theorem needs_doStatement : Needs limit (fun n => DoStatement (phrases n)) Fits levels := by
  rintro s v s' ho ⟨first, m₁, hdo, body, m₂, hbody, last, hlast, rfl⟩
  obtain ⟨hle, hmore⟩ := h.block (ho.takes hdo).1 hbody
  have hneed (n : Nat) (span : Span) : Fits ⟨.doBlock body, span⟩ n ↔ body.FitsBelow n := by
    rw [Fits, need_le_iff]
    simp [entries, attempts]
  refine ⟨(hneed _ _).mpr hle, fun more hv => ?_⟩
  exact ⟨first, m₁, hdo, body, m₂, hmore more ((hneed _ _).mp hv), last, hlast, rfl⟩

theorem needs_whileStatement : Needs limit (fun n => WhileStatement (phrases n)) Fits levels := by
  rintro s v s' ho ⟨first, m₁, hwhile, condition, m₂, hcondition, span, m₃, hdo, body, m₄, hbody, last,
    hlast, rfl⟩
  have ho₁ := (ho.takes hwhile).1
  have ho₂ := ((phrases_spanned limit levels).expression ho₁ hcondition).ordered
  obtain ⟨hle, hmore⟩ := h.expression ho₁ hcondition
  obtain ⟨hle', hmore'⟩ := h.block (ho₂.takes hdo).1 hbody
  have hneed (n : Nat) (span : Span) : Fits ⟨.whileLoop condition body, span⟩ n ↔
      condition.FitsBelow n ∧ body.FitsBelow n := by
    rw [Fits, need_le_iff]
    simp [entries, attempts]
  refine ⟨(hneed _ _).mpr ⟨hle, hle'⟩, fun more hv => ?_⟩
  obtain ⟨hc, hb⟩ := (hneed _ _).mp hv
  exact ⟨first, m₁, hwhile, condition, m₂, hmore more hc, span, m₃, hdo, body, m₄, hmore' more hb, last,
    hlast, rfl⟩

theorem needs_repeatStatement : Needs limit (fun n => RepeatStatement (phrases n)) Fits levels := by
  rintro s v s' ho ⟨first, m₁, hrepeat, body, m₂, hbody, span, m₃, huntil, condition, hcondition, rfl⟩
  have ho₁ := (ho.takes hrepeat).1
  have ho₂ := ((phrases_spanned limit levels).block ho₁ hbody).ordered
  obtain ⟨hle, hmore⟩ := h.block ho₁ hbody
  obtain ⟨hle', hmore'⟩ := h.expression (ho₂.takes huntil).1 hcondition
  have hneed (n : Nat) (span : Span) : Fits ⟨.repeatLoop body condition, span⟩ n ↔
      body.FitsBelow n ∧ condition.FitsBelow n := by
    rw [Fits, need_le_iff]
    simp [entries, attempts]
  refine ⟨(hneed _ _).mpr ⟨hle, hle'⟩, fun more hv => ?_⟩
  obtain ⟨hb, hc⟩ := (hneed _ _).mp hv
  exact ⟨first, m₁, hrepeat, body, m₂, hmore more hb, span, m₃, huntil, condition, hmore' more hc, rfl⟩

theorem needs_forBody : Needs limit (fun n => ForBody (phrases n)) FitsBelow levels := by
  rintro s v s' ho ⟨span, m₁, hdo, block, m₂, hblock, last, hlast, rfl⟩
  obtain ⟨hle, hmore⟩ := h.block (ho.takes hdo).1 hblock
  exact ⟨hle, fun more hm => ⟨span, m₁, hdo, _, m₂, hmore more hm, last, hlast, rfl⟩⟩

theorem needs_numericFor {first : Span} {counter : Node} (hc : counter.need = 0) :
    Needs limit (fun n => NumericFor (phrases n) first counter) Fits levels := by
  have hspans := phrases_spanned limit levels
  rintro s v s' ho ⟨start, m₁, hstart, comma, m₂, hcomma, bound, m₃, hbound, step, m₄, hstep, body, hbody,
    rfl⟩
  have ho₂ := ((hspans.expression ho hstart).ordered.takes hcomma).1
  have ho₃ := (hspans.expression ho₂ hbound).ordered
  have ho₄ : m₄.Ordered limit := by
    cases step with
    | none => exact hstep.2 ▸ ho₃
    | some value =>
      obtain ⟨span, m, ht, hv⟩ := hstep
      exact (hspans.expression (ho₃.takes ht).1 hv).ordered
  obtain ⟨hle, hmore⟩ := h.expression ho hstart
  obtain ⟨hle', hmore'⟩ := h.expression ho₂ hbound
  obtain ⟨hle'', hmore''⟩ := needs_optional (fun n => After "," (phrases n).expression)
    (needs_after h.expression) ho₃ hstep
  obtain ⟨hbody', hbodyMore⟩ := needs_forBody h ho₄ hbody
  have hneed (n : Nat) (span : Span) : Fits ⟨.numericFor counter start bound step body, span⟩ n ↔
      start.FitsBelow n ∧ bound.FitsBelow n ∧ (∀ v ∈ step, v.FitsBelow n) ∧ body.FitsBelow n := by
    rw [Fits, need_le_iff]
    simp [entries, attempts, hc, or_imp, forall_and]
  refine ⟨(hneed _ _).mpr ⟨hle, hle', hle'', hbody'⟩, fun more hv => ?_⟩
  obtain ⟨h₁, h₂, h₃, h₄⟩ := (hneed _ _).mp hv
  exact ⟨start, m₁, hmore more h₁, comma, m₂, hcomma, bound, m₃, hmore' more h₂, step, m₄, hmore'' more h₃,
    body, hbodyMore more h₄, rfl⟩

theorem needs_genericFor {first : Span} {counter : Node} (hc : counter.need = 0) :
    Needs limit (fun n => GenericFor (phrases n) first counter) Fits levels := by
  have hspans := phrases_spanned limit levels
  rintro s v s' ho ⟨names, m₁, hnames, span, m₂, hin, values, m₃, hvalues, body, hbody, rfl⟩
  have ho₂ := ((nameList_ordered ho hnames).takes hin).1
  obtain ⟨hle, hmore⟩ := needs_expressions h ho₂ hvalues
  obtain ⟨hbody', hbodyMore⟩ := needs_forBody h (expressions_lists hspans ho₂ hvalues).ordered hbody
  have hzero := need_nameList hc hnames
  have hne := (expressions_shaped (phrases_shaped levels) hvalues).1
  have hneed (n : Nat) (span : Span) : Fits ⟨.genericFor names (valueList values names) body, span⟩ n ↔
      (∀ v ∈ values, v.FitsBelow n) ∧ body.FitsBelow n := by
    rw [Fits, need_le_iff, ← values_fitBelow names hne]
    simp [entries, attempts, hzero]
  refine ⟨(hneed _ _).mpr ⟨hle, hbody'⟩, fun more hv => ?_⟩
  obtain ⟨hv, hb⟩ := (hneed _ _).mp hv
  exact ⟨names, m₁, hnames, span, m₂, hin, values, m₃, hmore more hv, body, hbodyMore more hb, rfl⟩

theorem needs_forStatement : Needs limit (fun n => ForStatement (phrases n)) Fits levels := by
  rintro s v s' ho ⟨first, m₁, hfor, counter, m₂, hcounter, ⟨equals, m₃, hequals, hrest⟩ | ⟨hn, hrest⟩⟩
  · have ho₂ := (spanned_name (ho.takes hfor).1 hcounter).ordered
    obtain ⟨hle, hmore⟩ := needs_numericFor h (need_name hcounter) (ho₂.takes hequals).1 hrest
    exact ⟨hle, fun more hm => ⟨first, m₁, hfor, counter, m₂, hcounter, .inl ⟨equals, m₃, hequals, hmore more hm⟩⟩⟩
  · have ho₂ := (spanned_name (ho.takes hfor).1 hcounter).ordered
    obtain ⟨hle, hmore⟩ := needs_genericFor h (need_name hcounter) ho₂ hrest
    exact ⟨hle, fun more hm => ⟨first, m₁, hfor, counter, m₂, hcounter, .inr ⟨hn, hmore more hm⟩⟩⟩

theorem needs_localNames {first : Span} :
    Needs limit (fun n => LocalNames (phrases n) first) Fits levels := by
  rintro s v s' ho ⟨declared, m₁, hdeclared, names, m₂, hnames, values, hvalues, rfl⟩
  have ho₁ := (spanned_name ho hdeclared).ordered
  have ho₂ := nameList_ordered ho₁ hnames
  have hzero := need_nameList (need_name hdeclared) hnames
  obtain ⟨hle, hmore⟩ := needs_optional (fun n => After "=" (Expressions (phrases n)))
    (needs_after (needs_expressions h)) ho₂ hvalues
  have hneed (n : Nat) (span : Span) :
      Fits ⟨.localNames names (valueList (values.getD []) names), span⟩ n ↔
        ∀ listed ∈ values, ∀ v ∈ listed, v.FitsBelow n := by
    rw [Fits, need_le_iff]
    cases values with
    | none =>
      have hempty : (valueList [] names).need = 0 := need_of_atom rfl rfl
      have hchildren : (valueList [] names).children = [] := rfl
      simp [entries, attempts, hzero, hchildren, hempty]
    | some listed =>
      obtain ⟨span', m, -, hlisted⟩ := hvalues
      have hne := (expressions_shaped (phrases_shaped levels) hlisted).1
      have hchildren : (valueList listed names).children = listed := rfl
      simp [entries, attempts, hzero, hchildren, hne, ← values_fitBelow names hne]
  refine ⟨(hneed _ _).mpr hle, fun more hv => ?_⟩
  exact ⟨declared, m₁, hdeclared, names, m₂, hnames, values, hmore more ((hneed _ _).mp hv), rfl⟩

omit h in
/-- A list of one node needs what the node does. -/
theorem need_singleton {list : List Node → Form Node} {node : Node} {span : Span}
    (he : entries ⟨list [node], span⟩ = [(0, node)]) (ha : attempts ⟨list [node], span⟩ = 0) :
    need ⟨list [node], span⟩ = node.need := by
  have hle (n : Nat) : need ⟨list [node], span⟩ ≤ n ↔ node.need ≤ n := by
    rw [need_le_iff, he, ha]
    simp
  exact Nat.le_antisymm ((hle _).mpr (Nat.le_refl _)) ((hle _).mp (Nat.le_refl _))

theorem needs_localFunction {first second : Span} :
    Needs limit (fun n => LocalFunction (phrases n) first second) Fits levels := by
  rintro s v s' ho ⟨declared, m, hdeclared, function, hfunction, rfl⟩
  obtain ⟨hle, hmore⟩ := needs_functionBody h (spanned_name ho hdeclared).ordered hfunction
  have hzero : need ⟨.nameList [declared], declared.span⟩ = 0 :=
    (need_singleton rfl rfl).trans (need_name hdeclared)
  have hvalue : need ⟨.valueList [function], function.span⟩ = function.need := need_singleton rfl rfl
  have hneed (n : Nat) (span : Span) : Fits ⟨.localFunction ⟨.nameList [declared], declared.span⟩
      ⟨.valueList [function], function.span⟩, span⟩ n ↔ function.Fits n := by
    rw [Fits, need_le_iff]
    simp [entries, attempts, hzero, hvalue]
  refine ⟨(hneed _ _).mpr hle, fun more hv => ?_⟩
  exact ⟨declared, m, hdeclared, function, hmore more ((hneed _ _).mp hv), rfl⟩

theorem needs_localStatement : Needs limit (fun n => LocalStatement (phrases n)) Fits levels := by
  rintro s v s' ho ⟨first, m₁, hlocal, ⟨second, m₂, hfunction, hrest⟩ | ⟨hn, hrest⟩⟩
  · have ho₂ := ((ho.takes hlocal).1.takes hfunction).1
    obtain ⟨hle, hmore⟩ := needs_localFunction h ho₂ hrest
    exact ⟨hle, fun more hm => ⟨first, m₁, hlocal, .inl ⟨second, m₂, hfunction, hmore more hm⟩⟩⟩
  · obtain ⟨hle, hmore⟩ := needs_localNames h (ho.takes hlocal).1 hrest
    exact ⟨hle, fun more hm => ⟨first, m₁, hlocal, .inr ⟨hn, hmore more hm⟩⟩⟩

omit h in
/-- A dotted name takes no level. -/
theorem need_functionName {target : Node × Bool} (ht : FunctionName s target s') : target.1.need = 0 := by
  obtain ⟨base, m₁, hb, path, m₂, ⟨hpath, -⟩, hend⟩ := ht
  have hindexed {s s' : Stream} {object key : Node} (ho : object.need = 0) (hk : Key s key s') :
      (Grammar.indexed object key).need = 0 := by
    refine Nat.le_zero.mp (need_le_iff.mpr ?_)
    simp [Grammar.indexed, entries, attempts, Node.closed, Span.between, ho, need_key hk]
  have hzero : path.need = 0 := by
    refine Steps.invariant (P := fun x => x.need = 0) (fun hx hstep => ?_) (need_name hb) hpath
    obtain ⟨dot, m, -, key, hk, rfl⟩ := hstep
    exact hindexed hx hk
  rcases hend with ⟨colon, m₃, -, method, hm, rfl⟩ | ⟨-, rfl, rfl⟩
  · exact hindexed hzero hm
  · exact hzero

theorem needs_functionStatement : Needs limit (fun n => FunctionStatement (phrases n)) Fits levels := by
  rintro s v s' ho ⟨first, m₁, ht, target, m₂, htarget, function, hfunction, rfl⟩
  have ho₁ := (ho.takes ht).1
  obtain ⟨hle, hmore⟩ := needs_functionBody h (functionName_spans ho₁ htarget).ordered hfunction
  have hzero : need ⟨.targetList [target.1], target.1.span⟩ = 0 :=
    (need_singleton rfl rfl).trans (need_functionName htarget)
  -- the function starts where the statement does
  have hpos : function.span.pos = first.pos := by
    obtain ⟨_, _, _, _, _, _, _, _, _, _, _, _, _, _, rfl⟩ := hfunction
    rfl
  have hvalue : need ⟨.valueList [function], function.span⟩ = function.need := need_singleton rfl rfl
  have hneed (n : Nat) : Fits ⟨.assignment ⟨.targetList [target.1], target.1.span⟩
      ⟨.valueList [function], function.span⟩, first.pos, s'.lastEnd⟩ n ↔ function.Fits n := by
    rw [Fits, need_le_iff]
    simp [entries, attempts, hzero, hvalue, hpos]
  refine ⟨(hneed _).mpr hle, fun more hv => ?_⟩
  exact ⟨first, m₁, ht, target, m₂, htarget, function, hmore more ((hneed _).mp hv), rfl⟩

theorem needs_returnStatement : Needs limit (fun n => ReturnStatement (phrases n)) Fits levels := by
  rintro s v s' ho ⟨first, m₁, ht, values, m₂, hvalues, semicolon, hend, rfl⟩
  have ho₁ := (ho.takes ht).1
  cases values with
  | none =>
    obtain ⟨hno, rfl⟩ := hvalues
    obtain ⟨hle, hmore⟩ := noExpression_needs hno
    have hneed (n : Nat) (span : Span) : Fits ⟨.returnValues [], span⟩ n ↔ 1 ≤ n := by
      rw [Fits, need_le_iff]
      simp [entries, attempts]
    refine ⟨(hneed _ _).mpr hle, fun more hv => ?_⟩
    exact ⟨first, _, ht, none, _, ⟨hmore more ((hneed _ _).mp hv), rfl⟩, semicolon, hend, rfl⟩
  | some listed =>
    obtain ⟨hle, hmore⟩ := needs_expressions h ho₁ hvalues
    have hneed (n : Nat) (span : Span) :
        Fits ⟨.returnValues listed, span⟩ n ↔ ∀ v ∈ listed, v.FitsBelow n := by
      obtain ⟨value, _, _, _, _, rfl⟩ := hvalues
      rw [Fits, need_le_iff]
      simp [entries, attempts]
    refine ⟨(hneed _ _).mpr hle, fun more hv => ?_⟩
    exact ⟨first, m₁, ht, some listed, m₂, hmore more ((hneed _ _).mp hv), semicolon, hend, rfl⟩

theorem needs_assignment {first : Node} (ho : s.Ordered limit) (hfirst : first.Spanned)
    (he : first.span.endPos = s.lastEnd) (hv : Assignment (phrases levels) first s v s') :
    (first.Fits levels → v.Fits levels) ∧
      ∀ more, v.Fits more → first.Fits more ∧ Assignment (phrases more) first s v s' := by
  have hspans := phrases_spanned limit levels
  obtain ⟨others, m₁, ⟨hothers, hend⟩, equals, m₂, hequals, values, hvalues, rfl⟩ := hv
  have hlists := Sequence.lists (f := fun v => [v]) (fun hs ha => by
    obtain ⟨span, m, ht, hv, -⟩ := ha
    exact (spanned_suffixed hspans (hs.takes ht).1 hv).lists_after hs ht) ho hothers
  obtain ⟨ho₂, -, -, -, hlt₂⟩ := hlists.ordered.takes hequals
  have htarget : Needs limit (fun n => Target (phrases n)) Fits levels := by
    intro s v s' ho ⟨hv, ha⟩
    obtain ⟨hle, hmore⟩ := needs_suffixed h ho hv
    exact ⟨hle, fun more hm => ⟨hmore more hm, ha⟩⟩
  have hordered {s v s'} (ho : s.Ordered limit) (h : After "," (Target (phrases levels)) s v s') :
      s'.Ordered limit := by
    obtain ⟨span, m, ht, hv, -⟩ := h
    exact (spanned_suffixed hspans (ho.takes ht).1 hv).ordered
  obtain ⟨hle, hmore⟩ := needs_sequence (fun n => After "," (Target (phrases n)))
    (needs_after htarget) hordered ho hothers
  obtain ⟨hle', hmore'⟩ := needs_expressions h ho₂ hvalues
  have hne := (expressions_shaped (phrases_shaped levels) hvalues).1
  -- the values lie behind the first target, where the statement starts
  have hpos (targets : Node) : (valueList values targets).span.pos ≠ first.span.pos := by
    have hitems := (expressions_lists hspans ho₂ hvalues).items
    have hle := hfirst.le
    have hle₁ := hlists.items.le
    have hn := hlists.next
    obtain ⟨value, _, _, _, _, rfl⟩ := hvalues
    have hlater : (Node.ofItems .valueList _ targets.span.endPos).Within _ _ := hitems.ofItems rfl _
    have hlt := hlater.pos
    rw [valueList]
    omega
  have hneed (n : Nat) (targets : Node) (ht : targets = .ofItems .targetList (first :: others) 0) :
      Fits ⟨.assignment targets (valueList values targets), first.span.pos, s'.lastEnd⟩ n ↔
        first.Fits n ∧ (∀ v ∈ others, v.Fits n) ∧ ∀ v ∈ values, v.FitsBelow n := by
    have htargets : targets.need ≤ n ↔ first.Fits n ∧ ∀ v ∈ others, v.Fits n := by
      rw [ht, Node.ofItems, need_le_iff]
      simp [entries, attempts, Fits]
    rw [Fits, need_le_iff, ← and_assoc, ← htargets, ← values_fitBelow targets hne]
    simp [entries, attempts, hpos]
  refine ⟨fun hx => (hneed _ _ rfl).mpr ⟨hx, hle, hle'⟩, fun more hv => ?_⟩
  obtain ⟨hx, ho, hv⟩ := (hneed _ _ rfl).mp hv
  exact ⟨hx, others, m₁, ⟨hmore more ho, hend⟩, equals, m₂, hequals, values, hmore' more hv, rfl⟩

theorem needs_expressionStatement :
    Needs limit (fun n => ExpressionStatement (phrases n)) Fits levels := by
  rintro s v s' ho ⟨first, m, hfirst, ⟨hcall, rfl, rfl⟩ | ⟨hcall, hassignable, hrest⟩⟩
  · obtain ⟨hle, hmore⟩ := needs_suffixed h ho hfirst
    exact ⟨hle, fun more hm => ⟨_, _, hmore more hm, .inl ⟨hcall, rfl, rfl⟩⟩⟩
  · obtain ⟨ho₁, -, -, he, -, hspanned⟩ := spanned_suffixed (phrases_spanned limit levels) ho hfirst
    obtain ⟨hle, hmore⟩ := needs_suffixed h ho hfirst
    obtain ⟨hle', hmore'⟩ := needs_assignment h ho₁ hspanned he hrest
    refine ⟨hle' hle, fun more hv => ?_⟩
    obtain ⟨hx, hrest⟩ := hmore' more hv
    exact ⟨first, m, hmore more hx, .inr ⟨hcall, hassignable, hrest⟩⟩

omit h in
/-- A phrase that is read alike at every level, and takes none. -/
theorem needs_of_zero {phrase : Phrase Node} (hp : ∀ {s v s'}, phrase s v s' → v.need = 0) :
    Needs limit (fun _ => phrase) Fits levels :=
  fun _ _ _ _ hv => ⟨Nat.le_trans (Nat.le_of_eq (hp hv)) (Nat.zero_le _), fun _ _ => hv⟩

omit h in
theorem Needs.or {phrase phrase' : Nat → Phrase Node} (hp : Needs limit phrase Fits levels)
    (hp' : Needs limit phrase' Fits levels) :
    Needs limit (fun n s v s' => phrase n s v s' ∨ phrase' n s v s') Fits levels := by
  rintro s v s' ho (hv | hv)
  · obtain ⟨hle, hmore⟩ := hp ho hv
    exact ⟨hle, fun more hm => .inl (hmore more hm)⟩
  · obtain ⟨hle, hmore⟩ := hp' ho hv
    exact ⟨hle, fun more hm => .inr (hmore more hm)⟩

theorem needs_statement : Needs limit (fun n => Statement (phrases n)) Fits levels := by
  have hbreak : Needs limit (fun _ => Atom "break" .breakLoop) Fits levels :=
    needs_of_zero fun ⟨span, _, hv⟩ => hv ▸ need_of_atom rfl rfl
  have hlabel : Needs limit (fun _ => LabelStatement) Fits levels := by
    refine needs_of_zero ?_
    rintro s v s' ⟨first, m₁, -, text, span, m₂, -, last, -, rfl⟩
    exact need_of_atom rfl rfl
  have hgoto : Needs limit (fun _ => GotoStatement) Fits levels := by
    refine needs_of_zero ?_
    rintro s v s' ⟨first, m, -, text, span, -, rfl⟩
    exact need_of_atom rfl rfl
  exact (needs_ifStatement h).or <| (needs_doStatement h).or <| (needs_whileStatement h).or <|
    (needs_repeatStatement h).or <| (needs_forStatement h).or <| (needs_localStatement h).or <|
    (needs_functionStatement h).or <| hbreak.or <| hlabel.or <| hgoto.or <| needs_expressionStatement h

theorem needs_statements : Needs limit (fun n => Statements (phrases n))
    (fun listed n => ∀ v ∈ listed, v.Fits n) levels := by
  have hspans := phrases_spanned limit levels
  rintro s listed s' ho ⟨found, m, ⟨hfound, hends⟩, last, hlast, rfl⟩
  have hitem : Needs limit (fun n => StatementOrEmpty (phrases n)) (fun found n => ∀ v ∈ found, v.Fits n)
      levels := by
    rintro s v s' ho (⟨span, ht, rfl⟩ | ⟨v, hv, rfl⟩)
    · exact ⟨nofun, fun _ _ => .inl ⟨span, ht, rfl⟩⟩
    · obtain ⟨hle, hmore⟩ := needs_statement h ho hv
      exact ⟨fun w hw => Option.mem_some.mp hw ▸ hle, fun more hm => .inr ⟨v, hmore more (hm v rfl), rfl⟩⟩
  have hordered {s v s'} (ho : s.Ordered limit) (h : StatementOrEmpty (phrases levels) s v s') :
      s'.Ordered limit := by
    rcases h with ⟨span, ht, -⟩ | ⟨v, hv, -⟩
    · exact (ho.takes ht).1
    · exact (spanned_statement hspans ho hv).ordered
  have hm : m.Ordered limit := by
    clear hends hlast
    induction hfound with
    | nil => exact ho
    | cons ha _ ih => exact ih (hordered ho ha)
  obtain ⟨hle, hmore⟩ := needs_sequence (fun n => StatementOrEmpty (phrases n)) hitem hordered ho hfound
  obtain ⟨hle', hmore'⟩ := needs_optional (fun n => ReturnStatement (phrases n))
    (needs_returnStatement h) hm hlast
  have hall (n : Nat) : (∀ v ∈ found.flatMap Option.toList ++ last.toList, v.Fits n) ↔
      (∀ a ∈ found, ∀ v ∈ a, v.Fits n) ∧ ∀ v ∈ last, v.Fits n := by
    simp only [List.forall_mem_append, List.mem_flatMap, Option.mem_toList, forall_exists_index, and_imp]
    exact and_congr_left fun _ => ⟨fun h a ha v hv => h v a ha hv, fun h v a ha hv => h a ha v hv⟩
  refine ⟨(hall _).mpr ⟨hle, hle'⟩, fun more hv => ?_⟩
  obtain ⟨hf, hl⟩ := (hall _).mp hv
  exact ⟨found, m, ⟨hmore more hf, hends⟩, last, hmore' more hl, rfl⟩

omit h in
theorem block_fits {statements : List Node} {span : Span} {n : Nat} :
    Fits ⟨.block statements, span⟩ n ↔ ∀ v ∈ statements, v.Fits n := by
  rw [Fits, need_le_iff]
  simp [entries, attempts, Fits]

theorem needs_block : Needs limit (fun n => Block (phrases n)) Fits levels := by
  rintro s v s' ho ⟨listed, hlisted, rfl⟩
  obtain ⟨hle, hmore⟩ := needs_statements h ho hlisted
  exact ⟨block_fits.mpr hle, fun more hv => ⟨listed, hmore more (block_fits.mp hv), rfl⟩⟩

end Phrase

end LuaSyntax
