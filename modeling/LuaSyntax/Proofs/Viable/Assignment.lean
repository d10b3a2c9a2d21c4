import LuaSyntax.Proofs.Viable.Expression

/-! # Assignments and calls in two sources

An expression with suffixes is a statement if it may be called or assigned to. Where one fails, it goes on
with a call or with a field, so that it may.
-/
namespace LuaSyntax.Grammar

open Rule Parse Phrase

variable {ι : Type} {deep : Prop} {start stop : Ahead} {nested nested' : Nested}

/-- What comes next behind a target: further targets, or the values that are assigned. -/
def targetAhead : Ahead := .limited ["="] [.number] false

theorem suffixAhead_target : SuffixAhead targetAhead := by
  refine ⟨?_, ?_⟩ <;> decide

theorem suffixAhead_further : SuffixAhead .further := by
  refine ⟨?_, ?_⟩ <;> decide

variable (h : Nested.Tracks deep nested nested')
include h

section Words
variable {s m s' : Stream} {object : Node}

omit h in
theorem not_next_of_takes {token : Token} {span : Span} {kinds : List Kind} (h : s.Takes token span s')
    (hk : token.kind ∉ kinds) : ¬ s.Next kinds := by
  rintro ⟨found, hn, hm⟩
  rw [h.next] at hn
  obtain rfl := Option.some.inj hn
  exact hk hm

/-- Whatever stands in front of it is called by a pair of parentheses. -/
theorem gets_call (hd : deep) (hspells : s.Spells ["(", ")"] s') (hends : Ahead.further.Ends s') :
    (iterate (suffix nested') object).Gets (fun v => v.form.isCall) s s' := by
  have hnext {kinds : List Kind} (hk : .fixed "(" ∉ kinds) : ¬ s.Next kinds := by
    obtain ⟨opening, t, hopening, -⟩ := hspells
    exact not_next_of_takes hopening hk
  have hdots : (single '.').Settles True (single '.') ["."] [.number] := settles_dot
  have hdot : (single '.').Lacks s := hdots.lacks (.inl trivial) (hnext (by decide))
  have hbracket : openBracket.Lacks s := predicts_openBracket.lacks (hnext (by decide))
  have hcolon : (single ':').Lacks s := predicts_colon.lacks (hnext (by decide))
  have hcall : (suffix nested' object).Gets (fun v => v.form.isCall) s s' := by
    refine .firstOf_tail hdot.andThen (.firstOf_tail hbracket.andThen (.firstOf_tail hcolon.andThen (.firstOf_head ?_)))
    refine (gets_parentheses h hd hspells).andThen fun values _ => .nodeFrom fun v hv => ?_
    rw [hv]
    rfl
  refine .iterate_next (steady_suffix h.steady') hcall fun v hv => ?_
  exact .iterate_done (steady_suffix h.steady') ((settles_suffix h v v).ends hd hends suffixAhead_further.spares) hv

theorem gets_field (hd : deep) {text : Bytes} (hid : Identifier text) (hspells : s.Spells [".", .name text] s')
    (hends : targetAhead.Ends s') : (iterate (suffix nested') object).Gets (fun v => v.form.isAssignable) s s' := by
  obtain ⟨dot, m, hdot, span, t, hname, rfl⟩ := hspells
  have hsign : (single '.').Gets (fun _ => True) s m := lexes_dot.gets rfl hdot
  have hkey : key.Gets (fun _ => True) m s' := lexes_key.gets ⟨text, rfl, hid⟩ hname
  have hfield : (suffix nested' object).Gets (fun v => v.form.isAssignable) s s' :=
    .firstOf_head (hsign.andThen fun _ _ => hkey.expect.bind fun key _ => .pure rfl)
  refine .iterate_next (steady_suffix h.steady') hfield fun v hv => ?_
  exact .iterate_done (steady_suffix h.steady') ((settles_suffix h v v).ends hd hends suffixAhead_target.spares) hv

theorem gets_name (hd : deep) (hname : name.Gets (fun _ => True) s s') (hends : targetAhead.Ends s') :
    (suffixed nested').Gets (fun v => v.form.isAssignable) s s' := by
  have hform : name.Gets (fun v => ∃ text, v.form = .name text) s s' := by
    intro d hd
    obtain ⟨v, d', ho, -, hd'⟩ := hname hd
    exact ⟨v, d', ho, form_of_name ho, hd'⟩
  refine hform.firstOf_head.andThen ?_
  rintro v ⟨text, hv⟩
  refine .iterate_done (steady_suffix h.steady') ((settles_suffix h v v).ends hd hends suffixAhead_target.spares) ?_
  rw [hv]
  rfl

theorem closed_call (hd : deep) : Ahead.anything.Closed .further fun s s' =>
    ∀ v, (iterate (suffix nested') v).Gets (fun v => v.form.isCall) s s' := by
  refine ⟨["(", ")"], ?_, fun s s' hspells hends => ⟨trivial, fun v => gets_call h hd hspells hends⟩⟩
  simp only [List.mem_cons, List.not_mem_nil, or_false, forall_eq_or_imp, forall_eq]
  exact ⟨.fixed (by decide), .fixed (by decide)⟩

theorem closed_field (hd : deep) : Ahead.anything.Closed targetAhead fun s s' =>
    ∀ v, (iterate (suffix nested') v).Gets (fun v => v.form.isAssignable) s s' := by
  have hid : Identifier ['x'.toUInt8] := ⟨by decide, by decide +kernel, by decide⟩
  refine ⟨[".", .name ['x'.toUInt8]], ?_, fun s s' hspells hends => ⟨trivial, fun v => gets_field h hd hid hspells hends⟩⟩
  simp only [List.mem_cons, List.not_mem_nil, or_false, forall_eq_or_imp, forall_eq]
  exact ⟨.fixed (by decide), .name hid⟩

end Words

/-- Where an expression with suffixes fails, it goes on with others, so that the result is of a kind. -/
theorem completed_suffixed (hd : deep) {P : Node → Prop} {loop : Ahead} (hl : SuffixAhead loop)
    (hname : ∀ stop, name.Tracks deep (fun _ : ι => name) AnyResult start stop) (hstart : start.Admits "(")
    (hword : Ahead.anything.Closed stop fun s s' => ∀ v, (iterate (suffix nested') v).Gets P s s')
    {c c' : Cursor} {label : Label} {offset : Nat} (hc : c.Ready)
    (he : suffixed nested c = .error (.expected label offset) c') :
    c.Completed label offset start stop fun s s' => ∀ _ : ι, (suffixed nested').Gets P s s' := by
  have hprimary {stop : Ahead} : (primary nested).Tracks deep (fun _ : ι => primary nested') SameRole start stop :=
    tracks_primary h (hname stop) hstart
  have hsuffix (object : Node) {stop : Ahead} :
      (suffix nested object).Tracks deep (fun x : ι × Node => suffix nested' x.2) SameRole loop stop := tracks_suffix h hl object
  rcases andThen_eq_error.mp he with he | ⟨first, m, hfirst, he⟩
  · refine ((hprimary.error hd hc he).closed hword).mono ?_
    rintro s s' ⟨t, hall, hrest⟩ i
    exact (hall i).andThen fun v _ => hrest v
  · have hcarried : c.Carried m start loop fun s s' => ∀ _ : ι, (primary nested').Gets (SameRole first) s s' :=
      hprimary.ok hc hfirst
    have hrest : m.Completed label offset loop stop fun s s' =>
        ∀ (_ : ι) v, SameRole first v → (iterate (suffix nested') v).Gets P s s' :=
      iterate_completed (fun _ => steady_suffix h.steady')
        (fun {a _ _ _} hc ho => ((hsuffix a).ok hc ho).mono fun _ _ hall i a' _ => hall (i, a'))
        (fun {a _ _ _ _} hc he => ((hsuffix a).error hd hc he).mono fun _ _ hall i a' _ => hall (i, a'))
        (hword.mono fun _ _ hall _ => hall) (hcarried.ready hc) he
    refine (hcarried.completed hc hrest).mono ?_
    rintro s s' ⟨t, hall, hall'⟩ i
    exact (hall i).andThen fun v hv => hall' i v hv

section Targets
variable {c c' : Cursor} {v first : Node} {e : Failure}

omit h in
theorem target_eq_ok : target nested c = .ok v c' ↔ suffixed nested c = .ok (some v) c' ∧ v.form.isAssignable := by
  constructor
  · intro ho
    obtain ⟨_, _, hget, ho⟩ := bind_eq_ok.mp ho
    obtain ⟨rfl, rfl⟩ := get_eq_ok.mp hget
    obtain ⟨node, m, hnode, ho⟩ := bind_eq_ok.mp ho
    by_cases ha : node.form.isAssignable
    · rw [if_pos ha] at ho
      obtain ⟨rfl, rfl⟩ := pure_eq_ok.mp ho
      exact ⟨expect_eq_ok.mp hnode, ha⟩
    · rw [if_neg ha] at ho
      cases ho
  · rintro ⟨ho, ha⟩
    refine bind_eq_ok.mpr ⟨c, c, rfl, bind_eq_ok.mpr ⟨v, c', expect_eq_ok.mpr ho, ?_⟩⟩
    rw [if_pos ha]
    rfl

omit h in
theorem target_eq_error (hs : nested.Steady) (he : target nested c = .error e c') :
    suffixed nested c = .error e c' ∨ e = .expected .target c.offset := by
  rcases bind_eq_error.mp he with he | ⟨_, _, hget, he⟩
  · cases he
  obtain ⟨rfl, rfl⟩ := get_eq_ok.mp hget
  rcases bind_eq_error.mp he with he | ⟨node, m, -, he⟩
  · rcases expect_eq_error.mp he with he | ⟨hnone, rfl⟩
    · exact .inl he
    · obtain rfl := (steady_suffixed hs).stays hnone
      exact .inr rfl
  · by_cases ha : node.form.isAssignable
    · rw [if_pos ha] at he
      cases he
    · rw [if_neg ha] at he
      cases he
      exact .inr rfl

omit h in
theorem gets_target {s s' : Stream} (h : (suffixed nested).Gets (fun v => v.form.isAssignable) s s') :
    (target nested).Gets (fun _ => True) s s' := by
  intro d hd
  obtain ⟨v, d', ho, ha, hd'⟩ := h hd
  exact ⟨v, d', target_eq_ok.mpr ⟨ho, ha⟩, trivial, hd'⟩

theorem supplies_target (hd : deep) : Label.Supplies .target .anything targetAhead fun s s' =>
    ∀ _ : ι, (target nested').Gets (fun _ => True) s s' := by
  have hname : Label.Supplies .target .anything targetAhead fun s s' => ∀ _ : ι, name.Gets (fun _ => True) s s' :=
    lexes_name.supplies_name (fun _ => Iff.rfl) trivial
  refine hname.ends.mono ?_
  rintro s s' ⟨hall, hends⟩ i
  exact gets_target (gets_name h hd (hall i) hends)

theorem tracks_target : (target nested).Tracks deep (fun _ : ι => target nested') AnyResult .anything targetAhead where
  ok {c v c'} hc ho := by
    obtain ⟨ho, ha⟩ := target_eq_ok.mp ho
    have hsuffixed : (suffixed nested).Tracks deep (fun _ : ι => suffixed nested') SameRole .anything targetAhead :=
      tracks_suffixed h suffixAhead_target (.refl _) suffixAhead_target.spares
        (lexes_name.tracks_name (Ahead.anything_admits _)) (Ahead.anything_admits _)
    refine (hsuffixed.ok hc ho).mono fun s s' hall i => ?_
    refine (gets_target ((hall i).mono fun b hb => ?_)).mono fun _ _ => trivial
    rw [← hb.2]
    exact ha
  error hd c label offset c' hc he := by
    rcases target_eq_error h.steady he with he | hfailure
    · have hall := completed_suffixed (ι := ι) h hd suffixAhead_target
        (fun _ => lexes_name.tracks_name (Ahead.anything_admits _)) (Ahead.anything_admits _) (closed_field h hd) hc he
      exact hall.mono fun s s' hall i => gets_target (hall i)
    · obtain ⟨rfl, rfl⟩ := Failure.expected.inj hfailure
      exact (supplies_target h hd).completed c
  closes hd := (supplies_target h hd).closed

end Targets

section Assignments
variable {c c' : Cursor} {v first : Node} {e : Failure}

/-- The values that are assigned to targets, behind the equals sign. -/
def assignedValues (nested : Nested) (first : Node) (targets : List Node) : Parse Node := do
  let values ← expect (expressions nested .listValue) .assignmentValues
  let targets : Node := .ofItems .targetList targets.reverse 0
  nodeFrom first.span (.assignment targets (valueList values targets))

def assigned (nested : Nested) (first : Node) (targets : List Node) : Rule Node :=
  (single '=').andThen fun _ => assignedValues nested first targets

/-- An assignment, or no statement at all if nothing is assigned. -/
def assignmentOrNone (nested : Nested) (first : Node) : Rule Node := fun cursor =>
  (iterate (targetStep nested) [first] >>= assigned nested first) cursor

omit h in
theorem assignment_of_some (ho : assignmentOrNone nested first c = .ok (some v) c') : assignment nested first c = .ok v c' := by
  obtain ⟨targets, m, htargets, ho⟩ := bind_eq_ok.mp ho
  obtain ⟨sign, m', hsign, ho⟩ := andThen_eq_some.mp ho
  exact bind_eq_ok.mpr ⟨targets, m, htargets, bind_eq_ok.mpr ⟨some sign, m', hsign, ho⟩⟩

omit h in
theorem assignment_eq_ok (ho : assignment nested first c = .ok v c') : assignmentOrNone nested first c = .ok (some v) c' := by
  obtain ⟨targets, m, htargets, ho⟩ := bind_eq_ok.mp ho
  obtain ⟨sign, m', hsign, ho⟩ := bind_eq_ok.mp ho
  cases sign with
  | none => cases ho
  | some sign => exact bind_eq_ok.mpr ⟨targets, m, htargets, andThen_eq_some.mpr ⟨sign, m', hsign, ho⟩⟩

omit h in
theorem assignment_eq_error (he : assignment nested first c = .error e c') :
    assignmentOrNone nested first c = .error e c' ∨ e = .expected .statement (first.span.pos - 1) := by
  rcases bind_eq_error.mp he with he | ⟨targets, m, htargets, he⟩
  · exact .inl (bind_eq_error.mpr (.inl he))
  rcases bind_eq_error.mp he with he | ⟨sign, m', hsign, he⟩
  · exact .inl (bind_eq_error.mpr (.inr ⟨targets, m, htargets, andThen_eq_error.mpr (.inl he)⟩))
  cases sign with
  | none =>
    cases he
    exact .inr rfl
  | some sign =>
    exact .inl (bind_eq_error.mpr (.inr ⟨targets, m, htargets, andThen_eq_error.mpr (.inr ⟨sign, m', hsign, he⟩)⟩))

theorem tracks_assignedValues {targets : List Node} {first' : ι → Node} {targets' : ι → List Node} :
    (assignedValues nested first targets).Tracks deep (fun i => assignedValues nested' (first' i) (targets' i)) AnyResult
      .anything .further :=
  (tracks_expectExpressions h (fun _ => Iff.rfl) (fun _ => Iff.rfl) (by decide) (by decide)).bind fun values => .nodeFrom

theorem tracks_assigned (targets : List Node) : (assigned nested first targets).Tracks deep
    (fun x : Node × List Node => assigned nested' x.1 x.2) AnyResult targetAhead .further := by
  have hsign : (single '=').Tracks deep (fun _ : Node × List Node => single '=') AnyResult targetAhead .anything :=
    lexes_equals.tracks_fixed (by decide)
  exact hsign.andThen fun _ => tracks_assignedValues h

theorem closed_assigned (hd : deep) : targetAhead.Closed .further fun s s' =>
    ∀ first targets, (assigned nested' first targets).Gets (fun _ => True) s s' := by
  have hsign : Label.Supplies .pairAssign targetAhead .anything fun s s' => ∀ _ : Unit, (single '=').Gets (fun _ => True) s s' :=
    Label.supplies_fixed (lexes_equals.gets rfl) (by decide) (fun _ => Iff.rfl) (by decide)
  have hvalues : (assignedValues nested Classical.ofNonempty []).Tracks deep (fun x : Node × List Node => assignedValues nested' x.1 x.2)
      AnyResult .anything .further := tracks_assignedValues h
  refine (hsign.closed.trans (hvalues.closes hd)).mono ?_
  rintro s s' ⟨t, hall, hall'⟩ first targets
  exact (hall ()).andThen fun _ _ => hall' (first, targets)

theorem tracks_assignment : (assignmentOrNone nested first).Tracks deep (fun v => assignmentOrNone nested' v) AnyResult
    targetAhead .further := by
  have hcomma : (symbol ",").Tracks deep (fun _ : Node × List Node => symbol ",") AnyResult targetAhead .anything :=
    (lexes_symbol (by decide)).tracks_fixed (by decide)
  have hstep (targets : List Node) : (targetStep nested targets).Tracks deep
      (fun x : Node × List Node => targetStep nested' x.2) AnyResult targetAhead targetAhead :=
    hcomma.andThen fun _ => (tracks_target h).bind fun target => .pure fun _ => trivial
  have htargets : (iterate (targetStep nested) [first]).Tracks deep (fun v : Node => iterate (targetStep nested') [v])
      AnyResult targetAhead targetAhead :=
    .iterateAny (steady_targetStep h.steady) (fun _ => steady_targetStep h.steady') hstep (.refl _)
      (fun _ _ _ => (settles_symbol (by decide)).andThen _ _) (by decide)
  exact htargets.bindRule (fun targets => tracks_assigned h targets) (closed_assigned h)

end Assignments

section Statements
variable {c c' : Cursor} {s m s' : Stream}

omit h in
theorem gets_expressionStatement_of_call (h : (suffixed nested).Gets (fun v => v.form.isCall) s s') :
    (expressionStatement nested).Gets (fun _ => True) s s' := by
  refine h.andThen fun v hv => ?_
  rw [if_pos hv]
  exact .pure trivial

omit h in
theorem gets_expressionStatement_of_target
    (h : (suffixed nested).Gets (fun v => ¬ v.form.isCall ∧ v.form.isAssignable) s m)
    (hrest : ∀ v, (assignmentOrNone nested v).Gets (fun _ => True) m s') :
    (expressionStatement nested).Gets (fun _ => True) s s' := by
  refine h.andThen ?_
  rintro v ⟨hcall, hassign⟩
  rw [if_neg hcall, if_pos hassign]
  intro d hd
  obtain ⟨a, d', ho, -, hd'⟩ := hrest v hd
  exact ⟨a, d', assignment_of_some ho, trivial, hd'⟩

/-- A call in the place of a statement that begins with no word, or that is none. -/
theorem supplies_expressionStatement (hd : deep) : Label.Supplies .statement .further .further fun s s' =>
    ∀ _ : ι, (expressionStatement nested').Gets (fun _ => True) s s' := by
  have hid : Identifier ['x'.toUInt8] := ⟨by decide, by decide +kernel, by decide⟩
  have hwritten : ∀ token ∈ ([.name ['x'.toUInt8], "(", ")"] : List Token), token.Written := by
    simp only [List.mem_cons, List.not_mem_nil, or_false, forall_eq_or_imp, forall_eq]
    exact ⟨.name hid, .fixed (by decide), .fixed (by decide)⟩
  refine ⟨⟨[], rfl⟩, ?_⟩
  rintro item rfl
  refine ⟨nofun, [], [.name ['x'.toUInt8], "(", ")"], writes_nil, hwritten, ?_⟩
  rintro s s' ⟨span, m, htakes, hspells⟩ hends
  have hname : name.Gets (fun _ => True) s m := lexes_name.gets ⟨_, rfl, hid⟩ htakes
  have hwants : Ahead.further.Wants .name := by decide
  refine ⟨@Ahead.Wants.ends .further (.name ['x'.toUInt8]) s hwants htakes.next, fun _ => ?_⟩
  exact gets_expressionStatement_of_call (hname.firstOf_head.andThen fun v _ => gets_call h hd hspells hends)

theorem tracks_expressionStatement :
    (expressionStatement nested).Tracks deep (fun _ : ι => expressionStatement nested') AnyResult .further .further := by
  have hname {stop : Ahead} : name.Tracks deep (fun _ : ι => name) AnyResult .further stop :=
    lexes_name.tracks_name (by decide)
  have hsuffixed {loop : Ahead} (hl : SuffixAhead loop) :
      (suffixed nested).Tracks deep (fun _ : ι => suffixed nested') SameRole .further loop :=
    tracks_suffixed h hl (.refl _) hl.spares hname (by decide)
  have htarget {first b : Node} (hcall : ¬ first.form.isCall) (hassign : first.form.isAssignable) (hb : SameRole first b) :
      ¬ b.form.isCall ∧ b.form.isAssignable := by
    rw [← hb.1, ← hb.2]
    exact ⟨hcall, hassign⟩
  constructor
  · intro c v c' hc ho
    obtain ⟨first, m, hfirst, ho⟩ := andThen_eq_some.mp ho
    by_cases hcall : first.form.isCall
    · rw [if_pos hcall] at ho
      obtain ⟨rfl, rfl⟩ := pure_eq_ok.mp ho
      refine ((hsuffixed suffixAhead_further).ok hc hfirst).mono fun s s' hall i => ?_
      have hcalls : (suffixed nested').Gets (fun b => b.form.isCall) s s' := (hall i).mono fun b hb => hb.1 ▸ hcall
      exact (gets_expressionStatement_of_call hcalls).mono fun _ _ => trivial
    · rw [if_neg hcall] at ho
      by_cases hassign : first.form.isAssignable
      · rw [if_pos hassign] at ho
        have hcarried := (hsuffixed suffixAhead_target).ok hc hfirst
        refine (hcarried.trans ((tracks_assignment h).ok (hcarried.ready hc) (assignment_eq_ok ho))).mono ?_
        rintro s s' ⟨t, hall, hrest⟩ i
        refine (gets_expressionStatement_of_target ((hall i).mono fun b hb => htarget hcall hassign hb) fun b => ?_).mono
          fun _ _ => trivial
        exact (hrest b).mono fun _ _ => trivial
      · rw [if_neg hassign] at ho
        cases ho
  · intro hd c label offset c' hc he
    rcases andThen_eq_error.mp he with he | ⟨first, m, hfirst, he⟩
    · have hall := completed_suffixed (ι := ι) h hd suffixAhead_further (fun _ => hname) (by decide) (closed_call h hd) hc he
      exact hall.mono fun s s' hall i => gets_expressionStatement_of_call (hall i)
    -- an expression that is no statement fails where it starts
    have hstart : Failure.expected label offset = .expected .statement (first.span.pos - 1) →
        c.Completed label offset .further .further fun s s' =>
          ∀ _ : ι, (expressionStatement nested').Gets (fun _ => True) s s' := by
      intro hfailure
      obtain ⟨rfl, rfl⟩ := Failure.expected.inj hfailure
      rw [suffixed_start h.steady hfirst, Nat.add_sub_cancel]
      exact (supplies_expressionStatement h hd).completed c
    by_cases hcall : first.form.isCall
    · rw [if_pos hcall] at he
      cases he
    rw [if_neg hcall] at he
    by_cases hassign : first.form.isAssignable
    · rw [if_pos hassign] at he
      rcases assignment_eq_error he with he | hfailure
      · have hcarried := (hsuffixed suffixAhead_target).ok hc hfirst
        refine (hcarried.completed hc ((tracks_assignment h).error hd (hcarried.ready hc) he)).mono ?_
        rintro s s' ⟨t, hall, hrest⟩ i
        exact gets_expressionStatement_of_target ((hall i).mono fun b hb => htarget hcall hassign hb) hrest
      · exact hstart hfailure
    · rw [if_neg hassign] at he
      cases he
      exact hstart rfl

end Statements

end LuaSyntax.Grammar
