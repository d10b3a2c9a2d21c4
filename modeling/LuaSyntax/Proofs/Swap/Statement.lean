import LuaSyntax.Proofs.Phrase.Statement
import LuaSyntax.Proofs.Swap.Expression

/-! # Statements in which a part is read otherwise

An assignment is read otherwise among the statements of a block. Nothing is sought in the names that
statements declare, or in the name that a function statement assigns to.
-/
namespace LuaSyntax
variable {κ : Type} {key : Node → κ} {n : Node} {same : Prop} {levels : Nat}

/-- An assignment is sought in what is assigned, unless it is sought itself. -/
theorem Node.inside_assignment {targets values : Node} {span : Span} (hv : n.Inside ⟨.assignment targets values, span⟩)
    (hne : ¬ ((⟨.assignment targets values, span⟩ : Node) = n ∧ n.tag = .assignment)) :
    n.Inside targets ∨ n.Inside values := by
  rcases Node.inside_iff.mp hv with heq | ⟨child, hm, hc⟩
  · exact (hne ⟨heq, heq ▸ rfl⟩).elim
  · rw [Node.branches] at hm
    split at hm
    · exact .inr (List.mem_singleton.mp hm ▸ hc)
    · simp only [List.mem_cons, List.not_mem_nil, or_false] at hm
      rcases hm with rfl | rfl
      · exact .inl hc
      · exact .inr hc

/-- A function statement is sought in its function, unless it is sought itself. -/
theorem Node.inside_values {targets values : Node} {span : Span} (hv : n.Inside ⟨.assignment targets values, span⟩)
    (hpos : values.span.pos = span.pos)
    (hne : ¬ ((⟨.assignment targets values, span⟩ : Node) = n ∧ n.tag = .assignment)) : n.Inside values := by
  rcases Node.inside_iff.mp hv with heq | ⟨child, hm, hc⟩
  · exact (hne ⟨heq, heq ▸ rfl⟩).elim
  · rw [Node.branches, if_pos hpos, List.mem_singleton] at hm
    exact hm ▸ hc

namespace Phrase

open Grammar (valueList)

variable (h : Phrases.Swaps key n levels)
include h

section Lists

theorem key_ofItems {form : List Node → Form Node} {items items' : List Node} (anchor anchor' : Nat)
    (hform : (form items').map key = (form items).map key) :
    key (.ofItems form items' anchor') = key (.ofItems form items anchor) :=
  h.outlines.congr hform

theorem key_valueList {values values' : List Node} (before before' : Node)
    (hv : values'.map key = values.map key) : key (valueList values' before') = key (valueList values before) :=
  key_ofItems h _ _ (by simp [Form.map, hv])

/-- A list is sought in its items. -/
theorem inside_items {form : List Node → Form Node} {items : List Node} {anchor : Nat}
    (htag : (form items).tag.isSwappable = false) (hform : (form items).children = items)
    (hv : n.Inside (.ofItems form items anchor)) : ∃ v ∈ items, n.Inside v := by
  obtain ⟨child, hm, hc⟩ := (Node.inside_mk h.sought htag).mp hv
  exact ⟨child, hform ▸ hm, hc⟩

omit h in
theorem copied_noNextName : Copied NoNextName NoNextName :=
  fun _ _ hw hc hs => noNextName_stream hc (hw.leaves _ _) (Excerpt.clear_of_tail hw.tail) hs

theorem swaps_nameList {first first' : Node} (hf : key first' = key first) :
    Swaps key n same .token key (fun names => n.Inside names ∧ ¬ n.Inside first) (NameList first) (NameList first') := by
  have hname : Swaps key n same .token key n.Inside Name Name := swaps_name h
  have hnames := (hname.after ",").sequence (stays_node fun _ => (closes_name.carries.after ","))
  refine (hnames.until copied_noNextName).return ?_ ?_
  · exact fun others others' _ _ ho => key_ofItems h _ _ (by simp [Form.map, hf, ho])
  · rintro _ others _ - ⟨hin, hfirst⟩
    obtain ⟨v, hm, hv⟩ := inside_items h rfl rfl hin
    rcases List.mem_cons.mp hm with rfl | hm
    · exact (hfirst hv).elim
    · exact ⟨v, hm, hv⟩

omit h in
theorem nameList_leads {first names : Node} {s s' : Stream} (hn : NameList first s names s') : s.Reaches s' :=
  (carries_nameList (x := default) first ⟨hn, Excerpt.clear_of_tail rfl⟩).1

omit h in
/-- Names stay where they are in front of a token that is no comma. -/
theorem nameList_put {x : Excerpt} {first names : Node} {s s' : Stream} (hi : x.position = id) (hc : x.Covers s)
    (hl : x.Leaves .token s') (hn : NameList first s names s') (hs : ¬ s'.Next [","]) :
    NameList first (x.stream s) names (x.stream s') := by
  have hput := (carries_nameList first ⟨hn, .inr hs⟩).2 hc (hl.mono Room.within_token)
  rwa [Excerpt.node_eq hi] at hput

end Lists

section Compound

theorem swaps_branch : Swaps key n same .token (Prod.map key key) (fun branch => n.Inside branch.1 ∨ n.Inside branch.2)
    (Branch (phrases levels)) (Branch (phrases (levels + 1))) := by
  refine h.expression.any.bind stays_expression fun condition condition' hcondition => .takes fun _ _ =>
    h.block.any.return ?_ ?_
  · exact fun _ _ _ _ hbody => Prod.ext hcondition hbody
  · exact fun _ _ _ _ hin => hin.1.resolve_left hin.2

theorem swaps_ifStatement : Swaps key n same .token key n.Inside (IfStatement (phrases levels))
    (IfStatement (phrases (levels + 1))) := by
  have hcarries (x : Excerpt) : (phrases levels).Carries x (phrases (levels + 1)) := phrases_carries levels 1
  have hmap {x : Excerpt} (hi : x.position = id) : Prod.map x.node x.node = id := by
    rw [Excerpt.node_eq hi]
    rfl
  have hbranch : Stays .token (Branch (phrases levels)) (Branch (phrases (levels + 1))) :=
    Carries.stays fun x hi => hmap hi ▸ carries_branch (hcarries x)
  have hothers : Stays .token
      (fun s others s' => Sequence (After "elseif" (Branch (phrases levels))) s others s' ∧ ¬ s'.Next ["elseif"])
      (fun s others s' => Sequence (After "elseif" (Branch (phrases (levels + 1)))) s others s' ∧ ¬ s'.Next ["elseif"]) := by
    refine Carries.stays fun x hi => ?_
    have hlist : List.map (Prod.map x.node x.node) = id := by rw [hmap hi, List.map_id_fun]
    exact hlist ▸ ((carries_branch (hcarries x)).after "elseif").sequence.until (Excerpt.keeps_not_next Room.within_token)
  have hafter : Stays .token (After "elseif" (Branch (phrases levels))) (After "elseif" (Branch (phrases (levels + 1)))) :=
    Carries.stays fun x hi => hmap hi ▸ (carries_branch (hcarries x)).after "elseif"
  have helse : Stays .token (Optional (After "else" (phrases levels).block) (¬ ·.Next ["else"]))
      (Optional (After "else" (phrases (levels + 1)).block) (¬ ·.Next ["else"])) := by
    refine Carries.stays fun x hi => ?_
    have hoption : Option.map x.node = id := by rw [Excerpt.node_eq hi, Option.map_id]
    exact hoption ▸ ((hcarries x).block.after "else").optional (Excerpt.keeps_not_next Room.within_token)
  refine .takes fun _ _ => (swaps_branch h).bind hbranch fun head head' hh => ?_
  refine ((((swaps_branch h).after "elseif").sequence hafter).until (copied_not_next _)).bind hothers
    fun others others' ho => ?_
  refine ((h.block.any.after "else").optional (copied_not_next _)).bind helse fun otherwise otherwise' he =>
    (swaps_token "end").return ?_ ?_
  · intro _ _ _ _ _
    refine h.outlines.congr ?_
    have hhead : key head'.1 = key head.1 ∧ key head'.2 = key head.2 := Prod.ext_iff.mp hh
    have hothers : others'.map (fun branch => (key branch.1, key branch.2)) =
        others.map (fun branch => (key branch.1, key branch.2)) := ho
    simp [Form.map, hhead, he, hothers]
  · rintro _ _ _ _ ⟨⟨⟨hin, hhead⟩, hothers⟩, hotherwise⟩
    obtain ⟨child, hm, hc⟩ := (Node.inside_mk h.sought rfl).mp hin
    simp only [Form.children, List.mem_append, List.mem_flatMap, List.mem_cons, Option.mem_toList] at hm
    rcases hm with ⟨branch, rfl | hm, rfl | rfl | hnil⟩ | hm
    · exact hhead (.inl hc)
    · exact hhead (.inr hc)
    · cases hnil
    · exact hothers ⟨branch, hm, .inl hc⟩
    · exact hothers ⟨branch, hm, .inr hc⟩
    · cases hnil
    · exact hotherwise ⟨child, hm, hc⟩

theorem swaps_doStatement : Swaps key n same .token key n.Inside (DoStatement (phrases levels))
    (DoStatement (phrases (levels + 1))) := by
  refine .takes fun _ _ => h.block.any.bind stays_block fun body body' hb => (swaps_token "end").return ?_ ?_
  · exact fun _ _ _ _ _ => h.outlines.congr (by simp [Form.map, hb])
  · rintro _ _ _ _ ⟨hin, hbody⟩
    obtain ⟨child, hm, hc⟩ := (Node.inside_mk h.sought rfl).mp hin
    exact hbody (List.mem_singleton.mp hm ▸ hc)

theorem swaps_whileStatement : Swaps key n same .token key n.Inside (WhileStatement (phrases levels))
    (WhileStatement (phrases (levels + 1))) := by
  refine .takes fun _ _ => h.expression.any.bind stays_expression fun condition condition' hcondition =>
    .takes fun _ _ => h.block.any.bind stays_block fun body body' hbody => (swaps_token "end").return ?_ ?_
  · exact fun _ _ _ _ _ => h.outlines.congr (by simp [Form.map, hcondition, hbody])
  · rintro _ _ _ _ ⟨⟨hin, hcondition⟩, hbody⟩
    obtain ⟨child, hm, hc⟩ := (Node.inside_mk h.sought rfl).mp hin
    simp only [Form.children, List.mem_cons, List.not_mem_nil, or_false] at hm
    rcases hm with rfl | rfl
    · exact hcondition hc
    · exact hbody hc

theorem swaps_repeatStatement : Swaps key n same .token key n.Inside (RepeatStatement (phrases levels))
    (RepeatStatement (phrases (levels + 1))) := by
  refine .takes fun _ _ => h.block.any.bind stays_block fun body body' hbody =>
    .takes fun _ _ => h.expression.any.return ?_ ?_
  · exact fun _ _ _ _ hcondition => h.outlines.congr (by simp [Form.map, hbody, hcondition])
  · rintro _ condition _ _ ⟨hin, hbody⟩
    obtain ⟨child, hm, hc⟩ := (Node.inside_mk h.sought rfl).mp hin
    simp only [Form.children, List.mem_cons, List.not_mem_nil, or_false] at hm
    rcases hm with rfl | rfl
    · exact (hbody hc).elim
    · exact hc

end Compound

section Loops

theorem swaps_forBody : Swaps key n same .token key n.Inside (ForBody (phrases levels))
    (ForBody (phrases (levels + 1))) :=
  .takes fun _ _ => h.block.any.bind stays_block fun _ _ hb => (swaps_token "end").return
    (fun _ _ _ _ _ => hb) fun _ _ _ _ hin => hin.2 hin.1

theorem swaps_numericFor (first first' : Span) {counter counter' : Node} (hcounter : key counter' = key counter) :
    Swaps key n same .token key (fun v => n.Inside v ∧ ¬ n.Inside counter) (NumericFor (phrases levels) first counter)
      (NumericFor (phrases (levels + 1)) first' counter') := by
  have hstep : Stays .token (Optional (After "," (phrases levels).expression) (¬ ·.Next [","]))
      (Optional (After "," (phrases (levels + 1)).expression) (¬ ·.Next [","])) := by
    refine Carries.stays fun x hi => ?_
    have hoption : Option.map x.node = id := by rw [Excerpt.node_eq hi, Option.map_id]
    exact hoption ▸ (((phrases_carries levels 1).expression.mono Room.within_token).after ",").optional
      (Excerpt.keeps_not_next Room.within_token)
  refine h.expression.any.bind stays_expression fun start start' hstart => .takes fun _ _ =>
    h.expression.any.bind stays_expression fun limit limit' hlimit => ?_
  refine ((h.expression.any.after ",").optional (copied_not_next _)).bind hstep fun step step' hstep =>
    (swaps_forBody h).return ?_ ?_
  · exact fun _ _ _ _ hbody => h.outlines.congr (by simp [Form.map, hcounter, hstart, hlimit, hstep, hbody])
  · rintro _ body _ - ⟨⟨⟨⟨hin, hcounter⟩, hstart⟩, hlimit⟩, hstep⟩
    obtain ⟨child, hm, hc⟩ := (Node.inside_mk h.sought rfl).mp hin
    simp only [Form.children, List.mem_append, List.mem_cons, List.not_mem_nil, or_false, Option.mem_toList] at hm
    rcases hm with ((rfl | rfl | rfl) | hm) | rfl
    · exact (hcounter hc).elim
    · exact (hstart hc).elim
    · exact (hlimit hc).elim
    · exact (hstep ⟨child, hm, hc⟩).elim
    · exact hc

theorem swaps_genericFor (first first' : Span) {counter counter' : Node} (hcounter : key counter' = key counter) :
    Swaps key n (same ∧ counter' = counter) .token key (fun v => n.Inside v ∧ ¬ n.Inside counter)
      (GenericFor (phrases levels) first counter) (GenericFor (phrases (levels + 1)) first' counter') := by
  have hexpressions : Stays .token (Expressions (phrases levels)) (Expressions (phrases (levels + 1))) :=
    stays_list fun x => (carries_expressions (phrases_carries levels 1)).mono Room.within_token
  -- the word after the names is no comma
  refine (swaps_nameList h hcounter).seq ?_ fun names names' hnames => .takes fun _ _ =>
    (swaps_expressions h).bind hexpressions fun values values' hvalues => (swaps_forBody h).return ?_ ?_
  · rintro x s names m v s' ⟨-, rfl⟩ hi hc hl hnames ⟨span, m', hin, -⟩ -
    refine ⟨nameList_put hi hc hl hnames (hin.opens.disjoint (by decide)), ?_⟩
    exact Nat.lt_of_lt_of_le hl (nameList_leads hnames).length_le
  · exact fun _ _ _ _ hbody => h.outlines.congr (by simp [Form.map, hnames, key_valueList h names names' hvalues, hbody])
  · rintro _ body _ - ⟨⟨⟨hin, hcounter⟩, hnames⟩, hvalues⟩
    obtain ⟨child, hm, hc⟩ := (Node.inside_mk h.sought rfl).mp hin
    simp only [Form.children, List.mem_cons, List.not_mem_nil, or_false] at hm
    rcases hm with rfl | rfl | rfl
    · exact (hnames ⟨hc, hcounter⟩).elim
    · exact (hvalues (inside_items h rfl rfl hc)).elim
    · exact hc

theorem swaps_forStatement : Swaps key n same .token key n.Inside (ForStatement (phrases levels))
    (ForStatement (phrases (levels + 1))) :=
  .takes fun first first' => (swaps_name h).bind stays_name fun _ _ hcounter => .or
    (.takes fun _ _ => swaps_numericFor h first first' hcounter)
    ((swaps_genericFor h first first' hcounter).unless fun _ => Excerpt.keeps_not_next (Room.within_self _))

end Loops

section Declarations

theorem swaps_localFunction (first first' second second' : Span) :
    Swaps key n same .token key n.Inside (LocalFunction (phrases levels) first second)
      (LocalFunction (phrases (levels + 1)) first' second') := by
  refine (swaps_name h).bind stays_name fun declared declared' hd => (swaps_functionBody h second second' false).return ?_ ?_
  · intro function function' _ _ hf
    have hnames : key ⟨.nameList [declared'], declared'.span⟩ = key ⟨.nameList [declared], declared.span⟩ :=
      h.outlines.congr (by simp [Form.map, hd])
    have hvalues : key ⟨.valueList [function'], function'.span⟩ = key ⟨.valueList [function], function.span⟩ :=
      h.outlines.congr (by simp [Form.map, hf])
    exact h.outlines.congr (by simp [Form.map, hnames, hvalues])
  · rintro _ function _ - ⟨hin, hdeclared⟩
    obtain ⟨child, hm, hc⟩ := (Node.inside_mk h.sought rfl).mp hin
    simp only [Form.children, List.mem_cons, List.not_mem_nil, or_false] at hm
    rcases hm with rfl | rfl
    · obtain ⟨w, hm, hw⟩ := (Node.inside_mk h.sought rfl).mp hc
      exact (hdeclared (List.mem_singleton.mp hm ▸ hw)).elim
    · obtain ⟨w, hm, hw⟩ := (Node.inside_mk h.sought rfl).mp hc
      exact List.mem_singleton.mp hm ▸ hw

theorem swaps_localNames (first first' : Span) : Swaps key n same .token key n.Inside
    (LocalNames (phrases levels) first) (LocalNames (phrases (levels + 1)) first') := by
  refine (swaps_name h).bind stays_name fun declared declared' hd => ?_
  refine (swaps_nameList h hd).seq ?_ fun names names' hnames =>
    (((swaps_expressions h).after "=").optional (copied_not_next _)).return ?_ ?_
  · rintro x s names m v s' ⟨-, rfl⟩ hi hc hl hnames ⟨values, hvalues, rfl⟩ ⟨⟨hin, hdeclared⟩, hnot⟩
    cases values with
    | none =>
      obtain ⟨child, hm, hc⟩ := (Node.inside_mk h.sought rfl).mp hin
      simp only [Form.children, List.mem_cons, List.not_mem_nil, or_false] at hm
      rcases hm with rfl | rfl
      · exact (hnot ⟨hc, hdeclared⟩).elim
      · obtain ⟨w, hm, -⟩ := inside_items h rfl rfl hc
        cases hm
    | some values =>
      obtain ⟨span, m', ht, -⟩ := hvalues
      refine ⟨nameList_put hi hc hl hnames (ht.opens.disjoint (by decide)), ?_⟩
      exact Nat.lt_of_lt_of_le hl (nameList_leads hnames).length_le
  · intro values values' _ _ hvalues
    have hlist : (values'.getD []).map key = (values.getD []).map key := by
      cases values <;> cases values' <;> simp at hvalues ⊢
      exact hvalues
    exact h.outlines.congr (by simp [Form.map, hnames, key_valueList h names names' hlist])
  · rintro _ values _ - ⟨⟨hin, hdeclared⟩, hnot⟩
    obtain ⟨child, hm, hc⟩ := (Node.inside_mk h.sought rfl).mp hin
    simp only [Form.children, List.mem_cons, List.not_mem_nil, or_false] at hm
    rcases hm with rfl | rfl
    · exact (hnot ⟨hc, hdeclared⟩).elim
    · obtain ⟨w, hm, hw⟩ := inside_items h rfl rfl hc
      cases values with
      | none => cases hm
      | some values => exact ⟨values, rfl, w, hm, hw⟩

theorem swaps_localStatement : Swaps key n same .token key n.Inside (LocalStatement (phrases levels))
    (LocalStatement (phrases (levels + 1))) :=
  .takes fun first first' => .or (.takes fun second second' => swaps_localFunction h first first' second second')
    ((swaps_localNames h first first').unless fun _ => Excerpt.keeps_not_next (Room.within_self _))

omit h in
theorem swaps_identifier (text : Bytes) : Swaps key n same .token (fun _ => ()) (fun _ => False)
    (fun s span s' => s.Takes (.name text) span s' ∧ Identifier text)
    (fun s span s' => s.Takes (.name text) span s' ∧ Identifier text) :=
  (swaps_token (.name text)).kept fun _ _ _ hid => hid

theorem swaps_labelStatement : Swaps key n same .token key n.Inside LabelStatement LabelStatement := by
  refine .takes fun _ _ => .exists fun text => (swaps_identifier text).bind ?_ fun _ _ _ =>
    (swaps_token "::").return ?_ ?_
  · exact Carries.stays fun x hi => (funext (Excerpt.span_eq hi) : x.span = id) ▸ (closes_identifier text).carries
  · exact fun _ _ _ _ _ => h.outlines.congr rfl
  · rintro _ _ _ _ ⟨hin, -⟩
    obtain ⟨child, hm, -⟩ := (Node.inside_mk h.sought rfl).mp hin
    cases hm

theorem swaps_gotoStatement : Swaps key n same .token key n.Inside GotoStatement GotoStatement := by
  refine .takes fun _ _ => .exists fun text => (swaps_identifier text).return (fun _ _ _ _ _ => h.outlines.congr rfl) ?_
  intro _ _ _ _ hin
  obtain ⟨child, hm, -⟩ := (Node.inside_mk h.sought rfl).mp hin
  cases hm

theorem swaps_returnStatement : Swaps key n same .token key n.Inside (ReturnStatement (phrases levels))
    (ReturnStatement (phrases (levels + 1))) := by
  have hcarries (x : Excerpt) : (phrases levels).Carries x (phrases (levels + 1)) := phrases_carries levels 1
  have hvalues : Stays .token (Optional (Expressions (phrases levels)) (phrases levels).noExpression)
      (Optional (Expressions (phrases (levels + 1))) (phrases (levels + 1)).noExpression) := by
    refine Carries.stays fun x hi => ?_
    have hmap : Option.map (List.map x.node) = id := by rw [Excerpt.node_eq hi, List.map_id_fun, Option.map_id]
    exact hmap ▸ ((carries_expressions (hcarries x)).mono Room.within_token).optional
      ((hcarries x).noExpression.mono Room.within_token)
  have hsemicolon : Swaps key n (same ∧ True) .token (Option.map fun _ => ()) (fun _ => False)
      (Optional (fun s span s' => s.Takes ";" span s') (¬ ·.Next [";"]))
      (Optional (fun s span s' => s.Takes ";" span s') (¬ ·.Next [";"])) :=
    ((swaps_token ";").optional (copied_not_next _)).mono (Room.within_self _) id fun _ => False.elim
  refine .takes fun _ _ => ((swaps_expressions h).optional (copied_of_keeps fun x => (hcarries x).noExpression)).bind
    hvalues fun values values' hv => (hsemicolon.mono (Room.within_self _) (fun hs => ⟨hs.1.1, trivial⟩)
      fun _ => id).return ?_ ?_
  · intro _ _ _ _ _
    have hlist : (values'.getD []).map key = (values.getD []).map key := by
      cases values <;> cases values' <;> simp at hv ⊢
      exact hv
    exact h.outlines.congr (by simp [Form.map, hlist])
  · rintro _ _ _ _ ⟨hin, hvalues⟩
    obtain ⟨child, hm, hc⟩ := (Node.inside_mk h.sought rfl).mp hin
    cases values with
    | none => cases hm
    | some values => exact hvalues ⟨values, rfl, child, hm, hc⟩

end Declarations

section Assignments

theorem swaps_functionName : Swaps key n same .token (Prod.map key id) (fun _ => False) FunctionName FunctionName := by
  have hcarries (x : Excerpt) : Carries x (.apart [".", .number, ":"]) FunctionName FunctionName (Prod.map x.node id) :=
    carries_functionName
  refine .of_copies (fun _ _ _ hv => (hcarries default).leads hv) (Carries.copies hcarries ?_) fun _ _ _ _ => id
  exact fun x target => Prod.ext (h.outlines.respan x.span target.1) rfl

omit h in
theorem stays_functionName : Stays .token FunctionName FunctionName :=
  Carries.stays fun x hi => by
    have hmap : Prod.map x.node (id : Bool → Bool) = id := by
      rw [Excerpt.node_eq hi]
      rfl
    exact hmap ▸ carries_functionName.mono Room.within_token

/-- The function of a function statement. -/
theorem swaps_functionStatement : Swaps key n same .token key (fun v => n.Inside v ∧ ¬ (v = n ∧ n.tag = .assignment))
    (FunctionStatement (phrases levels)) (FunctionStatement (phrases (levels + 1))) := by
  refine .takes fun first first' => (swaps_functionName h).bind stays_functionName ?_
  rintro ⟨target, isMethod⟩ ⟨target', isMethod'⟩ ht
  obtain ⟨htarget, hmethod⟩ := Prod.ext_iff.mp ht
  obtain rfl : isMethod' = isMethod := hmethod
  have htarget : key target' = key target := htarget
  refine (swaps_functionBody h first first' isMethod').return ?_ ?_
  · intro function function' _ _ hf
    have htargets : key ⟨.targetList [target'], target'.span⟩ = key ⟨.targetList [target], target.span⟩ :=
      h.outlines.congr (by simp [Form.map, htarget])
    have hvalues : key ⟨.valueList [function'], function'.span⟩ = key ⟨.valueList [function], function.span⟩ :=
      h.outlines.congr (by simp [Form.map, hf])
    exact h.outlines.congr (by simp [Form.map, htargets, hvalues])
  · rintro _ function _ ⟨_, _, -, _, _, -, _, _, -, _, _, -, _, -, rfl⟩ ⟨⟨hin, hne⟩, -⟩
    obtain ⟨child, hm, hc⟩ := (Node.inside_mk h.sought rfl).mp (Node.inside_values hin rfl hne)
    exact List.mem_singleton.mp hm ▸ hc

theorem swaps_target : Swaps key n same .token key n.Inside (Target (phrases levels)) (Target (phrases (levels + 1))) := by
  have hsuffixed : Swaps key n same .token key n.Inside (Suffixed (phrases levels)) (Suffixed (phrases (levels + 1))) :=
    swaps_suffixed h
  exact hsuffixed.kept fun v v' hv ha => (h.outlines.isAssignable hv).trans ha

theorem swaps_assignment {first first' : Node} (hf : key first' = key first) : Swaps key n same .token key
    (fun v => (n.Inside v ∧ ¬ (v = n ∧ n.tag = .assignment)) ∧ ¬ n.Inside first) (Assignment (phrases levels) first)
    (Assignment (phrases (levels + 1)) first') := by
  have hcarries (x : Excerpt) : (phrases levels).Carries x (phrases (levels + 1)) := phrases_carries levels 1
  have htarget (x : Excerpt) : Carries x .token (After "," (Target (phrases levels)))
      (After "," (Target (phrases (levels + 1)))) x.node :=
    ((carries_target (hcarries x)).mono Room.within_token).after ","
  have hstays : Stays .token
      (fun s others s' => Sequence (After "," (Target (phrases levels))) s others s' ∧ ¬ s'.Next [","])
      (fun s others s' => Sequence (After "," (Target (phrases (levels + 1)))) s others s' ∧ ¬ s'.Next [","]) :=
    stays_list fun x => (htarget x).sequence.until (Excerpt.keeps_not_next Room.within_token)
  refine ((((swaps_target h).after ",").sequence (stays_node htarget)).until (copied_not_next _)).bind hstays
    fun others others' ho => .takes fun _ _ => (swaps_expressions h).return ?_ ?_
  · intro values values' _ _ hv
    have htargets : key (.ofItems .targetList (first' :: others') 0) = key (.ofItems .targetList (first :: others) 0) :=
      key_ofItems h 0 0 (by simp [Form.map, hf, ho])
    have hvalues := key_valueList h (.ofItems .targetList (first :: others) 0)
      (.ofItems .targetList (first' :: others') 0) hv
    exact h.outlines.congr (by simp only [Form.map, htargets, hvalues])
  · rintro _ values _ - ⟨⟨⟨hin, hne⟩, hfirst⟩, hothers⟩
    rcases Node.inside_assignment hin hne with hc | hc
    · obtain ⟨v, hm, hv⟩ := inside_items h rfl rfl hc
      rcases List.mem_cons.mp hm with rfl | hm
      · exact (hfirst hv).elim
      · exact (hothers ⟨v, hm, hv⟩).elim
    · exact inside_items h rfl rfl hc

theorem swaps_expressionStatement : Swaps key n same .token key
    (fun v => n.Inside v ∧ ¬ (v = n ∧ n.tag = .assignment)) (ExpressionStatement (phrases levels))
    (ExpressionStatement (phrases (levels + 1))) := by
  have hstays : Stays .token (Suffixed (phrases levels)) (Suffixed (phrases (levels + 1))) :=
    stays_node fun x => (carries_suffixed (phrases_carries levels 1)).mono Room.within_token
  refine (swaps_suffixed h).bind hstays fun first first' hf => .or (.none hf (fun hin => hin.2 hin.1.1) ?_) ?_
  · exact fun _ _ _ _ hc => (h.outlines.isCall hf).trans hc
  · have hcall : ¬ first.form.isCall → ¬ first'.form.isCall := fun hn hc => hn ((h.outlines.isCall hf).symm.trans hc)
    exact .and hcall fun _ => .and (fun ha => (h.outlines.isAssignable hf).trans ha) fun _ => swaps_assignment h hf

/-- What there is in a statement that is not sought itself. -/
theorem swaps_innerStatement : Swaps key n same .token key (fun v => n.Inside v ∧ ¬ (v = n ∧ n.tag = .assignment))
    (Statement (phrases levels)) (Statement (phrases (levels + 1))) := by
  have hinner {P P' : Phrase Node} (hp : Swaps key n same .token key n.Inside P P') :
      Swaps key n same .token key (fun v => n.Inside v ∧ ¬ (v = n ∧ n.tag = .assignment)) P P' :=
    hp.mono (Room.within_self _) id fun _ hv => hv.1
  exact (hinner (swaps_ifStatement h)).or <| (hinner (swaps_doStatement h)).or <| (hinner (swaps_whileStatement h)).or <|
    (hinner (swaps_repeatStatement h)).or <| (hinner (swaps_forStatement h)).or <|
    (hinner (swaps_localStatement h)).or <| (swaps_functionStatement h).or <|
    (hinner (swaps_atom h "break" rfl rfl)).or <| (hinner (swaps_labelStatement h)).or <|
    (hinner (swaps_gotoStatement h)).or (swaps_expressionStatement h)

end Assignments

section Blocks
variable {s s' : Stream}

omit h in
theorem sequence_leads {found : List (Option Node)} (hs : Sequence (StatementOrEmpty (phrases levels)) s found s') :
    s.Reaches s' := by
  have hcarried := carries_sequence (x := default) (phrases_carries levels 1) ⟨hs, Excerpt.clear_of_tail rfl⟩
  exact hcarried.1

omit h in
/-- No expression goes on where a statement begins or a block ends. -/
theorem not_next_operator {found : List (Option Node)} (hs : Sequence (StatementOrEmpty (phrases levels)) s found s')
    (hend : BlockEnds s') : ¬ s.Next ("," :: Slot.operatorKinds) := by
  cases hs with
  | nil =>
    rcases hend with hnil | hends
    · exact Stream.not_next_of_nil hnil
    · exact hends.disjoint (by decide)
  | cons hfirst _ =>
    have hopens := (Grammar.predicts_statementForms (Grammar.follows_nesting levels)).opens hfirst
    exact hopens.disjoint (by decide)

theorem copies_sequence : Copies (List.map (Option.map key)) (Sequence (StatementOrEmpty (phrases levels)))
    (Sequence (StatementOrEmpty (phrases (levels + 1)))) := by
  intro x s found s' hw hc hs
  have hcarried := carries_sequence (x := x) (phrases_carries levels 1) ⟨hs, Excerpt.clear_of_tail hw.tail⟩
  refine ⟨found.map (Option.map x.node), hcarried.2 hc (hw.leaves _ _), ?_⟩
  rw [List.map_map]
  refine List.map_congr_left fun v _ => ?_
  rw [Function.comp_apply, Option.map_map]
  exact Option.map_congr fun v _ => h.outlines.respan x.span v

/-- A statement in front of others. -/
theorem found_statement {m : Stream} {first : Option Node} {others : List (Option Node)}
    (hfirst : StatementOrEmpty (phrases levels) s first m) (hothers : Sequence (StatementOrEmpty (phrases levels)) m others s')
    (hend : BlockEnds s') (hin : ∃ v ∈ first, n.Inside v) :
    Found key n .statement s m fun x => ∃ first', StatementOrEmpty (phrases (levels + 1)) (x.front.stream s) first'
      (x.back.stream m) ∧ first'.map key = first.map key := by
  obtain ⟨v, hm, hv⟩ := hin
  rcases hfirst with ⟨span, -, rfl⟩ | ⟨w, hw, rfl⟩
  · cases hm
  obtain rfl := Option.some.inj hm
  by_cases heq : w = n ∧ n.tag = .assignment
  · obtain ⟨rfl, htag⟩ := heq
    have hreads : Slot.statement.Reads (phrases levels) w s m := ⟨hw, htag, not_next_operator hothers hend⟩
    refine (Found.slot hreads).before .refl ?_
    rintro x - - ⟨w', hw', hkey⟩
    exact ⟨some w', .inr ⟨w', hw', rfl⟩, congrArg some hkey⟩
  · refine ((swaps_innerStatement h).finds trivial hw ⟨hv, heq⟩).lift .refl .refl ?_
    rintro x - - - hl - - ⟨w', hw', hkey⟩
    exact ⟨hl.mono Room.within_token, some w', .inr ⟨w', hw', rfl⟩, congrArg some hkey⟩

theorem swaps_sequence : Swaps key n same .statement (List.map (Option.map key))
    (fun found => ∃ first ∈ found, ∃ v ∈ first, n.Inside v)
    (fun s found s' => Sequence (StatementOrEmpty (phrases levels)) s found s' ∧ BlockEnds s')
    (fun s found s' => Sequence (StatementOrEmpty (phrases (levels + 1))) s found s' ∧ BlockEnds s') := by
  have hends {x : Excerpt} {s : Stream} (hw : x.Whole) (hs : BlockEnds s) : BlockEnds (x.stream s) :=
    Excerpt.keeps_blockEnds_of_tail hw.tail s (hw.leaves [] s) hs
  refine ⟨fun _ _ _ hs => sequence_leads hs.1, ?_, ?_⟩
  · rintro x s found s' hw hc ⟨hs, hend⟩
    obtain ⟨found', hfound', hkey⟩ := copies_sequence h hw hc hs
    exact ⟨found', ⟨hfound', hends hw hend⟩, hkey⟩
  rintro s found s' - ⟨hs, hend⟩ hin
  induction hs with
  | nil =>
    obtain ⟨first, hm, -⟩ := hin
    cases hm
  | @cons s m s' first others hfirst hothers ih =>
    have hreach : s.Reaches m := by
      have hcarried := carries_statementOrEmpty (x := default) (phrases_carries levels 1) ⟨hfirst, Excerpt.clear_of_tail rfl⟩
      exact hcarried.1
    by_cases hsought : ∃ v ∈ first, n.Inside v
    · refine (found_statement h hfirst hothers hend hsought).before (sequence_leads hothers) ?_
      rintro x hw hc ⟨first', hfirst', hkey⟩
      obtain ⟨others', hothers', hkeys⟩ := copies_sequence h hw hc hothers
      have hend' := hends hw hend
      exact ⟨first' :: others', ⟨.cons hfirst' hothers', hend'⟩, by simp only [List.map_cons, hkey, hkeys]⟩
    · have hbehind : ∃ w ∈ others, ∃ v ∈ w, n.Inside v := by
        obtain ⟨w, hm, hw⟩ := hin
        rcases List.mem_cons.mp hm with rfl | hm
        · exact (hsought hw).elim
        · exact ⟨w, hm, hw⟩
      have hcomma : ¬ m.Next [","] := by
        cases hothers with
        | nil =>
          obtain ⟨w, hm, -⟩ := hbehind
          cases hm
        | cons hnext _ => exact not_next_of_statement hnext
      refine (ih hend hbehind).behind hreach (fun x hl => hl.before hreach.length_le) ?_
      rintro x hi hc hl ⟨others', ⟨hothers', hend'⟩, hkeys⟩
      have hcarried := carries_statementOrEmpty (x := x.front) (phrases_carries levels 1) ⟨hfirst, .inr hcomma⟩
      have hfirst' := hcarried.2 hc hl
      rw [Excerpt.node_eq hi, Option.map_id] at hfirst'
      exact ⟨first :: others', ⟨.cons hfirst' hothers', hend'⟩, by simp only [List.map_cons, hkeys]⟩

theorem swaps_statements : Swaps key n same .statement (List.map key) (fun listed => ∃ v ∈ listed, n.Inside v)
    (Statements (phrases levels)) (Statements (phrases (levels + 1))) := by
  have hcarries (x : Excerpt) : (phrases levels).Carries x (phrases (levels + 1)) := phrases_carries levels 1
  refine (swaps_sequence h).seq ?_ fun found found' hfound =>
    ((swaps_returnStatement h).optional (copied_not_next _)).return ?_ ?_
  · rintro x s found m listed s' - hi hc hl ⟨hs, hend⟩ ⟨last, hlast, rfl⟩ ⟨⟨v, hm, hv⟩, hfound⟩
    have hcarried := carries_sequence (hcarries x) ⟨hs, .inr ?_⟩
    · have hmap : List.map (Option.map x.node) = id := by rw [Excerpt.node_eq hi, Option.map_id, List.map_id_fun]
      have hput := hcarried.2 hc (hl.mono Room.within_token)
      rw [hmap] at hput
      exact ⟨⟨hput, Excerpt.keeps_blockEnds m hl hend⟩, .of_lt (Nat.lt_of_lt_of_le hl hcarried.1.length_le)⟩
    · rcases hend with hnil | hends
      · exact Stream.not_next_of_nil hnil
      · exact hends.disjoint (by decide)
  · intro last last' _ _ hlast
    have hflat (found : List (Option Node)) :
        (found.flatMap Option.toList).map key = (found.map (Option.map key)).flatMap Option.toList := by
      rw [List.map_flatMap, List.flatMap_map]
      congr 1
      funext v
      cases v <;> rfl
    have hlast : last'.toList.map key = last.toList.map key := by
      cases last <;> cases last' <;> simp at hlast ⊢
      exact hlast
    rw [List.map_append, List.map_append, hflat, hflat, hfound, hlast]
  · rintro _ last _ - ⟨⟨v, hm, hv⟩, hfound⟩
    rcases List.mem_append.mp hm with hm | hm
    · obtain ⟨first, hfirst, hm⟩ := List.mem_flatMap.mp hm
      exact (hfound ⟨first, hfirst, v, Option.mem_toList.mp hm, hv⟩).elim
    · exact ⟨v, Option.mem_toList.mp hm, hv⟩

theorem swaps_block : Swaps key n same .statement key n.Inside (Block (phrases levels))
    (Block (phrases (levels + 1))) := by
  have hs : Swaps key n same .statement (List.map key) (fun listed => ∃ v ∈ listed, n.Inside v)
      (Statements (phrases levels)) (Statements (phrases (levels + 1))) := swaps_statements h
  -- where an empty block is anchored does not matter
  have hkey {listed listed' : List Node} (anchor anchor' : Nat) (hl : listed'.map key = listed.map key) :
      key (.ofItems .block listed' anchor') = key (.ofItems .block listed anchor) :=
    key_ofItems h anchor anchor' (by simp [Form.map, hl])
  refine ⟨?_, ?_, ?_⟩
  · rintro s v s' ⟨listed, hlisted, -⟩
    exact hs.leads hlisted
  · rintro x s v s' hw hc ⟨listed, hlisted, rfl⟩
    obtain ⟨listed', hlisted', hl⟩ := hs.copies hw hc hlisted
    exact ⟨_, ⟨listed', hlisted', rfl⟩, hkey _ _ hl⟩
  · rintro s v s' hsame ⟨listed, hlisted, rfl⟩ hin
    refine (hs.finds hsame hlisted (inside_items h rfl rfl hin)).before .refl ?_
    rintro x - - ⟨listed', hlisted', hl⟩
    exact ⟨_, ⟨listed', hlisted', rfl⟩, hkey _ _ hl⟩

end Blocks

end Phrase

/-- What is sought is found in all phrases. -/
theorem phrases_swaps (ho : Node.Outlines key) (hn : n.tag.isSwappable) (levels : Nat) :
    Phrases.Swaps key n levels := by
  induction levels with
  | zero =>
    have hnone {room : Room} {P' : Phrase Node} : Phrase.Swaps key n True room key n.Inside (fun _ _ _ => False) P' :=
      ⟨nofun, nofun, nofun⟩
    exact ⟨ho, hn, hnone, hnone, hnone, hnone⟩
  | succ levels ih =>
    exact ⟨ho, hn, Phrase.swaps_expression ih, Phrase.swaps_concatenation ih, Phrase.swaps_unary ih, Phrase.swaps_block ih⟩

end LuaSyntax
