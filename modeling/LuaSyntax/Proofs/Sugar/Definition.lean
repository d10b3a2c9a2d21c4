import LuaSyntax.Proofs.Span.Gap
import LuaSyntax.Proofs.Sugar.Expression

/-! # Function statements as assignments

A function statement assigns a function to a dotted name, and a method definition one with a
parameter more.
-/
namespace LuaSyntax
variable {κ : Type}

open Phrase

open Grammar (indexed selfParameter)

theorem noDot_of_takes {s s' : Stream} {word : String} {span : Span} (h : s.Takes word span s') (hw : word ≠ ".") : s.NoDot := by
  refine ⟨h.opens.disjoint (by simpa [Token.kind] using hw), fun lexeme hm value hvalue => ?_⟩
  obtain ⟨first, hl, htoken, -⟩ := h
  rw [hl] at hm
  obtain rfl := Option.some.inj hm
  rw [htoken] at hvalue
  cases hvalue

namespace Phrase
variable {nested : Phrases} {levels size : Nat} {source : Bytes} {s m s' : Stream} {v n : Node} {key : Node → κ} {span : Span}

/-- A name and further names, each after a dot. -/
def Dotted : Phrase Node := fun s v s' =>
  ∃ base m, Name s base m ∧ Steps (fun v s w s' => PathStep v s w s') base m v s'

theorem functionName_cases {target : Node × Bool} (h : FunctionName s target s') :
    (Dotted s target.1 s' ∧ target.2 = false) ∨
      ∃ object m colon m' name k, Dotted s object m ∧ m.Takes ":" colon m' ∧ Identifier name ∧ m'.Takes (.name name) k s' ∧
        target = (indexed object ⟨.string name, k⟩, true) := by
  obtain ⟨base, m, hbase, path, m', ⟨hpath, -⟩, ⟨colon, m₁, hcolon, method, ⟨name, hi, k, hk, rfl⟩, rfl⟩ | ⟨-, rfl, rfl⟩⟩ := h
  · exact .inr ⟨path, m', colon, m₁, name, k, ⟨base, m, hbase, hpath⟩, hcolon, hi, hk, rfl⟩
  · exact .inl ⟨⟨base, m, hbase, hpath⟩, rfl⟩

namespace Dotted

theorem carries {x : Excerpt} {room : Room} : Carries x room Dotted Dotted x.node :=
  closes_name.carries.bind fun base => .steps (fun v => (closes_pathStep v).carries) base

theorem step {dot k : Span} {m' : Stream} {name : Bytes} (h : Dotted s v m) (hdot : m.Takes "." dot m')
    (hi : Identifier name) (hk : m'.Takes (.name name) k s') : Dotted s (indexed v ⟨.string name, k⟩) s' := by
  obtain ⟨base, m₁, hbase, hpath⟩ := h
  exact ⟨base, m₁, hbase, hpath.snoc ⟨dot, m', hdot, _, ⟨name, hi, k, hk, rfl⟩, rfl⟩⟩

theorem suffixed (h : Dotted s v s') (hs : NoSuffix s') : Suffixed nested s v s' := by
  obtain ⟨base, m, hbase, hpath⟩ := h
  refine ⟨base, m, .inl hbase, ?_, hs⟩
  clear hbase
  induction hpath with
  | refl => exact .refl
  | cons hstep _ ih => exact .cons (.inl hstep) (ih hs)

theorem assignable (h : Dotted s v s') : v.form.isAssignable ∧ ¬ v.form.isCall := by
  obtain ⟨base, m, ⟨text, -, span, -, rfl⟩, hpath⟩ := h
  refine hpath.invariant (P := fun v => v.form.isAssignable ∧ ¬ v.form.isCall) ?_ ⟨rfl, nofun⟩
  rintro v s w s' - ⟨dot, m, -, k, -, rfl⟩
  exact ⟨rfl, nofun⟩

theorem spans (ho : s.Ordered size) (h : Dotted s v s') : s.Spans size (s.position + 1) v s' := by
  obtain ⟨base, m, hbase, hpath⟩ := h
  exact .steps pathStep_spans (spanned_name ho hbase) hpath

theorem next (h : Dotted s v s') : s.Next [.name] := by
  obtain ⟨base, m, ⟨text, -, span, ht, -⟩, -⟩ := h
  exact ht.opens

theorem last (h : Dotted s v s') : ∃ m text span, s.Reaches m ∧ m.Takes (.name text) span s' := by
  obtain ⟨base, m, ⟨text, -, span, ht, -⟩, hpath⟩ := h
  refine hpath.keeps (P := fun _ s' => ∃ m text span, s.Reaches m ∧ m.Takes (.name text) span s') ?_ ⟨s, text, span, .refl, ht⟩
  rintro v s₁ w s₂ ⟨m, text, span, hr, ht⟩ ⟨dot, m', hdot, k, ⟨name, -, span', hk, -⟩, -⟩
  exact ⟨m', name, span', hr.trans (ht.reaches.trans hdot.reaches), hk⟩

end Dotted

theorem statement_of_dotted {p t t' : Stream} {equals word : Span} {f : Node} (hv : Dotted s v p)
    (he : p.Takes "=" equals t) (hw : t.Takes "function" word t') (hf : FunctionBody (phrases levels) word false t' f s')
    (hs : ¬ s'.Next ("," :: Slot.operatorKinds)) :
    ∃ targets values span, Statement (phrases (levels + 1)) s
      ⟨.assignment ⟨.targetList [v], targets⟩ ⟨.valueList [f], values⟩, span⟩ s' := by
  have hoperators : ¬ s'.Next Slot.operatorKinds := fun hn => hs (hn.mono fun _ => List.mem_cons_of_mem _)
  have hcomma : ¬ s'.Next [","] := fun hn => hs (hn.mono (by decide))
  have hsimple : Simple (phrases levels) t f s' :=
    .inr (.inr (.inr (.inr (.inr (.inr (.inl ⟨word, t', hw, hf⟩))))))
  have hvalues : Expressions (phrases (levels + 1)) t [f] s' :=
    ⟨f, s', expression_of_simple hsimple hoperators, [], ⟨.nil, hcomma⟩, rfl⟩
  have hnot (kinds : List Kind) (hk : ∀ kind ∈ [Kind.fixed "="], kind ∉ kinds) : ¬ p.Next kinds := he.opens.disjoint hk
  have hend : NoSuffix p := ⟨noDot_of_takes he (by decide), hnot _ (by decide)⟩
  obtain ⟨hassignable, hcall⟩ := hv.assignable
  have hassignment : ExpressionStatement (phrases (levels + 1)) s _ s' :=
    ⟨v, p, hv.suffixed hend, .inr ⟨hcall, hassignable, [], p, ⟨.nil, hnot _ (by decide)⟩, _, _, he, _, hvalues, rfl⟩⟩
  exact ⟨_, _, _, .inr (.inr (.inr (.inr (.inr (.inr (.inr (.inr (.inr (.inr hassignment)))))))))⟩

/-- An assignment whose values begin where it does is a function statement. -/
theorem functionStatement_of_values {targets values : Node} (ho : s.Ordered size)
    (h : Statement (phrases levels) s ⟨.assignment targets values, span⟩ s') (hp : values.span.pos = span.pos) :
    FunctionStatement (phrases levels) s ⟨.assignment targets values, span⟩ s' := by
  have hspanned := (spanned_statement (phrases_spanned size levels) ho h).spanned
  rcases statement_cases h with hplain | ⟨first, m, -, ⟨second, m', -, declared, m'', -, function, -, heq⟩ |
    ⟨-, declared, m', -, names, m'', -, values', -, heq⟩⟩ | hfunction | hassignment
  · cases hplain
  · cases heq
  · cases heq
  · exact hfunction
  · have hbefore := expressionStatement_before (phrases_rows size levels) ho hassignment targets values rfl
    have hmem : targets ∈ (⟨.assignment targets values, span⟩ : Node).preorder :=
      Node.mem_preorder_of_child (.head _) (Node.mem_preorder_self targets)
    obtain ⟨hpos, -⟩ := hspanned.contains targets hmem
    obtain ⟨hle, -⟩ := hspanned targets hmem
    simp only at hpos
    omega

theorem key_definition (hk : Node.Outlines key) {v v' f f' : Node} {targets targets' values values' span' : Span}
    (hv : key v' = key v) (hf : key f' = key f) :
    key ⟨.assignment ⟨.targetList [v'], targets'⟩ ⟨.valueList [f'], values'⟩, span'⟩ =
      key ⟨.assignment ⟨.targetList [v], targets⟩ ⟨.valueList [f], values⟩, span⟩ := by
  have htargets : key ⟨.targetList [v'], targets'⟩ = key ⟨.targetList [v], targets⟩ := hk.congr (by simp [Form.map, hv])
  have hvalues : key ⟨.valueList [f'], values'⟩ = key ⟨.valueList [f], values⟩ := hk.congr (by simp [Form.map, hf])
  exact hk.congr (by simp [Form.map, htargets, hvalues])

/-- Parameters, block and `end`, after the parenthesis that opens the parameters. -/
def BodyBehind (nested : Phrases) : Phrase (List Node × Node) := fun s parts s' =>
  ∃ listed m₁, (Parameters s listed m₁ ∨ ¬ s.Next ["...", .name] ∧ listed = [] ∧ m₁ = s) ∧
  ∃ closing m₂, m₁.Takes ")" closing m₂ ∧
  ∃ body m₃, nested.block m₂ body m₃ ∧
  ∃ last, m₃.Takes "end" last s' ∧ parts = (listed, body)

theorem functionBody_iff {word : Span} {isMethod : Bool} {f : Node} : FunctionBody nested word isMethod s f s' ↔
    ∃ opening m, s.Takes "(" opening m ∧ ∃ listed body, BodyBehind nested m (listed, body) s' ∧
      f = ⟨.function (if isMethod then selfParameter opening :: listed else listed) body isMethod, word.pos, s'.lastEnd⟩ := by
  constructor
  · rintro ⟨opening, m, hopen, listed, m₁, hlisted, closing, m₂, hclose, body, m₃, hbody, last, hlast, rfl⟩
    exact ⟨opening, m, hopen, listed, body, ⟨listed, m₁, hlisted, closing, m₂, hclose, body, m₃, hbody, last, hlast, rfl⟩, rfl⟩
  · rintro ⟨opening, m, hopen, listed, body, ⟨listed', m₁, hlisted, closing, m₂, hclose, body', m₃, hbody, last, hlast, heq⟩, rfl⟩
    cases heq
    exact ⟨opening, m, hopen, listed, m₁, hlisted, closing, m₂, hclose, body, m₃, hbody, last, hlast, rfl⟩

theorem closes_bodyBehind {x : Excerpt} {nested' : Phrases} (h : nested.Carries x nested') :
    Closes x (BodyBehind nested) (BodyBehind nested') (Prod.map (List.map x.node) x.node) := by
  refine ((carries_parameters.mono Room.within_token).or
    (carries_none rfl (Excerpt.keeps_not_next Room.within_token))).close fun listed => ?_
  exact (carries_takes ")").close fun _ => h.block.close fun body => (closes_takes "end").return fun _ _ => rfl

theorem BodyBehind.close {listed : List Node} {body : Node} (h : BodyBehind nested s (listed, body) s') (hl : listed = []) :
    ∃ closing m, s.Takes ")" closing m := by
  obtain ⟨listed', m₁, hlisted | ⟨-, -, rfl⟩, closing, m₂, hclose, body', m₃, -, last, -, heq⟩ := h
  · cases heq
    cases hlisted <;> cases hl
  · exact ⟨closing, m₂, hclose⟩

theorem BodyBehind.withSelf {t t' : Stream} {k : Span} {name : Bytes} {listed : List Node} {body : Node}
    (h : BodyBehind nested s (listed, body) s') (hi : Identifier name) (ht : t.Takes (.name name) k t')
    (hs : if listed = [] then t' = s else ∃ comma, t'.Takes "," comma s) :
    BodyBehind nested t (⟨.name name, k⟩ :: listed, body) s' := by
  obtain ⟨listed', m₁, hlisted, closing, m₂, hclose, body', m₃, hbody, last, hlast, heq⟩ := h
  cases heq
  have hname : Name t ⟨.name name, k⟩ t' := ⟨name, hi, k, ht, rfl⟩
  refine ⟨_, m₁, .inl ?_, closing, m₂, hclose, body, m₃, hbody, last, hlast, rfl⟩
  rcases hlisted with hlisted | ⟨-, rfl, rfl⟩
  · have hne : listed ≠ [] := by cases hlisted <;> exact List.cons_ne_nil _ _
    rw [if_neg hne] at hs
    obtain ⟨comma, hcomma⟩ := hs
    exact .more hname hcomma hlisted
  · obtain rfl : t' = m₁ := hs
    exact .last hname (hclose.opens.disjoint (by decide))

theorem lays_function {tail : Bytes} {kind : Stream → Prop} (h : Lays tail kind) (hn : ∀ b ∈ tail.head?, ¬ isNamePart b) :
    Lays (.ofString "=" ++ ' '.toUInt8 :: (Bytes.ofString "function" ++ tail)) fun u =>
      ∃ equals t, u.Takes "=" equals t ∧ ∃ word t', t.Takes "function" word t' ∧ kind t' :=
  (h.withFixed "function" (by decide) (by decide) hn nofun).withSpace.withFixed "=" (by decide) (by decide)
    (Bytes.forall_head (by decide) _) nofun

/-- Where the word `function` stands only matters to the span. -/
theorem FunctionBody.start {word : Span} {isMethod : Bool} {f : Node} (h : FunctionBody nested word isMethod s f s')
    (word' : Span) : FunctionBody nested word' isMethod s ⟨f.form, word'.pos, s'.lastEnd⟩ s' := by
  obtain ⟨opening, m₁, hopen, listed, m₂, hlisted, closing, m₃, hclose, body, m₄, hbody, last, hlast, rfl⟩ := h
  exact ⟨opening, m₁, hopen, listed, m₂, hlisted, closing, m₃, hclose, body, m₄, hbody, last, hlast, rfl⟩

theorem Closes.last {α β : Type} {x : Excerpt} {P : Phrase α} {P' : Phrase β} {f : α → β} {a : α} (h : Closes x P P' f)
    (ha : P s a s') : ∃ m token span, s.Reaches m ∧ m.Takes token span s' := by
  rcases (h.free.leads ha).last with rfl | hlast
  · exact (Nat.lt_irrefl _ (h.consumes ha)).elim
  · exact hlast

theorem not_namePart_of_close {first : Stream} {token : Token} {closing : Span} (h : first.StandsIn source)
    (ht : first.Takes token span s) (hc : s.Takes ")" closing s') : ∀ b ∈ (source.drop s.lastEnd).head?, ¬ isNamePart b := by
  obtain ⟨hs, -, -, -, -, -, htrivia⟩ := h.takes ht
  have hdrop : source.slice ⟨s.lastEnd + 1, s.position⟩ ++ source.drop s.position = source.drop s.lastEnd :=
    Bytes.slice_drop hs.next
  generalize source.slice ⟨s.lastEnd + 1, s.position⟩ = trivia at htrivia hdrop
  cases trivia with
  | nil =>
    rw [← hdrop, List.nil_append, (hs.fixed hc).1]
    exact Bytes.forall_head (by decide) _
  | cons c others =>
    rw [← hdrop]
    refine Bytes.forall_head (fun hpart => ?_) _
    rcases htrivia.head c rfl with hspace | rfl
    · exact not_goesOnNumeral_of_isSpace hspace (by simp [goesOnNumeral, hpart])
    · exact absurd hpart (by decide)

theorem lays_self {first last : Stream} {opening : Span} {listed : List Node} {body : Node} (hk : Node.Outlines key)
    (hs : first.StandsIn source) (hopen : first.Takes "(" opening s)
    (h : BodyBehind (phrases levels) s (listed, body) last) :
    Lays (.ofString "self" ++ ((if listed = [] then [] else Bytes.ofString ", ") ++
        (source.slice ⟨s.lastEnd + 1, last.lastEnd⟩ ++ ' '.toUInt8 :: source.drop last.lastEnd))) fun u =>
      ∃ (k : Span) (listed' : List Node) (body' : Node) (back : Excerpt), back.Whole ∧ back.Covers last ∧
        BodyBehind (phrases levels) u (⟨.name (.ofString "self"), k⟩ :: listed', body') (back.stream last) ∧
        listed'.map key = listed.map key ∧ key body' = key body := by
  have hcloses (x : Excerpt) := closes_bodyBehind (phrases_carries levels 0 (x := x))
  obtain ⟨m, token, span, hm, ht⟩ := (hcloses default).last h
  have hafter := lays_after hs hopen hm ht
  have hself : Identifier (Bytes.ofString "self") := ⟨by decide, by decide +kernel, by decide⟩
  have hmap {back : Excerpt} : (listed.map back.node).map key = listed.map key := by
    rw [List.map_map]
    exact List.map_congr_left fun v _ => hk.respan back.span v
  have hput {u t : Stream} {k : Span} {back : Excerpt} (hwhole : back.Whole) (hback : back.Covers s)
      (hname : u.Takes (.name (.ofString "self")) k t)
      (hnext : if listed.map back.node = [] then t = back.stream s else ∃ comma, t.Takes "," comma (back.stream s)) :
      ∃ (k : Span) (listed' : List Node) (body' : Node) (back : Excerpt), back.Whole ∧ back.Covers last ∧
        BodyBehind (phrases levels) u (⟨.name (.ofString "self"), k⟩ :: listed', body') (back.stream last) ∧
        listed'.map key = listed.map key ∧ key body' = key body := by
    have hbody := ((hcloses back).free h).2 hback (hwhole.leaves _ _)
    exact ⟨k, _, _, back, hwhole, hback.reaches (hm.trans ht.reaches), hbody.withSelf hself hname hnext, hmap, hk.respan _ _⟩
  by_cases hnil : listed = []
  · have hpart : ∀ b ∈ (source.slice ⟨s.lastEnd + 1, last.lastEnd⟩ ++ ' '.toUInt8 :: source.drop last.lastEnd).head?,
        ¬ isNamePart b := by
      have hs' := (hs.takes hopen).1
      have hlast := ((hs'.reaches hm).takes ht).1
      obtain ⟨-, -, -, -, hlt⟩ := (hs'.reaches hm).ordered.takes ht
      have hle := hm.position_le hs'.ordered
      have hnext := hs'.next
      rw [Bytes.slice_head (by omega) (Nat.le_trans hlast.next hlast.le)]
      obtain ⟨closing, m₁, hclose⟩ := h.close hnil
      exact not_namePart_of_close hs hopen hclose
    rw [if_pos hnil, List.nil_append]
    refine (hafter.withName hself hpart).mono ?_
    rintro u ⟨k, t, hname, back, hwhole, hback, rfl⟩
    exact hput hwhole hback hname (by rw [hnil]; rfl)
  · rw [if_neg hnil]
    have hcomma := hafter.withSpace.withSymbol "," (by decide) (by decide)
    refine (hcomma.withName hself (Bytes.forall_head (by decide) _)).mono ?_
    rintro u ⟨k, t, hname, comma, t', hcomma', back, hwhole, hback, rfl⟩
    refine hput hwhole hback hname ?_
    rw [if_neg (by simpa using hnil)]
    exact ⟨comma, hcomma'⟩

theorem lays_definition {p last : Stream} {word : Span} {f : Node} (hk : Node.Outlines key) (hs : s.StandsIn source)
    (hv : Dotted s v p) (hf : FunctionBody (phrases levels) word false p f last)
    (hend : ¬ last.Next ("," :: Slot.operatorKinds)) :
    Lays (source.slice ⟨s.position + 1, p.lastEnd⟩ ++ ' '.toUInt8 :: (Bytes.ofString "=" ++ ' '.toUInt8 ::
        (Bytes.ofString "function" ++ (source.slice ⟨p.lastEnd + 1, last.lastEnd⟩ ++
          ' '.toUInt8 :: source.drop last.lastEnd)))) fun u =>
      u.Next [.name] ∧ ∃ (back : Excerpt) (v' f' : Node) (targets values span : Span), back.Whole ∧ back.Covers last ∧
        Statement (phrases (levels + 1)) u ⟨.assignment ⟨.targetList [v'], targets⟩ ⟨.valueList [f'], values⟩, span⟩
          (back.stream last) ∧ key v' = key v ∧ key f' = key f := by
  obtain ⟨m, name, k, hm, hname⟩ := hv.last
  have hs' := hs.reaches hm
  have hp := (hs'.takes hname).1
  obtain ⟨m', token, span, hm', ht⟩ := (closes_functionBody (x := default) (phrases_carries levels 0) word false).last hf
  have hlast := ((hp.reaches hm').takes ht).1
  have hpart : ∀ b ∈ (source.slice ⟨p.lastEnd + 1, last.lastEnd⟩ ++ ' '.toUInt8 :: source.drop last.lastEnd).head?,
      ¬ isNamePart b := by
    obtain ⟨-, -, -, -, hlt⟩ := (hp.reaches hm').ordered.takes ht
    have hle := hm'.position_le hp.ordered
    have hnext := hp.next
    rw [Bytes.slice_head (by omega) (Nat.le_trans hlast.next hlast.le)]
    exact hs'.not_namePart hname
  have hassigned := (lays_function (lays_after hs' hname hm' ht) hpart).withSpace
  refine (hassigned.withSegment hs hm hname (hs'.precedes_name hname (Bytes.forall_head (by decide) _))
    (Bytes.forall_head (by decide) _) fun hd => absurd (Option.some.inj hd) (by decide)).mono ?_
  rintro u ⟨x, hafter, hcovers, rfl, equals, t, hequals, word', t', hword, back, hwhole, hback, rfl⟩
  have hcarries : Carries x (.apart []) Dotted Dotted x.node := Dotted.carries
  have hput := (hcarries hv).2 hcovers ⟨Nat.le_of_eq hafter, fun _ _ _ => List.not_mem_nil⟩
  have hbody := ((closes_functionBody (phrases_carries levels 0) word false).free hf).2 hback (hwhole.leaves _ _)
  have hend' : ¬ (back.stream last).Next ("," :: Slot.operatorKinds) :=
    Excerpt.keeps_not_next (Room.within_self _) last (hwhole.leaves _ _) hend
  obtain ⟨targets, values, span, hstatement⟩ := statement_of_dotted hput hequals hword (hbody.start word') hend'
  refine ⟨hput.next, back, _, _, targets, values, span, hwhole, hback.reaches ?_, hstatement, hk.respan x.span v, ?_⟩
  · exact (closes_functionBody (x := default) (phrases_carries levels 0) word false).free.leads hf
  · have hform : key ⟨(back.node f).form, word'.pos, (back.stream last).lastEnd⟩ = key (back.node f) := hk.of_form rfl
    exact hform.trans (hk.respan back.span f)

theorem lays_method {p first e last : Stream} {opening : Span} {name : Bytes} {listed : List Node} {body : Node}
    (hk : Node.Outlines key) (hs : s.StandsIn source) (hv : Dotted s v p) (hi : Identifier name)
    (hfirst : first.StandsIn source) (hopen : first.Takes "(" opening e)
    (h : BodyBehind (phrases levels) e (listed, body) last) (hend : ¬ last.Next ("," :: Slot.operatorKinds)) :
    Lays (source.slice ⟨s.position + 1, p.lastEnd⟩ ++ (.ofString "." ++ (name ++ ' '.toUInt8 :: (Bytes.ofString "=" ++
        ' '.toUInt8 :: (Bytes.ofString "function" ++ (Bytes.ofString "(" ++ (Bytes.ofString "self" ++
          ((if listed = [] then [] else Bytes.ofString ", ") ++ (source.slice ⟨e.lastEnd + 1, last.lastEnd⟩ ++
            ' '.toUInt8 :: source.drop last.lastEnd))))))))) fun u =>
      u.Next [.name] ∧ ∃ (back : Excerpt) (v' : Node) (k self : Span) (listed' : List Node) (body' : Node)
        (targets values function span : Span), back.Whole ∧ back.Covers last ∧
          Statement (phrases (levels + 1)) u ⟨.assignment ⟨.targetList [indexed v' ⟨.string name, k⟩], targets⟩
            ⟨.valueList [⟨.function (⟨.name (.ofString "self"), self⟩ :: listed') body' false, function⟩], values⟩, span⟩
              (back.stream last) ∧
          key v' = key v ∧ listed'.map key = listed.map key ∧ key body' = key body := by
  obtain ⟨m, text, k, hm, hname⟩ := hv.last
  have hs' := hs.reaches hm
  have hself := (lays_self hk hfirst hopen h).withSymbol "(" (by decide) (by decide)
  have hmethod := (lays_function hself (Bytes.forall_head (by decide) _)).withSpace.withName hi (Bytes.forall_head (by decide) _)
  have hstart {text : Bytes} : ∀ b ∈ (name ++ ' '.toUInt8 :: text).head?, ¬ joins "." b := by
    obtain ⟨c, others, rfl, hpart⟩ := hi.exists_cons
    rw [joins_dot]
    refine Bytes.forall_head (fun hb => ?_) _
    obtain rfl : c = '.'.toUInt8 := by simpa [isByte] using hb
    exact absurd hpart (by decide)
  have hdot := hmethod.withFixed "." (by decide) (by decide) hstart fun heq => absurd heq (by decide)
  refine (hdot.withSegment hs hm hname (hs'.precedes_name hname (Bytes.forall_head (by decide) _))
    (Bytes.forall_head (by decide) _) fun hd => absurd (Option.some.inj hd) (by decide)).mono ?_
  rintro u ⟨x, hafter, hcovers, rfl, dot, t, hdot', k', t', hk', equals, t₁, hequals, word, t₂, hword, opening', t₃, hopen',
    self, listed', body', back, hwhole, hback, hbehind, hlisted, hbody⟩
  have hcarries : Carries x (.apart []) Dotted Dotted x.node := Dotted.carries
  have hput := (hcarries hv).2 hcovers ⟨Nat.le_of_eq hafter, fun _ _ _ => List.not_mem_nil⟩
  have hend' : ¬ (back.stream last).Next ("," :: Slot.operatorKinds) :=
    Excerpt.keeps_not_next (Room.within_self _) last (hwhole.leaves _ _) hend
  have hfunction : FunctionBody (phrases levels) word false t₂ ⟨.function (⟨.name (.ofString "self"), self⟩ :: listed') body' false,
      word.pos, (back.stream last).lastEnd⟩ (back.stream last) :=
    functionBody_iff.mpr ⟨opening', t₃, hopen', _, _, hbehind, rfl⟩
  obtain ⟨targets, values, span, hstatement⟩ := statement_of_dotted (hput.step hdot' hi hk') hequals hword hfunction hend'
  exact ⟨hput.next, back, _, k', self, listed', body', targets, values, _, span, hwhole, hback, hstatement, hk.respan x.span v,
    hlisted, hbody⟩

end Phrase

section Sources
variable {source : Bytes} {limit : Nat} {filename : String} {root : Node}

/-- Where a function statement stands in a parsed source, another statement of the same outline may stand
that begins with a name. -/
theorem parse_restated {key : Node → κ} (h : parse source limit filename = .ok root) (hk : Node.Outlines key)
    {targets values : Node} {span : Span} (hn : (⟨.assignment targets values, span⟩ : Node).Inside root)
    (hp : values.span.pos = span.pos) :
    ∃ levels first last, first.StandsIn source ∧
      FunctionStatement (phrases levels) first ⟨.assignment targets values, span⟩ last ∧
      ¬ last.Next ("," :: Slot.operatorKinds) ∧
      ∀ text kind, Lays text kind → (∀ u, kind u → u.Next [.name] ∧ ∃ (back : Excerpt) (n' : Node), back.Whole ∧
          back.Covers last ∧ Statement (phrases (levels + 1)) u n' (back.stream last) ∧
          key n' = key ⟨.assignment targets values, span⟩) →
        ∃ root', Bytes.AcceptedAs (source.take first.position ++ ' '.toUInt8 :: text) root' ∧ key root' = key root := by
  obtain ⟨whole, slot, levels, first, last, hstands, -, hfirst, hreads, hparse⟩ := parse_swapped h hk rfl hn
  cases slot with
  | suffix object =>
    obtain ⟨⟨_, _, -, _, -, heq⟩ | ⟨_, _, -, _, _, -, _, -, heq⟩ | ⟨_, _, -, _, _, -, _, -, heq⟩ | ⟨_, -, heq⟩, -⟩ := hreads
    all_goals cases heq
  | field => cases hreads.2
  | statement =>
    obtain ⟨hstatement, -, hend⟩ := hreads
    have hs := hstands.reaches hfirst
    have hfunction := functionStatement_of_values hs.ordered hstatement hp
    refine ⟨levels, first, last, hs, hfunction, hend, fun text kind hlays hkind => ?_⟩
    have hne : first.lexemes ≠ [] := by
      obtain ⟨word, s, hword, -⟩ := hfunction
      exact hword.ne_nil
    refine hparse first text kind .refl hne hlays fun x _ _ hx => ?_
    obtain ⟨hnext, back, n', hwhole, hback, hput, hkey⟩ := hkind _ hx
    exact ⟨hnext.disjoint (by decide), back, hwhole, hback, n', hput, hkey⟩

theorem parse_assigned (h : parse source limit filename = .ok root) {target body : Node} {parameters : List Node}
    {targets values function span : Span}
    (hn : (⟨.assignment ⟨.targetList [target], targets⟩ ⟨.valueList [⟨.function parameters body false, function⟩], values⟩,
      span⟩ : Node).Inside root) (hp : values.pos = span.pos) :
    ∃ root', (source.replace span (.ofString " " ++ source.slice target.span ++ .ofString " = function" ++
        source.slice ⟨target.span.endPos + 1, span.endPos⟩ ++ .ofString " ")).AcceptedAs root' ∧ root'.EqBare root := by
  obtain ⟨levels, first, last, hfirst, ⟨word, s, hword, name, p, hname, f, hf, heq⟩, hend, hparse⟩ :=
    parse_restated h Node.outlines_bare hn hp
  obtain ⟨object, isMethod⟩ := name
  cases heq
  have hs := (hfirst.takes hword).1
  rcases functionName_cases hname with ⟨hdotted, rfl⟩ | ⟨_, _, _, _, _, _, -, -, -, -, hmethod⟩
  · have hlays := lays_definition Node.outlines_bare hs hdotted hf hend
    obtain ⟨root', haccepted, halike⟩ := hparse _ _ hlays (by
      rintro u ⟨hnext, back, v', f', targets', values', span', hwhole, hback, hput, hv, hf⟩
      exact ⟨hnext, back, _, hwhole, hback, hput, key_definition Node.outlines_bare hv hf⟩)
    refine ⟨root', ?_, halike⟩
    obtain ⟨-, -, hfirst', -⟩ := hfirst.ordered.takes hword
    obtain ⟨-, -, hpos, hend', -⟩ := hdotted.spans hs.ordered
    have hspan : object.span = ⟨s.position + 1, p.lastEnd⟩ := by rw [← hpos, ← hend']
    rw [hfirst', hspan]
    simp only [Bytes.replace, List.append_assoc] at haccepted ⊢
    exact haccepted
  · obtain ⟨-, rfl⟩ := Prod.mk.inj hmethod
    obtain ⟨_, _, -, _, _, -, _, _, -, _, _, -, _, -, hfunction⟩ := hf
    cases hfunction

/-- A method definition is the assignment of a function with a parameter `self` in front of the others, up
to whether it is a method. -/
theorem parse_unmethod (h : parse source limit filename = .ok root) {object body : Node} {name : Bytes}
    {parameters : List Node} {key path targets values function span : Span}
    (hn : (⟨.assignment ⟨.targetList [⟨.index object ⟨.string name, key⟩, path⟩], targets⟩
      ⟨.valueList [⟨.function parameters body true, function⟩], values⟩, span⟩ : Node).Inside root)
    (hp : values.pos = span.pos) :
    ∃ opening, source.OnlyTrivia key.endPos opening ∧ source[opening]? = some '('.toUInt8 ∧
      ∃ root', (source.replace span (.ofString " " ++ source.slice object.span ++ .ofString "." ++ name ++
          .ofString " = function(self" ++ (if parameters.length = 1 then [] else Bytes.ofString ", ") ++
          source.slice ⟨opening + 2, span.endPos⟩ ++ .ofString " ")).AcceptedAs root' ∧ root'.outline = root.outline := by
  obtain ⟨levels, first, last, hfirst, ⟨word, s, hword, target, q, hname, f, hf, heq⟩, hend, hparse⟩ :=
    parse_restated h Node.outlines_outline hn hp
  obtain ⟨target, isMethod⟩ := target
  cases heq
  have hs := (hfirst.takes hword).1
  rcases functionName_cases hname with ⟨-, rfl⟩ | ⟨object', p, colon, m, name', k, hdotted, hcolon, hi, hk, htarget⟩
  · obtain ⟨_, _, -, _, _, -, _, _, -, _, _, -, _, -, hfunction⟩ := hf
    cases hfunction
  · obtain ⟨hindex, rfl⟩ := Prod.mk.inj htarget
    cases hindex
    obtain ⟨opening, e, hopen, listed, body', hbehind, hfunction⟩ := functionBody_iff.mp hf
    cases hfunction
    have hcarries : Carries default .token Dotted Dotted (Excerpt.node default) := Dotted.carries
    have hreach : s.Reaches m := (hcarries.leads hdotted).trans hcolon.reaches
    have hm := hs.reaches hreach
    have hq := (hm.takes hk).1
    obtain ⟨-, -, -, hkey, -⟩ := hm.ordered.takes hk
    obtain ⟨hbyte, hlast⟩ := hq.fixed hopen
    refine ⟨q.position, hkey ▸ hm.onlyTrivia hk, ?_, ?_⟩
    · rw [← List.head?_drop, hbyte]
      rfl
    · have hlays := lays_method Node.outlines_outline hs hdotted hi hq hopen hbehind hend
      obtain ⟨root', haccepted, houtline⟩ := hparse _ _ hlays (by
        rintro u ⟨hnext, back, v', k', self, listed', body', targets', values', function', span', hwhole, hback, hput, hv,
          hlisted, hbody⟩
        refine ⟨hnext, back, _, hwhole, hback, hput, key_definition Node.outlines_outline ?_ ?_⟩
        · have hname : (⟨.string name, k'⟩ : Node).outline = (⟨.string name, key⟩ : Node).outline :=
            Node.outlines_outline.congr rfl
          exact Node.outlines_outline.congr (by simp [Form.map, hv, hname])
        · have hself : (⟨.name (.ofString "self"), self⟩ : Node).outline = (selfParameter opening).outline :=
            Node.outlines_outline.congr rfl
          exact Node.outline_function _ _ _ _ (by simp [hself, hlisted]) hbody)
      refine ⟨root', ?_, houtline⟩
      obtain ⟨-, -, hfirst', -⟩ := hfirst.ordered.takes hword
      obtain ⟨-, -, hpos, hend', -⟩ := hdotted.spans hs.ordered
      have hspan : object.span = ⟨s.position + 1, p.lastEnd⟩ := by rw [← hpos, ← hend']
      have hsize : (Bytes.ofString "(").length = 1 := rfl
      rw [hlast, hsize] at haccepted
      have hcomma : (if (selfParameter opening :: listed).length = 1 then [] else Bytes.ofString ", ") =
          if listed = [] then [] else Bytes.ofString ", " := by simp
      rw [hfirst', hspan, if_pos rfl, hcomma]
      simp only [Bytes.replace, List.append_assoc] at haccepted ⊢
      exact haccepted

end Sources

end LuaSyntax
