import LuaSyntax.Proofs.Shape.WellFormed
import LuaSyntax.Proofs.Span.Sibling
import LuaSyntax.Proofs.Excerpt.DerivedStatement

/-! # Gaps between statements

Every byte of a source belongs to a statement, to trivia or to an empty statement: between two
statements of a block, before the first statement of a chunk and after its last one there
is nothing else.
-/
namespace LuaSyntax

/-- Trivia and semicolons, in front of what follows them. -/
inductive Blank (tail : Bytes) : Bytes → Prop
  | nil : Blank tail []
  | trivium {text others : Bytes} (ht : TriviumSpelling (others ++ tail) text) (ho : Blank tail others) :
      Blank tail (text ++ others)
  | semicolon {others : Bytes} (ho : Blank tail others) : Blank tail (';'.toUInt8 :: others)

/-- From one offset of a source to another there are only trivia and semicolons. -/
def Gap (source : Bytes) (first last : Nat) : Prop :=
  ∃ front text tail, source = front ++ text ++ tail ∧ Blank tail text ∧ front.length = first ∧
    (front ++ text).length = last

/-- Between statements that follow each other there are only trivia and semicolons. -/
def Gaps (source : Bytes) : List Node → Prop
  | first :: second :: others =>
    Gap source first.span.endPos (second.span.pos - 1) ∧ Gaps source (second :: others)
  | _ => True

/-- The same between an offset and the first statement, and between the last statement and
another offset. -/
def Covers (source : Bytes) (first : Nat) : List Node → Nat → Prop
  | [], last => Gap source first last
  | v :: others, last => Gap source first (v.span.pos - 1) ∧ Covers source v.span.endPos others last

namespace Blank
variable {tail text others : Bytes}

theorem append (h : Blank (others ++ tail) text) (ho : Blank tail others) : Blank tail (text ++ others) := by
  induction h with
  | nil => exact ho
  | @trivium text rest ht _ ih =>
    rw [List.append_assoc]
    exact .trivium (by rwa [List.append_assoc]) ih
  | semicolon _ ih => exact .semicolon ih

theorem of_trivia (h : TriviaSpelling tail text) : Blank tail text := by
  induction h with
  | none => exact .nil
  | more ht _ ih => exact .trivium ht ih

end Blank

namespace Gap
variable {source : Bytes} {first m last : Nat}

theorem trans (h : Gap source first m) (h' : Gap source m last) : Gap source first last := by
  obtain ⟨front, text, tail, hsource, hblank, hfirst, hm⟩ := h
  obtain ⟨front', text', tail', hsource', hblank', hm', hlast⟩ := h'
  have heq : front ++ text ++ tail = front' ++ (text' ++ tail') := by
    rw [← hsource, hsource', List.append_assoc]
  obtain ⟨rfl, rfl⟩ := List.append_inj heq (hm.trans hm'.symm)
  refine ⟨front, text ++ text', tail', ?_, hblank.append hblank', hfirst, ?_⟩
  · rw [hsource', List.append_assoc, List.append_assoc]
    simp only [List.append_assoc]
  · rw [← List.append_assoc, hlast]

theorem refl (h : first ≤ source.length) : Gap source first first := by
  have hlength := List.length_take_of_le h
  refine ⟨source.take first, [], source.drop first, ?_, .nil, hlength, ?_⟩
  · rw [List.append_nil, List.take_append_drop]
  · rw [List.append_nil, hlength]

/-- The bytes between two places of a source. -/
theorem of_passes {start p p' : Place} {front text : Bytes} (hs : start.offset = 0) (h : start.Passes front p)
    (h' : p.Passes text p') (hb : Blank p'.rest text) : Gap start.rest p.offset p'.offset := by
  have hall := h.trans h'
  have hoffset := h.offset
  have hoffset' := hall.offset
  exact ⟨front, text, p'.rest, hall.rest, hb, by omega, by omega⟩

end Gap

/-- A stream is cut from a source: its lexemes are those that are left at a cursor. -/
def Stream.CutFrom (source : Bytes) (s : Stream) : Prop :=
  ∃ c front, Lexed c s ∧ (Cursor.start source).Passes front c.toPlace

namespace Stream
variable {source : Bytes} {s m s' : Stream} {token : Token} {taken : Span}

/-- A token takes up its own bytes, and there are only trivia up to the next one. -/
theorem CutFrom.takes (h : s.CutFrom source) (ht : s.Takes token taken s') :
    s'.CutFrom source ∧ Gap source s'.lastEnd s'.position ∧
      (token = .fixed ";" → Gap source s.position s'.lastEnd) := by
  obtain ⟨c, front, hlexed, hfront⟩ := h
  obtain ⟨lexeme, c', hreads, hlexed', rfl, rfl⟩ := hlexed.takes_reads ht
  obtain ⟨p', hread, hspelling, hskip⟩ := hreads.token
  obtain ⟨trivia, htrivia, -, hpasses, hlast⟩ := Parse.skipTrivia_spelling hskip
  have hp' := hfront.trans hspelling
  refine ⟨⟨c', _, hlexed', hp'.trans hpasses⟩, ?_, fun htoken => ?_⟩
  · rw [hlexed'.lastEnd, hlexed'.position, hlast]
    exact .of_passes rfl hp' hpasses (.of_trivia htrivia)
  · rw [hlexed.position, hlexed'.lastEnd, hlast]
    rw [hread.eq_ofString htoken hspelling] at hspelling
    exact .of_passes rfl hfront hspelling (.semicolon .nil)

theorem CutFrom.reaches (h : s.CutFrom source) (hr : s.Reaches s') :
    s'.CutFrom source ∧ (s' = s ∨ Gap source s'.lastEnd s'.position) := by
  induction hr with
  | refl => exact ⟨h, .inl rfl⟩
  | take ht _ ih =>
    obtain ⟨hm, hgap, -⟩ := h.takes ht
    obtain ⟨hcut, hs'⟩ := ih hm
    refine ⟨hcut, .inr ?_⟩
    rcases hs' with rfl | hs'
    · exact hgap
    · exact hs'

/-- What is left of the source at the position of the stream is cut into its lexemes. -/
theorem CutFrom.lexed (h : s.CutFrom source) :
    ∃ c, Lexed c s ∧ c.rest = source.drop s.position ∧ s.position ≤ source.length := by
  obtain ⟨c, front, hlexed, hfront⟩ := h
  have hposition : s.position = front.length := by
    rw [hlexed.position, hfront.offset]
    exact Nat.zero_add _
  obtain rfl : source = front ++ c.rest := hfront.rest
  refine ⟨c, hlexed, ?_, ?_⟩
  · rw [hposition, List.drop_left]
  · rw [hposition, List.length_append]
    exact Nat.le_add_right _ _

theorem CutFrom.keyword_iff {word : String} (h : s.CutFrom source) (hw : word ∈ reservedWords)
    (hn : s.next? = some token) : startsWithKeyword word (source.drop s.position) ↔ token = .fixed word := by
  obtain ⟨c, hlexed, hrest, -⟩ := h.lexed
  obtain ⟨p', hread⟩ := hlexed.next_reads hn
  rw [← hrest]
  exact hread.word_iff hw

theorem CutFrom.blanks {first : Nat} {blanks : List Span} (h : s.CutFrom source) (hg : Gap source first s.position)
    (hb : Sequence (fun s span s' => s.Takes ";" span s') s blanks s') : Gap source first s'.position := by
  induction hb with
  | nil => exact hg
  | cons ht _ ih =>
    obtain ⟨hm, hgap, hsemicolon⟩ := h.takes ht
    exact ih hm ((hg.trans (hsemicolon rfl)).trans hgap)

end Stream

namespace Phrase
variable {source : Bytes} {size levels : Nat} {s m s' : Stream} {v : Node} {listed : List Node}

theorem gap_after {first : Nat} (hs : s.CutFrom source) (ho : s.Ordered size) (hr : s.Reaches s')
    (hv : s.Spans size first v s') : Gap source v.span.endPos s'.position := by
  rw [hv.endPos]
  rcases (hs.reaches hr).2 with rfl | hgap
  · have hlt := hv.lt
    have hnext := ho.next
    omega
  · exact hgap

theorem gaps_series (hs : s.CutFrom source) (ho : s.Ordered size) (h : Series (phrases levels) s listed s') :
    Gaps source listed ∧ ∃ v others, listed = v :: others ∧ v.span.pos = s.position + 1 := by
  have hspans := phrases_spanned size levels
  have hcarries : (phrases levels).Carries default (phrases levels) := phrases_carries levels 0
  induction h with
  | last h => exact ⟨trivial, _, _, rfl, (spanned_statement hspans ho h).pos⟩
  | ret h => exact ⟨trivial, _, _, rfl, (spanned_returnStatement hspans ho h).pos⟩
  | @more s m m' s' v others blanks h hb _ ih =>
    have hv := spanned_statement hspans ho h
    have hreach := (carries_statement hcarries).reaches_cleared h
    have hm := (hs.reaches hreach).1
    have hblank := reaches_of_blanks hb
    obtain ⟨hgaps, w, rest, rfl, hpos⟩ := ih (hm.reaches hblank).1 (hblank.ordered hv.ordered)
    refine ⟨⟨?_, hgaps⟩, v, _, rfl, hv.pos⟩
    rw [hpos, Nat.add_sub_cancel]
    exact hm.blanks (gap_after hs ho hreach hv) hb

theorem covers_statements {first : Nat} (hs : s.CutFrom source) (ho : s.Ordered size)
    (hg : Gap source first s.position) (h : Statements (phrases levels) s listed s') :
    Covers source first listed s'.position := by
  have hspans := phrases_spanned size levels
  have hcarries : (phrases levels).Carries default (phrases levels) := phrases_carries levels 0
  obtain ⟨found, m, ⟨hfound, -⟩, last, hlast, rfl⟩ := h
  induction hfound generalizing first with
  | nil =>
    cases last with
    | none =>
      obtain ⟨-, rfl⟩ := hlast
      exact hg
    | some v =>
      have hv := spanned_returnStatement hspans ho hlast
      refine ⟨?_, gap_after hs ho ((carries_returnStatement hcarries).reaches hlast) hv⟩
      rwa [hv.pos, Nat.add_sub_cancel]
  | cons ha _ ih =>
    rcases ha with ⟨span, ht, rfl⟩ | ⟨v, hv, rfl⟩
    · obtain ⟨hm, hgap, hsemicolon⟩ := hs.takes ht
      exact ih hm (ho.takes ht).1 ((hg.trans (hsemicolon rfl)).trans hgap) hlast
    · have hspan := spanned_statement hspans ho hv
      have hreach := (carries_statement hcarries).reaches_cleared hv
      refine ⟨?_, ih (hs.reaches hreach).1 hspan.ordered (gap_after hs ho hreach hspan) hlast⟩
      rwa [hspan.pos, Nat.add_sub_cancel]

/-- The statements whose children may lie one in the other, and the words at which they begin. -/
theorem statement_cases {nested : Phrases} (h : Statement nested s v s') :
    v.form.plain ∨ LocalStatement nested s v s' ∨ FunctionStatement nested s v s' ∨
      ExpressionStatement nested s v s' := by
  rcases h with ⟨first, m₁, -, head, m₂, -, others, m₃, -, otherwise, m₄, -, last, -, rfl⟩ |
    ⟨first, m₁, -, body, m₂, -, last, -, rfl⟩ |
    ⟨first, m₁, -, condition, m₂, -, span, m₃, -, body, m₄, -, last, -, rfl⟩ |
    ⟨first, m₁, -, body, m₂, -, span, m₃, -, condition, -, rfl⟩ |
    ⟨first, m₁, -, counter, m₂, -, ⟨equals, m₃, -, start, m₄, -, comma, m₅, -, bound, m₆, -, step, m₇, -, body, -,
      rfl⟩ | ⟨-, names, m₃, -, span, m₄, -, values, m₅, -, body, -, rfl⟩⟩ |
    h | h | ⟨span, -, rfl⟩ | ⟨first, m₁, -, text, span, m₂, -, last, -, rfl⟩ | ⟨first, m, -, text, span, -, rfl⟩ | h
  · exact .inl rfl
  · exact .inl rfl
  · exact .inl rfl
  · exact .inl rfl
  · exact .inl rfl
  · exact .inl rfl
  · exact .inr (.inl h)
  · exact .inr (.inr (.inl h))
  · exact .inl rfl
  · exact .inl rfl
  · exact .inl rfl
  · exact .inr (.inr (.inr h))

theorem series_singleton {nested : Phrases} (h : Series nested s [v] s') :
    Statement nested s v s' ∨ ReturnStatement nested s v s' := by
  cases h with
  | last h => exact .inl h
  | ret h => exact .inr h
  | more _ _ h => cases h

/-- An assignment begins with the word `function` if and only if it defines one. -/
theorem assignment_function {targets values : Node} {span : Span} (hs : s.CutFrom source) (ho : s.Ordered size)
    (h : Statement (phrases levels) s ⟨.assignment targets values, span⟩ s') :
    if startsWithKeyword "function" (source.drop (span.pos - 1)) then
      values.span.pos = span.pos ∧ values.Around targets
    else targets.span.endPos < values.span.pos := by
  have hrows := phrases_rows size levels
  have hpos := (spanned_statement (phrases_spanned size levels) ho h).pos
  have hposition : span.pos - 1 = s.position := by
    change span.pos = _ at hpos
    omega
  rw [hposition]
  rcases statement_cases h with h | ⟨first, m, -, ⟨second, m', -, declared, m'', -, function, -, h⟩ |
    ⟨-, declared, m', -, names, m'', -, values', -, h⟩⟩ | h | h
  · cases h
  · cases h
  · cases h
  · have hnext : s.next? = some (.fixed "function") := by
      obtain ⟨first, m, ht, -⟩ := h
      exact ht.next
    rw [if_pos ((hs.keyword_iff (by decide) hnext).mpr rfl)]
    exact functionStatement_around hrows ho h _ _ rfl
  · have hnext : ∃ token, s.next? = some token ∧ token ≠ .fixed "function" := by
      obtain ⟨first, m, ⟨base, e, ⟨text, -, taken, ht, -⟩ | ⟨opening, e', ht, -⟩, -⟩, -⟩ := h
      · exact ⟨_, ht.next, nofun⟩
      · exact ⟨_, ht.next, by decide⟩
    obtain ⟨token, hnext, hne⟩ := hnext
    rw [if_neg (fun hk => hne ((hs.keyword_iff (by decide) hnext).mp hk))]
    exact expressionStatement_before hrows ho h _ _ rfl

/-- The function of a local function begins at the word `function`, before the name. -/
theorem localFunction_function {names values : Node} {span : Span} (hs : s.CutFrom source) (ho : s.Ordered size)
    (h : Statement (phrases levels) s ⟨.localFunction names values, span⟩ s') :
    startsWithKeyword "function" (source.drop (values.span.pos - 1)) := by
  rcases statement_cases h with h | ⟨first, m, ht, ⟨second, m', hsecond, declared, m'', hdeclared, function,
    hfunction, h⟩ | ⟨-, declared, m', -, names', m'', -, values', -, h⟩⟩ | ⟨first, m, -, target, m', -, function, -, h⟩ |
    ⟨first, m, hf, ⟨hc, rfl, -⟩ | ⟨-, -, others, m', -, equals, m'', -, values', -, h⟩⟩
  · cases h
  · cases h
    obtain ⟨ho₁, -⟩ := ho.takes ht
    obtain ⟨ho₂, hn₂, hp₂, he₂, hlt₂⟩ := ho₁.takes hsecond
    have hname := spanned_name ho₂ hdeclared
    have hnext := hname.next
    have hlt := hname.lt
    have hbody := functionBody_spans (phrases_spanned size levels) hname.ordered (by omega) hfunction
    obtain ⟨hm, -⟩ := hs.takes ht
    have hpos : function.span.pos - 1 = m.position := by
      rw [hbody.pos, hp₂]
      rfl
    rw [hpos]
    exact (hm.keyword_iff (by decide) hsecond.next).mpr rfl
  · cases h
  · cases h
  · cases hc
  · cases h

end Phrase

namespace Node
variable {node child : Node} {standing part found : Standing}

/-- Blocks stand for blocks and statements for statements. -/
def Placed (standing : Standing) (node : Node) : Prop :=
  (node.tag = .block → standing = .block) ∧ (node.tag.isStatement → standing = .statement)

theorem placed_of_tag (hb : node.tag ≠ .block) (hs : node.tag.isStatement = false) : node.Placed standing :=
  ⟨fun h => (hb h).elim, fun h => by rw [hs] at h; cases h⟩

theorem placed_of_isExpression (h : node.tag.isExpression) : node.Placed standing :=
  placed_of_tag (fun hb => by rw [hb] at h; cases h) (isStatement_eq_false_of_isExpression h)

/-- In a well-formed tree blocks and statements stand in their places. -/
theorem WellFormed.placed (h : node.WellFormed) (hm : (part, child) ∈ node.parts standing) : child.Placed part := by
  have hoperand : child.isOperand → child.Placed part := fun h => placed_of_isExpression (isExpression_of_isOperand h)
  have hbase : child.tag.isBase → child.isOperand := isOperand_of_isBase
  have hkey : child.IsKey → child.isOperand := IsKey.isOperand
  obtain ⟨form, span⟩ := node
  cases form with
  | block statements =>
    obtain ⟨v, hv, heq⟩ := List.mem_map.mp hm
    obtain ⟨rfl, rfl⟩ := Prod.mk.inj heq
    refine ⟨fun hb => ?_, fun _ => rfl⟩
    have hstatement := h.1 v hv
    obtain ⟨form, span⟩ := v
    cases form <;> first | (cases hstatement; done) | cases hb
  | valueList values =>
    obtain ⟨v, hv, heq⟩ := List.mem_map.mp hm
    obtain ⟨-, rfl⟩ := Prod.mk.inj heq
    exact placed_of_isExpression (h v hv)
  | function parameters body isMethod =>
    obtain ⟨⟨names, rest, rfl, hnames, hrest⟩, hbody, -⟩ := h
    rcases List.mem_append.mp hm with hm | hm
    · have hmem : child ∈ names ++ rest.toList := by
        rw [← parameterStandings_snd isMethod (names ++ rest.toList)]
        exact List.mem_map_of_mem hm
      refine placed_of_isExpression ?_
      rcases List.mem_append.mp hmem with hmem | hmem
      · rw [hnames child hmem]
        rfl
      · rw [hrest child (Option.mem_toList.mp hmem)]
        rfl
    · obtain ⟨rfl, rfl⟩ := Prod.mk.inj (List.mem_singleton.mp hm)
      exact ⟨fun _ => rfl, fun hs => by rw [hbody] at hs; cases hs⟩
  | _ =>
    simp only [WellFormed, parts, List.mem_append, List.mem_cons, List.mem_flatMap, List.mem_map,
      List.not_mem_nil, or_false, Option.mem_toList, Option.mem_def] at h hm <;>
    grind [Placed, IsValueList, Tag.isStatement]

theorem Occurs.placed (h : Occurs standing node found child) (hw : node.Every WellFormed)
    (hp : node.Placed standing) : child.Placed found := by
  induction h with
  | root => exact hp
  | @inner standing part found node inner n hm h ih =>
    obtain ⟨hnode, hbelow⟩ := forall_mem_preorder.mp hw
    have hchild : inner ∈ node.children := by
      rw [← parts_snd standing node]
      exact List.mem_map_of_mem hm
    exact ih (hbelow inner hchild) (hnode.placed hm)

end Node

/-- The children of a node lie one after the other, and so do the statements of a block with only
trivia and semicolons between them. The values of a function statement or of a local function
begin at the word `function`, before the name, and those of names without an initializer lie on the
last byte of the names. -/
def Node.Separate (source : Bytes) (node : Node) : Prop :=
  match node.form with
  | .localFunction names values =>
    startsWithKeyword "function" (source.drop (values.span.pos - 1)) ∧ values.Around names
  | .assignment targets values =>
    if startsWithKeyword "function" (source.drop (node.span.pos - 1)) then
      values.span.pos = node.span.pos ∧ values.Around targets
    else targets.span.endPos < values.span.pos
  | .localNames names values =>
    if values.children = [] then values.span = .point names.span.endPos
    else names.span.endPos < values.span.pos
  | .block statements =>
    (statements.Pairwise fun first second => first.span.endPos < second.span.pos) ∧ Gaps source statements
  | form => form.children.Pairwise fun first second => first.span.endPos < second.span.pos

theorem Covers.gaps {source : Bytes} {first last : Nat} {items : List Node} (h : Covers source first items last) :
    Gaps source items := by
  induction items generalizing first with
  | nil => trivial
  | cons v others ih =>
    cases others with
    | nil => trivial
    | cons w others => exact ⟨h.2.1, ih h.2⟩

/-- What is read somewhere in a stream that is cut from a source is separate there. -/
theorem separate_of_derived {source : Bytes} {size limit : Nat} {whole : Stream} {found : Standing} {n : Node}
    (hw : whole.CutFrom source) (ho : whole.Ordered size) (hd : Derived whole limit found n)
    (hp : n.Placed found) (ha : n.Apart) : n.Separate source := by
  have hstatement (hs : n.tag.isStatement) : ∃ levels s s', Stream.CutFrom source s ∧ s.Ordered size ∧
      (Phrase.Statement (phrases levels) s n s' ∨ Phrase.ReturnStatement (phrases levels) s n s') := by
    obtain rfl := hp.2 hs
    obtain ⟨levels, -, s, s', hr, h⟩ := hd
    exact ⟨levels, s, s', (hw.reaches hr).1, hr.ordered ho, Phrase.series_singleton h⟩
  obtain ⟨form, span⟩ := n
  cases form with
  | block statements =>
    refine ⟨ha, ?_⟩
    obtain rfl := hp.1 rfl
    by_cases hne : statements = []
    · rw [hne]
      trivial
    · obtain ⟨levels, -, s, s', hr, h, -⟩ := hd.1 hne
      exact (Phrase.gaps_series (hw.reaches hr).1 (hr.ordered ho) h).1
  | localFunction names values =>
    obtain ⟨levels, s, s', hs, hso, h | ⟨first, m, -, values', m', -, semicolon, -, h⟩⟩ := hstatement rfl
    · exact ⟨Phrase.localFunction_function hs hso h, ha.2⟩
    · cases h
  | assignment targets values =>
    obtain ⟨levels, s, s', hs, hso, h | ⟨first, m, -, values', m', -, semicolon, -, h⟩⟩ := hstatement rfl
    · exact Phrase.assignment_function hs hso h
    · cases h
  | _ => exact ha

/-- The line at the start of a source that begins with `#`. -/
def firstLine (source : Bytes) : Bytes :=
  if source.head? = some '#'.toUInt8 then source.takeWhile (· != lineFeed) else []

theorem skipShebang_passes (source : Bytes) :
    (Cursor.start source).Passes (firstLine source) (Grammar.skipShebang (.start source)).toPlace ∧
      (Grammar.skipShebang (.start source)).lastEnd = 0 := by
  unfold Grammar.skipShebang firstLine
  by_cases hmark : source.head? = some '#'.toUInt8
  · rw [if_pos hmark, if_pos (by simp [Cursor.start, hmark])]
    exact ⟨Place.passes_takeWhile (p := (Cursor.start source).toPlace) (· != lineFeed), rfl⟩
  · rw [if_neg hmark, if_neg (by simp [Cursor.start, hmark])]
    exact ⟨.refl _, rfl⟩

/-- In a parsed tree the children of every node are separate, and the statements of the root, with
trivia, semicolons and a line that begins with `#`, are the whole source. -/
theorem parse_separate {source : Bytes} {limit : Nat} {filename : String} {root : Node}
    (h : parse source limit filename = .ok root) :
    (∀ node ∈ root.preorder, node.Separate source) ∧
      Covers source (firstLine source).length root.children source.length := by
  have hwell : root.Every Node.WellFormed := Node.Grown.every_wellFormed (.inl ⟨_, shaped_of_parse h⟩)
  obtain ⟨m, whole, hskip, hlexed, hchunk⟩ := parse_eq_ok.mp h
  obtain ⟨hline, hlast⟩ := skipShebang_passes source
  obtain ⟨trivia, htrivia, -, hpasses, hlast'⟩ := Parse.skipTrivia_spelling hskip
  have hfront := hline.trans hpasses
  have hcut : whole.CutFrom source := ⟨m, _, hlexed, hfront⟩
  have hend : m.toPlace.sourceEnd = source.length := by
    rw [Place.sourceEnd_eq ⟨_, hfront⟩]
    exact Nat.zero_add _
  have ho : whole.Ordered source.length := hend ▸ hlexed.ordered (by omega)
  have hevery := chunk_every ho hchunk
  obtain ⟨listed, s', hlisted, hnil, rfl⟩ := hchunk
  have hgap : Gap source (firstLine source).length whole.position := by
    have hoffset : (Grammar.skipShebang (.start source)).offset = (firstLine source).length :=
      hline.offset.trans (Nat.zero_add _)
    rw [← hoffset, hlexed.position]
    exact .of_passes rfl hline hpasses (.of_trivia htrivia)
  have hcovers := Phrase.covers_statements hcut ho hgap hlisted
  have hposition : s'.position = source.length := by
    have hspans := (Phrase.statements_row (phrases_rows source.length limit) ho hlisted).ordered.sourceEnd
    rw [← hspans]
    simp [Stream.position, hnil]
  rw [hposition] at hcovers
  refine ⟨fun node hm => ?_, hcovers⟩
  have hapart := hevery node hm
  rw [Node.preorder_eq_cons, List.mem_cons, List.mem_flatMap] at hm
  rcases hm with rfl | ⟨v, hv, hm⟩
  · exact ⟨hapart, hcovers.gaps⟩
  · obtain ⟨hblock, hbelow⟩ := Node.forall_mem_preorder.mp hwell
    obtain ⟨found, hoccurs⟩ := Node.exists_occurs .statement v node hm
    have hderives := Phrase.derives_statements (Nat.le_refl _) (phrases_derive ho (Nat.le_refl _)) .refl hlisted
    have hplaced : v.Placed .statement := @Node.WellFormed.placed _ _ .other _ hblock (List.mem_map_of_mem hv)
    exact separate_of_derived hcut ho (hderives v hv _ _ hoccurs) (hoccurs.placed (hbelow v hv) hplaced) hapart

theorem parse_separate_function : ∃ root, parse (.ofString "local a; function b() end -- c") 2 "" = .ok root ∧
    (∀ node ∈ root.preorder, node.Separate (.ofString "local a; function b() end -- c")) ∧
      Covers (.ofString "local a; function b() end -- c") 0 root.children 30 := by
  have hok : (parse (.ofString "local a; function b() end -- c") 2 "").toBool = true := by decide +kernel
  cases hparse : parse (.ofString "local a; function b() end -- c") 2 "" with
  | ok root => exact ⟨root, rfl, parse_separate hparse⟩
  | error failure =>
    rw [hparse] at hok
    cases hok

end LuaSyntax
