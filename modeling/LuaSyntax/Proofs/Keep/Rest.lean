import LuaSyntax.Proofs.Boundary
import LuaSyntax.Proofs.Layout
import LuaSyntax.Proofs.Rescan.Skip
import LuaSyntax.Proofs.Session.Calls
import LuaSyntax.Proofs.Progress.Depth

/-! # Where the cursor rests

Wherever a rule begins or stops, whether it matches, declines or fails, the cursor stands between characters of
the source, and behind the last token nothing but trivia has been passed. Once trivia have been skipped it stands
on a token or at the end of the source.
-/
namespace LuaSyntax

open Parse Rule Grammar

variable {α : Type}

/-- A cursor within a source: it and the end of the last token stand between characters, and from there on only
trivia have been passed, or the line at the start of the source and trivia if no token has been read. -/
structure Cursor.Sound (source : Bytes) (c : Cursor) : Prop where
  rest : c.rest = source.drop c.offset
  lastEnd_le : c.lastEnd ≤ c.offset
  offset_le : c.offset ≤ source.length
  lastEnd_boundary : ∀ text, Bytes.ofString text = source → String.Pos.Raw.IsValid text ⟨c.lastEnd⟩
  offset_boundary : ∀ text, Bytes.ofString text = source → String.Pos.Raw.IsValid text ⟨c.offset⟩
  passed : ∃ line trivia, (source.take c.offset).drop c.lastEnd = line ++ trivia ∧
    (line = [] ∨ c.lastEnd = 0 ∧ Shebang line (trivia ++ c.rest)) ∧ TriviaSpelling c.rest trivia

/-- Neither white space nor a comment begins at the cursor. -/
def Cursor.AtToken (c : Cursor) : Prop := ∀ b tail, c.rest = b :: tail → ¬ isSpace b ∧ ¬ commentMark <+: c.rest

theorem Cursor.atToken_iff {c : Cursor} : c.AtToken ↔ ¬ startsTrivium c.rest := by
  simp only [AtToken, startsTrivium, Bool.or_eq_true, startsComment_iff, not_or]
  cases hrest : c.rest with
  | nil => simp [commentMark]
  | cons b tail => simp [List.head?_cons]

theorem atToken_of_skipTrivia {c c' : Cursor} (h : skipTrivia c = .ok () c') : c'.AtToken := by
  obtain ⟨_, -, hend, -⟩ := skipTrivia_spelling h
  exact Cursor.atToken_iff.mpr hend

theorem atToken_of_token {scan : Scan (Option α)} {c c' : Cursor} {found : α × Span}
    (h : token scan c = .ok (some found) c') : c'.AtToken := by
  obtain ⟨_, -, -, hskip⟩ := token_eq_some.mp h
  exact atToken_of_skipTrivia hskip

/-- The scans of the tokens: names, numbers, strings, and the reserved words and symbols. -/
inductive IsLexeme : {α : Type} → Scan (Option α) → Prop
  | name : IsLexeme Scan.name
  | numeral : IsLexeme Scan.numeral
  | string : IsLexeme Scan.string
  | text {bytes : Bytes} (barred : UInt8 → Bool) (h : isPlain bytes) : IsLexeme (Scan.text bytes barred)

theorem IsLexeme.seams {scan : Scan (Option α)} (h : IsLexeme scan) : scan.Seams := by
  cases h with
  | name => exact Scan.seams_name
  | numeral => exact Scan.seams_numeral
  | string => exact Scan.seams_string
  | text barred h => exact Scan.seams_text barred h

/-- The cursors that are reached from the start of a source by what moves the cursor on: a line that begins with
`#` is passed, a token is passed, and trivia are skipped, up to a comment that is never closed if there is one. -/
inductive Reached (source : Bytes) : Cursor → Prop
  | start : Reached source (.start source)
  | line {c : Cursor} (h : Reached source c) : Reached source (skipShebang c)
  | lexeme {α : Type} {scan : Scan (Option α)} {c : Cursor} {a : α} {place : Place} (hl : IsLexeme scan)
      (h : Reached source c) (hscan : scan c.toPlace = .ok (some a, place)) : Reached source ⟨place, place.offset⟩
  | trivia {c c' : Cursor} (h : Reached source c) (hskip : skipTrivia c = .ok () c') : Reached source c'
  | openComment {c c' : Cursor} {e : Failure} (h : Reached source c) (hskip : skipTrivia c = .error e c') :
      Reached source c'

section Rests
variable {start : Place} {c c' : Cursor}

/-- A cursor stands at a seam, and so does the end of the last token, from which trivia lead to the cursor, or a
line and trivia from the start. -/
def Place.Rests (start : Place) (c : Cursor) : Prop :=
  start.Meets c ∧ ∃ (m : Place) (line trivia : Bytes), start.Lands m ∧ m.offset = c.lastEnd ∧
    m.Passes (line ++ trivia) c.toPlace ∧ (line = [] ∨ m = start ∧ Shebang line (trivia ++ c.rest)) ∧
    TriviaSpelling c.rest trivia

theorem Place.rests_place {p : Place} (h : start.Lands p) : start.Rests ⟨p, p.offset⟩ :=
  ⟨h, p, [], [], h, rfl, .refl p, .inl rfl, .none⟩

/-- Further trivia may be passed. -/
theorem Place.Rests.trivia {text : Bytes} (h : start.Rests c) (hm : start.Meets c') (ht : TriviaSpelling c'.rest text)
    (hp : c.toPlace.Passes text c'.toPlace) (hlast : c'.lastEnd = c.lastEnd) : start.Rests c' := by
  obtain ⟨-, m, line, trivia, hlands, hoffset, hpasses, hline, htrivia⟩ := h
  rw [hp.rest] at hline htrivia
  refine ⟨hm, m, line, trivia ++ text, hlands, hoffset.trans hlast.symm, ?_, ?_, htrivia.append ht⟩
  · exact (hpasses.trans hp).congr (List.append_assoc _ _ _)
  · rwa [List.append_assoc]

theorem Place.Rests.skipTrivia (h : start.Rests c) (ho : skipTrivia c = .ok () c') : start.Rests c' := by
  obtain ⟨text, ht, -, hp, hlast⟩ := skipTrivia_spelling ho
  exact h.trivia (keeps_skipTriviaSeam.ok h.1 ho) ht hp hlast

theorem Place.Rests.openComment {e : Failure} (h : start.Rests c) (ho : Parse.skipTrivia c = .error e c') :
    start.Rests c' := by
  obtain ⟨-, ⟨text, hp, ht⟩, hlast, -⟩ := skipTrivia_eq_error.mp ho
  exact h.trivia (keeps_skipTriviaSeam.error h.1 ho).1 ht hp hlast

variable {source : Bytes}

/-- The line at the start of the source is passed from there alone, where no token has been read. -/
theorem Place.Rests.line (h : Place.Rests ⟨source, 0⟩ c) : Place.Rests ⟨source, 0⟩ (skipShebang c) := by
  by_cases hzero : c.offset = 0
  · obtain ⟨⟨front, hfront, -⟩, m, line, trivia, -, hoffset, hpasses, -⟩ := h
    have hlast : c.lastEnd = 0 := by
      have := hpasses.offset
      omega
    have hnil : front = [] := by
      have := hfront.offset
      exact List.eq_nil_of_length_eq_zero (by omega)
    obtain rfl : c = .start source := by
      obtain ⟨⟨rest, offset⟩, lastEnd⟩ := c
      obtain rfl : offset = 0 := hzero
      obtain rfl : lastEnd = 0 := hlast
      subst hnil
      obtain rfl : source = rest := hfront.rest
      rfl
    obtain ⟨text, hline, hp, hend⟩ := skipShebang_spelling source
    refine ⟨lands_skipShebang (.start source), _, text, [], .refl _, hend.symm, ?_, .inr ⟨rfl, hline⟩, .none⟩
    exact hp.congr (List.append_nil text).symm
  · rwa [skipShebang_of_ne (.inl hzero)]

theorem Place.Rests.sound (h : Place.Rests ⟨source, 0⟩ c) : c.Sound source := by
  obtain ⟨⟨front, hp, hseam⟩, m, line, trivia, ⟨before, hm, hseam'⟩, hlast, hpasses, hline, ht⟩ := h
  have hsource : source = front ++ c.rest := hp.rest
  have hoffset : c.offset = front.length := hp.offset.trans (Nat.zero_add _)
  have hbefore : c.lastEnd = before.length := hlast.symm.trans (hm.offset.trans (Nat.zero_add _))
  have hfront : front = before ++ (line ++ trivia) :=
    List.append_cancel_right (hsource.symm.trans (hm.trans hpasses).rest)
  constructor
  · rw [hsource, hoffset, List.drop_left]
  · rw [hoffset, hbefore, hfront, List.length_append]
    exact Nat.le_add_right _ _
  · rw [hoffset, hsource, List.length_append]
    exact Nat.le_add_right _ _
  · exact fun text htext => hbefore ▸ hseam'.isValid (htext.trans hm.rest)
  · exact fun text htext => hoffset ▸ hseam.isValid (htext.trans hsource)
  · refine ⟨line, trivia, ?_, hline.imp_right fun h => ⟨?_, h.2⟩, ht⟩
    · rw [hoffset, hbefore, hsource, List.take_left, hfront, List.drop_left]
    · rw [← hlast, h.1]

end Rests

section Reached
variable {source : Bytes} {c c' : Cursor}

theorem Reached.rests (h : Reached source c) : Place.Rests ⟨source, 0⟩ c := by
  induction h with
  | start => exact Place.rests_place (.refl ⟨source, 0⟩)
  | line _ ih => exact ih.line
  | lexeme hl _ hscan ih => exact Place.rests_place (ih.1.trans (hl.seams.ok hscan))
  | trivia _ hskip ih => exact ih.skipTrivia hskip
  | openComment _ hskip ih => exact ih.openComment hskip

theorem keeps_skipTriviaReached : skipTrivia.Keeps (Reached source) fun _ => True :=
  ⟨fun h ho => h.trivia ho, fun h ho => ⟨h.openComment ho, trivial⟩⟩

theorem guards_reached : Guards (Reached source) fun _ => True := by
  have htoken {α : Type} {scan : Scan (Option α)} (hl : IsLexeme scan) :
      Parse.Keeps (Reached source) (fun _ => True) (token scan) :=
    keeps_token keeps_skipTriviaReached (fun h hscan => h.lexeme hl hscan) fun _ _ => trivial
  exact {
    expected := fun _ _ => trivial
    tooDeep := fun _ => trivial
    text := fun barred h => htoken (.text barred h)
    name := htoken .name
    numeral := htoken .numeral
    string := htoken .string }

end Reached

namespace Grammar

/-- The rules: those for tokens and trivia, and those of the grammar up to a whole source. -/
inductive IsRule : {α : Type} → (Nested → Parse α) → Prop
  | line : IsRule fun _ => modify skipShebang
  | trivia : IsRule fun _ => skipTrivia
  | mayDecline {α : Type} {rule : Nested → Rule α} (h : MayDecline rule) : IsRule rule
  | expect {α : Type} {rule : Nested → Rule α} (h : MayDecline rule) (label : Label) :
      IsRule fun nested => expect (rule nested) label
  | fields : IsRule fields
  | parameters : IsRule fun _ => parameters
  | functionBody (first : Span) (isMethod : Bool) : IsRule (functionBody · first isMethod)
  | functionName : IsRule fun _ => functionName
  | functionStatement : IsRule functionStatement
  | localFunction (first second : Span) : IsRule (localFunction · first second)
  | branch (condition closing : Label) : IsRule (branch · condition closing)
  | ifStatement : IsRule ifStatement
  | doStatement : IsRule doStatement
  | whileStatement : IsRule whileStatement
  | repeatStatement : IsRule repeatStatement
  | nameList (first : Node) : IsRule fun _ => nameList first
  | forBody : IsRule forBody
  | numericFor (first : Span) (counter : Node) : IsRule (numericFor · first counter)
  | genericFor (first : Span) (counter : Node) : IsRule (genericFor · first counter)
  | forStatement : IsRule forStatement
  | localNames (first : Span) : IsRule (localNames · first)
  | localStatement : IsRule localStatement
  | breakStatement : IsRule fun _ => breakStatement
  | labelStatement : IsRule fun _ => labelStatement
  | gotoStatement : IsRule fun _ => gotoStatement
  | returnStatement : IsRule returnStatement
  | target : IsRule target
  | assignment (first : Node) : IsRule (assignment · first)
  | expressionStatement : IsRule expressionStatement
  | statement : IsRule statement
  | statements : IsRule statements
  | block : IsRule block
  | nestedBlock : IsRule (·.block)
  | chunk (limit : Nat) : IsRule fun _ => chunk limit

section Rules

open Congruence.keeps

variable {P : Cursor → Prop} (hg : Guards P fun _ => True)

/-- Where every failure may be reported, nothing is asked of where a tree begins. -/
theorem keeps_begun (v : Node) : (Congruence.keeps hg).begun v v := ⟨⟨rfl, fun _ _ _ _ => trivial⟩, rfl, fun _ => trivial⟩

include hg

theorem MayDecline.keeps {rule : Nested → Rule α} (h : MayDecline rule) {nested : Nested}
    (hn : Nested.Congr (.keeps hg) nested nested) :
    ∃ V : α → α → Prop, (Congruence.keeps hg).Rules false V (rule nested) (rule nested) := by
  refine h.congr (keeps_begun hg) (fun barred ht => ?_) hn
  exact ⟨_, (Congruence.keeps hg).ruleMap (ensures_read hg.toReports (hg.text barred ht)) And.right⟩

/-- Every rule keeps what the tokens keep, if skipping keeps it. -/
theorem IsRule.keeps {rule : Nested → Parse α} (h : IsRule rule) (hline : ∀ c, P c → P (skipShebang c))
    (hskip : skipTrivia.Keeps P fun _ => True) (levels : Nat) : (rule (nesting levels)).Keeps P fun _ => True := by
  have hn := keeps_nesting hg levels
  have hstart {first : Span} : (Congruence.keeps hg).start first.pos first.pos := ⟨rfl, fun _ => trivial⟩
  have hnode {v : Node} : (Congruence.keeps hg).node v v := (keeps_begun hg v).1
  cases h with
  | line => exact ⟨fun hc ho => modify_eq_ok.mp ho ▸ hline _ hc, fun _ ho => nomatch ho⟩
  | trivia => exact hskip
  | mayDecline h =>
    obtain ⟨V, h⟩ := h.keeps hg hn
    exact of_rules hg h
  | expect h label =>
    obtain ⟨V, h⟩ := h.keeps hg hn
    exact of_runs hg ((Congruence.keeps hg).expect h)
  | fields => exact of_runs hg (congr_fields hn)
  | parameters => exact of_runs hg congr_parameters
  | functionBody first isMethod => exact of_runs hg (congr_functionBody hn hstart isMethod)
  | functionName => exact of_runs hg congr_functionName
  | functionStatement => exact of_rules hg (congr_functionStatement hn)
  | localFunction first second => exact of_runs hg (congr_localFunction hn hstart hstart)
  | branch condition closing => exact of_runs hg (congr_branch hn condition closing)
  | ifStatement => exact of_rules hg (congr_ifStatement hn)
  | doStatement => exact of_rules hg (congr_doStatement hn)
  | whileStatement => exact of_rules hg (congr_whileStatement hn)
  | repeatStatement => exact of_rules hg (congr_repeatStatement hn)
  | nameList first => exact of_runs hg (congr_nameList hnode)
  | forBody => exact of_runs hg (congr_forBody hn)
  | numericFor first counter => exact of_runs hg (congr_numericFor hn hstart hnode)
  | genericFor first counter => exact of_runs hg (congr_genericFor hn hstart hnode)
  | forStatement => exact of_rules hg (congr_forStatement hn)
  | localNames first => exact of_runs hg (congr_localNames hn hstart)
  | localStatement => exact of_rules hg (congr_localStatement hn)
  | breakStatement => exact of_rules hg congr_breakStatement
  | labelStatement => exact of_rules hg congr_labelStatement
  | gotoStatement => exact of_rules hg congr_gotoStatement
  | returnStatement => exact of_rules hg (congr_returnStatement hn)
  | target => exact of_runs hg (congr_target hn)
  | assignment first => exact of_runs hg (congr_assignment hn (keeps_begun hg first))
  | expressionStatement => exact of_rules hg (congr_expressionStatement hn)
  | statement => exact of_runs hg (congr_statement hn)
  | statements => exact of_runs hg (congr_statements hn)
  | block => exact of_runs hg (congr_block hn)
  | nestedBlock => exact of_runs hg hn.block
  | chunk limit => exact keeps_chunk hg hline hskip limit

end Rules

end Grammar

/-- A session keeps its cursor where a parse may have left it, call after call. -/
theorem Session.reached_after {source : Bytes} {session : Session} (h : Reached source session.cursor)
    (names : List String) : Reached source (session.after names).cursor := by
  induction names generalizing session with
  | nil => exact h
  | cons filename others ih =>
    refine @ih (session.parse filename).2 ?_
    have hkeeps : (chunk session.limit).Keeps (Reached source) fun _ => True :=
      keeps_chunk guards_reached (fun _ hc => hc.line) keeps_skipTriviaReached session.limit
    rw [parse_snd]
    cases hrun : chunk session.limit session.cursor with
    | ok root c => exact hkeeps.ok h hrun
    | error e c => exact (hkeeps.error h hrun).1

/-- Every rule leads from a cursor that is reached to one that is reached, and so does every call of a session; all
of them stand where they should. Behind trivia, and so behind a token, comes a token or the end of the source. -/
theorem reached_sound (source : Bytes) :
    (∀ c, Reached source c → c.Sound source) ∧
    (∀ {α : Type} {rule : Nested → Parse α}, IsRule rule → ∀ levels,
      (rule (nesting levels)).Keeps (Reached source) fun _ => True) ∧
    (∀ limit names, Reached source ((Session.start source limit).after names).cursor) ∧
    (∀ c c', skipTrivia c = .ok () c' → c'.AtToken) ∧
    ∀ {α : Type} {scan : Scan (Option α)} {c c' : Cursor} {found : α × Span},
      token scan c = .ok (some found) c' → c'.AtToken :=
  ⟨fun _ h => h.rests.sound, fun h => h.keeps guards_reached (fun _ hc => hc.line) keeps_skipTriviaReached,
    fun limit names => @Session.reached_after source (.start source limit) .start names,
    fun _ _ => atToken_of_skipTrivia, atToken_of_token⟩

/-- A source with a first line, a character of two bytes and a comment that is never closed. The first call of a
session leaves the cursor in front of the comment. -/
theorem reached_sound_comment :
    ((Session.start (.ofString "#\nx'é' --[[") 5).after ["input"]).cursor = ⟨⟨.ofString "--[[", 8⟩, 7⟩ ∧
    Cursor.Sound (.ofString "#\nx'é' --[[") ⟨⟨.ofString "--[[", 8⟩, 7⟩ ∧
    Cursor.AtToken ⟨⟨.ofString "x'é' --[[", 2⟩, 0⟩ ∧
    Reached (.ofString "#\nx'é' --[[") ⟨⟨.ofString "'é' --[[", 3⟩, 3⟩ ∧
    Cursor.AtToken ⟨⟨.ofString "'é' --[[", 3⟩, 3⟩ := by
  have hcursor : ((Session.start (.ofString "#\nx'é' --[[") 5).after ["input"]).cursor =
      ⟨⟨.ofString "--[[", 8⟩, 7⟩ := rfl
  have hskip : skipTrivia (skipShebang (.start (.ofString "#\nx'é' --[["))) = .ok () ⟨⟨.ofString "x'é' --[[", 2⟩, 0⟩ := rfl
  have hname : token Scan.name ⟨⟨.ofString "x'é' --[[", 2⟩, 0⟩ =
      .ok (some (.ofString "x", ⟨3, 3⟩)) ⟨⟨.ofString "'é' --[[", 3⟩, 3⟩ := rfl
  obtain ⟨hsound, hrules, hsessions, htrivia, htoken⟩ := reached_sound (.ofString "#\nx'é' --[[")
  have hbehind : Reached (.ofString "#\nx'é' --[[") ⟨⟨.ofString "x'é' --[[", 2⟩, 0⟩ := .trivia (.line .start) hskip
  exact ⟨hcursor, hsound _ (hcursor ▸ hsessions 5 ["input"]), htrivia _ _ hskip,
    (hrules (.mayDecline .nameToken) 5).ok hbehind hname, htoken hname⟩

end LuaSyntax
