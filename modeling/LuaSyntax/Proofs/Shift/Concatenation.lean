import LuaSyntax.Proofs.Loop
import LuaSyntax.Proofs.Shift.Followed
import LuaSyntax.Proofs.Excerpt.Span
import LuaSyntax.Proofs.Rescan.Source

/-! # Sources one after the other

A source that ends with no `return` is followed by another one after an empty statement. The whole is
read as the two are, one after the other: nothing of the first is left when the second begins.
-/
namespace LuaSyntax
variable {α ι κ : Type}

namespace Grammar

open Parse Rule

/-- What is left of a source after some statements, which are listed in reverse: all statements, and
the length of the source. -/
def remainder (nested : Nested) (listed : List Node) : Parse (List Node × Nat) := do
  let listed ← iterate (statementStep nested) listed
  let last ← returnStatement nested
  let cursor ← get
  if cursor.rest.isEmpty then return ((last.toList ++ listed).reverse, cursor.offset)
  else Parse.fail .trailingInput

/-- The statements of a source, and its length, from behind a line that is skipped. -/
def whole (nested : Nested) (listed : List Node) : Parse (List Node × Nat) := do
  skipTrivia
  remainder nested listed

theorem chunk_eq (limit : Nat) (c : Cursor) : chunk limit c =
    (whole (nesting limit) [] >>= fun found => pure ⟨.block found.1, 1, max 1 found.2⟩) (skipShebang c) := by
  have hend (body : List Node) (cursor : Cursor) :
      (if cursor.rest.isEmpty then pure ⟨.block body, 1, max 1 cursor.offset⟩ else Parse.fail .trailingInput : Parse Node) =
        (if cursor.rest.isEmpty then pure (body, cursor.offset) else Parse.fail .trailingInput) >>=
          fun found => pure ⟨.block found.1, 1, max 1 found.2⟩ := by
    split <;> rfl
  change (skipTrivia >>= fun _ => statements (nesting limit) >>= fun body => _) (skipShebang c) = _
  rw [whole, statements]
  simp only [remainder, bind_assoc, pure_bind, hend]
  rfl

variable {nested : Nested} {x : Shift}

theorem shifts_whole (h : Nested.Congr (.shifts x) nested nested) (ht : x.tail = []) (front : List Node) :
    Parse.Shifts x (fun found found' => found' = (front.reverse ++ found.1.map x.node, found.2 + x.ahead))
      (whole nested []) (whole nested front) := by
  have hlast : Rule.Shifts x (Likeness.shifts x).node (returnStatement nested) (returnStatement nested) :=
    congr_returnStatement h
  refine shifts_skipTrivia.bind fun _ => (shifts_listStatements h front).bind fun {listed listed'} hl => ?_
  refine hlast.run.bind fun {last last'} hlast => Parse.Shifts.get.bind fun {c d} hc => ?_
  subst hc
  have hrest : (x.cursor c).rest = c.rest := Shift.place_rest ht
  rw [hrest]
  split
  · refine .pure ?_
    cases hlast with
    | none => simp [hl, Shift.cursor, Shift.place]
    | some hv =>
      obtain rfl : x.node _ = _ := hv
      simp [hl, Shift.cursor, Shift.place]
  · exact (Sequencing.shifts x).fail

/-- A semicolon is read as an empty statement. -/
theorem statementStep_semicolon (listed : List Node) (rest : Bytes) (offset lastEnd : Nat) :
    statementStep nested listed ⟨⟨semicolon :: rest, offset⟩, lastEnd⟩ =
      (skipTrivia >>= fun _ => pure (some listed)) ⟨⟨rest, offset + 1⟩, offset + 1⟩ := by
  have hends : endsBlock (semicolon :: rest) = false := by rfl
  have hscan : Scan.text (.ofString ";") never ⟨semicolon :: rest, offset⟩ = .ok (some (), ⟨rest, offset + 1⟩) :=
    Scan.text_eq_some.mpr ⟨startsWith_never.mpr ⟨rest, rfl⟩, rfl⟩
  have hread : statementStep nested listed ⟨⟨semicolon :: rest, offset⟩, lastEnd⟩ =
      (some <$> (· ++ listed) <$> Option.toList <$> statement nested) ⟨⟨semicolon :: rest, offset⟩, lastEnd⟩ := by
    rw [statementStep, if_neg (by rw [hends]; exact Bool.false_ne_true)]
  rw [hread]
  have htoken : token (Scan.text (.ofString ";") never) ⟨⟨semicolon :: rest, offset⟩, lastEnd⟩ =
      (skipTrivia >>= fun _ => pure (some ((), ⟨offset + 1, offset + 1⟩))) ⟨⟨rest, offset + 1⟩, offset + 1⟩ := by
    refine (bind_of_ok (Parse.get_eq_ok.mpr ⟨rfl, rfl⟩)).trans ?_
    simp only [hscan]
    rfl
  cases hskip : skipTrivia ⟨⟨rest, offset + 1⟩, offset + 1⟩ with
  | ok u m =>
    rw [bind_of_ok hskip] at htoken ⊢
    have hsymbol : symbol ";" ⟨⟨semicolon :: rest, offset⟩, lastEnd⟩ = _ := map_eq_some.mpr ⟨_, htoken, rfl⟩
    have hempty : (symbol ";").map (fun _ => (none : Option Node)) ⟨⟨semicolon :: rest, offset⟩, lastEnd⟩ = _ :=
      map_eq_some.mpr ⟨_, hsymbol, rfl⟩
    have hstatement : statement nested ⟨⟨semicolon :: rest, offset⟩, lastEnd⟩ = _ :=
      expect_eq_ok.mpr (firstOf_cons_eq_some.mpr (.inl hempty))
    exact map_eq_ok.mpr ⟨_, map_eq_ok.mpr ⟨_, map_eq_ok.mpr ⟨_, hstatement, rfl⟩, rfl⟩, rfl⟩
  | error e m =>
    rw [bind_of_error hskip] at htoken ⊢
    have hsymbol : symbol ";" ⟨⟨semicolon :: rest, offset⟩, lastEnd⟩ = _ := andThen_eq_error.mpr (.inl htoken)
    have hempty : (symbol ";").map (fun _ => (none : Option Node)) ⟨⟨semicolon :: rest, offset⟩, lastEnd⟩ = _ :=
      andThen_eq_error.mpr (.inl hsymbol)
    have hstatement : statement nested ⟨⟨semicolon :: rest, offset⟩, lastEnd⟩ = _ :=
      bind_of_error (bind_of_error hempty)
    simp only [← bind_pure_comp]
    exact bind_of_error (bind_of_error (bind_of_error hstatement))

/-- Where a semicolon has come after some statements, the rest is read as a source of its own. -/
theorem remainder_semicolon (hs : nested.Steady) (listed : List Node) (rest : Bytes) (offset lastEnd : Nat) :
    remainder nested listed ⟨⟨semicolon :: rest, offset⟩, lastEnd⟩ =
      whole nested listed ⟨⟨rest, offset + 1⟩, offset + 1⟩ := by
  have hsteady := steady_statementStep hs
  have hstep := @statementStep_semicolon nested listed rest offset lastEnd
  have hloop : iterate (statementStep nested) listed ⟨⟨semicolon :: rest, offset⟩, lastEnd⟩ =
      (skipTrivia >>= fun _ => iterate (statementStep nested) listed) ⟨⟨rest, offset + 1⟩, offset + 1⟩ := by
    cases hskip : skipTrivia ⟨⟨rest, offset + 1⟩, offset + 1⟩ with
    | ok u m =>
      rw [bind_of_ok hskip] at hstep ⊢
      exact iterate_of_next hsteady hstep
    | error e m =>
      rw [bind_of_error hskip] at hstep ⊢
      exact iterate_of_error hsteady hstep
  rw [remainder, whole, remainder, ← bind_assoc]
  exact bind_of_eq hloop

theorem remainder_steps (hs : nested.Steady) {listed listed' : List Node} {c c' : Cursor}
    (h : Steps (Next (statementStep nested)) listed c listed' c') : remainder nested listed c = remainder nested listed' c' :=
  bind_of_eq (iterate_of_steps (steady_statementStep hs) h)

end Grammar

open Grammar

/-- Two sources, the second after an empty statement on a line of its own. -/
def Bytes.joined (first second : Bytes) : Bytes := first ++ lineFeed :: semicolon :: second

/-- The second of two sources that are joined. -/
def Shift.second (first second : Bytes) : Shift := ⟨second, first.length + 2, [], .inl rfl⟩

/-- The first of two sources that are joined, with the semicolon after it. -/
def Shift.first (first second : Bytes) : Shift := ⟨first ++ [lineFeed, semicolon], 0, second, .inr (List.suffix_append _ _)⟩

section Joined
variable {first second : Bytes} {limit : Nat} {filename : String} {root : Node}

theorem shebang_joined {line rest : Bytes} (h : Shebang line rest) : Shebang line (rest ++ lineFeed :: semicolon :: second) := by
  cases h with
  | absent hh =>
    refine .absent fun hhead => hh ?_
    cases rest with
    | nil => exact absurd (Option.some.inj hhead) (by decide)
    | cons b others => exact hhead
  | line hh hl hend =>
    refine .line hh hl (.inr ?_)
    rcases hend with rfl | hend
    · rfl
    · rw [List.head?_append, hend]
      rfl

theorem skipShebang_joined : ∃ line,
    (Cursor.start first).Passes line (skipShebang (.start first)).toPlace ∧
    skipShebang (.start (first.joined second)) = (Shift.first first second).cursor
      ⟨⟨(skipShebang (.start first)).rest ++ [lineFeed, semicolon], (skipShebang (.start first)).offset⟩,
        (skipShebang (.start first)).lastEnd⟩ := by
  obtain ⟨line, hline, hp, hlast⟩ := skipShebang_spelling first
  have hoffset : (skipShebang (.start first)).offset = line.length := hp.offset.trans (Nat.zero_add _)
  have hspelling := skipShebang_of_spelling (@shebang_joined second _ _ hline)
  have hfirst : first = line ++ (skipShebang (.start first)).rest := hp.rest
  rw [← List.append_assoc, ← hfirst] at hspelling
  refine ⟨line, hp, ?_⟩
  rw [Bytes.joined, hspelling]
  simp [Shift.cursor, Shift.place, Shift.first, hoffset, hlast]

/-- The first source is read to its end, and the second one after it. -/
theorem whole_joined (h : parse first limit filename = .ok root) (hr : ∀ v ∈ root.children.getLast?, v.tag ≠ .returnValues) :
    whole (nesting limit) [] (skipShebang (.start (first.joined second))) =
      whole (nesting limit) root.children.reverse ((Shift.second first second).cursor (.start second)) := by
  obtain ⟨m, s, hskip, hl, hchunk⟩ := parse_eq_ok.mp h
  obtain ⟨line, hp, hstart⟩ := @skipShebang_joined first second
  obtain ⟨trivia, -, -, hpm, -⟩ := Parse.skipTrivia_spelling hskip
  have hend : s.sourceEnd = first.length := by
    rw [hl.sourceEnd, Place.sourceEnd_eq ⟨_, hp.trans hpm⟩]
    exact Nat.zero_add _
  have hfirst : first = line ++ (skipShebang (.start first)).rest := hp.rest
  have hfollowed := skipTrivia_followed hskip
  obtain ⟨e, hsteps, he⟩ := steps_followed hl hchunk hr
  have hsuffix : (skipShebang (.start first)).rest ++ [lineFeed, semicolon] <:+ (Shift.first first second).whole :=
    ⟨line, by rw [← List.append_assoc, ← hfirst]; rfl⟩
  have htrivia : Parse.Shifts (Shift.first first second) Eq Parse.skipTrivia Parse.skipTrivia := Parse.shifts_skipTrivia
  have hm := (Place.suffix_of_le (htrivia.le hfollowed)).trans hsuffix
  have hleaves : (Shift.first first second).Leaves e.rest := by
    rw [congrArg Place.rest he]
    exact ⟨(List.suffix_cons _ _).trans (List.suffix_append _ _), .inr (List.cons_ne_nil _ _)⟩
  obtain ⟨hle, listed, hlisted, hshifted⟩ :=
    shifts_steps (shifts_statementStep (shifts_nesting limit) []) rfl hsteps hm hleaves
  have hnode : (Shift.first first second).node = id := funext Node.respan_id
  rw [hnode, List.map_id, List.append_nil] at hlisted
  have hsemicolon : (Shift.first first second).cursor e = ⟨⟨semicolon :: second, first.length + 1⟩, e.lastEnd⟩ := by
    rw [Shift.cursor, he, hend]
    rfl
  have hremainder := remainder_steps (steady_nesting limit) hshifted
  rw [hlisted, hsemicolon] at hremainder
  have hsecond : (Shift.second first second).cursor (.start second) =
      ⟨⟨second, first.length + 2⟩, first.length + 2⟩ := by
    simp [Shift.cursor, Shift.place, Shift.second, Cursor.start]
  rw [hstart, hsecond, ← remainder_semicolon (steady_nesting limit) _ second (first.length + 1) e.lastEnd,
    ← hremainder]
  obtain ⟨_, -, htrivia⟩ := htrivia.ok hfollowed hsuffix (hleaves.before hle hm)
  exact Parse.bind_of_ok htrivia

end Joined

end LuaSyntax
