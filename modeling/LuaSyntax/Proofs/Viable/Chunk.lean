import LuaSyntax.Proofs.Viable.Block
import LuaSyntax.Proofs.Rescan.Source
import LuaSyntax.Proofs.Layout

/-! # Failures of whole sources

Up to where a source fails, it is the front of one that parses, and so it is with what the failure asks for
put there. A source is parsed as a block that nothing ends, behind a line that may be skipped.
-/
namespace LuaSyntax

open Rule Parse Grammar Phrase

section Sources
variable {source new : Bytes} {limit : Nat} {filename : String} {m : Cursor} {s s' : Stream}

theorem Shebang.resumed {line old : Bytes} (h : Shebang line old) (hr : Resumes old new) : Shebang line new := by
  cases h with
  | absent hh =>
    refine .absent fun hmark => ?_
    rcases hr _ hmark with hsame | hfeed
    · exact hh hsame
    · exact absurd hfeed (by decide)
  | line hh hl hend =>
    refine .line hh hl ?_
    cases new with
    | nil => exact .inl rfl
    | cons b tail =>
      refine .inr (congrArg some ?_)
      rcases hr b rfl with hsame | hfeed
      · rcases hend with hnil | hend
        · rw [hnil] at hsame
          cases hsame
        · exact Option.some.inj (hsame.symm.trans hend)
      · exact hfeed

theorem take_shebang {offset : Nat} (hle : (skipShebang (.start source)).offset ≤ offset) :
    source.take offset = source.take (skipShebang (.start source)).offset ++
      ((skipShebang (.start source)).upTo offset).rest := by
  obtain ⟨line, -, hp, -⟩ := skipShebang_spelling source
  have hoffset : (skipShebang (.start source)).offset = line.length := hp.offset.trans (Nat.zero_add _)
  have hrest : source = line ++ (skipShebang (.start source)).rest := hp.rest
  rw [hoffset] at hle
  have hcount : offset = line.length + (offset - line.length) := by omega
  rw [Cursor.upTo, Place.upTo, hoffset]
  generalize (skipShebang (.start source)).rest = rest at hrest
  rw [hrest, List.take_left, hcount, List.take_length_add_append, Nat.add_sub_cancel_left]

/-- A source parses if what resumes it behind the line at its start is cut into tokens that are statements. -/
theorem parse_resumed (hr : Resumes (skipShebang (.start source)).rest new)
    (hskip : skipTrivia ⟨⟨new, (skipShebang (.start source)).offset⟩, (skipShebang (.start source)).lastEnd⟩ = .ok () m)
    (hs : Lexed m s) (hgets : (statements (nesting limit)).Gets (fun _ => True) s s') (hnil : s'.lexemes = []) :
    ∃ root, parse (source.take (skipShebang (.start source)).offset ++ new) limit filename = .ok root := by
  obtain ⟨line, hline, hp, hlast⟩ := skipShebang_spelling source
  have hoffset : (skipShebang (.start source)).offset = line.length := hp.offset.trans (Nat.zero_add _)
  have htake : source.take (skipShebang (.start source)).offset = line := by
    rw [hoffset, show source = _ from hp.rest, List.take_left]
  obtain ⟨listed, c, ho, -, hc⟩ := hgets hs
  obtain ⟨t, ht, hlisted⟩ := (follows_statements (follows_nesting limit)).sound ho hc
  refine ⟨_, parse_eq_ok.mpr ⟨m, t, ?_, ht, listed, s', hlisted, hnil, rfl⟩⟩
  rw [htake, skipShebang_of_spelling (hline.resumed hr), ← hoffset, ← hlast]
  exact hskip

end Sources

section Failures
variable {source item : Bytes} {limit offset : Nat} {filename : String} {label : Label} {m c' : Cursor}

/-- Where the tokens of a source that breaks off are statements with some words behind them, the source is
viable with what it goes on with. -/
theorem viable_of_breaks {tokens word : List Token} (h : (skipShebang (.start source)).Breaks offset item tokens)
    (hword : ∀ token ∈ word, token.Written)
    (hall : ∀ s s', s.Spells (tokens ++ word) s' → s'.lexemes = [] → (statements (nesting limit)).Gets (fun _ => True) s s') :
    Viable (source.take offset ++ item) := by
  obtain ⟨hle, hend, rest, hascii, hline, -, hwrites⟩ := h
  obtain ⟨trivia, tail, s, s', hcut, ht, hn, hs, hspells, hnil⟩ :=
    hwrites word hword (skipShebang (.start source)).offset (skipShebang (.start source)).lastEnd
  have hr := Cursor.resumes_break hle hend hline (separated ' '.toUInt8 (word.map Token.text))
  rw [hcut] at hr
  have hskip (start lastEnd : Nat) :
      skipTrivia ⟨⟨trivia ++ tail, start⟩, lastEnd⟩ = .ok () ⟨⟨tail, start + trivia.length⟩, lastEnd⟩ :=
    skipTrivia_of_spelling ht hn ⟨rfl, rfl⟩ rfl
  obtain ⟨root, hroot⟩ := parse_resumed hr (hskip _ _) hs (hall s s' hspells hnil) hnil
  have hwords : ∀ b ∈ lineFeed :: separated ' '.toUInt8 (word.map Token.text), isAscii b :=
    List.forall_mem_cons.mpr ⟨rfl, isAscii_separated hword⟩
  refine ⟨rest ++ lineFeed :: separated ' '.toUInt8 (word.map Token.text),
    List.forall_mem_append.mpr ⟨hascii, hwords⟩, limit, "", root, ?_⟩
  rw [take_shebang hle]
  rw [← hcut] at hroot
  simpa only [Cursor.upTo, Place.upTo, List.append_assoc] using hroot

/-- A source fails in a comment in front of its first token, in its statements, or behind them. -/
theorem chunk_eq_error (h : chunk limit (.start source) = .error (.expected label offset) c') :
    skipTrivia (skipShebang (.start source)) = .error (.expected label offset) c' ∨
      ∃ m, skipTrivia (skipShebang (.start source)) = .ok () m ∧
        (statements (nesting limit) m = .error (.expected label offset) c' ∨
          ∃ listed, statements (nesting limit) m = .ok listed c' ∧ label = .trailingInput ∧ offset = c'.offset) := by
  rcases bind_eq_error.mp h with h | ⟨_, _, hline, h⟩
  · cases h
  obtain rfl := modify_eq_ok.mp hline
  rcases bind_eq_error.mp h with h | ⟨_, m, hskip, h⟩
  · exact .inl h
  refine .inr ⟨m, hskip, ?_⟩
  rcases bind_eq_error.mp h with h | ⟨listed, e, ho, h⟩
  · exact .inl h
  rcases bind_eq_error.mp h with h | ⟨_, _, hget, h⟩
  · cases h
  obtain ⟨rfl, rfl⟩ := get_eq_ok.mp hget
  split at h
  · cases h
  · cases h
    exact .inr ⟨listed, ho, rfl, rfl⟩

theorem Ahead.ended_ends {s : Stream} (h : s.lexemes = []) : Ahead.ended.Ends s := ⟨.inl h, Stream.not_next_of_nil h⟩

theorem viable_of_unfinished (h : skipTrivia (skipShebang (.start source)) = .error (.expected label offset) c') :
    label.Served fun item => Viable (source.take offset ++ item) := by
  have hgets (s s' : Stream) (hspells : s.Spells [] s') (hnil : s'.lexemes = []) :
      (statements (nesting 0)).Gets (fun _ => True) s s' := by
    obtain rfl : s' = s := hspells
    intro d hd
    obtain ⟨e, ho, he⟩ := (follows_statements (follows_nesting 0)).complete hd (statements_nil (Ahead.ended_ends hnil))
    exact ⟨[], e, ho, trivial, he⟩
  exact (Parse.breaks_of_unfinished h).mono fun item hbreaks => viable_of_breaks hbreaks (List.forall_mem_nil _) hgets

theorem viable_of_statements (hskip : skipTrivia (skipShebang (.start source)) = .ok () m)
    (he : statements (nesting limit) m = .error (.expected label offset) c') :
    label.Served fun item => Viable (source.take offset ++ item) := by
  have h : Nested.Tracks True (nesting limit) (nesting (limit + 1)) :=
    tracks_nesting (Nat.le_succ _) fun _ => Nat.lt_succ_self _
  obtain ⟨-, -, hready, -⟩ := skipTrivia_spelling hskip
  have hstatements : m.Completed label offset .further .ended fun s s' =>
      ∀ _ : Unit, (statements (nesting (limit + 1))).Gets (fun _ => True) s s' := (tracks_statements h).error trivial hready he
  refine Label.Served.mono hstatements ?_
  rintro item ⟨tokens, word, hbreaks, hword, hall⟩
  have hgets (s s' : Stream) (hspells : s.Spells (tokens ++ word) s') (hnil : s'.lexemes = []) :
      (statements (nesting (limit + 1))).Gets (fun _ => True) s s' := (hall s s' hspells (Ahead.ended_ends hnil)).2 ()
  exact viable_of_breaks (Parse.breaks_of_skipTrivia hskip hbreaks) hword hgets

theorem parse_of_statements {listed : List Node} (hskip : skipTrivia (skipShebang (.start source)) = .ok () m)
    (ho : statements (nesting limit) m = .ok listed c') :
    ∃ root, parse (source.take c'.offset) limit filename = .ok root := by
  have h : Nested.Tracks False (nesting limit) (nesting limit) := tracks_nesting (Nat.le_refl _) nofun
  obtain ⟨trivia, -, hready, hp, -⟩ := skipTrivia_spelling hskip
  have hstatements : m.Carried c' .further .ended fun s s' =>
      ∀ _ : Unit, (statements (nesting limit)).Gets (AnyResult listed) s s' := (tracks_statements h).ok hready ho
  obtain ⟨tokens, hcuts, hall⟩ := hstatements
  obtain ⟨s, s', hs, hspells, hnil⟩ := hcuts.upTo
  have hgets := (hall s s' hspells ((Ahead.ended_ends hnil).sees c')).2 ()
  have hoffset := hp.offset
  rw [take_shebang (Nat.le_trans (hoffset ▸ Nat.le_add_right _ _) hcuts.le)]
  exact parse_resumed (Place.resumes_upTo _ _) (skipTrivia_upTo hskip hcuts.le) hs hgets hnil

theorem Label.Served.viable (h : label.Served fun item => Viable (source.take offset ++ item)) :
    Viable (source.take offset) ∧
      (label = .trailingInput → ∃ root, parse (source.take offset) limit filename = .ok root) ∧
      ∀ item, label.Asks item → Viable (source.take offset ++ item) := by
  obtain ⟨⟨item, hitem⟩, hall⟩ := h
  refine ⟨(hall item hitem).of_append hitem.isAscii, ?_, hall⟩
  rintro rfl
  exact hitem.elim

/-- Errors tell the truth. Up to the offset of a syntax error, a source is viable, and so it is with whatever
the label asks for put there. A source that goes on behind its statements parses up to there. -/
theorem error_viable {error : ParseError} (h : parse source limit filename = .error error)
    (hcause : error.cause = .expected label) :
    Viable (source.take error.offset) ∧
      (label = .trailingInput → ∃ root, parse (source.take error.offset) limit filename = .ok root) ∧
      ∀ item, label.Asks item → Viable (source.take error.offset ++ item) := by
  simp only [parse, Session.parse, Session.start] at h
  cases hchunk : chunk limit (.start source) with
  | ok root c =>
    rw [hchunk] at h
    cases h
  | error failure c =>
    rw [hchunk] at h
    cases h
    cases failure with
    | tooDeep offset => cases hcause
    | expected found offset =>
      cases hcause
      rcases chunk_eq_error hchunk with hskip | ⟨m, hskip, hfails | ⟨listed, ho, rfl, rfl⟩⟩
      · exact (viable_of_unfinished hskip).viable
      · exact (viable_of_statements hskip hfails).viable
      · obtain ⟨root, hroot⟩ : ∃ root, parse (source.take c.offset) limit filename = .ok root :=
          parse_of_statements hskip ho
        refine ⟨⟨[], List.forall_mem_nil _, limit, filename, root, ?_⟩, fun _ => ⟨root, hroot⟩, fun _ hasks => hasks.elim⟩
        rwa [List.append_nil]

theorem error_viable_condition :
    Viable (.ofString "if x") ∧ Viable (.ofString "if x\nthen") ∧ ∃ root, parse (.ofString "f() ") 1 "" = .ok root := by
  have hcondition : parse (.ofString "if x") 1 "" = .error ⟨"", ⟨1, 5⟩, 4, .expected .ifThen⟩ := rfl
  have htrailing : parse (.ofString "f() end") 1 "" = .error ⟨"", ⟨1, 5⟩, 4, .expected .trailingInput⟩ := rfl
  exact ⟨(error_viable hcondition rfl).1, (error_viable hcondition rfl).2.2 _ rfl, (error_viable htrailing rfl).2.1 rfl⟩

end Failures

end LuaSyntax
