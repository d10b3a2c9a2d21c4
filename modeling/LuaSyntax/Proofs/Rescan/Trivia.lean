import LuaSyntax.Proofs.Rescan.String

/-! # Skipping spelled trivia

White space and comments are skipped wherever they stand. Runs of white space that a text
keeps apart are skipped as one.
-/
namespace LuaSyntax
variable {p p' : Place} {text tail tail' : Bytes}

open LongBracket

theorem TriviumSpelling.congr (h : TriviumSpelling tail text) (hhead : tail'.head? = tail.head?) :
    TriviumSpelling tail' text := by
  cases h with
  | space hs hne => exact .space hs hne
  | line hl hb hend =>
    refine .line hl hb ?_
    rw [← List.head?_eq_none_iff] at hend ⊢
    rwa [hhead]
  | long ht => exact .long ht

theorem TriviaSpelling.congr (h : TriviaSpelling tail text) (hhead : tail'.head? = tail.head?) :
    TriviaSpelling tail' text := by
  induction h with
  | none => exact .none
  | more ht _ ih => exact .more (ht.congr (by rw [List.head?_append, List.head?_append, hhead])) ih

theorem TriviaSpelling.append {trivia others : Bytes} (h : TriviaSpelling (others ++ tail) trivia)
    (ho : TriviaSpelling tail others) : TriviaSpelling tail (trivia ++ others) := by
  induction h with
  | none => exact ho
  | @more first rest ht _ ih =>
    rw [← List.append_assoc] at ht
    rw [List.append_assoc]
    exact .more ht ih

/-- Trivia in front of a token are trivia in front of anything: no comment ends with the line there. -/
theorem TriviaSpelling.before (h : TriviaSpelling tail text) (hne : tail ≠ []) (hn : ¬ startsTrivium tail) (tail' : Bytes) :
    TriviaSpelling tail' text := by
  induction h with
  | none => exact .none
  | @more text others ht _ ih =>
    refine .more ?_ ih
    cases others with
    | cons b others => exact ht.congr rfl
    | nil =>
      cases ht with
      | space hs hne => exact .space hs hne
      | long ht => exact .long ht
      | line _ _ hend =>
        rcases hend with hend | hend
        · exact (hne hend).elim
        · obtain ⟨others, rfl⟩ := List.head?_eq_some_iff.mp hend
          exact (hn rfl).elim

theorem TriviaSpelling.head (h : TriviaSpelling tail text) : ∀ b ∈ text.head?, isSpace b ∨ b = '-'.toUInt8 := by
  cases h with
  | none => exact nofun
  | more ht _ =>
    cases ht with
    | @space text hs hne =>
      obtain ⟨b, others, rfl⟩ := List.exists_cons_of_ne_nil hne
      intro c hc
      obtain rfl := Option.some.inj hc
      exact .inl (hs _ List.mem_cons_self)
    | line => exact fun b hb => .inr (Option.some.inj hb).symm
    | long => exact fun b hb => .inr (Option.some.inj hb).symm

theorem TriviaSpelling.dropSpace (h : TriviaSpelling tail text) : TriviaSpelling tail (text.dropWhile isSpace) := by
  induction h with
  | none => exact .none
  | @more text others ht ho ih =>
    cases ht with
    | space hs _ =>
      rw [List.dropWhile_append_of_pos hs]
      exact ih
    | line hl hb hend => exact .more (.line hl hb hend) ho
    | long ht => exact .more (.long ht) ho

theorem level?_line (hb : level? text = none) (hend : tail = [] ∨ tail.head? = some lineFeed) :
    level? (text ++ tail) = none := by
  cases hlevel : level? (text ++ tail) with
  | none => rfl
  | some level =>
    obtain ⟨rest, hrest⟩ := level?_eq_some hlevel
    have hopen : opening level <+: text ++ tail := ⟨rest, hrest.symm⟩
    rcases Nat.le_total (opening level).length text.length with hlen | hlen
    · obtain ⟨after, rfl⟩ := List.prefix_of_prefix_length_le hopen (List.prefix_append _ _) hlen
      rw [level?_opening] at hb
      cases hb
    · obtain ⟨after, hafter⟩ := List.prefix_of_prefix_length_le (List.prefix_append text tail) hopen hlen
      rw [← hafter, List.append_assoc, List.append_cancel_left_eq] at hrest
      cases after with
      | nil =>
        rw [List.append_nil] at hafter
        rw [hafter, ← List.append_nil (opening level), level?_opening] at hb
        cases hb
      | cons b after =>
        -- the bracket would go on with the line break after the comment
        have hmem : b ∈ opening level := hafter ▸ List.mem_append_right _ List.mem_cons_self
        rw [hrest] at hend
        have hb : b = lineFeed := by simpa using hend
        subst hb
        simp only [opening, List.cons_append, List.mem_cons, List.mem_append, List.mem_replicate,
          List.not_mem_nil, or_false] at hmem
        rcases hmem with h | ⟨-, h⟩ | h <;> exact absurd h (by decide)

namespace Scan

theorem head_isSpace_of_append {others : Bytes} (hs : ∀ b ∈ text, isSpace b) (hne : text ≠ []) :
    (text ++ others).head?.any isSpace := by
  obtain ⟨b, tail, rfl⟩ := List.exists_cons_of_ne_nil hne
  simpa using hs b List.mem_cons_self

theorem trivium_of_space {run : Bytes} (hp : p.Passes run p') (hs : ∀ b ∈ run, isSpace b) (hne : run ≠ [])
    (hn : ∀ b ∈ p'.rest.head?, ¬ isSpace b) : trivium p = .ok (some (), p') := by
  simp only [trivium, bind_eq_ok, rest_eq_ok]
  refine ⟨_, _, ⟨rfl, rfl⟩, ?_⟩
  have hhead : p.rest.head?.any isSpace := hp.rest ▸ head_isSpace_of_append hs hne
  rw [if_pos hhead]
  simp only [bind_eq_ok, pure_eq_ok]
  exact ⟨_, _, takeWhile_of_passes hp hs hn, trivial, rfl⟩

theorem trivium_of_comment {m : Place} {found : Option Bytes} (hp : p.Passes commentMark m)
    (hb : longBracket m = .ok (found, p')) {e : Place}
    (he : if found = none then restOfLine p' = .ok ((), e) else e = p') : trivium p = .ok (some (), e) := by
  have hcomment : startsComment p.rest := startsComment_iff.mpr ⟨_, hp.rest.symm⟩
  have hspace : ¬ p.rest.head?.any isSpace := by
    rw [hp.rest, commentMark, List.cons_append, List.head?_cons, Option.any_some]
    decide
  have hm : p.advance 2 = m := hp.advance
  simp only [trivium, bind_eq_ok, rest_eq_ok]
  refine ⟨_, _, ⟨rfl, rfl⟩, ?_⟩
  rw [if_neg hspace, if_pos hcomment]
  simp only [bind_eq_ok, advance_eq_ok]
  refine ⟨(), m, hm.symm, found, p', hb, ?_⟩
  cases found with
  | none =>
    simp only [if_true] at he
    simp only [bind_eq_ok, pure_eq_ok]
    exact ⟨(), e, he, trivial, rfl⟩
  | some content =>
    simp only [reduceCtorEq, if_false] at he
    exact pure_eq_ok.mpr ⟨rfl, he.symm⟩

theorem trivium_of_line (hl : ∀ b ∈ text, b ≠ lineFeed) (hb : level? text = none)
    (hend : p'.rest = [] ∨ p'.rest.head? = some lineFeed) (hp : p.Passes (commentMark ++ text) p') :
    trivium p = .ok (some (), p') := by
  obtain ⟨hmark, hline⟩ := hp.split
  have hlevel : level? (p.advance commentMark.length).rest = none := by
    rw [hline.rest]
    exact level?_line hb hend
  refine trivium_of_comment hmark (longBracket_eq_none.mpr ⟨hlevel, rfl⟩) ?_
  simp only [if_true, restOfLine, bind_eq_ok, pure_eq_ok]
  refine ⟨_, _, takeWhile_of_passes hline (fun b hm => by simpa using hl b hm) ?_, trivial, rfl⟩
  intro b hb
  rcases hend with hend | hend
  · rw [hend] at hb
    cases hb
  · rw [hend] at hb
    cases hb
    simp

theorem trivium_of_long {content : Bytes} (ht : LongBracket.Spelling text content)
    (hp : p.Passes (commentMark ++ text) p') : trivium p = .ok (some (), p') := by
  obtain ⟨hmark, hbracket⟩ := hp.split
  exact trivium_of_comment hmark (longBracket_of_spelling ht hbracket) (by simp)

theorem trivium_of_spelling (ht : TriviaSpelling p'.rest text) (hne : text ≠ [])
    (hn : ¬ startsTrivium p'.rest) (hp : p.Passes text p') :
    ∃ m others, trivium p = .ok (some (), m) ∧ m.Passes others p' ∧ TriviaSpelling p'.rest others := by
  have hnspace : ∀ b ∈ p'.rest.head?, ¬ isSpace b := by
    intro b hb hs
    rw [Option.mem_def] at hb
    exact hn (by simp [startsTrivium, hb, hs])
  cases ht with
  | none => exact (hne rfl).elim
  | @more text others ht ho =>
    obtain ⟨hfirst, hothers⟩ := hp.split
    cases ht with
    | space hs hne =>
      -- the run goes on into the white space of the trivia after it
      have hsplit : text ++ others = (text ++ others.takeWhile isSpace) ++ others.dropWhile isSpace := by
        rw [List.append_assoc, List.takeWhile_append_dropWhile]
      have hrun : ∀ b ∈ text ++ others.takeWhile isSpace, isSpace b := by
        intro b hb
        rcases List.mem_append.mp hb with hb | hb
        · exact hs b hb
        · exact List.mem_takeWhile_imp hb
      rw [hsplit] at hp
      obtain ⟨hspace, hrest⟩ := hp.split
      refine ⟨_, _, trivium_of_space hspace hrun (List.append_ne_nil_of_left_ne_nil hne _) ?_, hrest, ho.dropSpace⟩
      rw [hrest.rest]
      intro b hb
      cases hdrop : others.dropWhile isSpace with
      | nil =>
        rw [hdrop] at hb
        exact hnspace b hb
      | cons c after =>
        have hc := List.head?_dropWhile_not isSpace others
        rw [hdrop] at hb hc
        cases hb
        simpa using hc
    | line hl hb hend => exact ⟨_, others, trivium_of_line hl hb (hothers.rest ▸ hend) hfirst, hothers, ho⟩
    | long hlong => exact ⟨_, others, trivium_of_long hlong hfirst, hothers, ho⟩

end Scan

namespace Parse
variable {c c' : Cursor}

theorem skipTrivium_steps_of_spelling (ht : TriviaSpelling c'.rest text) (hn : ¬ startsTrivium c'.rest)
    (hp : c.Passes text c'.toPlace) (hlast : c'.lastEnd = c.lastEnd) :
    Steps (Next fun _ => skipTrivium) () c () c' := by
  induction hlen : c.rest.length using Nat.strongRecOn generalizing c text with
  | ind n ih =>
    by_cases hne : text = []
    · subst hne
      have hplace : c' = c := by
        obtain ⟨place, last⟩ := c
        obtain ⟨place', last'⟩ := c'
        have := hp.eq_advance
        simp_all [Place.advance]
      rw [hplace]
      exact .refl
    · obtain ⟨m, others, htrivium, hothers, ho⟩ := Scan.trivium_of_spelling ht hne hn hp
      obtain ⟨_, -, hne, hm⟩ := Scan.trivium_spelling htrivium
      have hstep : skipTrivium c = .ok (some ()) ⟨m, c.lastEnd⟩ :=
        skipTrivium_eq_ok.mpr ⟨htrivium, rfl⟩
      have hlt := Place.length_lt ⟨_, hne, hm⟩
      refine .cons hstep (ih m.rest.length (hlen ▸ hlt) ho hothers hlast rfl)

theorem skipTrivia_of_spelling (ht : TriviaSpelling c'.rest text) (hn : ¬ startsTrivium c'.rest)
    (hp : c.Passes text c'.toPlace) (hlast : c'.lastEnd = c.lastEnd) : skipTrivia c = .ok () c' :=
  skipTrivia_iff.mpr ⟨skipTrivium_steps_of_spelling ht hn hp hlast, hn⟩

end Parse

end LuaSyntax
