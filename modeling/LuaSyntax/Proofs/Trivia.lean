import LuaSyntax.Proofs.Repetition
import LuaSyntax.Proofs.Literal.LongBracket

/-! # White space and comments

The text between two tokens: runs of white space, line comments and closed long comments,
as many as there are. Skipping trivia passes such a text and stops where no more follows.
-/
namespace LuaSyntax

open LongBracket

/-- The two bytes that open a comment. -/
def commentMark : Bytes := ['-'.toUInt8, '-'.toUInt8]

/-- One run of white space or one comment, in front of what follows it. A line comment
ends before a line feed or where the source ends, and opens no long bracket. -/
inductive TriviumSpelling (tail : Bytes) : Bytes → Prop
  | space {text : Bytes} (hs : ∀ b ∈ text, isSpace b) (hne : text ≠ []) : TriviumSpelling tail text
  | line {text : Bytes} (hl : ∀ b ∈ text, b ≠ lineFeed) (hb : level? text = none)
      (hend : tail = [] ∨ tail.head? = some lineFeed) : TriviumSpelling tail (commentMark ++ text)
  | long {text content : Bytes} (ht : LongBracket.Spelling text content) :
      TriviumSpelling tail (commentMark ++ text)

/-- White space and comments, in front of what follows them. -/
inductive TriviaSpelling (tail : Bytes) : Bytes → Prop
  | none : TriviaSpelling tail []
  | more {text others : Bytes} (ht : TriviumSpelling (others ++ tail) text)
      (ho : TriviaSpelling tail others) : TriviaSpelling tail (text ++ others)

/-- White space or a comment comes first. -/
def startsTrivium (source : Bytes) : Bool := source.head?.any isSpace || startsComment source

theorem level?_opening (level : Nat) (tail : Bytes) : level? (opening level ++ tail) = some level := by
  have hrun : ((List.replicate level '='.toUInt8 ++ ['['.toUInt8]) ++ tail).takeWhile
      (· == '='.toUInt8) = List.replicate level '='.toUInt8 := by
    rw [List.append_assoc, List.takeWhile_append_of_pos (by simp)]
    rw [List.singleton_append, List.takeWhile_cons_of_neg (by decide), List.append_nil]
  simp only [opening, List.cons_append, level?, hrun, List.length_replicate]
  simp

/-- A front that opens a long bracket does so whatever comes after it. -/
theorem level?_of_append {text tail : Bytes} (h : level? (text ++ tail) = none) : level? text = none := by
  cases hlevel : level? text with
  | none => rfl
  | some level =>
    obtain ⟨rest, rfl⟩ := level?_eq_some hlevel
    rw [List.append_assoc, level?_opening] at h
    cases h

theorem startsComment_iff {source : Bytes} : startsComment source ↔ commentMark <+: source := by
  match source with
  | [] => simp [startsComment, commentMark]
  | [_] => simp [startsComment, commentMark]
  | b :: c :: tail =>
    simp only [startsComment, commentMark, Bool.and_eq_true, beq_iff_eq, List.cons_prefix_cons,
      List.nil_prefix, and_true]
    exact ⟨fun h => ⟨h.1.symm, h.2.symm⟩, fun h => ⟨h.1.symm, h.2.symm⟩⟩

theorem not_startsTrivium_of_head {text : Bytes} (h : ∀ b ∈ text.head?, ¬ isSpace b ∧ b ≠ '-'.toUInt8) : ¬ startsTrivium text := by
  cases text with
  | nil => exact Bool.false_ne_true
  | cons b others =>
    obtain ⟨hspace, hdash⟩ := h b rfl
    rw [startsTrivium, Bool.or_eq_true, not_or]
    refine ⟨hspace, fun hcomment => hdash ?_⟩
    obtain ⟨after, hafter⟩ := startsComment_iff.mp hcomment
    exact (List.cons.inj hafter).1.symm

namespace Scan
variable {p p' : Place}

theorem restOfLine_spelling {u : Unit} (hb : level? p.rest = none) (h : restOfLine p = .ok (u, p')) :
    ∃ text, (∀ b ∈ text, b ≠ lineFeed) ∧ level? text = none ∧
      (p'.rest = [] ∨ p'.rest.head? = some lineFeed) ∧ p.Passes text p' := by
  simp only [restOfLine, bind_eq_ok, takeWhile_eq_ok, pure_eq_ok] at h
  obtain ⟨_, _, ⟨rfl, rfl⟩, -, rfl⟩ := h
  have hp := Place.passes_takeWhile (p := p) (· != lineFeed)
  refine ⟨_, fun b hm => by simpa using List.mem_takeWhile_imp hm, level?_of_append (hp.rest ▸ hb), ?_, hp⟩
  have hhead := head_drop_takeWhile (· != lineFeed) p.rest
  cases hrest : p.rest.drop (p.rest.takeWhile (· != lineFeed)).length with
  | nil => exact .inl hrest
  | cons b tail =>
    rw [hrest] at hhead
    have hb : b = lineFeed := by simpa using hhead b rfl
    exact .inr (by rw [Place.advance, hrest, hb]; rfl)

theorem trivium_spelling (h : trivium p = .ok (some (), p')) :
    ∃ text, TriviumSpelling p'.rest text ∧ text ≠ [] ∧ p.Passes text p' := by
  simp only [trivium, bind_eq_ok, rest_eq_ok] at h
  obtain ⟨_, _, ⟨rfl, rfl⟩, h⟩ := h
  split at h
  · next hspace =>
    simp only [bind_eq_ok, takeWhile_eq_ok, pure_eq_ok] at h
    obtain ⟨_, _, ⟨rfl, rfl⟩, -, rfl⟩ := h
    have hne : p.rest.takeWhile isSpace ≠ [] := by
      cases hrest : p.rest with
      | nil => simp [hrest] at hspace
      | cons b tail =>
        have hb : isSpace b := by simpa [hrest] using hspace
        simp [hb]
    exact ⟨_, .space (fun _ => List.mem_takeWhile_imp) hne, hne, Place.passes_takeWhile isSpace⟩
  · split at h
    · next hcomment =>
      simp only [bind_eq_ok, advance_eq_ok] at h
      obtain ⟨_, m, hm, found, m', hbracket, h⟩ := h
      have hmark : p.Passes commentMark m := by
        rw [hm]
        exact Place.passes_of_prefix (startsComment_iff.mp hcomment)
      have hne : ∀ text : Bytes, commentMark ++ text ≠ [] := fun _ => by simp [commentMark]
      cases found with
      | some content =>
        obtain ⟨-, rfl⟩ := pure_eq_ok.mp h
        obtain ⟨text, htext, hpasses⟩ := longBracket_spelling hbracket
        exact ⟨_, .long htext, hne text, hmark.trans hpasses⟩
      | none =>
        obtain ⟨hlevel, rfl⟩ := longBracket_eq_none.mp hbracket
        simp only [bind_eq_ok, pure_eq_ok] at h
        obtain ⟨_, _, hline, -, rfl⟩ := h
        obtain ⟨text, hl, hb, hend, hpasses⟩ := restOfLine_spelling hlevel hline
        exact ⟨_, .line hl hb hend, hne text, hmark.trans hpasses⟩
    · simp [pure_eq_ok] at h

theorem trivium_eq_none : trivium p = .ok (none, p') ↔ ¬ startsTrivium p.rest ∧ p = p' := by
  simp only [trivium, bind_eq_ok, rest_eq_ok, startsTrivium, Bool.or_eq_true, not_or]
  constructor
  · rintro ⟨_, _, ⟨rfl, rfl⟩, h⟩
    split at h
    · simp only [bind_eq_ok, pure_eq_ok, reduceCtorEq, false_and, and_false, exists_false] at h
    · next hspace =>
      split at h
      · simp only [bind_eq_ok] at h
        obtain ⟨_, _, -, found, _, -, h⟩ := h
        cases found <;>
          simp only [bind_eq_ok, pure_eq_ok, reduceCtorEq, false_and, and_false, exists_false] at h
      · next hcomment => exact ⟨⟨hspace, hcomment⟩, (pure_eq_ok.mp h).2⟩
  · rintro ⟨⟨hspace, hcomment⟩, rfl⟩
    refine ⟨_, _, ⟨rfl, rfl⟩, ?_⟩
    rw [if_neg hspace, if_neg hcomment]
    exact pure_eq_ok.mpr ⟨rfl, rfl⟩

end Scan

namespace Parse
variable {c c' : Cursor}

/-- One step of skipping trivia. -/
def skipTrivium : Rule Unit := fun cursor =>
  match Scan.trivium cursor.toPlace with
  | .ok (matched, place) => .ok matched { cursor with toPlace := place }
  | .error failure => .error failure cursor

theorem skipTrivium_eq_ok {matched : Option Unit} :
    skipTrivium c = .ok matched c' ↔
      Scan.trivium c.toPlace = .ok (matched, c'.toPlace) ∧ c'.lastEnd = c.lastEnd := by
  unfold skipTrivium
  cases Scan.trivium c.toPlace with
  | error failure => simp
  | ok result =>
    obtain ⟨found, place⟩ := result
    obtain ⟨place', lastEnd'⟩ := c'
    simp only [EStateM.Result.ok.injEq, Cursor.mk.injEq, Except.ok.injEq, Prod.mk.injEq]
    exact ⟨fun ⟨h₁, h₂, h₃⟩ => ⟨⟨h₁, h₂⟩, h₃.symm⟩, fun ⟨⟨h₁, h₂⟩, h₃⟩ => ⟨h₁, h₂, h₃.symm⟩⟩

theorem steady_skipTrivium : Rule.Steady skipTrivium where
  stays := by
    intro c c' h
    obtain ⟨h, hlast⟩ := skipTrivium_eq_ok.mp h
    obtain ⟨-, hp⟩ := Scan.trivium_eq_none.mp h
    obtain ⟨place, lastEnd⟩ := c
    obtain ⟨place', lastEnd'⟩ := c'
    cases hp
    cases hlast
    rfl
  advances := by
    intro c u c' h
    obtain ⟨h, -⟩ := skipTrivium_eq_ok.mp h
    obtain ⟨text, -, hne, hp⟩ := Scan.trivium_spelling h
    exact ⟨text, hne, hp⟩

theorem skipTrivia_iff {u : Unit} :
    skipTrivia c = .ok u c' ↔
      Steps (Next fun _ => skipTrivium) () c () c' ∧ ¬ startsTrivium c'.rest := by
  change iterate (fun _ => skipTrivium) () c = _ ↔ _
  rw [iterate_eq_ok (fun _ => steady_skipTrivium), skipTrivium_eq_ok, Scan.trivium_eq_none]
  simp

theorem skipTrivium_steps {u v : Unit} (h : Steps (Next fun _ => skipTrivium) u c v c') :
    ∃ text, TriviaSpelling c'.rest text ∧ c.Passes text c'.toPlace ∧ c'.lastEnd = c.lastEnd := by
  induction h with
  | refl => exact ⟨[], .none, .refl _, rfl⟩
  | cons h _ ih =>
    obtain ⟨h, hlast⟩ := skipTrivium_eq_ok.mp h
    obtain ⟨text, htext, -, hp⟩ := Scan.trivium_spelling h
    obtain ⟨others, hothers, hp', hlast'⟩ := ih
    exact ⟨text ++ others, .more (hp'.rest ▸ htext) hothers, hp.trans hp', hlast'.trans hlast⟩

/-- Skipping trivia passes trivia, all of it, and reads no token. -/
theorem skipTrivia_spelling {u : Unit} (h : skipTrivia c = .ok u c') :
    ∃ text, TriviaSpelling c'.rest text ∧ ¬ startsTrivium c'.rest ∧ c.Passes text c'.toPlace ∧
      c'.lastEnd = c.lastEnd := by
  obtain ⟨hsteps, hend⟩ := skipTrivia_iff.mp h
  obtain ⟨text, htext, hp, hlast⟩ := skipTrivium_steps hsteps
  exact ⟨text, htext, hend, hp, hlast⟩

end Parse

end LuaSyntax
