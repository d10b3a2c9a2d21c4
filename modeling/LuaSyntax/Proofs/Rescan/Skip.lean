import LuaSyntax.Proofs.Loop
import LuaSyntax.Proofs.Rescan.LongBracket
import LuaSyntax.Proofs.Rescan.Trivia

/-! # Skipping trivia exactly

Trivia are skipped to the end of the longest front of the source that consists of them. What a
comment holds makes no difference. The one way to fail is a comment behind such a front that
opens a long bracket and does not close it.
-/
namespace LuaSyntax

open LongBracket

/-- A text that has a form in front of what follows it, with none longer. -/
def Longest (form : Bytes → Bytes → Prop) (text tail : Bytes) : Prop :=
  form tail text ∧ ∀ front back, front ++ back = text ++ tail → form back front → front.length ≤ text.length

/-- A comment that opens a long bracket and never closes it comes first. -/
def OpenComment (source : Bytes) : Prop :=
  ∃ level inner, source = commentMark ++ (opening level ++ inner) ∧ Nowhere (closing level) inner

theorem OpenComment.startsTrivium {source : Bytes} (h : OpenComment source) : startsTrivium source := by
  obtain ⟨level, inner, rfl, -⟩ := h
  exact Bool.or_eq_true_iff.mpr (.inr rfl)

theorem level?_eq_none_iff {line : Bytes} : level? line = none ↔ ∀ level, ¬ opening level <+: line := by
  constructor
  · rintro h level ⟨tail, rfl⟩
    rw [level?_opening] at h
    cases h
  · intro h
    cases hlevel : level? line with
    | none => rfl
    | some level =>
      obtain ⟨tail, rfl⟩ := level?_eq_some hlevel
      exact (h level (List.prefix_append _ _)).elim

namespace Scan

variable {p : Place} {e : Failure}

theorem trivium_eq_error : trivium p = .error e ↔ OpenComment p.rest ∧ e = .expected .longBracketClose p.sourceEnd := by
  obtain ⟨source, offset⟩ := p
  constructor
  · intro h
    by_cases hcomment : startsComment source
    · obtain ⟨bracket, rfl⟩ := startsComment_iff.mp hcomment
      cases hlevel : level? bracket with
      | none =>
        have hmark : (⟨commentMark ++ bracket, offset⟩ : Place).Passes commentMark ⟨bracket, offset + 2⟩ := ⟨rfl, rfl⟩
        have hread : restOfLine ⟨bracket, offset + 2⟩ = .ok ((), _) := rfl
        have hline := trivium_of_comment hmark (longBracket_eq_none.mpr ⟨hlevel, rfl⟩) ((if_pos rfl).mpr hread)
        exact nomatch hline.symm.trans h
      | some level =>
        obtain ⟨inner, rfl⟩ := level?_eq_some hlevel
        obtain ⟨dropped, body, rfl, hd⟩ := exists_dropped inner
        obtain ⟨hbody, rfl⟩ := ((trivium_readsTo hd).error e).mp h
        exact ⟨⟨level, _, rfl, hd.nowhere hbody⟩, rfl⟩
    · rw [trivium, rest_bind_eq_error] at h
      rw [if_neg hcomment] at h
      split at h
      · rw [takeWhile_bind_eq_error] at h
        exact (pure_ne_error h).elim
      · exact (pure_ne_error h).elim
  · rintro ⟨⟨level, inner, hsource, hinner⟩, rfl⟩
    obtain ⟨dropped, body, rfl, hd⟩ := exists_dropped inner
    obtain rfl : source = _ := hsource
    exact ((trivium_readsTo hd).error _).mpr ⟨hinner.of_append, rfl⟩

end Scan

namespace Parse

variable {c c' : Cursor} {m : Place} {text : Bytes}

/-- Skipping trivia goes on after the first of them. -/
theorem skipTrivia_of_trivium (h : Scan.trivium c.toPlace = .ok (some (), m)) :
    skipTrivia c = skipTrivia ⟨m, c.lastEnd⟩ :=
  iterate_of_next (fun _ => steady_skipTrivium) (skipTrivium_eq_ok.mpr ⟨h, rfl⟩)

theorem skipTrivia_of_space (hp : c.toPlace.Passes text m) (hs : ∀ b ∈ text, isSpace b) (hne : text ≠ []) :
    skipTrivia c = skipTrivia ⟨m, c.lastEnd⟩ := by
  have hmore := Place.passes_takeWhile (p := m) isSpace
  have hend := Scan.head_drop_takeWhile isSpace m.rest
  have hrun : ∀ b ∈ text ++ m.rest.takeWhile isSpace, isSpace b :=
    List.forall_mem_append.mpr ⟨hs, fun _ => List.mem_takeWhile_imp⟩
  have hall := Scan.trivium_of_space (hp.trans hmore) hrun (List.append_ne_nil_of_left_ne_nil hne _) hend
  rw [skipTrivia_of_trivium hall]
  by_cases hnil : m.rest.takeWhile isSpace = []
  · rw [hnil]
    rfl
  · exact (skipTrivia_of_trivium (c := ⟨m, c.lastEnd⟩) (Scan.trivium_of_space hmore (fun _ => List.mem_takeWhile_imp) hnil hend)).symm

theorem skipTrivia_of_first (ht : TriviumSpelling m.rest text) (hp : c.toPlace.Passes text m) :
    skipTrivia c = skipTrivia ⟨m, c.lastEnd⟩ := by
  cases ht with
  | space hs hne => exact skipTrivia_of_space hp hs hne
  | line hl hb hend => exact skipTrivia_of_trivium (Scan.trivium_of_line hl hb hend hp)
  | long ht => exact skipTrivia_of_trivium (Scan.trivium_of_long ht hp)

/-- Skipping trivia comes to the same in front of trivia and behind them, whatever it comes to. -/
theorem skipTrivia_of_passes (ht : TriviaSpelling m.rest text) (hp : c.toPlace.Passes text m) :
    skipTrivia c = skipTrivia ⟨m, c.lastEnd⟩ := by
  generalize htail : m.rest = tail at ht
  induction ht generalizing c with
  | none =>
    have hm : m = c.toPlace := hp.eq_advance
    rw [hm]
  | @more text others ht _ ih =>
    obtain ⟨hfirst, hothers⟩ := hp.split
    rw [skipTrivia_of_first (hothers.rest ▸ htail ▸ ht) hfirst]
    exact ih hothers

theorem skipTrivia_of_openComment (h : OpenComment c.rest) :
    skipTrivia c = .error (.expected .longBracketClose c.toPlace.sourceEnd) c := by
  have htrivium := Scan.trivium_eq_error.mpr ⟨h, rfl⟩
  refine iterate_of_error (fun _ => steady_skipTrivium) ?_
  simp only [skipTrivium, htrivium]

theorem skipTrivia_eq_error {e : Failure} : skipTrivia c = .error e c' ↔
    e = .expected .longBracketClose c.toPlace.sourceEnd ∧
      (∃ text, c.toPlace.Passes text c'.toPlace ∧ TriviaSpelling c'.rest text) ∧ c'.lastEnd = c.lastEnd ∧
      OpenComment c'.rest := by
  constructor
  · intro h
    obtain ⟨_, m, hsteps, hlast⟩ := iterate_eq_error (show iterate (fun _ => skipTrivium) () c = _ from h)
    obtain ⟨text, ht, hp, hend⟩ := skipTrivium_steps hsteps
    unfold skipTrivium at hlast
    split at hlast
    · cases hlast
    · next he =>
      obtain ⟨hopen, hfailure⟩ := Scan.trivium_eq_error.mp he
      rw [Place.sourceEnd_eq ⟨_, hp⟩] at hfailure
      cases hlast
      exact ⟨hfailure, ⟨text, hp, ht⟩, hend, hopen⟩
  · rintro ⟨rfl, ⟨text, hp, ht⟩, hlast, hopen⟩
    have hc' : (⟨c'.toPlace, c.lastEnd⟩ : Cursor) = c' := hlast ▸ rfl
    rw [skipTrivia_of_passes ht hp, hc', skipTrivia_of_openComment hopen, Place.sourceEnd_eq ⟨_, hp⟩]

theorem skipTrivia_longest (h : skipTrivia c = .ok () c') :
    (∃ text, c.toPlace.Passes text c'.toPlace ∧ Longest TriviaSpelling text c'.rest) ∧ c'.lastEnd = c.lastEnd ∧
      ¬ OpenComment c'.rest := by
  obtain ⟨text, ht, hend, hp, hlast⟩ := skipTrivia_spelling h
  refine ⟨⟨text, hp, ht, fun front back hsplit hfront => ?_⟩, hlast, fun hopen => hend hopen.startsTrivium⟩
  have hpfront : c.toPlace.Passes front ⟨back, c.offset + front.length⟩ := ⟨hp.rest.trans hsplit.symm, rfl⟩
  rw [skipTrivia_of_passes hfront hpfront] at h
  obtain ⟨more, -, -, hmore, -⟩ := skipTrivia_spelling h
  have hlen := congrArg List.length hsplit
  have hback : back.length = more.length + c'.rest.length := hmore.length
  rw [List.length_append, List.length_append] at hlen
  omega

theorem not_startsTrivium_of_longest {tail : Bytes} (h : Longest TriviaSpelling text tail) (hopen : ¬ OpenComment tail) :
    ¬ startsTrivium tail := by
  intro hstarts
  cases hscan : Scan.trivium ⟨tail, 0⟩ with
  | error e => exact hopen (Scan.trivium_eq_error.mp hscan).1
  | ok result =>
    obtain ⟨found, m⟩ := result
    cases found with
    | none => exact (Scan.trivium_eq_none.mp hscan).1 hstarts
    | some u =>
      obtain ⟨more, ht, hne, hp⟩ := Scan.trivium_spelling hscan
      obtain rfl : tail = more ++ m.rest := hp.rest
      have hmore : TriviaSpelling m.rest more := List.append_nil more ▸ .more ht .none
      have hle := h.2 (text ++ more) m.rest (List.append_assoc _ _ _) (h.1.append hmore)
      have hpos := List.length_pos_iff.mpr hne
      rw [List.length_append] at hle
      omega

/-- Trivia are skipped to the end of the longest front of the source that consists of them, and nothing is left
to skip there. Skipping fails exactly behind such a front, on a comment that opens a long bracket and does not
close it. Neither what a line comment nor what a long comment holds has a meaning. -/
theorem skipTrivia_exact (c : Cursor) :
    (∀ c', skipTrivia c = .ok () c' ↔ (∃ text, c.toPlace.Passes text c'.toPlace ∧ Longest TriviaSpelling text c'.rest) ∧
      c'.lastEnd = c.lastEnd ∧ ¬ OpenComment c'.rest) ∧
    (∀ c', skipTrivia c = .ok () c' → skipTrivia c' = .ok () c') ∧
    (∀ e c', skipTrivia c = .error e c' ↔ e = .expected .longBracketClose c.toPlace.sourceEnd ∧
      (∃ text, c.toPlace.Passes text c'.toPlace ∧ TriviaSpelling c'.rest text) ∧ c'.lastEnd = c.lastEnd ∧
      OpenComment c'.rest) ∧
    (∀ line m, c.toPlace.Passes (commentMark ++ line) m → (∀ level, ¬ opening level <+: line) →
      (∀ b ∈ line, b ≠ lineFeed) → (m.rest = [] ∨ m.rest.head? = some lineFeed) →
      skipTrivia c = skipTrivia ⟨m, c.lastEnd⟩) ∧
    ∀ level body m, c.toPlace.Passes (commentMark ++ (opening level ++ (body ++ closing level))) m →
      (∀ n < body.length, ¬ closing level <+: (body ++ closing level).drop n) →
      skipTrivia c = skipTrivia ⟨m, c.lastEnd⟩ := by
  refine ⟨fun c' => ⟨skipTrivia_longest, ?_⟩, fun c' h => ?_, fun e c' => skipTrivia_eq_error, ?_, ?_⟩
  · rintro ⟨⟨text, hp, ht⟩, hlast, hopen⟩
    exact skipTrivia_of_spelling ht.1 (not_startsTrivium_of_longest ht hopen) hp hlast
  · obtain ⟨text, ht, -, hp, hlast⟩ := skipTrivia_spelling h
    have hc' : (⟨c'.toPlace, c.lastEnd⟩ : Cursor) = c' := hlast ▸ rfl
    rwa [skipTrivia_of_passes ht hp, hc'] at h
  · intro line m hp hopens hline hend
    exact skipTrivia_of_trivium (Scan.trivium_of_line hline (level?_eq_none_iff.mpr hopens) hend hp)
  · intro level body m hp hfirst
    obtain ⟨content, ht⟩ := spelling_of_last hfirst
    exact skipTrivia_of_trivium (Scan.trivium_of_long ht hp)

/-- A second equals sign is no bracket, and the first line is a comment. The comment after it closes on its own level. -/
example : skipTrivia (.start (.ofString "--[==\n--[=[ ]] -- ]=]x")) = .ok () ⟨⟨.ofString "x", 21⟩, 0⟩ := rfl

end Parse

end LuaSyntax
