import LuaSyntax.Proofs.Phrase.Statement
import LuaSyntax.Session

/-! # Parsing follows the grammar

A parse succeeds exactly on the sources that can be cut into lexemes that the grammar
derives, and yields the tree that it derives from them.
-/
namespace LuaSyntax

open Parse Grammar Phrase

/-- A chunk is parsed from a cursor exactly where what is left can be cut into lexemes that
the grammar derives. -/
theorem chunk_eq_ok {limit : Nat} {c : Cursor} {root : Node} :
    (∃ c', chunk limit c = .ok root c') ↔
      ∃ m s, skipTrivia (skipShebang c) = .ok () m ∧ Lexed m s ∧ Chunk limit s root := by
  have hfollows := follows_statements (follows_nesting limit)
  have hforward := forward_statements (steady_nesting limit)
  simp only [chunk, bind_eq_ok, modify_eq_ok, get_eq_ok]
  constructor
  · rintro ⟨c', ⟨⟩, _, rfl, ⟨⟩, m, hskip, listed, m', hok, e, _, ⟨rfl, rfl⟩, hroot⟩
    split at hroot
    · next hend =>
      obtain ⟨rfl, rfl⟩ := pure_eq_ok.mp hroot
      have hnil : e.rest = [] := by simpa using hend
      obtain ⟨s, hs, hlisted⟩ := hfollows.sound hok (.done hnil)
      refine ⟨m, s, hskip, hs, listed, _, hlisted, rfl, ?_⟩
      rw [hs.sourceEnd, ← Place.sourceEnd_eq (hforward.le hok), Place.sourceEnd, hnil]
      rfl
    · exact (fail_ne_ok hroot).elim
  · rintro ⟨m, s, hskip, hs, listed, s', hlisted, hnil, rfl⟩
    obtain ⟨e, hok, he⟩ := hfollows.complete hs hlisted
    have hrest : e.rest = [] := he.nil_iff.mp hnil
    refine ⟨e, ⟨⟩, _, rfl, (), m, hskip, listed, e, hok, e, e, ⟨rfl, rfl⟩, ?_⟩
    rw [if_pos (by simp [hrest]), pure_eq_ok]
    rw [hs.sourceEnd, ← Place.sourceEnd_eq (hforward.le hok), Place.sourceEnd, hrest]
    exact ⟨rfl, rfl⟩

theorem parse_eq_ok {source : Bytes} {limit : Nat} {filename : String} {root : Node} :
    parse source limit filename = .ok root ↔
      ∃ m s, skipTrivia (skipShebang (.start source)) = .ok () m ∧ Lexed m s ∧ Chunk limit s root := by
  rw [← chunk_eq_ok]
  simp only [parse, Session.parse, Session.start]
  cases chunk limit (.start source) with
  | ok found c' => simp
  | error failure c' => simp

end LuaSyntax
