import LuaSyntax.Proofs.Keep.Grammar
import LuaSyntax.Proofs.Limit.Chunk

/-! # Where a computation stops

Reading never goes back, where it fails as where it succeeds, and it stays within the source. What
goes too deep does so at a place that was reached.
-/
namespace LuaSyntax

open Parse

/-- A source is left in front of a place only by going back, which no computation does. -/
def Place.Precedes (start : Place) (c : Cursor) : Prop := start ≤ c.toPlace

/-- A failure that goes too deep does so no further on than the source goes. -/
def Place.Bounds (start : Place) (e : Failure) : Prop :=
  ∀ offset, e = .tooDeep offset → offset ≤ start.sourceEnd

theorem Place.offset_le_sourceEnd (p : Place) : p.offset ≤ p.sourceEnd := Nat.le_add_right _ _

variable {start : Place}

theorem reports_place : Reports start.Precedes start.Bounds where
  expected _ _ _ ho := nomatch ho
  tooDeep {c} hc offset ho := by
    obtain rfl := Failure.tooDeep.inj ho
    exact Place.sourceEnd_eq hc ▸ c.offset_le_sourceEnd

theorem keeps_skipTrivia : skipTrivia.Keeps start.Precedes start.Bounds := by
  have hstep : Keeps start.Precedes start.Bounds skipTrivium := by
    constructor
    · intro c found c' hc ho
      exact Place.le_trans hc (steady_skipTrivium.forward.le ho)
    · intro c e c' hc ho
      unfold skipTrivium at ho
      cases hscan : Scan.trivium c.toPlace with
      | ok result =>
        rw [hscan] at ho
        cases ho
      | error failure =>
        rw [hscan] at ho
        obtain ⟨rfl, rfl⟩ := EStateM.Result.error.inj ho
        exact ⟨hc, fun offset he => (Scan.shallow_trivium _ _ (he ▸ hscan)).elim⟩
  exact .iterate reports_place (fun _ => hstep) ()

theorem keeps_placeToken {α : Type} {scan : Scan (Option α)} (hs : scan.Steady) (hd : scan.Shallow) :
    Keeps start.Precedes start.Bounds (Rule.token scan) := by
  refine Rule.keeps_token keeps_skipTrivia ?_ ?_
  · intro c a place hc hscan
    exact Place.le_trans hc (Place.le_of_lt (hs.advances hscan))
  · intro c e _ hscan offset he
    exact (hd _ _ (he ▸ hscan)).elim

theorem guards_place : Guards start.Precedes start.Bounds where
  toReports := reports_place
  text barred h := keeps_placeToken (Scan.steady_text barred (isPlain_iff.mp h).1) (Scan.shallow_text _ barred)
  name := keeps_placeToken Scan.steady_name Scan.shallow_name
  numeral := keeps_placeToken Scan.steady_numeral Scan.shallow_numeral
  string := keeps_placeToken Scan.steady_string Scan.shallow_string

namespace Grammar

theorem keeps_chunkPlace (limit : Nat) : (chunk limit).Keeps start.Precedes start.Bounds := by
  refine keeps_chunk guards_place (fun c hc => ?_) keeps_skipTrivia limit
  have hread : (modify skipShebang : Parse PUnit) c = .ok ⟨⟩ (skipShebang c) := rfl
  exact Place.le_trans hc (forward_skipShebang.le hread)

/-- A parse goes too deep within the source. -/
theorem chunk_overflow_le {limit offset : Nat} {c c' : Cursor} (h : chunk limit c = .error (.tooDeep offset) c') :
    offset ≤ c.toPlace.sourceEnd :=
  ((keeps_chunkPlace limit).error (Place.le_refl c.toPlace) h).2 offset rfl

end Grammar

end LuaSyntax
