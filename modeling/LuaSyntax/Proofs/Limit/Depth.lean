import LuaSyntax.Proofs.Keep.Place

/-! # Overflows and the length of the source

Each nesting level reads at least one byte before it opens the next. A limit is exceeded only
behind as many bytes as it has levels and one more, so a source is never too deep for a limit as
large as its length.
-/
namespace LuaSyntax

open Parse Grammar

namespace Grammar

theorem lt_chunk_overflow {limit offset : Nat} {c c' : Cursor}
    (h : chunk limit c = .error (.tooDeep offset) c') : c.offset + limit < offset := by
  induction limit generalizing offset c' with
  | zero =>
    have hlate := (curbs_chunk Nat.zero_lt_one).short_delays c offset c' h
    exact hlate.2 rfl
  | succ limit ih =>
    -- Under one level less the same source is cut off further back.
    have hcut := (curbs_chunk (Nat.lt_succ_self limit)).cutOff c
    rw [h] at hcut
    cases hshort : chunk limit c with
    | ok root m =>
      rw [hshort] at hcut
      cases hcut
    | error e m =>
      rw [hshort] at hcut
      cases hcut with
      | tooDeep hout =>
        have hbefore := ih hshort
        have hlt := hout.2 rfl
        omega

end Grammar

/-- An overflow names the limit and lies behind more bytes than the limit has levels; a limit as
large as the length of the source is never exceeded. -/
theorem parse_overflow {source : Bytes} {limit : Nat} {filename : String} {error : ParseError}
    (h : parse source limit filename = .error error) :
    (∀ deepest, error.limit? = some deepest → deepest = limit ∧ limit + 1 ≤ error.offset) ∧
      (source.length ≤ limit → error.limit? = none) := by
  simp only [parse, Session.parse, Session.start] at h
  cases hchunk : chunk limit (.start source) with
  | ok root c =>
    rw [hchunk] at h
    cases h
  | error failure c =>
    rw [hchunk] at h
    obtain rfl := Except.error.inj h
    cases failure with
    | expected label offset =>
      refine ⟨fun deepest hd => ?_, fun _ => rfl⟩
      cases hd
    | tooDeep offset =>
      have hbefore := lt_chunk_overflow hchunk
      have hwithin := chunk_overflow_le hchunk
      simp only [Cursor.start, Place.sourceEnd] at hbefore hwithin
      constructor
      · intro deepest hd
        obtain rfl := Option.some.inj hd
        refine ⟨rfl, ?_⟩
        change limit + 1 ≤ offset
        omega
      · intro hlength
        omega

theorem parse_overflow_braces :
    ∃ error, parse (.ofString "x=\x7b\x7b\x7b\x7d\x7d\x7d") 2 "" = .error error ∧ error.limit? = some 2 ∧
      2 + 1 ≤ error.offset := by
  have h : parse (.ofString "x=\x7b\x7b\x7b\x7d\x7d\x7d") 2 "" = .error ⟨"", ⟨1, 5⟩, 4, .tooDeep 2⟩ := rfl
  exact ⟨_, h, rfl, ((parse_overflow h).1 2 rfl).2⟩

end LuaSyntax
