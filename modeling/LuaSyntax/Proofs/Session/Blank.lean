import LuaSyntax.Proofs.Session.Calls
import LuaSyntax.Proofs.Rescan.Trivia

/-! # What a session has read

A call on a session is a parse of the source in which all that was read before is blank. White space
in front of a source is passed with the trivia that follow, and the line of an offset counts only the
line feeds before it, which stay.
-/
namespace LuaSyntax

open Parse Grammar

/-- Everything becomes a space but the ends of lines. -/
def blankByte (b : UInt8) : UInt8 := if b = lineFeed then lineFeed else 0x20

/-- A source in which some bytes at the front are blank. -/
def blank (count : Nat) (source : Bytes) : Bytes := (source.take count).map blankByte ++ source.drop count

theorem blankByte_eq_lineFeed (b : UInt8) : (blankByte b == lineFeed) = (b == lineFeed) := by
  unfold blankByte
  by_cases hb : b = lineFeed
  · rw [if_pos hb, hb]
  · rw [if_neg hb, beq_eq_false_iff_ne.mpr hb]
    decide

theorem isSpace_blankByte (b : UInt8) : isSpace (blankByte b) := by
  unfold blankByte
  split <;> decide

theorem blank_lines (count : Nat) (source : Bytes) :
    (blank count source).map (· == lineFeed) = source.map (· == lineFeed) := by
  have hfront : ((source.take count).map blankByte).map (· == lineFeed) = (source.take count).map (· == lineFeed) := by
    rw [List.map_map]
    exact List.map_congr_left fun b _ => blankByte_eq_lineFeed b
  rw [blank, List.map_append, hfront, ← List.map_append, List.take_append_drop]

theorem blank_of_passes {source bytes : Bytes} {place : Place} (hp : (Cursor.start source).Passes bytes place) :
    blank place.offset source = bytes.map blankByte ++ place.rest := by
  have hrest : source = bytes ++ place.rest := hp.rest
  have hoffset : place.offset = 0 + bytes.length := hp.offset
  rw [blank, hrest, hoffset, Nat.zero_add, List.take_left, List.drop_left]

/-- Only the line feeds of a source tell where its lines are. -/
theorem Location.ofOffset_congr {source other : Bytes}
    (h : source.map (· == lineFeed) = other.map (· == lineFeed)) (offset : Nat) :
    Location.ofOffset source offset = Location.ofOffset other offset := by
  have htake : (source.take offset).map (· == lineFeed) = (other.take offset).map (· == lineFeed) := by
    rw [List.map_take, List.map_take, h]
  have hcount (bytes : Bytes) : bytes.count lineFeed = (bytes.map (· == lineFeed)).count true := by
    rw [List.count, List.count, List.countP_map]
    exact List.countP_congr fun b _ => by simp
  have hcolumn (bytes : Bytes) : (bytes.reverse.takeWhile (· != lineFeed)).length =
      ((bytes.map (· == lineFeed)).reverse.takeWhile (!·)).length := by
    rw [← List.map_reverse, List.takeWhile_map, List.length_map]
    rfl
  simp only [Location.ofOffset, hcount, hcolumn, htake]

namespace Parse

theorem skipTrivia_space {run tail : Bytes} {offset last : Nat} (hs : ∀ b ∈ run, isSpace b) :
    skipTrivia ⟨⟨run ++ tail, offset⟩, last⟩ = skipTrivia ⟨⟨tail, offset + run.length⟩, last⟩ := by
  -- Both go on behind all the white space that there is.
  have hskip {more : Bytes} {p : Place} (hm : ∀ b ∈ more, isSpace b)
      (hp : p.Passes more (⟨tail, offset + run.length⟩ : Place)) : skipTrivia ⟨p, last⟩ =
        skipTrivia ⟨(⟨tail, offset + run.length⟩ : Place).advance (tail.takeWhile isSpace).length, last⟩ := by
    have hall := hp.trans (Place.passes_takeWhile isSpace)
    by_cases hne : more ++ tail.takeWhile isSpace = []
    · have hstay := (hall.congr hne).eq_advance
      rw [hstay]
      rfl
    · have hspace : ∀ b ∈ more ++ tail.takeWhile isSpace, isSpace b := by
        intro b hb
        rcases List.mem_append.mp hb with hb | hb
        · exact hm b hb
        · exact List.mem_takeWhile_imp hb
      have hscan := Scan.trivium_of_space hall hspace hne (Scan.head_drop_takeWhile isSpace tail)
      exact iterate_of_next (fun _ => steady_skipTrivium) (skipTrivium_eq_ok.mpr ⟨hscan, rfl⟩)
  have hnone : ∀ b ∈ ([] : Bytes), isSpace b := by
    intro b hb
    cases hb
  exact (hskip hs ⟨rfl, rfl⟩).trans (hskip hnone (.refl _)).symm

end Parse

namespace Grammar

/-- Where something has been read, a source is read on as one in which that is blank. -/
theorem chunk_blank {source bytes : Bytes} {place : Place} (limit : Nat)
    (hp : (Cursor.start source).Passes bytes place) (hne : bytes ≠ []) :
    chunk limit ⟨place, 0⟩ = chunk limit (.start (blank place.offset source)) := by
  have hspace : ∀ b ∈ bytes.map blankByte, isSpace b := by
    intro b hb
    obtain ⟨b, -, rfl⟩ := List.mem_map.mp hb
    exact isSpace_blankByte b
  have hoffset : place.offset = 0 + bytes.length := hp.offset
  have hplace : (⟨place, 0⟩ : Cursor) = ⟨⟨place.rest, 0 + (bytes.map blankByte).length⟩, 0⟩ := by
    rw [List.length_map, ← hoffset]
  obtain ⟨b, others, rfl⟩ := List.exists_cons_of_ne_nil hne
  have hread : skipShebang ⟨place, 0⟩ = ⟨place, 0⟩ := by
    refine skipShebang_of_ne (.inl ?_)
    rw [hoffset, List.length_cons]
    omega
  have hfresh : skipShebang (.start (blank place.offset source)) = .start (blank place.offset source) := by
    refine skipShebang_of_ne (.inr ?_)
    rw [blank_of_passes hp]
    intro hhead
    have hhash : isSpace '#'.toUInt8 := Option.some.inj hhead ▸ isSpace_blankByte b
    exact absurd hhash (by decide)
  have hskip : skipTrivia (.start (blank place.offset source)) = skipTrivia ⟨place, 0⟩ := by
    rw [blank_of_passes hp, hplace]
    exact skipTrivia_space hspace
  have hline (c : Cursor) : (modify skipShebang : Parse PUnit) c = .ok .unit (skipShebang c) := rfl
  rw [chunk, bind_of_ok (hline _), bind_of_ok (hline _), hread, hfresh]
  exact bind_of_eq hskip.symm

theorem outcome_blank {source bytes : Bytes} {c : Cursor} (limit : Nat)
    (hp : (Cursor.start source).Passes bytes c.toPlace) :
    Run.outcome (chunk limit c) = Run.outcome (chunk limit (.start (blank c.offset source))) := by
  -- The end of the last token that was read does not matter.
  have hplace : c.toPlace = (⟨c.toPlace, 0⟩ : Cursor).toPlace := rfl
  have hlast := (chunk_of_place limit hplace).1
  by_cases hne : bytes = []
  · have hstart : c.toPlace = (⟨source, 0⟩ : Place) := by
      have hadvance := hp.eq_advance
      rwa [hne] at hadvance
    have hblank : blank 0 source = source := rfl
    rw [hlast, hstart, hblank]
    rfl
  · rw [hlast, chunk_blank limit hp hne]

end Grammar

namespace Session

/-- A failure is in the same line and column of a source that is blank in front. -/
theorem report_blank {cursor : Cursor} (source : Bytes) (limit : Nat) (filename : String) (count : Nat)
    (outcome : Except Failure Node) : (⟨source, limit, cursor⟩ : Session).report filename outcome =
      (start (blank count source) limit).report filename outcome := by
  cases outcome with
  | ok root => rfl
  | error e =>
    have hlocation := Location.ofOffset_congr (blank_lines count source) e.offset
    have hfailure : ParseError.ofFailure source limit filename e =
        ParseError.ofFailure (blank count source) limit filename e := by
      unfold ParseError.ofFailure
      rw [hlocation]
    exact congrArg Except.error hfailure

/-- The calls of a session, each as a parse of its own: of the source in which what the session had
read by then is blank. -/
theorem parseEach_blank (source : Bytes) (limit : Nat) (names : List String) :
    (start source limit).parseEach names = names.mapIdx fun i filename =>
      LuaSyntax.parse (blank ((start source limit).offsetAfter names i) source) limit filename := by
  rw [parseEach_eq]
  congr 1
  funext i filename
  rw [offsetAfter]
  have hp := after_passes source limit (names.take i)
  have hnext := continues_after (start source limit) (names.take i)
  generalize (start source limit).after (names.take i) = session at hp hnext
  obtain ⟨source', limit', cursor⟩ := session
  obtain rfl : source' = source := hnext.source
  obtain rfl : limit' = limit := hnext.limit
  rw [parse_fst, LuaSyntax.parse, parse_fst]
  have houtcome := outcome_blank (c := cursor) limit' hp
  exact (congrArg _ houtcome).trans (report_blank source' limit' filename _ _)

end Session

end LuaSyntax
