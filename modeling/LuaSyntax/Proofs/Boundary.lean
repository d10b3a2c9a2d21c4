import LuaSyntax.Session
import LuaSyntax.Proofs.Keep.Seam
import LuaSyntax.Proofs.Location

/-! # Where errors are reported

An error is reported within its source, at its end at most, and where the source is the encoding of a text
never inside a character. Its line and its column are those of the offset.
-/
namespace LuaSyntax

section Characters
variable {text : String} {front back : Bytes} {b : UInt8} {i : Nat}

theorem isValidUTF8_of_isAscii (h : isAscii b) : (ByteArray.empty.push b).IsValidUTF8 := by
  have hone : (Char.ofUInt8 b).utf8Size = 1 := by
    rw [Char.utf8Size_eq_one_iff]
    exact Nat.le_of_lt_succ (isAscii_iff.mp h)
  have hbyte : (Char.ofUInt8 b).toUInt8 = b := UInt8.toUInt8_toUInt32 b
  have hpush := ByteArray.isValidUTF8_empty.push hone
  rwa [hbyte] at hpush

theorem extract_of_getElem? (h : (Bytes.ofString text)[i]? = some b) :
    text.toByteArray.extract i (i + 1) = ByteArray.empty.push b := by
  have hbytes : text.toByteArray.data[i]? = some b := Array.getElem?_toList.symm.trans h
  obtain ⟨hlt, rfl⟩ := Array.getElem?_eq_some_iff.mp hbytes
  apply ByteArray.ext
  rw [ByteArray.data_extract, Array.extract_succ_right (Nat.lt_succ_self i) hlt, Array.extract_empty_of_stop_le_start (Nat.le_refl i)]
  rfl

theorem isValid_of_isAscii (h : (Bytes.ofString text)[i]? = some b) (hb : isAscii b) :
    String.Pos.Raw.IsValid text ⟨i⟩ ∧ String.Pos.Raw.IsValid text ⟨i + 1⟩ := by
  obtain ⟨hlt, -⟩ := List.getElem?_eq_some_iff.mp h
  have hend : (⟨i + 1⟩ : String.Pos.Raw) ≤ text.rawEndPos := hlt
  have hvalid := isValidUTF8_of_isAscii hb
  rw [← extract_of_getElem? h] at hvalid
  rcases (String.Pos.Raw.isValidUTF8_extract_iff (s := text) ⟨i⟩ ⟨i + 1⟩ (Nat.le_succ i) hend).mp hvalid with hsame | hboth
  · exact absurd (congrArg String.Pos.Raw.byteIdx hsame) (Nat.ne_of_lt (Nat.lt_succ_self i))
  · exact hboth

/-- A seam in the encoding of a text stands between characters, or at one of its ends. -/
theorem Seam.isValid (h : Seam front back) (ht : Bytes.ofString text = front ++ back) :
    String.Pos.Raw.IsValid text ⟨front.length⟩ := by
  rcases h with h | h
  · rcases List.eq_nil_or_concat front with rfl | ⟨init, b, rfl⟩
    · exact String.Pos.Raw.isValid_zero
    · rw [List.concat_eq_append] at *
      have hb : isAscii b := h b List.getLast?_concat
      have hget : (Bytes.ofString text)[init.length]? = some b := by simp [ht]
      rw [List.length_append]
      exact (isValid_of_isAscii hget hb).2
  · cases back with
    | nil =>
      have hend : (⟨front.length⟩ : String.Pos.Raw) = text.rawEndPos := by
        rw [← List.append_nil front, ← ht]
        rfl
      rw [hend]
      exact String.Pos.Raw.isValid_rawEndPos
    | cons b tail =>
      have hget : (Bytes.ofString text)[front.length]? = some b := by simp [ht]
      exact (isValid_of_isAscii hget (h b rfl)).1

end Characters

/-- What an error says of the place where its source fails. -/
structure ParseError.Located (source : Bytes) (error : ParseError) : Prop where
  within : error.offset ≤ source.length
  boundary : ∀ text, Bytes.ofString text = source → String.Pos.Raw.IsValid text ⟨error.offset⟩
  line : error.location.line = 1 + (source.take error.offset).count lineFeed
  column : ∃ start, Location.LineStart source error.offset start ∧ start + error.location.column - 1 = error.offset

/-- A failure at a seam is placed where it is. -/
theorem Place.Shows.located {source : Bytes} {failure : Failure} (h : Place.Shows ⟨source, 0⟩ failure) (limit : Nat)
    (filename : String) : (ParseError.ofFailure source limit filename failure).Located source := by
  obtain ⟨p, ⟨front, hp, hseam⟩, ho⟩ := h
  have hoffset : failure.offset = front.length := by
    rw [ho, hp.offset, Nat.zero_add]
  have hle : failure.offset ≤ source.length := by
    have hlength := hp.length
    rw [hoffset]
    exact hlength ▸ Nat.le_add_right _ _
  constructor
  · exact hle
  · intro text ht
    have hvalid := hseam.isValid (ht.trans hp.rest)
    rwa [← hoffset] at hvalid
  · exact Nat.add_comm _ 1
  · obtain ⟨start, hstart, hcolumn⟩ := Location.lineStart_ofOffset hle
    exact ⟨start, hstart, Nat.sub_eq_of_eq_add hcolumn⟩

namespace Session
variable {session : Session} {start : Place} {filenames : List String} {error : ParseError}

/-- Every parse of a session begins at a seam, and what it fails with is reported at one. -/
theorem parseEach_shows (hs : start.Meets session.cursor) (h : .error error ∈ session.parseEach filenames) :
    ∃ filename failure, start.Shows failure ∧ error = .ofFailure session.source session.limit filename failure := by
  induction filenames generalizing session with
  | nil => cases h
  | cons filename others ih =>
    have hkeeps := @Grammar.keeps_chunkSeam start session.limit
    rw [parseEach, parse] at h
    cases hread : Grammar.chunk session.limit session.cursor with
    | ok root c' =>
      simp only [hread] at h
      rcases List.mem_cons.mp h with h | h
      · cases h
      · exact @ih { session with cursor := c' } (hkeeps.ok hs hread) h
    | error failure c' =>
      obtain ⟨hmeets, hshows⟩ := hkeeps.error hs hread
      simp only [hread] at h
      rcases List.mem_cons.mp h with h | h
      · exact ⟨filename, failure, hshows, Except.error.inj h⟩
      · exact @ih { session with cursor := c' } hmeets h

theorem parseEach_located {source : Bytes} {limit : Nat} (h : .error error ∈ (Session.start source limit).parseEach filenames) :
    error.Located source := by
  have hstart : (⟨source, 0⟩ : Place).Meets (Session.start source limit).cursor := Place.Lands.refl ⟨source, 0⟩
  obtain ⟨filename, failure, hshows, rfl⟩ := parseEach_shows hstart h
  exact hshows.located limit filename

end Session

/-- An error is reported within the source and not inside a character, on the line that follows the line feeds before
it, in the column that its distance from the start of the line gives. Locations go up strictly with the offset to
the end of the source, and agree with the index of its lines. -/
theorem location_exact (source : Bytes) :
    (∀ limit filename error, parse source limit filename = .error error → error.Located source) ∧
    (∀ limit filenames error, .error error ∈ (Session.start source limit).parseEach filenames → error.Located source) ∧
    (∀ offset start, offset ≤ source.length →
      (Location.LineStart source offset start ↔ start + (Location.ofOffset source offset).column = offset + 1)) ∧
    (∀ offset other, offset < other → other ≤ source.length →
      (Location.ofOffset source offset).Before (Location.ofOffset source other)) ∧
    (∀ offset other, offset ≤ source.length → other ≤ source.length →
      Location.ofOffset source offset = Location.ofOffset source other → offset = other) ∧
    (∀ offset, source.length ≤ offset → Location.ofOffset source offset = Location.ofOffset source source.length) ∧
    (∀ offset, (Location.ofOffset source offset).line = (LineIndex.ofText source).line (offset + 1)) ∧
    (∀ offset other, offset ≤ other → (LineIndex.ofText source).line (offset + 1) ≤ (LineIndex.ofText source).line (other + 1)) ∧
    ∀ offset, 1 ≤ (LineIndex.ofText source).line (offset + 1) ∧
      (LineIndex.ofText source).line (offset + 1) ≤ 1 + source.count lineFeed := by
  refine ⟨fun limit filename error h => ?_, fun limit filenames error => Session.parseEach_located,
    fun offset start => Location.lineStart_iff, fun offset other => Location.before_of_lt,
    fun offset other => Location.ofOffset_injective, fun offset => Location.ofOffset_of_le,
    Location.ofOffset_line_eq source, fun offset other h => ?_, fun offset => ?_⟩
  · have hone : .error error ∈ (Session.start source limit).parseEach [filename] := h ▸ List.mem_singleton_self _
    exact Session.parseEach_located hone
  · rw [← Location.ofOffset_line_eq, ← Location.ofOffset_line_eq]
    exact Location.ofOffset_line_le_of_le h
  · rw [← Location.ofOffset_line_eq]
    exact Location.ofOffset_line_bounds source offset

/-- The string of the second line is never closed. Its last character has two bytes, and the error stands behind both. -/
example : parse (.ofString "s =\n'é") 9 "input" = .error ⟨"input", ⟨2, 4⟩, 7, .expected .stringClose⟩ := rfl

end LuaSyntax
