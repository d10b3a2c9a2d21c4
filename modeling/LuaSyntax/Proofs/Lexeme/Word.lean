import LuaSyntax.Proofs.Lexeme.Front
import Mathlib.Logic.ExistsUnique

/-! # The word at a cursor

The longest word at a cursor decides what is read there: the reserved word that it is, or else a name. A
reserved word is recognised by its bytes and the byte after them, and a name by the table of the reserved
words; the two tests agree on every word.
-/
namespace LuaSyntax

open Parse Rule

/-- The longest run of bytes of a name at a place. -/
def Place.word (p : Place) : Bytes := p.rest.takeWhile isNamePart

section Words
variable {source : Bytes} {word : String} {text : Bytes}

theorem isReserved_iff : isReserved text ↔ ∃ word ∈ reservedWords, text = .ofString word := by
  simp only [isReserved, reservedBytes, List.contains_eq_mem, decide_eq_true_eq, List.mem_map, eq_comm (a := text)]

/-- The source goes on with a reserved word where its longest word is that word. -/
theorem startsWithKeyword_iff (hw : word ∈ reservedWords) :
    startsWithKeyword word source ↔ source.takeWhile isNamePart = Bytes.ofString word := by
  constructor
  · exact fun h => (takeWhile_of_word hw h).1
  · intro h
    refine startsWith_iff.mpr ⟨h ▸ List.takeWhile_prefix isNamePart, ?_⟩
    rw [← h]
    exact fun b hb => by simpa using Scan.head_drop_takeWhile isNamePart source b hb

end Words

variable {c c' : Cursor}

/-- A test for a name, or for a reserved word, succeeds at a cursor. -/
def Cursor.Takes (c : Cursor) : Option String → Prop
  | none => ∃ text place, Scan.name c.toPlace = .ok (some text, place)
  | some word => startsWithKeyword word c.rest

end LuaSyntax
