import LuaSyntax.Proofs.Keep.Grammar
import LuaSyntax.Proofs.Rescan.Number
import LuaSyntax.Proofs.Rescan.Quoted

/-! # Reading from seam to seam

Characters that are not ASCII stand only inside strings and comments, which begin and end with bytes that are.
So wherever reading stops, and wherever a failure is reported, an ASCII byte stands on one side at least, or the
source begins or ends there.
-/
namespace LuaSyntax

open LongBracket

/-- Two texts meet next to an ASCII byte, or one of them is empty. -/
def Seam (front back : Bytes) : Prop := (∀ b ∈ front.getLast?, isAscii b) ∨ ∀ b ∈ back.head?, isAscii b

section Seams
variable {front text back : Bytes} {b : UInt8}

theorem seam_of_front (h : ∀ b ∈ front, isAscii b) : Seam front back :=
  .inl fun b hb => h b (List.mem_of_getLast? hb)

theorem seam_of_last (h : isAscii b) : Seam (front ++ [b]) back := by
  refine .inl fun c hc => ?_
  rw [List.getLast?_concat] at hc
  obtain rfl := Option.some.inj hc
  exact h

theorem seam_nil : Seam front [] := .inr nofun

theorem Seam.append (h : Seam front (text ++ back)) (ht : Seam text back) : Seam (front ++ text) back := by
  by_cases hne : text = []
  · subst hne
    rwa [List.append_nil]
  · rcases ht with ht | ht
    · refine .inl ?_
      rwa [List.getLast?_append, List.getLast?_eq_some_getLast hne, Option.some_or, ← List.getLast?_eq_some_getLast hne]
    · exact .inr ht

end Seams

namespace Place
variable {p m p' : Place} {text : Bytes} {count : Nat}

/-- Reading on from one place ends at another, where what was read meets the rest. -/
def Lands (p p' : Place) : Prop := ∃ text, p.Passes text p' ∧ Seam text p'.rest

theorem Lands.refl (p : Place) : p.Lands p := ⟨[], .refl p, .inl nofun⟩

theorem Lands.trans (h : p.Lands m) (h' : m.Lands p') : p.Lands p' := by
  obtain ⟨first, hfirst, hseam⟩ := h
  obtain ⟨second, hsecond, hseam'⟩ := h'
  rw [hsecond.rest] at hseam
  exact ⟨first ++ second, hfirst.trans hsecond, hseam.append hseam'⟩

theorem lands_of_front (h : p.Passes text p') (ht : ∀ b ∈ text, isAscii b) : p.Lands p' := ⟨text, h, seam_of_front ht⟩

theorem lands_of_head (h : p.Passes text p') (hb : ∀ b ∈ p'.rest.head?, isAscii b) : p.Lands p' := ⟨text, h, .inr hb⟩

/-- The source ends at a seam. -/
theorem lands_end (p : Place) : p.Lands ⟨[], p.sourceEnd⟩ :=
  ⟨p.rest, ⟨(List.append_nil _).symm, rfl⟩, seam_nil⟩

/-- Some bytes begin with so many ASCII ones. -/
def AsciiFront (bytes : Bytes) (count : Nat) : Prop :=
  ∃ front back, bytes = front ++ back ∧ count = front.length ∧ ∀ b ∈ front, isAscii b

theorem lands_front (h : AsciiFront p.rest count) : p.Lands (p.advance count) := by
  obtain ⟨front, back, hrest, rfl, hfront⟩ := h
  exact lands_of_front (passes_of_eq hrest) hfront

end Place

open Place

section Classes
variable {b : UInt8}

theorem isAscii_iff : isAscii b ↔ b.toNat < 128 := by
  rw [isAscii, decide_eq_true_eq, UInt8.lt_iff_toNat_lt]
  rfl

theorem isAscii_of_isNamePart (h : isNamePart b) : isAscii b := by
  rw [isAscii_iff]
  simp only [isNamePart, isNameStart, isLetter, isDigit, Bool.or_eq_true, Bool.and_eq_true, decide_eq_true_eq,
    beq_iff_eq, UInt8.le_iff_toNat_le, ← UInt8.toNat_inj, UInt8.reduceToNat] at h
  omega

theorem isAscii_of_isSpace (h : isSpace b) : isAscii b := by
  rw [isAscii_iff]
  simp only [isSpace, Bool.or_eq_true, Bool.and_eq_true, decide_eq_true_eq, beq_iff_eq, UInt8.le_iff_toNat_le,
    ← UInt8.toNat_inj, UInt8.reduceToNat] at h
  omega

theorem isAscii_of_isLineBreak (h : isLineBreak b) : isAscii b := by
  rcases Bool.or_eq_true_iff.mp h with h | h
  all_goals
    rw [eq_of_beq h]
    rfl

theorem isAscii_of_isDigit (h : isDigit b) : isAscii b := isAscii_of_isNamePart (by simp [isNamePart, h])

theorem isAscii_of_isHexDigit (h : isHexDigit b) : isAscii b := by
  unfold isHexDigit hexDigit? at h
  split at h
  · next hdigit => exact isAscii_of_isDigit hdigit
  · split at h
    · next hlower =>
      have hle : b ≤ 0x66 := of_decide_eq_true (Bool.and_eq_true_iff.mp hlower).2
      exact isAscii_iff.mpr (Nat.lt_of_le_of_lt hle (by decide))
    · split at h
      · next hupper =>
        have hle : b ≤ 0x46 := of_decide_eq_true (Bool.and_eq_true_iff.mp hupper).2
        exact isAscii_iff.mpr (Nat.lt_of_le_of_lt hle (by decide))
      · cases h

theorem isAscii_of_isDecimal (h : isDecimal b) : isAscii b := by
  simp only [isDecimal, Bool.or_eq_true, beq_iff_eq] at h
  rcases h with ((((h | rfl) | rfl) | rfl) | rfl) | rfl
  · exact isAscii_of_isDigit h
  all_goals rfl

end Classes

/-- A cursor rests where reading on from a place ends. -/
def Place.Meets (p : Place) (c : Cursor) : Prop := p.Lands c.toPlace

/-- A failure is reported where reading on from a place ends. -/
def Place.Shows (p : Place) (e : Failure) : Prop := ∃ p', p.Lands p' ∧ e.offset = p'.offset

theorem Place.Lands.shows {p m : Place} {e : Failure} (h : p.Lands m) (he : m.Shows e) : p.Shows e := by
  obtain ⟨p', hp, ho⟩ := he
  exact ⟨p', h.trans hp, ho⟩

/-- A scan leads to a seam, and fails at one. -/
structure Scan.Seams {α : Type} (scan : Scan (Option α)) : Prop where
  ok : ∀ {p a p'}, scan p = .ok (some a, p') → p.Lands p'
  error : ∀ {p e}, scan p = .error e → p.Shows e

section Forms
variable {text value rest next : Bytes} {label : Label} {count : Nat}

theorem LongBracket.Spelling.last {content : Bytes} (h : LongBracket.Spelling text content) :
    ∃ front b, text = front ++ [b] ∧ isAscii b := by
  cases h with
  | mk => exact ⟨_, ']'.toUInt8, (List.append_assoc _ (_ :: _) [_]).symm, by decide⟩

theorem QuotedSpelling.last {quote : UInt8} (h : QuotedSpelling quote text value) : ∃ front, text = front ++ [quote] := by
  induction h with
  | close => exact ⟨[], rfl⟩
  | plain _ _ _ _ ih =>
    obtain ⟨front, rfl⟩ := ih
    exact ⟨_ :: front, rfl⟩
  | escape _ _ ih =>
    obtain ⟨front, rfl⟩ := ih
    exact ⟨_, (List.append_assoc _ _ _).symm⟩

theorem isAscii_quote {quote : UInt8} (h : quote = '"'.toUInt8 ∨ quote = '\''.toUInt8) : isAscii quote := by
  rcases h with rfl | rfl <;> rfl

/-- A string ends with a quote or with a bracket. -/
theorem StringSpelling.last (h : StringSpelling text value) : ∃ front b, text = front ++ [b] ∧ isAscii b := by
  cases h with
  | quoted hq h =>
    obtain ⟨front, rfl⟩ := h.last
    exact ⟨_ :: front, _, rfl, isAscii_quote hq⟩
  | longBracket h => exact h.last

theorem NumeralSpelling.isAscii {number : Number} (h : NumeralSpelling text number) : ∀ b ∈ text, isAscii b := by
  rcases h.cases_isDecimal with ⟨mark, digits, hm, hd, rfl⟩ | h
  · have hmark : LuaSyntax.isAscii mark := by rcases hm with rfl | rfl <;> rfl
    exact List.forall_mem_cons.mpr ⟨rfl, List.forall_mem_cons.mpr ⟨hmark, fun b hb => isAscii_of_isHexDigit (hd b hb)⟩⟩
  · exact fun b hb => isAscii_of_isDecimal (h b hb)

theorem Mantissa.isDecimal (h : Mantissa text) : ∀ b ∈ text, isDecimal b := by
  cases h with
  | mk hw hf => exact List.forall_mem_append.mpr ⟨fun b hb => isDecimal_of_isDigit (hw b hb), hf.isDecimal⟩

theorem BrokenNumeral.asciiFront (h : BrokenNumeral rest label count) : AsciiFront rest count := by
  cases h with
  | @hexDigit mark tail hm =>
    have hmark : isAscii mark := by rcases hm with rfl | rfl <;> rfl
    exact ⟨['0'.toUInt8, mark], tail, rfl, rfl, List.forall_mem_cons.mpr ⟨rfl, List.forall_mem_singleton.mpr hmark⟩⟩
  | @fractionDigit tail => exact ⟨['.'.toUInt8], tail, rfl, rfl, List.forall_mem_singleton.mpr rfl⟩
  | @exponentDigit mantissa signText tail mark sign ht hm hs =>
    have hmark : isAscii mark := by rcases hm with rfl | rfl <;> rfl
    have hsign : ∀ b ∈ signText, isAscii b := by
      cases hs with
      | unsigned => exact List.forall_mem_nil _
      | plus | minus => exact List.forall_mem_singleton.mpr rfl
    have hmantissa := fun b hb => isAscii_of_isDecimal (ht.isDecimal b hb)
    refine ⟨mantissa ++ mark :: signText, tail, ?_, ?_, ?_⟩
    · rw [List.append_assoc]
    · rw [List.length_append, List.length_cons]
    · exact List.forall_mem_append.mpr ⟨hmantissa, List.forall_mem_cons.mpr ⟨hmark, hsign⟩⟩

theorem BrokenEscape.asciiFront (h : BrokenEscape rest label count) : AsciiFront rest count := by
  have hnone : AsciiFront rest 0 := ⟨[], rest, rfl, rfl, List.forall_mem_nil _⟩
  have hone : ∀ b tail, rest = b :: tail → isAscii b → AsciiFront rest 1 := fun b tail hrest hb =>
    ⟨[b], tail, hrest, rfl, List.forall_mem_singleton.mpr hb⟩
  have hopen : ∀ b ∈ ['u'.toUInt8, openBrace], isAscii b := List.all_eq_true.mp rfl
  cases h with
  | ended | unknown | decimal => exact hnone
  | hexadecimal | codePointOpen => exact hone _ _ rfl rfl
  | codePointDigit | codePointTooLarge => exact ⟨['u'.toUInt8, openBrace], _, rfl, rfl, hopen⟩
  | @codePointClose digits next hd =>
    have hdigits := fun b hb => isAscii_of_isHexDigit (hd b hb)
    exact ⟨'u'.toUInt8 :: openBrace :: digits, next, rfl, Nat.add_comm _ _,
      List.forall_mem_append.mpr ⟨hopen, hdigits⟩⟩

theorem BrokenItem.asciiFront (h : BrokenItem rest label count) : AsciiFront rest count := by
  cases h with
  | ended | lineBreak => exact ⟨[], _, rfl, rfl, List.forall_mem_nil _⟩
  | escape h =>
    obtain ⟨front, back, rfl, rfl, hfront⟩ := h.asciiFront
    exact ⟨_ :: front, back, rfl, rfl, List.forall_mem_cons.mpr ⟨rfl, hfront⟩⟩

theorem BrokenItem.head (h : BrokenItem rest label count) : ∀ b ∈ rest.head?, isAscii b := by
  cases h with
  | ended => exact nofun
  | lineBreak hl => exact fun b hb => Option.some.inj hb ▸ isAscii_of_isLineBreak hl
  | escape => exact fun b hb => Option.some.inj hb ▸ rfl

end Forms

namespace Scan
variable {p p' : Place} {e : Failure}

theorem seams_text {bytes : Bytes} (barred : UInt8 → Bool) (h : isPlain bytes) : (text bytes barred).Seams where
  ok hscan := by
    obtain ⟨hstarts, rfl⟩ := text_eq_some.mp hscan
    have hfront := List.isPrefixOf_iff_prefix.mp (Bool.and_eq_true_iff.mp hstarts).1
    have hp := passes_of_prefix hfront
    exact lands_of_front hp (isPlain_iff.mp h).2
  error hscan := (text_ne_error hscan).elim

theorem seams_name : name.Seams where
  ok hscan := by
    obtain ⟨-, -, rfl, rfl⟩ := name_eq_some.mp hscan
    exact lands_of_front (passes_takeWhile isNamePart) fun b hb => isAscii_of_isNamePart (List.mem_takeWhile_imp hb)
  error hscan := (name_ne_error hscan).elim

theorem seams_numeral : numeral.Seams where
  ok hscan := by
    obtain ⟨text, ht, hp⟩ := numeral_spelling hscan
    exact lands_of_front hp ht.isAscii
  error hscan := by
    obtain ⟨label, count, hbroken, rfl⟩ := numeral_eq_error.mp hscan
    exact ⟨_, lands_front hbroken.asciiFront, rfl⟩

theorem string_shows (h : string p = .error e) : p.Shows e := by
  obtain ⟨source, offset⟩ := p
  by_cases hquote : ∃ quote, (quote = '"'.toUInt8 ∨ quote = '\''.toUInt8) ∧ source.head? = some quote
  · obtain ⟨quote, hq, hhead⟩ := hquote
    obtain ⟨inner, rfl⟩ := List.head?_eq_some_iff.mp hhead
    obtain ⟨text, value, next, rfl, hitems, hnext⟩ := items_or_broken quote inner
    rcases hnext with hclose | ⟨label, count, hbroken⟩
    · obtain ⟨tail, rfl⟩ := List.head?_eq_some_iff.mp hclose
      exact nomatch (string_of_items hq hitems).symm.trans h
    · cases (string_of_broken hq hitems hbroken).symm.trans h
      have htext : (⟨quote :: (text ++ next), offset⟩ : Place).Passes (quote :: text) ⟨next, offset + 1 + text.length⟩ := by
        refine ⟨rfl, ?_⟩
        simp only [List.length_cons]
        omega
      exact ⟨_, (lands_of_head htext hbroken.head).trans (lands_front hbroken.asciiFront), rfl⟩
  · have hbracket : longBracket ⟨source, offset⟩ = .error e := by
      rw [← h]
      exact (string_eq_longBracket (fun hd => hquote ⟨_, .inl rfl, hd⟩) fun hs => hquote ⟨_, .inr rfl, hs⟩).symm
    obtain ⟨_, _, -, -, rfl⟩ := longBracket_eq_error.mp hbracket
    exact ⟨_, lands_end _, rfl⟩

theorem seams_string : string.Seams where
  ok hscan := by
    obtain ⟨text, ht, hp⟩ := string_spelling hscan
    obtain ⟨front, b, rfl, hb⟩ := ht.last
    exact ⟨_, hp, seam_of_last hb⟩
  error := string_shows

theorem seams_trivium : trivium.Seams where
  ok hscan := by
    obtain ⟨text, ht, -, hp⟩ := trivium_spelling hscan
    cases ht with
    | space hs => exact lands_of_front hp fun b hb => isAscii_of_isSpace (hs b hb)
    | line _ _ hend =>
      refine lands_of_head hp fun b hb => ?_
      rcases hend with hend | hend
      · rw [hend] at hb
        cases hb
      · rw [hend] at hb
        exact Option.some.inj hb ▸ rfl
    | long ht =>
      obtain ⟨front, b, rfl, hb⟩ := ht.last
      rw [← List.append_assoc] at hp
      exact ⟨_, hp, seam_of_last hb⟩
  error {p e} hscan := by
    obtain ⟨-, rfl⟩ := trivium_eq_error.mp hscan
    exact ⟨_, lands_end p, rfl⟩

end Scan

open Parse

variable {start : Place}

theorem reports_seam : Reports start.Meets start.Shows where
  expected {c} _ hc := ⟨c.toPlace, hc, rfl⟩
  tooDeep {c} hc := ⟨c.toPlace, hc, rfl⟩

theorem keeps_skipTriviaSeam : skipTrivia.Keeps start.Meets start.Shows := by
  have hstep : Keeps start.Meets start.Shows skipTrivium := by
    constructor
    · intro c found c' hc ho
      obtain ⟨hscan, -⟩ := skipTrivium_eq_ok.mp ho
      cases found with
      | none =>
        obtain ⟨-, hsame⟩ := Scan.trivium_eq_none.mp hscan
        unfold Place.Meets
        rwa [← hsame]
      | some _ => exact hc.trans (Scan.seams_trivium.ok hscan)
    · intro c e c' hc ho
      unfold skipTrivium at ho
      split at ho
      · cases ho
      · next hscan =>
        obtain ⟨rfl, rfl⟩ := EStateM.Result.error.inj ho
        exact ⟨hc, hc.shows (Scan.seams_trivium.error hscan)⟩
  exact .iterate reports_seam (fun _ => hstep) ()

theorem keeps_seamToken {α : Type} {scan : Scan (Option α)} (hs : scan.Seams) :
    Keeps start.Meets start.Shows (Rule.token scan) := by
  refine Rule.keeps_token keeps_skipTriviaSeam ?_ ?_
  · intro c a place hc hscan
    exact hc.trans (hs.ok hscan)
  · intro c e hc hscan
    exact hc.shows (hs.error hscan)

theorem guards_seam : Guards start.Meets start.Shows where
  toReports := reports_seam
  text barred h := keeps_seamToken (Scan.seams_text barred h)
  name := keeps_seamToken Scan.seams_name
  numeral := keeps_seamToken Scan.seams_numeral
  string := keeps_seamToken Scan.seams_string

namespace Grammar

/-- The line that is skipped at the start of a source ends in front of a line feed. -/
theorem lands_skipShebang (c : Cursor) : c.toPlace.Lands (skipShebang c).toPlace := by
  unfold skipShebang
  split
  · refine lands_of_head (passes_takeWhile (· != lineFeed)) fun b hb => ?_
    have hfeed : b = lineFeed := by simpa using Scan.head_drop_takeWhile (· != lineFeed) c.rest b hb
    exact hfeed ▸ rfl
  · exact .refl _

theorem keeps_chunkSeam (limit : Nat) : (chunk limit).Keeps start.Meets start.Shows :=
  keeps_chunk guards_seam (fun c hc => hc.trans (lands_skipShebang c)) keeps_skipTriviaSeam limit

end Grammar

end LuaSyntax
