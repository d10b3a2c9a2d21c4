import LuaSyntax.Proofs.Outcome.Failure
import LuaSyntax.Proofs.Rescan.String

/-! # Long brackets exactly

What a long bracket holds depends on the bytes behind its opening bracket alone: it reaches to the first
closing bracket of its level, and where there is none the scan fails at the end of the source. A content
that does not close its own bracket is read back from the literal written for it.
-/
namespace LuaSyntax

/-- One line break, of two different bytes where it can be, in front of what follows it. -/
inductive LineBreakSpelling (next : Bytes) : Bytes → Prop
  | one {b : UInt8} (hb : isLineBreak b) (hn : ∀ c ∈ next.head?, isLineBreak c → c = b) : LineBreakSpelling next [b]
  | two {b c : UInt8} (hb : isLineBreak b) (hc : isLineBreak c) (hne : c ≠ b) : LineBreakSpelling next [b, c]

variable {bytes next text mark body content tail : Bytes} {level : Nat}

theorem LineBreakSpelling.length_eq (h : LineBreakSpelling next text) : lineBreakLength (text ++ next) = text.length := by
  cases h with
  | @one b hb hn =>
    cases next with
    | nil => simp [lineBreakLength, hb]
    | cons c next =>
      have hsame : (isLineBreak c && c != b) = false := by
        cases hc : isLineBreak c with
        | false => rfl
        | true => simpa using hn c rfl hc
      simp [lineBreakLength, hb, hsame]
  | two hb hc hne => simp [lineBreakLength, hb, hc, hne]

namespace LongBracket

/-- What is dropped in front of the content of a long bracket: one line break, if there is any. -/
def Dropped (text body : Bytes) : Prop := LineBreakSpelling body text ∨ text = [] ∧ ∀ b ∈ body.head?, ¬ isLineBreak b

theorem Dropped.length_eq (h : Dropped text body) : lineBreakLength (text ++ body) = text.length := by
  rcases h with h | ⟨rfl, hn⟩
  · exact h.length_eq
  · cases body with
    | nil => rfl
    | cons b tail =>
      have hb : isLineBreak b = false := by simpa using hn b rfl
      cases tail <;> simp [lineBreakLength, hb]

/-- Some bytes come apart into what is dropped of them and the rest. -/
theorem exists_dropped (inner : Bytes) : ∃ text body, inner = text ++ body ∧ Dropped text body := by
  have hnone (h : ∀ b ∈ inner.head?, ¬ isLineBreak b) : ∃ text body, inner = text ++ body ∧ Dropped text body :=
    ⟨[], inner, rfl, .inr ⟨rfl, h⟩⟩
  match inner, hnone with
  | [], hnone => exact hnone (by simp)
  | [b], hnone =>
    by_cases hb : isLineBreak b
    · exact ⟨[b], [], rfl, .inl (.one hb (by simp))⟩
    · exact hnone (by simpa using hb)
  | b :: c :: tail, hnone =>
    by_cases hb : isLineBreak b
    case neg => exact hnone (by simpa using hb)
    by_cases hc : isLineBreak c ∧ c ≠ b
    · exact ⟨[b, c], tail, rfl, .inl (.two hb hc.1 hc.2)⟩
    · refine ⟨[b], c :: tail, rfl, .inl (.one hb ?_)⟩
      rintro _ ⟨⟩ hbreak
      exact Decidable.byContradiction fun hne => hc ⟨hbreak, hne⟩

/-- A mark stands nowhere in some bytes. -/
def Nowhere (mark bytes : Bytes) : Prop := ∀ n, ¬ mark <+: bytes.drop n

theorem Nowhere.of_append {front back : Bytes} (h : Nowhere mark (front ++ back)) : Nowhere mark back := by
  intro n hp
  refine h (front.length + n) ?_
  rwa [List.drop_length_add_append]

/-- A content that some bytes begin with, up to the first place where a mark stands. -/
def UpTo (mark bytes content : Bytes) : Prop :=
  content ++ mark <+: bytes ∧ ∀ n < content.length, ¬ mark <+: bytes.drop n

theorem closing_ne_nil (level : Nat) : closing level ≠ [] := List.cons_ne_nil _ _

theorem contentBefore?_eq_none {passed : Bytes} (hmark : mark ≠ []) (h : contentBefore? mark passed bytes = none) :
    Nowhere mark bytes := by
  intro n
  induction bytes generalizing passed n with
  | nil =>
    rw [List.drop_nil, List.prefix_nil]
    exact hmark
  | cons b tail ih =>
    rw [contentBefore?] at h
    split at h
    · cases h
    · next hnot =>
      cases n with
      | zero => exact fun hp => hnot (List.isPrefixOf_iff_prefix.mpr hp)
      | succ n => exact ih h n

theorem contentBefore?_iff (hmark : mark ≠ []) : contentBefore? mark [] bytes = some content ↔ UpTo mark bytes content := by
  constructor
  · intro h
    obtain ⟨_, tail, rfl, hbytes, hfirst⟩ := contentBefore?_eq_some h
    exact ⟨⟨tail, hbytes.symm⟩, hfirst⟩
  · rintro ⟨⟨tail, rfl⟩, hfirst⟩
    exact contentBefore?_of_first hfirst hmark

/-- A mark stands nowhere, or it stands somewhere first. -/
theorem upTo_or_nowhere (hmark : mark ≠ []) (bytes : Bytes) : (∃ content, UpTo mark bytes content) ∨ Nowhere mark bytes := by
  cases h : contentBefore? mark [] bytes with
  | none => exact .inr (contentBefore?_eq_none hmark h)
  | some content => exact .inl ⟨content, (contentBefore?_iff hmark).mp h⟩

theorem UpTo.not_nowhere (h : UpTo mark bytes content) : ¬ Nowhere mark bytes := by
  obtain ⟨⟨tail, rfl⟩, -⟩ := h
  intro hn
  refine hn content.length ?_
  rw [List.append_assoc, List.drop_left]
  exact List.prefix_append _ _

/-- What follows the mark does not matter if the content and the mark stand whole in front of it. -/
theorem UpTo.of_first (h : ∀ n < content.length, ¬ mark <+: (content ++ mark).drop n) (tail : Bytes) :
    UpTo mark (content ++ mark ++ tail) content := by
  refine ⟨List.prefix_append _ _, fun n hn hp => h n hn ?_⟩
  rw [List.drop_append_of_le_length (by rw [List.length_append]; omega)] at hp
  refine List.prefix_of_prefix_length_le hp (List.prefix_append _ _) ?_
  simp only [List.length_drop, List.length_append]
  omega

theorem Dropped.nowhere {dropped : Bytes} (hd : Dropped dropped body)
    (h : Nowhere (closing level) body) : Nowhere (closing level) (dropped ++ body) := by
  have hbreaks : ∀ b ∈ dropped, isLineBreak b := by
    rcases hd with (hb | ⟨hb, hc, -⟩) | ⟨rfl, -⟩
    · exact List.forall_mem_singleton.mpr hb
    · exact List.forall_mem_cons.mpr ⟨hb, List.forall_mem_singleton.mpr hc⟩
    · exact List.forall_mem_nil _
  intro n hp
  rcases Nat.lt_or_ge n dropped.length with hlt | hge
  · obtain ⟨tail, htail⟩ := hp
    have hhead : (dropped ++ body)[n]? = some ']'.toUInt8 := by
      rw [← List.head?_drop, ← htail]
      rfl
    rw [List.getElem?_append_left hlt] at hhead
    exact absurd (hbreaks _ (List.mem_of_getElem? hhead)) (by decide)
  · obtain ⟨count, rfl⟩ := Nat.le.dest hge
    rw [List.drop_length_add_append] at hp
    exact h count hp

/-- An opening bracket with bytes after it in which the closing bracket stands only at the end. -/
theorem spelling_of_last {front : Bytes}
    (h : ∀ n < front.length, ¬ closing level <+: (front ++ closing level).drop n) :
    ∃ content, Spelling (opening level ++ (front ++ closing level)) content := by
  have hle : lineBreakLength (front ++ closing level) ≤ front.length := by
    have hclose (tail : Bytes) : lineBreakLength (']'.toUInt8 :: tail) = 0 := by cases tail <;> rfl
    match front with
    | [] => exact Nat.le_of_eq (hclose _)
    | [b] =>
      simp only [closing, List.cons_append, List.nil_append, lineBreakLength, List.length_singleton]
      split
      · exact Nat.le_refl 1
      · exact Nat.zero_le 1
    | b :: c :: tail =>
      refine Nat.le_trans ?_ (Nat.le_add_left 2 tail.length)
      simp only [List.cons_append, lineBreakLength]
      split
      · split
        · exact Nat.le_refl 2
        · exact Nat.le_succ 1
      · exact Nat.zero_le 2
  refine ⟨front.drop (lineBreakLength (front ++ closing level)), ?_⟩
  have hsplit := List.take_append_drop (lineBreakLength (front ++ closing level)) front
  generalize hbreak : lineBreakLength (front ++ closing level) = count at hle hsplit
  have hall : Spelling (opening level ++ front.take count ++ front.drop count ++ closing level) (front.drop count) := by
    refine .mk ?_ fun n hn hp => ?_
    · rw [hsplit, hbreak, List.length_take, Nat.min_eq_left hle]
    · rw [List.length_drop] at hn
      refine h (count + n) (by omega) ?_
      rw [← List.drop_drop, List.drop_append_of_le_length hle]
      exact hp
  rw [List.append_assoc (opening level), hsplit, List.append_assoc] at hall
  exact hall

/-- The line break to write in front of a content that begins with one. -/
def guard (content : Bytes) : Bytes := content.take 1 |>.filter isLineBreak

/-- The literal of a level for a content. -/
def literal (level : Nat) (content : Bytes) : Bytes := opening level ++ guard content ++ content ++ closing level

theorem dropped_guard (content : Bytes) (level : Nat) (tail : Bytes) :
    Dropped (guard content) (content ++ closing level ++ tail) := by
  have hclose : isLineBreak ']'.toUInt8 = false := by decide
  cases content with
  | nil =>
    refine .inr ⟨rfl, ?_⟩
    rintro _ ⟨⟩
    exact Bool.eq_false_iff.mp hclose
  | cons b content =>
    have htake : guard (b :: content) = [b].filter isLineBreak := rfl
    by_cases hb : isLineBreak b
    · rw [htake, List.filter_cons_of_pos hb]
      refine .inl (.one hb ?_)
      rintro _ ⟨⟩ -
      rfl
    · rw [htake, List.filter_cons_of_neg hb]
      refine .inr ⟨rfl, ?_⟩
      rintro _ ⟨⟩
      exact hb

end LongBracket

open LongBracket

namespace Scan
variable {dropped value : Bytes} {offset : Nat} {p' : Place} {e : Failure}

/-- The place behind an opening bracket, and the line break that stands there. -/
theorem advance_opening (hd : Dropped dropped body) :
    lineBreakLength ((⟨opening level ++ (dropped ++ body), offset⟩ : Place).advance (level + 2)).rest = dropped.length ∧
      ((⟨opening level ++ (dropped ++ body), offset⟩ : Place).advance (level + 2)).advance dropped.length =
        ⟨body, offset + (opening level ++ dropped).length⟩ := by
  rw [← length_opening, Place.advance, Place.advance, List.drop_left, List.drop_left, List.length_append,
    Nat.add_assoc]
  exact ⟨hd.length_eq, rfl⟩

theorem longBracket_of_upTo (hd : Dropped dropped body) (h : UpTo (closing level) body content) :
    ∃ p', longBracket ⟨opening level ++ (dropped ++ body), offset⟩ = .ok (some content, p') ∧
      (⟨opening level ++ (dropped ++ body), offset⟩ : Place).Passes (opening level ++ dropped ++ content ++ closing level) p' := by
  obtain ⟨hbreak, hplace⟩ := @advance_opening body level dropped offset hd
  have hfound := (contentBefore?_iff (closing_ne_nil level)).mpr h
  obtain ⟨⟨tail, rfl⟩, -⟩ := h
  refine ⟨⟨tail, offset + (opening level ++ dropped ++ content ++ closing level).length⟩, ?_, ?_, rfl⟩
  · simp only [longBracket, bind_eq_ok, rest_eq_ok]
    refine ⟨_, _, ⟨rfl, rfl⟩, ?_⟩
    simp only [level?_opening, bind_eq_ok, advance_eq_ok, rest_eq_ok, get_eq_ok]
    refine ⟨(), _, rfl, _, _, ⟨rfl, rfl⟩, (), _, rfl, _, _, ⟨rfl, rfl⟩, ?_⟩
    rw [hbreak, hplace, hfound]
    simp only [bind_eq_ok, advance_eq_ok, pure_eq_ok]
    refine ⟨(), _, rfl, trivial, ?_⟩
    have hlength : content.length + level + 2 = (content ++ closing level).length := by
      rw [List.length_append, length_closing, Nat.add_assoc]
    rw [Place.advance, hlength, List.drop_left]
    simp only [List.length_append, Nat.add_assoc]
  · simp only [List.append_assoc]

theorem longBracket_of_nowhere (hd : Dropped dropped body) (h : Nowhere (closing level) body) :
    longBracket ⟨opening level ++ (dropped ++ body), offset⟩ = .error (.expected .longBracketClose
      (Place.sourceEnd ⟨opening level ++ (dropped ++ body), offset⟩)) := by
  obtain ⟨hbreak, hplace⟩ := @advance_opening body level dropped offset hd
  have hnone : contentBefore? (closing level) [] body = none := by
    cases hfound : contentBefore? (closing level) [] body with
    | none => rfl
    | some content => exact (((contentBefore?_iff (closing_ne_nil level)).mp hfound).not_nowhere h).elim
  simp only [longBracket, rest_bind_eq_error, level?_opening, advance_bind_eq_error, hbreak]
  refine bind_eq_error.mpr (.inr ⟨_, _, get_eq_ok.mpr ⟨rfl, rfl⟩, ?_⟩)
  rw [hplace, hnone, failAt_eq_error, Place.sourceEnd, Place.sourceEnd]
  simp only [List.length_append, Nat.add_assoc]

theorem trivium_of_longBracket {bytes : Bytes} (h : longBracket ⟨bytes, offset + 2⟩ = .ok (some content, p')) :
    trivium ⟨commentMark ++ bytes, offset⟩ = .ok (some (), p') := by
  simp only [trivium, bind_eq_ok, rest_eq_ok]
  refine ⟨_, _, ⟨rfl, rfl⟩, ?_⟩
  have hspace : ¬ (commentMark ++ bytes).head?.any isSpace := show ¬ (some '-'.toUInt8).any isSpace by decide
  rw [if_neg hspace, if_pos (startsComment_iff.mpr (List.prefix_append _ _))]
  simp only [bind_eq_ok, advance_eq_ok]
  exact ⟨(), _, rfl, some content, p', h, pure_eq_ok.mpr ⟨rfl, rfl⟩⟩

theorem trivium_of_error {bytes : Bytes} (h : longBracket ⟨bytes, offset + 2⟩ = .error e) :
    trivium ⟨commentMark ++ bytes, offset⟩ = .error e := by
  rw [trivium, rest_bind_eq_error]
  have hspace : ¬ (commentMark ++ bytes).head?.any isSpace := show ¬ (some '-'.toUInt8).any isSpace by decide
  rw [if_neg hspace, if_pos (startsComment_iff.mpr (List.prefix_append _ _)), advance_bind_eq_error]
  exact bind_eq_error.mpr (.inl h)

/-- A scan from a place passes a head and then reads a body up to the first place where a mark stands. It
fails at the end of the source exactly if the mark stands nowhere. -/
structure ReadsTo {α : Type} (scan : Scan (Option α)) (p : Place) (head mark body : Bytes) (value : Bytes → α) : Prop where
  ok : ∀ found p', scan p = .ok (found, p') ↔
    ∃ content, UpTo mark body content ∧ found = some (value content) ∧ p.Passes (head ++ content ++ mark) p'
  error : ∀ e, scan p = .error e ↔ Nowhere mark body ∧ e = .expected .longBracketClose p.sourceEnd

theorem ReadsTo.of_outcomes {α : Type} {scan : Scan (Option α)} {p : Place} {head : Bytes} {value : Bytes → α}
    (hmark : mark ≠ [])
    (hok : ∀ content, UpTo mark body content →
      ∃ p', scan p = .ok (some (value content), p') ∧ p.Passes (head ++ content ++ mark) p')
    (herror : Nowhere mark body → scan p = .error (.expected .longBracketClose p.sourceEnd)) :
    scan.ReadsTo p head mark body value where
  ok found p' := by
    constructor
    · intro h
      rcases upTo_or_nowhere hmark body with ⟨content, hupto⟩ | hnowhere
      · obtain ⟨m, hscan, hp⟩ := hok content hupto
        cases hscan.symm.trans h
        exact ⟨content, hupto, rfl, hp⟩
      · exact nomatch (herror hnowhere).symm.trans h
    · rintro ⟨content, hupto, rfl, hp⟩
      obtain ⟨m, hscan, hm⟩ := hok content hupto
      rw [hscan, hp.eq_advance, hm.eq_advance]
  error e := by
    constructor
    · intro h
      rcases upTo_or_nowhere hmark body with ⟨content, hupto⟩ | hnowhere
      · obtain ⟨m, hscan, -⟩ := hok content hupto
        exact nomatch hscan.symm.trans h
      · cases (herror hnowhere).symm.trans h
        exact ⟨hnowhere, rfl⟩
    · rintro ⟨hnowhere, rfl⟩
      exact herror hnowhere

theorem longBracket_readsTo (hd : Dropped dropped body) :
    longBracket.ReadsTo ⟨opening level ++ (dropped ++ body), offset⟩ (opening level ++ dropped) (closing level) body id :=
  .of_outcomes (closing_ne_nil level) (fun _ h => longBracket_of_upTo hd h) fun h => longBracket_of_nowhere hd h

/-- A long bracket fails where nothing closes it. -/
theorem longBracket_eq_error {p : Place} : longBracket p = .error e ↔
    ∃ level inner, p.rest = opening level ++ inner ∧ Nowhere (closing level) inner ∧
      e = .expected .longBracketClose p.sourceEnd := by
  obtain ⟨source, offset⟩ := p
  constructor
  · intro h
    cases hlevel : level? source with
    | none => exact nomatch (longBracket_eq_none.mpr ⟨hlevel, rfl⟩).symm.trans h
    | some level =>
      obtain ⟨inner, rfl⟩ := level?_eq_some hlevel
      obtain ⟨dropped, body, rfl, hd⟩ := exists_dropped inner
      obtain ⟨hbody, he⟩ := ((longBracket_readsTo hd).error e).mp h
      exact ⟨level, _, rfl, hd.nowhere hbody, he⟩
  · rintro ⟨level, inner, hsource, hinner, rfl⟩
    obtain ⟨dropped, body, rfl, hd⟩ := exists_dropped inner
    obtain rfl : source = _ := hsource
    exact ((longBracket_readsTo hd).error _).mpr ⟨hinner.of_append, rfl⟩

theorem string_eq_longBracket {p : Place} (hd : p.rest.head? ≠ some '"'.toUInt8) (hs : p.rest.head? ≠ some '\''.toUInt8) :
    string p = longBracket p := by
  obtain ⟨source, offset⟩ := p
  cases source with
  | nil => rfl
  | cons b tail =>
    have hquote : ¬ (b == '"'.toUInt8 || b == '\''.toUInt8) := by
      rw [Bool.or_eq_true, beq_iff_eq, beq_iff_eq]
      rintro (rfl | rfl)
      · exact hd rfl
      · exact hs rfl
    change (if b == '"'.toUInt8 || b == '\''.toUInt8 then some <$> quoted b else longBracket) _ = _
    rw [if_neg hquote]

theorem string_readsTo (hd : Dropped dropped body) :
    string.ReadsTo ⟨opening level ++ (dropped ++ body), offset⟩ (opening level ++ dropped) (closing level) body id := by
  have hstring : string ⟨opening level ++ (dropped ++ body), offset⟩ = longBracket _ := string_eq_longBracket nofun nofun
  have hreads := @longBracket_readsTo body level dropped offset hd
  exact ⟨fun found p' => hstring ▸ hreads.ok found p', fun e => hstring ▸ hreads.error e⟩

theorem trivium_readsTo (hd : Dropped dropped body) :
    trivium.ReadsTo ⟨commentMark ++ (opening level ++ (dropped ++ body)), offset⟩
      (commentMark ++ (opening level ++ dropped)) (closing level) body fun _ => () := by
  have hmark : (⟨commentMark ++ (opening level ++ (dropped ++ body)), offset⟩ : Place).Passes commentMark
      ⟨opening level ++ (dropped ++ body), offset + 2⟩ := ⟨rfl, rfl⟩
  refine .of_outcomes (closing_ne_nil level) (fun content h => ?_) fun h => ?_
  · obtain ⟨p', hscan, hp⟩ := longBracket_of_upTo hd h
    refine ⟨p', trivium_of_longBracket hscan, (hmark.trans hp).congr ?_⟩
    simp only [List.append_assoc]
  · rw [← Place.sourceEnd_eq ⟨_, hmark⟩]
    exact trivium_of_error (longBracket_of_nowhere hd h)

theorem string_literal (h : ∀ n < content.length, ¬ closing level <+: (content ++ closing level).drop n) :
    string ⟨literal level content ++ tail, offset⟩ =
      .ok (some content, ⟨tail, offset + (literal level content).length⟩) := by
  have hrest : literal level content ++ tail =
      opening level ++ (guard content ++ (content ++ closing level ++ tail)) := by
    simp only [literal, List.append_assoc]
  rw [hrest]
  refine ((string_readsTo (dropped_guard content level tail)).ok _ _).mpr ⟨content, .of_first h tail, rfl, ?_, rfl⟩
  simp only [List.append_assoc]

/-- Where a long bracket of any level opens, as a string or behind a comment mark, it is scanned up to the
first closing bracket of its level after one line break that is dropped, and its value is the bytes between.
A content that does not close its own bracket is scanned back from its literal. -/
theorem longBracket_exact (level offset : Nat) :
    (∀ inner, ∃ dropped body, inner = dropped ++ body ∧ Dropped dropped body ∧
      string.ReadsTo ⟨opening level ++ inner, offset⟩ (opening level ++ dropped) (closing level) body id ∧
      trivium.ReadsTo ⟨commentMark ++ (opening level ++ inner), offset⟩ (commentMark ++ (opening level ++ dropped))
        (closing level) body fun _ => ()) ∧
    ∀ content tail, (∀ n < content.length, ¬ closing level <+: (content ++ closing level).drop n) →
      string ⟨literal level content ++ tail, offset⟩ =
        .ok (some content, ⟨tail, offset + (literal level content).length⟩) := by
  refine ⟨fun inner => ?_, fun content tail => string_literal⟩
  obtain ⟨dropped, body, rfl, hd⟩ := exists_dropped inner
  exact ⟨dropped, body, rfl, hd, string_readsTo hd, trivium_readsTo hd⟩

/-- A content that begins with a line feed and ends like a closing bracket of a lower level. -/
theorem string_literal_one :
    string ⟨literal 1 [lineFeed, ']'.toUInt8, ']'.toUInt8], 0⟩ =
      .ok (some [lineFeed, ']'.toUInt8, ']'.toUInt8], ⟨[], 10⟩) :=
  (longBracket_exact 1 0).2 [lineFeed, ']'.toUInt8, ']'.toUInt8] [] (by decide)

end Scan

end LuaSyntax
