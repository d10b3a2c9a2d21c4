import LuaSyntax.Proofs.Span.Gap

/-! # Blocks without statements

A block without statements has a span of one byte where it begins: on the first of the empty
statements in it or, if there are none, on the word that ends it.
-/
namespace LuaSyntax

/-- The words that end a block below the root. -/
def closingWords : List String := ["end", "elseif", "else", "until"]

/-- A span of one byte, from which on there are only trivia and semicolons, the first of these on
the byte itself, up to a word that ends a block. -/
def EmptyBlockAt (source : Bytes) (span : Span) : Prop :=
  ∃ front text tail, source = front ++ text ++ tail ∧ span = .point (front.length + 1) ∧ Blank tail text ∧
    (text = [] ∨ text.head? = some ';'.toUInt8) ∧ ∃ word ∈ closingWords, startsWithKeyword word tail

namespace Stream.CutFrom
variable {source : Bytes} {s s' : Stream} {span : Span}

/-- A semicolon that comes next is the byte at the position of the stream. -/
theorem head_semicolon (h : s.CutFrom source) (ht : s.Takes ";" span s') :
    (source.drop s.position).head? = some ';'.toUInt8 := by
  obtain ⟨c, hlexed, hrest, -⟩ := h.lexed
  obtain ⟨lexeme, c', hreads, -, htoken, -⟩ := hlexed.takes_reads ht
  obtain ⟨p', hread, hspelling, -⟩ := hreads.token
  rw [← hrest, hspelling.rest, hread.eq_ofString htoken hspelling]
  rfl

end Stream.CutFrom

namespace Phrase
variable {source : Bytes} {size levels : Nat} {s m s' : Stream} {v : Node}

theorem blanks_of_sequence {nested : Phrases} {found : List (Option Node)}
    (h : Sequence (StatementOrEmpty nested) s found m) (hnone : found.flatMap Option.toList = []) :
    ∃ blanks, Sequence (fun s span s' => s.Takes ";" span s') s blanks m := by
  induction h with
  | nil => exact ⟨[], .nil⟩
  | cons ha _ ih =>
    rcases ha with ⟨span, ht, rfl⟩ | ⟨v, -, rfl⟩
    · obtain ⟨blanks, hb⟩ := ih hnone
      exact ⟨span :: blanks, .cons ht hb⟩
    · cases hnone

theorem emptyBlock_at (hs : s.CutFrom source) (ho : s.Ordered size) (h : Block (phrases levels) s v s')
    (hv : v.form = .block []) (hne : s'.lexemes ≠ []) : EmptyBlockAt source v.span := by
  obtain ⟨listed, ⟨found, m, ⟨hfound, hend⟩, last, hlast, hlisted⟩, rfl⟩ := h
  obtain rfl : listed = [] := Form.block.inj hv
  obtain ⟨hnone, hreturn⟩ := List.append_eq_nil_iff.mp hlisted.symm
  obtain rfl := Option.toList_eq_nil_iff.mp hreturn
  obtain ⟨hreturn, rfl⟩ := hlast
  obtain ⟨blanks, hblanks⟩ := blanks_of_sequence hfound hnone
  have hcut : s'.CutFrom source := (hs.reaches (reaches_of_blanks hblanks)).1
  -- the block ends at a word that is not `return`
  obtain ⟨word, hword, hnext⟩ : ∃ word ∈ closingWords, s'.next? = some (.fixed word) := by
    rcases hend with hnil | ⟨token, hnext, hkind⟩
    · exact (hne hnil).elim
    · have hother : token ≠ .fixed "return" := by
        rintro rfl
        exact hreturn ⟨_, hnext, List.mem_singleton.mpr rfl⟩
      cases token with
      | fixed word =>
        refine ⟨word, ?_, hnext⟩
        simp only [Token.kind, List.mem_cons, Kind.fixed.injEq, List.not_mem_nil, or_false] at hkind
        simp only [closingWords, List.mem_cons, List.not_mem_nil, or_false]
        exact hkind.resolve_left fun heq => hother (congrArg _ heq)
      | _ => simp [Token.kind] at hkind
  have hkeyword : startsWithKeyword word (source.drop s'.position) :=
    (hcut.keyword_iff ((by decide : ∀ word ∈ closingWords, word ∈ reservedWords) word hword) hnext).mpr rfl
  obtain ⟨-, -, -, hle⟩ := hs.lexed
  obtain ⟨front, text, tail, rfl, hblank, hfirst, hlast⟩ := hs.blanks (.refl hle) hblanks
  have htail : (front ++ text ++ tail).drop s'.position = tail := by rw [← hlast, List.drop_left]
  refine ⟨front, text, tail, rfl, ?_, hblank, ?_, word, hword, htail ▸ hkeyword⟩
  · rw [hfirst]
    rfl
  · cases hblanks with
    | nil =>
      left
      rw [List.length_append, hfirst] at hlast
      exact List.length_eq_zero_iff.mp (by omega)
    | cons ht hrest =>
      right
      obtain ⟨hm, hnext, -, -, hlt⟩ := ho.takes ht
      have hle := (reaches_of_blanks hrest).position_le hm
      have hhead := hs.head_semicolon ht
      rw [← hfirst, List.append_assoc, List.drop_left] at hhead
      cases text with
      | nil =>
        rw [List.append_nil] at hlast
        omega
      | cons b others => exact hhead

end Phrase

/-- In a parsed tree every block without statements, other than the root, is anchored where it
begins. Its span is that of the word that ends it if nothing but trivia is in the block, and that of
the first semicolon in it otherwise. -/
theorem parse_emptyBlock {source : Bytes} {limit : Nat} {filename : String} {root : Node}
    (h : parse source limit filename = .ok root) :
    ∀ child ∈ root.children, ∀ node ∈ child.preorder, node.form = .block [] → EmptyBlockAt source node.span := by
  have hwell : root.Every Node.WellFormed := Node.Grown.every_wellFormed (.inl ⟨_, shaped_of_parse h⟩)
  obtain ⟨m, whole, hskip, hlexed, hchunk⟩ := parse_eq_ok.mp h
  obtain ⟨hline, hlast⟩ := skipShebang_passes source
  obtain ⟨trivia, -, -, hpasses, hlast'⟩ := Parse.skipTrivia_spelling hskip
  have hcut : whole.CutFrom source := ⟨m, _, hlexed, hline.trans hpasses⟩
  have ho : whole.Ordered m.toPlace.sourceEnd := hlexed.ordered (by omega)
  obtain ⟨listed, s', hlisted, -, rfl⟩ := hchunk
  obtain ⟨hblock, hbelow⟩ := Node.forall_mem_preorder.mp hwell
  intro v hv node hm hform
  obtain ⟨found, hoccurs⟩ := Node.exists_occurs .statement v node hm
  have hplaced : v.Placed .statement := @Node.WellFormed.placed _ _ .other _ hblock (List.mem_map_of_mem hv)
  obtain rfl : found = .block := (hoccurs.placed (hbelow v hv) hplaced).1 (congrArg Form.tag hform)
  have hderives := Phrase.derives_statements (Nat.le_refl _) (phrases_derive ho (Nat.le_refl _)) .refl hlisted
  obtain ⟨-, levels, -, s, e, hs, hread, hne⟩ := hderives v hv _ _ hoccurs
  exact Phrase.emptyBlock_at (hcut.reaches hs).1 (hs.ordered ho) hread hform hne

theorem parse_emptyBlock_semicolon : ∃ front text tail, Bytes.ofString "do ; end" = front ++ text ++ tail ∧
    Span.point 4 = .point (front.length + 1) ∧ Blank tail text ∧
      (text = [] ∨ text.head? = some ';'.toUInt8) ∧ ∃ word ∈ closingWords, startsWithKeyword word tail := by
  let body : Node := ⟨.block [], .point 4⟩
  have hparse : parse (.ofString "do ; end") 2 "" = .ok ⟨.block [⟨.doBlock body, 1, 8⟩], 1, 8⟩ := rfl
  have hbody : body ∈ Node.preorder ⟨.doBlock body, 1, 8⟩ :=
    Node.mem_preorder_of_child (List.mem_singleton.mpr rfl) body.mem_preorder_self
  exact parse_emptyBlock hparse ⟨.doBlock body, 1, 8⟩ (List.mem_singleton.mpr rfl) body
    hbody rfl

end LuaSyntax
