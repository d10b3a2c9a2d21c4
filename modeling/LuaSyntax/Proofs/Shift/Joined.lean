import LuaSyntax.Proofs.Shift.Concatenation
import LuaSyntax.Proofs.Lines
import LuaSyntax.Proofs.Span.Statement

/-! # Programs one after the other

Two sources joined by an empty statement on a line of its own have the statements and the executable
lines of both, those of the second moved behind the first, or else fail where the second does.
-/
namespace LuaSyntax

open Grammar

namespace Node

theorem preorder_respan (f : Span → Span) (v : Node) : (v.respan f).preorder = v.preorder.map (respan f) := by
  induction v using children_induction with
  | h v ih =>
    have hbelow : (v.children.map (respan f)).flatMap preorder = (v.children.flatMap preorder).map (respan f) := by
      rw [List.flatMap_map, List.map_flatMap, List.flatMap_def, List.flatMap_def, List.map_congr_left ih]
    rw [preorder_eq_cons, preorder_eq_cons v, respan_children, hbelow, List.map_cons]

theorem respan_isLabel (f : Span → Span) (v : Node) : (v.respan f).form.isLabel = v.form.isLabel := by
  obtain ⟨form, span⟩ := v
  cases form <;> rfl

theorem respan_stops (f : Span → Span) (v : Node) : (v.respan f).form.stops = v.form.stops.map (respan f) := by
  obtain ⟨form, span⟩ := v
  rw [respan_mk]
  cases form with
  | block statements =>
    simp only [Form.map, Form.stops, List.filter_map]
    congr 2
    funext v
    exact congrArg not (respan_isLabel f v)
  | conditional branches otherwise => simp [Form.map, Form.stops]
  | _ => rfl

theorem mem_preorder_trans {v n m : Node} (hn : n ∈ v.preorder) (hm : m ∈ n.preorder) : m ∈ v.preorder := by
  induction v using children_induction with
  | h v ih =>
    rw [preorder_eq_cons] at hn
    rcases List.mem_cons.mp hn with rfl | hn
    · exact hm
    · obtain ⟨child, hc, hn⟩ := List.mem_flatMap.mp hn
      exact mem_preorder_of_child hc (ih child hc hn)

/-- Execution can stop at a node below a statement of a block. -/
def StopsAt (statement v : Node) : Prop :=
  v = statement ∧ ¬ statement.form.isLabel ∨ ∃ n ∈ statement.preorder, v ∈ n.form.stops

theorem stopsAt_respan {f : Span → Span} {statement v : Node} :
    (statement.respan f).StopsAt v ↔ ∃ old, statement.StopsAt old ∧ v = old.respan f := by
  unfold StopsAt
  rw [preorder_respan, respan_isLabel]
  constructor
  · rintro (⟨rfl, hlabel⟩ | ⟨n, hn, hv⟩)
    · exact ⟨statement, .inl ⟨rfl, hlabel⟩, rfl⟩
    · obtain ⟨m, hm, rfl⟩ := List.mem_map.mp hn
      rw [respan_stops] at hv
      obtain ⟨old, hold, rfl⟩ := List.mem_map.mp hv
      exact ⟨old, .inr ⟨m, hm, hold⟩, rfl⟩
  · rintro ⟨old, ⟨rfl, hlabel⟩ | ⟨n, hn, hold⟩, rfl⟩
    · exact .inl ⟨rfl, hlabel⟩
    · refine .inr ⟨n.respan f, List.mem_map_of_mem hn, ?_⟩
      rw [respan_stops]
      exact List.mem_map_of_mem hold

end Node

theorem Form.mem_children_of_stops {form : Form Node} {v : Node} (h : v ∈ form.stops) : v ∈ form.children := by
  cases form with
  | block statements => exact (List.mem_filter.mp h).1
  | conditional branches otherwise =>
    obtain ⟨branch, hm, rfl⟩ := List.mem_map.mp h
    exact List.mem_append_left _ (List.mem_flatMap.mpr ⟨branch, hm, List.mem_cons_self⟩)
  | repeatLoop body condition => exact List.mem_cons_of_mem _ h
  | _ => cases h

section Lines
variable {source text : Bytes} {limit : Nat} {filename : String} {root u v : Node} {line : Nat}

/-- A line of a block is executable if it is for one of its statements. -/
theorem contains_block {listed : List Node} {span : Span} :
    (executableLines ⟨.block listed, span⟩ text).contains line ↔
      ∃ u ∈ listed, ∃ v, u.StopsAt v ∧ (text.take (v.span.pos - 1)).count lineFeed + 1 = line := by
  have hchildren : (⟨.block listed, span⟩ : Node).children = listed := rfl
  rw [contains_executableLines, Node.preorder_eq_cons, hchildren]
  constructor
  · rintro ⟨n, hn, v, hv, hline⟩
    rcases List.mem_cons.mp hn with rfl | hn
    · obtain ⟨hm, hlabel⟩ := List.mem_filter.mp hv
      exact ⟨v, hm, v, .inl ⟨rfl, by simpa using hlabel⟩, hline⟩
    · obtain ⟨u, hu, hn⟩ := List.mem_flatMap.mp hn
      exact ⟨u, hu, v, .inr ⟨n, hn, hv⟩, hline⟩
  · rintro ⟨u, hu, v, ⟨rfl, hlabel⟩ | ⟨n, hn, hv⟩, hline⟩
    · exact ⟨_, List.mem_cons_self, v, List.mem_filter.mpr ⟨hu, by simpa using hlabel⟩, hline⟩
    · exact ⟨n, List.mem_cons_of_mem _ (List.mem_flatMap.mpr ⟨u, hu, hn⟩), v, hv, hline⟩

theorem stopsAt_pos (h : parse source limit filename = .ok root) (hu : u ∈ root.children) (hv : u.StopsAt v) :
    1 ≤ v.span.pos ∧ v.span.pos - 1 ≤ source.length := by
  obtain ⟨hspanned, hspan⟩ := parse_spanned h
  have hmem : v ∈ root.preorder := by
    refine Node.mem_preorder_of_child hu ?_
    rcases hv with ⟨rfl, -⟩ | ⟨n, hn, hv⟩
    · exact v.mem_preorder_self
    · exact Node.mem_preorder_trans hn (Node.mem_preorder_of_child (Form.mem_children_of_stops hv) v.mem_preorder_self)
  obtain ⟨hpos, hend⟩ := hspanned.contains v hmem
  obtain ⟨hle, -⟩ := hspanned v hmem
  rw [hspan] at hpos hend
  simp only at hpos hend
  omega

end Lines

section Joined
variable {first second : Bytes} {pos : Nat}

theorem count_joined_first (h : pos - 1 ≤ first.length) :
    ((first.joined second).take (pos - 1)).count lineFeed = (first.take (pos - 1)).count lineFeed := by
  rw [Bytes.joined, List.take_append_of_le_length h]

theorem count_joined_second (h : 1 ≤ pos) :
    ((first.joined second).take (pos + (first.length + 2) - 1)).count lineFeed =
      (second.take (pos - 1)).count lineFeed + (first.count lineFeed + 1) := by
  have hlength : pos + (first.length + 2) - 1 = first.length + (pos - 1 + 2) := by omega
  have hsemicolon : (semicolon == lineFeed) = false := by decide
  rw [Bytes.joined, hlength, List.take_length_add_append, List.take_succ_cons, List.take_succ_cons, List.count_append,
    List.count_cons_self, List.count_cons, hsemicolon]
  simp only [Bool.false_eq_true, if_false]
  omega

variable {limit : Nat} {filename : String} {root : Node}

theorem parse_eq (source : Bytes) (limit : Nat) (filename : String) : parse source limit filename =
    match whole (nesting limit) [] (skipShebang (.start source)) with
    | .ok (body, size) _ => .ok ⟨.block body, 1, max 1 size⟩
    | .error failure _ => .error (.ofFailure source limit filename failure) := by
  simp only [parse, Session.parse, Session.start, chunk_eq]
  cases hw : whole (nesting limit) [] (skipShebang (.start source)) with
  | ok found c => rw [Parse.bind_of_ok hw]; rfl
  | error failure c => rw [Parse.bind_of_error hw]

theorem whole_second (h : parse first limit filename = .ok root)
    (hr : ∀ v ∈ root.children.getLast?, v.tag ≠ .returnValues) (hh : second.head? ≠ some '#'.toUInt8) :
    whole (nesting limit) [] (skipShebang (.start (first.joined second))) =
      match whole (nesting limit) [] (skipShebang (.start second)) with
      | .ok (body, size) c => .ok (root.children ++ body.map (Node.moved 0 (first.length + 2)), size + (first.length + 2))
          ((Shift.second first second).cursor c)
      | .error failure c => .error ((Shift.second first second).failure failure) ((Shift.second first second).cursor c) := by
  have hstart : skipShebang (.start second) = .start second := @skipShebang_of_spelling [] second (.absent hh)
  have hshifts := shifts_whole (shifts_nesting limit) (x := Shift.second first second) rfl root.children.reverse
  have hsuffix : (Cursor.start second).rest <:+ (Shift.second first second).whole := List.suffix_rfl
  rw [whole_joined h hr, hstart]
  cases hw : whole (nesting limit) [] (.start second) with
  | error failure c => exact hshifts.error rfl hw hsuffix
  | ok found c =>
    have hpart := (Place.suffix_of_le (hshifts.le hw)).trans hsuffix
    obtain ⟨_, rfl, hok⟩ := hshifts.ok hw hsuffix ⟨hpart, .inl rfl⟩
    rw [List.reverse_reverse] at hok
    exact hok

/-- The executable lines of the first statements and those of the others, which are moved. -/
theorem contains_joined {body : List Node} {span span' : Span} {line : Nat} (h : parse first limit filename = .ok root)
    (hb : parse second limit filename = .ok ⟨.block body, span'⟩) :
    (executableLines ⟨.block (root.children ++ body.map (Node.moved 0 (first.length + 2))), span⟩
        (first.joined second)).contains line ↔
      (executableLines root first).contains line ∨
        ∃ old, (executableLines ⟨.block body, span'⟩ second).contains old ∧ line = old + (1 + first.count lineFeed) := by
  have hroot : root = ⟨.block root.children, root.span⟩ := by
    obtain ⟨_, _, -, -, listed, _, -, -, rfl⟩ := parse_eq_ok.mp h
    rfl
  have hmoved {old w : Node} (hold : old ∈ body) (hw : old.StopsAt w) :
      ((first.joined second).take ((w.moved 0 (first.length + 2)).span.pos - 1)).count lineFeed =
        (second.take (w.span.pos - 1)).count lineFeed + (first.count lineFeed + 1) := by
    rw [Node.moved, Node.respan_span]
    exact count_joined_second (stopsAt_pos hb hold hw).1
  rw [hroot, contains_block, contains_block, ← hroot]
  constructor
  · rintro ⟨u, hu, v, hv, hline⟩
    rcases List.mem_append.mp hu with hu | hu
    · refine .inl ⟨u, hu, v, hv, ?_⟩
      rw [← count_joined_first (stopsAt_pos h hu hv).2]
      exact hline
    · obtain ⟨old, hold, rfl⟩ := List.mem_map.mp hu
      obtain ⟨w, hw, rfl⟩ := Node.stopsAt_respan.mp hv
      refine .inr ⟨_, contains_block.mpr ⟨old, hold, w, hw, rfl⟩, ?_⟩
      have hcount := hmoved hold hw
      rw [Node.moved] at hcount
      omega
  · rintro (⟨u, hu, v, hv, hline⟩ | ⟨old, hold, rfl⟩)
    · refine ⟨u, List.mem_append_left _ hu, v, hv, ?_⟩
      rw [count_joined_first (stopsAt_pos h hu hv).2]
      exact hline
    · obtain ⟨u, hu, w, hw, rfl⟩ := contains_block.mp hold
      refine ⟨_, List.mem_append_right _ (List.mem_map_of_mem hu), _, Node.stopsAt_respan.mpr ⟨w, hw, rfl⟩, ?_⟩
      have hcount := hmoved hu hw
      rw [Node.moved] at hcount
      omega

/-- After a source that does not end with `return`, an empty statement on a line of its own and another
source are read as that other source is read alone. -/
theorem parse_joined (h : parse first limit filename = .ok root)
    (hr : ∀ v ∈ root.children.getLast?, v.tag ≠ .returnValues) (hh : second.head? ≠ some '#'.toUInt8) :
    (∀ other, parse second limit filename = .ok other →
      ∃ both, parse (first.joined second) limit filename = .ok both ∧
        both.children = root.children ++ other.children.map (Node.moved 0 (first.length + 2)) ∧
        both.span = ⟨1, (first.joined second).length⟩ ∧
        ∀ line, (executableLines both (first.joined second)).contains line ↔
          (executableLines root first).contains line ∨
            ∃ old, (executableLines other second).contains old ∧ line = old + (1 + first.count lineFeed)) ∧
    ∀ error, parse second limit filename = .error error →
      ∃ error', parse (first.joined second) limit filename = .error error' ∧ error'.cause = error.cause ∧
        error'.offset = error.offset + (first.length + 2) := by
  have hwhole := whole_second h hr hh
  have hsecond := parse_eq second limit filename
  have hjoined := parse_eq (first.joined second) limit filename
  rw [hwhole] at hjoined
  cases hw : whole (nesting limit) [] (skipShebang (.start second)) with
  | ok found c =>
    obtain ⟨body, size⟩ := found
    rw [hw] at hsecond hjoined
    refine ⟨fun other hother => ⟨_, hjoined, ?_⟩, fun error herror => ?_⟩
    · obtain rfl := Except.ok.inj (hsecond.symm.trans hother)
      obtain ⟨-, hspan⟩ := parse_spanned hjoined
      refine ⟨rfl, ?_, fun line => contains_joined h hsecond⟩
      have hlength : 1 ≤ (first.joined second).length := by
        simp only [Bytes.joined, List.length_append, List.length_cons]
        omega
      rw [hspan, Nat.max_eq_right hlength]
    · rw [hsecond] at herror
      cases herror
  | error failure c =>
    rw [hw] at hsecond hjoined
    refine ⟨fun other hother => ?_, fun error herror => ⟨_, hjoined, ?_⟩⟩
    · rw [hsecond] at hother
      cases hother
    · obtain rfl := Except.error.inj (hsecond.symm.trans herror)
      cases failure <;> exact ⟨rfl, rfl⟩

theorem parse_joined_calls :
    (∃ both, parse (.ofString "f() --\n;g()") 1 "" = .ok both ∧
      both.children = [⟨.call ⟨.name (.ofString "f"), 1, 1⟩ [], 1, 3⟩, ⟨.call ⟨.name (.ofString "g"), 9, 9⟩ [], 9, 11⟩] ∧
      both.span = ⟨1, 11⟩) ∧
    ∃ error', parse (.ofString "f() --\n;g") 1 "" = .error error' ∧ error'.cause = .expected .statement ∧
      error'.offset = 0 + 8 := by
  have hfirst : parse (.ofString "f() --") 1 "" = .ok ⟨.block [⟨.call ⟨.name (.ofString "f"), 1, 1⟩ [], 1, 3⟩], 1, 6⟩ :=
    rfl
  have hsecond : parse (.ofString "g()") 1 "" = .ok ⟨.block [⟨.call ⟨.name (.ofString "g"), 1, 1⟩ [], 1, 3⟩], 1, 3⟩ := rfl
  have herror : parse (.ofString "g") 1 "" = .error ⟨"", ⟨1, 1⟩, 0, .expected .statement⟩ := rfl
  have hlast : ∀ v ∈ [(⟨.call ⟨.name (.ofString "f"), 1, 1⟩ [], 1, 3⟩ : Node)].getLast?, v.tag ≠ .returnValues := by
    intro v hv
    obtain rfl := Option.some.inj hv
    decide
  constructor
  · obtain ⟨both, hboth, hchildren, hspan, -⟩ := (parse_joined hfirst hlast (by decide)).1 _ hsecond
    exact ⟨both, hboth, hchildren, hspan⟩
  · exact (parse_joined hfirst hlast (by decide)).2 _ herror

end Joined

end LuaSyntax
