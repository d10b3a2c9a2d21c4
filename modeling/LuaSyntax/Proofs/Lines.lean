import LuaSyntax.Lines
import LuaSyntax.Proofs.Respan

/-! # Lines of positions

The search in the ascending starts of lines counts the starts up to an offset. The line of a position
is therefore one more than the number of line feeds before it.
-/
namespace LuaSyntax

namespace LineIndex

section Search
variable {values : Array Nat} {bound low high : Nat}

/-- The first of some values are those up to a bound. -/
structure Splits (values : Array Nat) (bound low high : Nat) : Prop where
  below : ∀ i v, values[i]? = some v → i < low → v ≤ bound
  above : ∀ i v, values[i]? = some v → high ≤ i → bound < v

/-- The search keeps the values in front of it below the bound and those behind it above. -/
theorem countUpTo_splits (hs : ∀ (i j u v : Nat), i ≤ j → values[i]? = some u → values[j]? = some v → u ≤ v)
    (hle : low ≤ high) (h : Splits values bound low high) :
    countUpTo values bound low high ≤ high ∧
      Splits values bound (countUpTo values bound low high) (countUpTo values bound low high) := by
  fun_induction countUpTo values bound low high with
  | case1 low high hlt middle hmiddle ih =>
    rw [Option.any_eq_true] at hmiddle
    obtain ⟨u, hu, hbound⟩ := hmiddle
    refine ih (by omega) ⟨fun i v hv hi => ?_, h.above⟩
    exact Nat.le_trans (hs i middle v u (by omega) hv hu) (of_decide_eq_true hbound)
  | case2 low high hlt middle hmiddle ih =>
    have habove : ∀ i v, values[i]? = some v → middle ≤ i → bound < v := by
      intro i v hv hi
      cases hu : values[middle]? with
      | none =>
        have hsize : values.size ≤ i := Nat.le_trans (Array.getElem?_eq_none_iff.mp hu) hi
        rw [Array.getElem?_eq_none hsize] at hv
        cases hv
      | some u =>
        have hbound : bound < u := by simpa [hu] using hmiddle
        exact Nat.lt_of_lt_of_le hbound (hs middle i u v hi hu hv)
    obtain ⟨hcount, hsplits⟩ := ih (by omega) ⟨h.below, habove⟩
    exact ⟨Nat.le_trans hcount (by omega), hsplits⟩
  | case3 low high hge =>
    obtain rfl : low = high := by omega
    exact ⟨hle, h⟩

theorem Splits.countP {count : Nat} (h : Splits values bound count count) (hc : count ≤ values.size) :
    values.toList.countP (· ≤ bound) = count := by
  have hget (i : Nat) : values[i]? = values.toList[i]? := values.getElem?_toList.symm
  have hbelow : ∀ v ∈ values.toList.take count, decide (v ≤ bound) := by
    intro v hv
    obtain ⟨i, hi⟩ := List.getElem?_of_mem hv
    have hlt : i < count := by
      obtain ⟨hlt, -⟩ := List.getElem?_eq_some_iff.mp hi
      exact Nat.lt_of_lt_of_le hlt (List.length_take_le _ _)
    rw [List.getElem?_take_of_lt hlt] at hi
    exact decide_eq_true (h.below i v ((hget i).trans hi) hlt)
  have habove : ∀ v ∈ values.toList.drop count, ¬ decide (v ≤ bound) := by
    intro v hv
    obtain ⟨i, hi⟩ := List.getElem?_of_mem hv
    rw [List.getElem?_drop, ← hget] at hi
    have hlt := h.above _ v hi (Nat.le_add_right _ _)
    simpa using hlt
  have hlength : (values.toList.take count).length = count := by
    rw [List.length_take, Array.length_toList, Nat.min_eq_left hc]
  calc values.toList.countP (· ≤ bound)
      = (values.toList.take count ++ values.toList.drop count).countP (· ≤ bound) := by rw [List.take_append_drop]
    _ = count := by
      rw [List.countP_append, List.countP_eq_length.mpr hbelow, List.countP_eq_zero.mpr habove, hlength, Nat.add_zero]

end Search

/-- The offsets after the line feeds of a text that follows an offset. -/
def breaks (offset : Nat) : Bytes → List Nat
  | [] => []
  | b :: rest => if b == lineFeed then (offset + 1) :: breaks (offset + 1) rest else breaks (offset + 1) rest

variable {text : Bytes} {offset : Nat}

theorem startsFrom_eq (starts : Array Nat) : (startsFrom offset starts text).toList = starts.toList ++ breaks offset text := by
  induction text generalizing offset starts with
  | nil => simp [startsFrom, breaks]
  | cons b rest ih =>
    rw [startsFrom, ih, breaks]
    split <;> simp

theorem breaks_above : ∀ v ∈ breaks offset text, offset < v := by
  induction text generalizing offset with
  | nil => exact List.forall_mem_nil _
  | cons b rest ih =>
    have hrest : ∀ v ∈ breaks (offset + 1) rest, offset < v := fun v hv => Nat.lt_of_succ_lt (ih v hv)
    rw [breaks]
    split
    · exact List.forall_mem_cons.mpr ⟨Nat.lt_succ_self _, hrest⟩
    · exact hrest

theorem breaks_ascend : (breaks offset text).Pairwise (· < ·) := by
  induction text generalizing offset with
  | nil => exact .nil
  | cons b rest ih =>
    rw [breaks]
    split
    · exact .cons breaks_above ih
    · exact ih

/-- There are as many line starts up to an offset as line feeds before it. -/
theorem countP_breaks (bound : Nat) : (breaks offset text).countP (· ≤ bound) = (text.take (bound - offset)).count lineFeed := by
  induction text generalizing offset with
  | nil => simp [breaks]
  | cons b rest ih =>
    rcases Nat.lt_or_ge offset bound with hlt | hge
    · have hcount : bound - offset = bound - (offset + 1) + 1 := by omega
      rw [breaks, hcount, List.take_succ_cons, List.count_cons, ← ih]
      split
      · exact List.countP_cons_of_pos (p := (· ≤ bound)) (decide_eq_true (Nat.succ_le_of_lt hlt))
      · rfl
    · have hnone : ∀ v ∈ breaks offset (b :: rest), ¬ decide (v ≤ bound) := by
        intro v hv
        have habove := breaks_above v hv
        simp only [decide_eq_true_eq, Nat.not_le]
        omega
      rw [List.countP_eq_zero.mpr hnone, Nat.sub_eq_zero_of_le hge, List.take_zero, List.count_nil]

theorem line_ofText (text : Bytes) (pos : Nat) : (ofText text).line pos = (text.take (pos - 1)).count lineFeed + 1 := by
  have hlist : (ofText text).starts.toList = 0 :: breaks 0 text := startsFrom_eq #[0]
  have hascend : ∀ (i j u v : Nat), i ≤ j → (ofText text).starts[i]? = some u → (ofText text).starts[j]? = some v → u ≤ v := by
    intro i j u v hle hu hv
    have hsorted : (0 :: breaks 0 text).Pairwise (· < ·) := .cons breaks_above breaks_ascend
    rw [← Array.getElem?_toList, hlist] at hu hv
    rcases Nat.eq_or_lt_of_le hle with rfl | hlt
    · exact Nat.le_of_eq (Option.some.inj (hu.symm.trans hv))
    · obtain ⟨hi, rfl⟩ := List.getElem?_eq_some_iff.mp hu
      obtain ⟨hj, rfl⟩ := List.getElem?_eq_some_iff.mp hv
      exact Nat.le_of_lt (List.pairwise_iff_getElem.mp hsorted i j hi hj hlt)
  have hstart : Splits (ofText text).starts (pos - 1) 0 (ofText text).starts.size := by
    refine ⟨fun _ _ _ hi => (Nat.not_lt_zero _ hi).elim, fun i v hv hi => ?_⟩
    rw [Array.getElem?_eq_none hi] at hv
    cases hv
  obtain ⟨hle, hsplits⟩ := countUpTo_splits hascend (Nat.zero_le _) hstart
  rw [line, ← hsplits.countP hle, hlist, List.countP_cons_of_pos (by simp), countP_breaks, Nat.sub_zero]

end LineIndex

namespace ExecutableLines

theorem contains_ofList {lines : List Nat} {line : Nat} : (ofList lines).contains line ↔ line ∈ lines := by
  rw [contains, ofList, Std.HashSet.contains_ofList, List.contains_iff_mem]

end ExecutableLines

theorem contains_executableLines {root : Node} {text : Bytes} {line : Nat} :
    (executableLines root text).contains line ↔
      ∃ n ∈ root.preorder, ∃ v ∈ n.form.stops, (text.take (v.span.pos - 1)).count lineFeed + 1 = line := by
  simp only [executableLines, ExecutableLines.contains_ofList, List.mem_map, List.mem_flatMap, LineIndex.line_ofText]
  constructor
  · rintro ⟨v, ⟨n, hn, hv⟩, hline⟩
    exact ⟨n, hn, v, hv, hline⟩
  · rintro ⟨n, hn, v, hv, hline⟩
    exact ⟨v, ⟨n, hn, hv⟩, hline⟩

end LuaSyntax
