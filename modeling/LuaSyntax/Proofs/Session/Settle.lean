import LuaSyntax.Proofs.Session.Calls
import LuaSyntax.Proofs.Excerpt.Source

/-! # Calls that settle

Each call of a session moves the cursor on, or settles what all later calls give. After a success
nothing is left to read, and a failure that leaves the cursor where it was is met again. The cursor
moves on at most as often as the source has bytes.
-/
namespace LuaSyntax

open Parse Rule Grammar

namespace Place

theorem eq_of_le {p p' : Place} (h : p ≤ p') (ho : p'.offset = p.offset) : p' = p := by
  obtain ⟨bytes, hp⟩ := h
  have hlength := hp.offset
  obtain rfl : bytes = [] := List.length_eq_zero_iff.mp (by omega)
  exact hp.eq_advance

end Place

namespace Grammar

/-- The root of a source with no statements, as long as a length. -/
def emptyRoot (length : Nat) : Node := ⟨.block [], 1, max 1 length⟩

/-- A source that is read successfully is read to its end. -/
theorem chunk_rest {limit : Nat} {c c' : Cursor} {root : Node} (h : chunk limit c = .ok root c') : c'.rest = [] := by
  obtain ⟨_, _, -, h⟩ := bind_eq_ok.mp h
  obtain ⟨_, _, -, h⟩ := bind_eq_ok.mp h
  obtain ⟨body, m, -, h⟩ := bind_eq_ok.mp h
  obtain ⟨_, _, hget, h⟩ := bind_eq_ok.mp h
  obtain ⟨rfl, rfl⟩ := get_eq_ok.mp hget
  split at h
  · next hend =>
    obtain ⟨-, rfl⟩ := pure_eq_ok.mp h
    exact List.isEmpty_iff.mp hend
  · exact (fail_ne_ok h).elim

theorem chunk_nil (limit offset last : Nat) :
    chunk limit ⟨⟨[], offset⟩, last⟩ = .ok (emptyRoot offset) ⟨⟨[], offset⟩, last⟩ := by
  have hstep : statementStep (nesting limit) [] ⟨⟨[], offset⟩, last⟩ = .ok none ⟨⟨[], offset⟩, last⟩ := rfl
  have hloop : iterate (statementStep (nesting limit)) [] ⟨⟨[], offset⟩, last⟩ = .ok [] ⟨⟨[], offset⟩, last⟩ :=
    (iterate_eq_ok (steady_statementStep (steady_nesting limit))).mpr ⟨.refl, hstep⟩
  have hlast : returnStatement (nesting limit) ⟨⟨[], offset⟩, last⟩ = .ok none ⟨⟨[], offset⟩, last⟩ := by
    have hword : ¬ startsWith (.ofString "return") isNamePart [] := by decide
    exact andThen_eq_none.mpr (map_eq_none.mpr (token_eq_none.mpr ⟨⟨_, Scan.text_eq_none.mpr ⟨hword, rfl⟩⟩, rfl⟩))
  have hshebang : (modify skipShebang : Parse PUnit) ⟨⟨[], offset⟩, last⟩ = .ok .unit ⟨⟨[], offset⟩, last⟩ :=
    congrArg _ (skipShebang_of_ne (.inr (by simp)))
  have hbody : statements (nesting limit) ⟨⟨[], offset⟩, last⟩ = .ok [] ⟨⟨[], offset⟩, last⟩ :=
    (bind_of_ok hloop).trans ((bind_of_ok hlast).trans rfl)
  rw [chunk, bind_of_ok hshebang, bind_of_ok (skipTrivia_nil offset last), bind_of_ok hbody]
  rfl

end Grammar

namespace Session
variable {session : Session} {names : List String} {filename : String} {outcome : Except Failure Node}

/-- Every call gives one outcome and leaves the cursor in its place. -/
structure Settled (session : Session) (outcome : Except Failure Node) : Prop where
  outcome : Run.outcome (chunk session.limit session.cursor) = outcome
  stays : (Run.cursor (chunk session.limit session.cursor)).toPlace = session.cursor.toPlace

/-- A session settles wherever its place is that of a settled one. -/
theorem Settled.of_place {next : Session} (h : session.Settled outcome) (hl : next.limit = session.limit)
    (hp : next.cursor.toPlace = session.cursor.toPlace) : next.Settled outcome := by
  have hsame := chunk_of_place session.limit hp
  constructor
  · rw [hl, hsame.1, h.outcome]
  · rw [hl, hsame.2, h.stays, hp]

theorem Settled.after (h : session.Settled outcome) (names : List String) :
    (session.after names).Settled outcome := by
  induction names generalizing session with
  | nil => exact h
  | cons filename others ih =>
    have hnext : (session.parse filename).2.Settled outcome := by
      rw [parse_snd]
      exact h.of_place rfl h.stays
    exact ih hnext

theorem settled_of_ok {root : Node} (h : (session.parse filename).1 = .ok root) :
    (session.parse filename).2.Settled (.ok (emptyRoot session.cursor.toPlace.sourceEnd)) := by
  have hforward := chunk_run_forward session.limit session.cursor
  cases hrun : chunk session.limit session.cursor with
  | error e c =>
    rw [parse_fst, hrun] at h
    cases h
  | ok root c =>
    obtain ⟨⟨rest, offset⟩, last⟩ := c
    obtain rfl : rest = [] := chunk_rest hrun
    rw [hrun] at hforward
    have hend : offset = session.cursor.toPlace.sourceEnd := (Place.sourceEnd_eq hforward)
    have hnil := chunk_nil session.limit offset last
    rw [parse_snd, hrun, ← hend]
    constructor
    · change Run.outcome (chunk session.limit ⟨⟨[], offset⟩, last⟩) = _
      rw [hnil]
      rfl
    · change (Run.cursor (chunk session.limit ⟨⟨[], offset⟩, last⟩)).toPlace = _
      rw [hnil]
      rfl

theorem settled_of_stays (h : (session.parse filename).2.cursor.offset = session.cursor.offset) :
    session.Settled (Run.outcome (chunk session.limit session.cursor)) := by
  rw [parse_snd] at h
  exact ⟨rfl, Place.eq_of_le (chunk_run_forward session.limit session.cursor) h⟩

/-- A call that succeeds, or leaves the cursor where it was, settles what comes after it. -/
theorem settled_or_lt (session : Session) (filename : String) :
    (∃ outcome, (session.parse filename).2.Settled outcome) ∨
      session.cursor.offset < (session.parse filename).2.cursor.offset := by
  have hle := Place.offset_le (continues_parse session filename).place
  rcases Nat.eq_or_lt_of_le hle with hstays | hlt
  · exact .inl ⟨_, (settled_of_stays hstays.symm).after [filename]⟩
  · exact .inr hlt

section Start
variable {source : Bytes} {limit : Nat}

theorem result?_settled {i j : Nat} (h : ((start source limit).after (names.take i)).Settled outcome) (hij : i ≤ j) :
    (start source limit).result? names j =
      names[j]?.map fun filename => (start source limit).report filename outcome := by
  have hlater : ((start source limit).after (names.take j)).Settled outcome := by
    rw [after_take_of_le hij]
    exact h.after _
  rw [result?_eq]
  congr 1
  funext filename
  rw [parse_fst, hlater.outcome, report_after]

/-- Before as many calls are made as the source has bytes and one more, the session has settled. -/
theorem exists_settled (limit : Nat) (h : source.length < names.length) :
    ∃ i ≤ source.length, ∃ outcome, ((start source limit).after (names.take (i + 1))).Settled outcome := by
  apply Classical.byContradiction
  intro hnone
  have hmoves (i : Nat) (hi : i ≤ source.length) :
      (start source limit).offsetAfter names i < (start source limit).offsetAfter names (i + 1) := by
    have hstep := after_take_succ (start source limit) (Nat.lt_of_le_of_lt hi h)
    rw [offsetAfter, offsetAfter, hstep]
    refine (settled_or_lt _ _).resolve_left ?_
    rintro ⟨outcome, hsettled⟩
    exact hnone ⟨i, hi, outcome, hstep ▸ hsettled⟩
  have hfar (i : Nat) (hi : i ≤ source.length + 1) : i ≤ (start source limit).offsetAfter names i := by
    induction i with
    | zero => exact Nat.zero_le _
    | succ i ih =>
      have hbefore := ih (by omega)
      have hlt := hmoves i (by omega)
      omega
  have hend := hfar (source.length + 1) (Nat.le_refl _)
  have hlength := offsetAfter_le_length source limit names (source.length + 1)
  omega

end Start

/-- A result under another name. -/
def renamed (filename : String) (result : Except ParseError Node) : Except ParseError Node :=
  result.mapError fun error => { error with filename }

theorem renamed_report (session : Session) (name filename : String) (outcome : Except Failure Node) :
    renamed filename (session.report name outcome) = session.report filename outcome := by
  cases outcome <;> rfl

/-- The calls of a session get on or settle. The cursor does not move back and stays in the source.
After a success each call gives a root with no statements; after a failure that moves nowhere each
call fails as it did. Calls settle at the latest after as many of them as the source has bytes and
one more. -/
theorem parseEach_settles (source : Bytes) (limit : Nat) (names : List String) :
    (∀ i j, i ≤ j → (start source limit).offsetAfter names i ≤ (start source limit).offsetAfter names j) ∧
    (∀ i, (start source limit).offsetAfter names i ≤ source.length) ∧
    (∀ i j (root : Node), i < j → (start source limit).result? names i = some (.ok root) →
      (start source limit).result? names j =
        names[j]?.map fun _ => .ok ⟨.block [], 1, max 1 source.length⟩) ∧
    (∀ i j (error : ParseError), i < j → (start source limit).result? names i = some (.error error) →
      (start source limit).offsetAfter names (i + 1) = (start source limit).offsetAfter names i →
      (start source limit).result? names j =
        names[j]?.map fun filename => .error { error with filename }) ∧
    (∀ i j (result : Except ParseError Node), source.length + 1 ≤ i → i ≤ j →
      (start source limit).result? names i = some result →
      (start source limit).result? names j = names[j]?.map fun filename => renamed filename result) := by
  refine ⟨fun i j => offsetAfter_le_of_le, offsetAfter_le_length source limit names, ?_, ?_, ?_⟩
  · intro i j root hij hroot
    rw [result?_eq, Option.map_eq_some_iff] at hroot
    obtain ⟨filename, hname, hroot⟩ := hroot
    obtain ⟨hi, rfl⟩ := List.getElem?_eq_some_iff.mp hname
    have hsettled := settled_of_ok hroot
    rw [← after_take_succ _ hi] at hsettled
    have hend : ((start source limit).after (names.take i)).cursor.toPlace.sourceEnd = source.length := by
      rw [Place.sourceEnd_eq (continues_after (start source limit) (names.take i)).place]
      exact Nat.zero_add _
    rw [hend] at hsettled
    exact result?_settled hsettled hij
  · intro i j error hij herror hstays
    rw [result?_eq, Option.map_eq_some_iff] at herror
    obtain ⟨name, hname, herror⟩ := herror
    obtain ⟨hi, rfl⟩ := List.getElem?_eq_some_iff.mp hname
    rw [offsetAfter, after_take_succ _ hi] at hstays
    have hsettled := settled_of_stays hstays
    rw [parse_fst, report_after] at herror
    rw [result?_settled hsettled (Nat.le_of_lt hij)]
    congr 1
    funext filename
    exact (renamed_report _ names[i] filename _).symm.trans (congrArg (renamed filename) herror)
  · intro i j result hi hij hresult
    have hnames : i < names.length := by
      rw [result?_eq, Option.map_eq_some_iff] at hresult
      obtain ⟨name, hname, -⟩ := hresult
      exact (List.getElem?_eq_some_iff.mp hname).1
    have hlength : source.length < names.length := by omega
    obtain ⟨k, hk, outcome, hsettled⟩ := exists_settled limit hlength
    have hki : k + 1 ≤ i := by omega
    rw [result?_settled hsettled (Nat.le_trans hki hij)]
    rw [result?_settled hsettled hki, List.getElem?_eq_getElem hnames] at hresult
    obtain rfl := Option.some.inj hresult
    congr 1
    funext filename
    exact (renamed_report _ _ filename outcome).symm

/-- Two names in a row are two failures, each of which moves on, and then there is nothing left. A comment that is
never closed is a failure that moves nowhere, and the next call fails in the same way. -/
theorem parseEach_settles_names :
    (start (.ofString "a b") 5).result? ["", "", "", ""] 3 = some (.ok ⟨.block [], 1, max 1 3⟩) ∧
    (start (.ofString "--[[") 5).result? ["first", "second"] 1 =
      some (.error ⟨"second", ⟨1, 5⟩, 4, .expected .longBracketClose⟩) := by
  obtain ⟨-, -, hroot, -⟩ := parseEach_settles (.ofString "a b") 5 ["", "", "", ""]
  obtain ⟨-, -, -, hfailure, -⟩ := parseEach_settles (.ofString "--[[") 5 ["first", "second"]
  constructor
  · exact hroot 2 3 ⟨.block [], 1, 3⟩ (by decide) rfl
  · exact hfailure 0 1 ⟨"first", ⟨1, 5⟩, 4, .expected .longBracketClose⟩ (by decide) rfl rfl

end Session

end LuaSyntax
