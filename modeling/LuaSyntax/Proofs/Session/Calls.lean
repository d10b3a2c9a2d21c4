import LuaSyntax.Proofs.Session.Forget

/-! # Calls of a session

What a call gives, and where it leaves the cursor, depends on the place where it starts alone. From
call to call the cursor moves through the source and never back.
-/
namespace LuaSyntax

open Parse Grammar

namespace Run
variable {α : Type} {idle : α → Prop} {last last' : Nat} {run run' : Run α}

/-- What a run comes to, apart from where it stops. -/
def outcome : Run α → Except Failure α
  | .ok a _ => .ok a
  | .error e _ => .error e

def cursor : Run α → Cursor
  | .ok _ c => c
  | .error _ c => c

theorem outcome_eq_of_sameButLastEnd (h : SameButLastEnd idle last last' run run') : outcome run = outcome run' := by
  cases h <;> rfl

theorem place_eq_of_sameButLastEnd (h : SameButLastEnd idle last last' run run') :
    (cursor run).toPlace = (cursor run').toPlace := by
  cases h <;> rfl

end Run

namespace Grammar

theorem skipShebang_of_ne {c : Cursor} (h : c.offset ≠ 0 ∨ c.rest.head? ≠ some '#'.toUInt8) : skipShebang c = c := by
  unfold skipShebang
  rw [if_neg]
  simpa using fun ho => h.resolve_left (not_not_intro ho)

theorem chunk_run_forward (limit : Nat) (c : Cursor) : c.toPlace ≤ (Run.cursor (chunk limit c)).toPlace := by
  have hkeeps : (chunk limit).Keeps c.toPlace.Precedes c.toPlace.Bounds := keeps_chunkPlace limit
  cases hrun : chunk limit c with
  | ok root c' => exact hkeeps.ok (Place.le_refl c.toPlace) hrun
  | error e c' => exact (hkeeps.error (Place.le_refl c.toPlace) hrun).1

/-- What a source is read as depends on the place alone. -/
theorem chunk_of_place {c c' : Cursor} (limit : Nat) (h : c.toPlace = c'.toPlace) :
    Run.outcome (chunk limit c) = Run.outcome (chunk limit c') ∧
      (Run.cursor (chunk limit c)).toPlace = (Run.cursor (chunk limit c')).toPlace := by
  obtain ⟨place, last⟩ := c
  obtain ⟨place', last'⟩ := c'
  obtain rfl := h
  have halike := forgets_chunk limit place last last'
  exact ⟨Run.outcome_eq_of_sameButLastEnd halike, Run.place_eq_of_sameButLastEnd halike⟩

end Grammar

namespace Session
variable {session : Session} {names others : List String} {filename : String}

/-- The session after some calls, one for each name. -/
def after (session : Session) (names : List String) : Session :=
  names.foldl (fun session filename => (session.parse filename).2) session

/-- How far a session has read after a number of calls. -/
def offsetAfter (session : Session) (names : List String) (count : Nat) : Nat :=
  (session.after (names.take count)).cursor.offset

theorem after_append : session.after (names ++ others) = (session.after names).after others :=
  List.foldl_append

theorem after_take_succ (session : Session) {i : Nat} (h : i < names.length) :
    session.after (names.take (i + 1)) = ((session.after (names.take i)).parse names[i]).2 := by
  rw [← List.take_append_getElem h, after_append]
  rfl

/-- What a call gives, placed in the source under a name. -/
def report (session : Session) (filename : String) (outcome : Except Failure Node) : Except ParseError Node :=
  outcome.mapError (.ofFailure session.source session.limit filename)

theorem parse_fst : (session.parse filename).1 =
    session.report filename (Run.outcome (chunk session.limit session.cursor)) := by
  unfold Session.parse report
  cases chunk session.limit session.cursor with
  | ok root c => rfl
  | error e c => rfl

theorem parse_snd : (session.parse filename).2 =
    { session with cursor := Run.cursor (chunk session.limit session.cursor) } := by
  unfold Session.parse
  cases chunk session.limit session.cursor with
  | ok root c => rfl
  | error e c => rfl

/-- Each call is made on the session as the calls before it left it. -/
theorem parseEach_eq : session.parseEach names =
    names.mapIdx fun i filename => ((session.after (names.take i)).parse filename).1 := by
  induction names generalizing session with
  | nil => rfl
  | cons filename others ih =>
    rw [List.mapIdx_cons, parseEach]
    simp only [ih, List.take_succ_cons]
    rfl

/-- The result of one of several calls, counted from zero. -/
def result? (session : Session) (names : List String) (i : Nat) : Option (Except ParseError Node) :=
  (session.parseEach names)[i]?

theorem result?_eq {i : Nat} : session.result? names i =
    names[i]?.map fun filename => ((session.after (names.take i)).parse filename).1 := by
  rw [result?, parseEach_eq, List.getElem?_mapIdx]

/-- A session that goes on from another one. -/
structure Continues (session next : Session) : Prop where
  source : next.source = session.source
  limit : next.limit = session.limit
  place : session.cursor.toPlace ≤ next.cursor.toPlace

theorem Continues.refl (session : Session) : session.Continues session :=
  ⟨rfl, rfl, Place.le_refl _⟩

theorem Continues.trans {next later : Session} (h : session.Continues next) (h' : next.Continues later) :
    session.Continues later :=
  ⟨h'.source.trans h.source, h'.limit.trans h.limit, Place.le_trans h.place h'.place⟩

theorem continues_parse (session : Session) (filename : String) :
    session.Continues (session.parse filename).2 := by
  rw [parse_snd]
  exact ⟨rfl, rfl, chunk_run_forward session.limit session.cursor⟩

theorem continues_after (session : Session) (names : List String) : session.Continues (session.after names) := by
  induction names generalizing session with
  | nil => exact .refl session
  | cons filename others ih => exact (continues_parse session filename).trans (ih _)

theorem after_take_of_le {i j : Nat} (h : i ≤ j) :
    session.after (names.take j) = (session.after (names.take i)).after ((names.take j).drop i) := by
  have htake : names.take i = (names.take j).take i := by rw [List.take_take, Nat.min_eq_left h]
  rw [htake, ← after_append, List.take_append_drop]

theorem offsetAfter_le_of_le {i j : Nat} (h : i ≤ j) : session.offsetAfter names i ≤ session.offsetAfter names j := by
  rw [offsetAfter, offsetAfter, after_take_of_le h]
  exact Place.offset_le (continues_after _ _).place

/-- All calls of a session are placed in its source. -/
theorem report_after (session : Session) (names : List String) (filename : String) (outcome : Except Failure Node) :
    (session.after names).report filename outcome = session.report filename outcome := by
  have hnext := continues_after session names
  rw [report, report, hnext.source, hnext.limit]

section Start
variable (source : Bytes) (limit : Nat)

theorem after_passes (names : List String) :
    (Cursor.start source).Passes (source.take ((start source limit).after names).cursor.offset)
      ((start source limit).after names).cursor.toPlace := by
  obtain ⟨bytes, hp⟩ := (continues_after (start source limit) names).place
  have hbytes : bytes = source.take ((start source limit).after names).cursor.offset := by
    have hoffset : ((start source limit).after names).cursor.offset = 0 + bytes.length := hp.offset
    have hrest : source = bytes ++ ((start source limit).after names).cursor.rest := hp.rest
    rw [hoffset, Nat.zero_add]
    exact List.prefix_iff_eq_take.mp ⟨_, hrest.symm⟩
  exact hp.congr hbytes

theorem offsetAfter_le_length (names : List String) (i : Nat) :
    (start source limit).offsetAfter names i ≤ source.length := by
  have hp := (after_passes source limit (names.take i)).length
  have hoffset := (after_passes source limit (names.take i)).offset
  rw [offsetAfter]
  simp only [Cursor.start] at hp hoffset
  omega

end Start

end Session

end LuaSyntax
