import LuaSyntax.Session
import LuaSyntax.Proofs.Outcome.Rule

/-! # Parsers that count levels

A parser counts the nesting levels that it has entered and not left, against a limit. The rules of the grammar
are told how many levels are left instead. What a rule is made of becomes the same made of counting
parts, where only the nested rules change the count: they go one level deeper and come back. So a session
that counts from nothing parses as one that is told its limit.
-/
namespace LuaSyntax

open Grammar

variable {α β : Type}

/-- A cursor, how many nesting levels have been entered and not left, and how many may be. -/
structure Parser extends Cursor where
  depth : Nat
  limit : Nat

/-- A computation that moves the cursor and enters and leaves nesting levels. -/
abbrev Parsing := EStateM Failure Parser

namespace Parsing

/-- A computation that enters no level, such as one for a token. -/
def still (p : Parse α) : Parsing α := fun s =>
  match p s.toCursor with
  | .ok a c => .ok a { s with toCursor := c }
  | .error e c => .error e { s with toCursor := c }

def expect (rule : Parsing (Option α)) (label : Label) : Parsing α := do
  match ← rule with
  | some value => return value
  | none => still (Parse.fail label)

def andThen (rule : Parsing (Option α)) (build : α → Parsing β) : Parsing (Option β) := do
  match ← rule with
  | some value => return some (← build value)
  | none => return none

def firstOf : List (Parsing (Option α)) → Parsing (Option α)
  | [] => return none
  | rule :: others => do
    match ← rule with
    | some value => return some value
    | none => firstOf others

/-- Two rules in a row, or neither. Only the cursor is put back. -/
def both (first : Parsing (Option α)) (second : Parsing (Option β)) : Parsing (Option (α × β)) := do
  let cursor := (← get).toCursor
  match ← first with
  | none => return none
  | some a =>
    match ← second with
    | some b => return some (a, b)
    | none =>
      modify ({ · with toCursor := cursor })
      return none

def iterate (pass : α → Parsing (Option α)) (value : α) : Parsing α := do
  iterateWithin pass (← get).rest value

end Parsing

namespace Parser

/-- Go one level deeper for a computation, and back whether it succeeds or fails. At the limit it is not begun. -/
def deeper (inner : Parsing α) : Parsing α := fun s =>
  if s.limit ≤ s.depth then .error (.tooDeep s.offset) s
  else
    match inner { s with depth := s.depth + 1 } with
    | .ok a s' => .ok a { s' with depth := s'.depth - 1 }
    | .error e s' => .error e { s' with depth := s'.depth - 1 }

/-- A rule of the grammar, with the levels below it that the limit leaves at the depth of the parser. -/
def run (rule : Nested → Parse α) : Parsing α := fun s =>
  match rule (nesting (s.limit - s.depth)) s.toCursor with
  | .ok a c => .ok a { s with toCursor := c }
  | .error e c => .error e { s with toCursor := c }

section Outcomes
variable {s s' : Parser} {rule : Nested → Parse α}

theorem run_eq_ok {a : α} : run rule s = .ok a s' ↔
    ∃ c, rule (nesting (s.limit - s.depth)) s.toCursor = .ok a c ∧ s' = { s with toCursor := c } := by
  unfold run
  cases rule (nesting (s.limit - s.depth)) s.toCursor <;> simp [and_assoc, eq_comm (a := s')]

theorem run_eq_error {e : Failure} : run rule s = .error e s' ↔
    ∃ c, rule (nesting (s.limit - s.depth)) s.toCursor = .error e c ∧ s' = { s with toCursor := c } := by
  unfold run
  cases rule (nesting (s.limit - s.depth)) s.toCursor <;> simp [and_assoc, eq_comm (a := s')]

end Outcomes

section Laws

theorem run_still (p : Parse α) : run (fun _ => p) = .still p := rfl

theorem run_pure (a : α) : run (fun _ => pure a) = pure a := rfl

/-- A rule that is made of two runs as the one and then the other, so what follows a nested rule is again at the depth
of what is before it. -/
theorem run_bind (rule : Nested → Parse α) (next : α → Nested → Parse β) :
    run (fun nested => rule nested >>= (next · nested)) = run rule >>= fun a => run (next a) := by
  funext s
  change run (fun nested => EStateM.bind (rule nested) (next · nested)) s = EStateM.bind (run rule) _ s
  simp only [run, EStateM.bind]
  cases rule (nesting (s.limit - s.depth)) s.toCursor <;> rfl

theorem run_bind_of {rule : Nested → Parse α} {next : α → Nested → Parse β} {more : α → Parsing β}
    (h : ∀ a, run (next a) = more a) : run (fun nested => rule nested >>= (next · nested)) = run rule >>= more := by
  rw [run_bind]
  exact congrArg (run rule >>= ·) (funext h)

theorem run_expect (rule : Nested → Rule α) (label : Label) :
    run (fun nested => Parse.expect (rule nested) label) = .expect (run rule) label := by
  refine run_bind_of fun found => ?_
  cases found <;> rfl

theorem run_andThen (rule : Nested → Rule α) (build : α → Nested → Parse β) :
    run (fun nested => (rule nested).andThen (build · nested)) = .andThen (run rule) fun a => run (build a) := by
  refine run_bind_of fun found => ?_
  cases found with
  | none => rfl
  | some a => exact run_bind_of fun _ => rfl

theorem run_firstOf (rules : List (Nested → Rule α)) :
    run (fun nested => Rule.firstOf (rules.map (· nested))) = .firstOf (rules.map run) := by
  induction rules with
  | nil => rfl
  | cons rule others ih =>
    refine run_bind_of fun found => ?_
    cases found with
    | none => exact ih
    | some a => rfl

theorem run_both (first : Nested → Rule α) (second : Nested → Rule β) :
    run (fun nested => Rule.both (first nested) (second nested)) = .both (run first) (run second) := by
  funext s
  have hrest (cursor : Cursor) : run (fun nested => first nested >>= fun found => match found with
      | none => pure none
      | some a => second nested >>= fun found => match found with
        | some b => pure (some (a, b))
        | none => set cursor >>= fun _ => pure none) = run first >>= fun found => match found with
      | none => pure none
      | some a => run second >>= fun found => match found with
        | some b => pure (some (a, b))
        | none => modify ({ · with toCursor := cursor }) >>= fun _ => pure none := by
    refine run_bind_of fun found => ?_
    cases found with
    | none => rfl
    | some a =>
      refine run_bind_of fun found => ?_
      cases found <;> rfl
  exact congrFun (hrest s.toCursor) s

theorem run_iterate (pass : Nested → α → Rule α) (value : α) :
    run (fun nested => Parse.iterate (pass nested) value) = .iterate (fun a => run (pass · a)) value := by
  have hwithin (bound : Bytes) : run (fun nested => iterateWithin (pass nested) bound value) =
      iterateWithin (fun a => run (pass · a)) bound value := by
    induction bound generalizing value with
    | nil => exact run_bind_of fun _ => rfl
    | cons _ fewer ih =>
      refine run_bind_of fun found => ?_
      cases found with
      | none => rfl
      | some next => exact ih next
  funext s
  exact congrFun (hwithin s.rest) s

/-- A rule that fails without a level below it, and is another rule one level up, goes deeper for that rule. -/
theorem run_eq_deeper {inner outer : Nested → Parse α} (hnone : outer (nesting 0) = tooDeep)
    (hmore : ∀ levels, outer (nesting (levels + 1)) = inner (nesting levels)) : run outer = deeper (run inner) := by
  funext s
  unfold deeper run
  by_cases hlimit : s.limit ≤ s.depth
  · rw [if_pos hlimit, Nat.sub_eq_zero_of_le hlimit, hnone]
    rfl
  · have hlevels : s.limit - s.depth = s.limit - (s.depth + 1) + 1 := by omega
    rw [if_neg hlimit, hlevels, hmore]
    cases inner (nesting (s.limit - (s.depth + 1))) s.toCursor <;> rfl

theorem run_nested :
    run (·.expression) = deeper (run expression) ∧ run (·.concatenation) = deeper (run concatenation) ∧
      run (·.unary) = deeper (run unary) ∧ run (·.block) = deeper (run block) :=
  ⟨run_eq_deeper rfl fun _ => rfl, run_eq_deeper rfl fun _ => rfl, run_eq_deeper rfl fun _ => rfl,
    run_eq_deeper rfl fun _ => rfl⟩

end Laws

end Parser

/-- A whole source, whatever the levels below it. -/
def Grammar.wholeSource (nested : Nested) : Parse Node := do
  modify skipShebang
  Parse.skipTrivia
  let body ← statements nested
  let cursor ← get
  if cursor.rest.isEmpty then
    return ⟨.block body, 1, max 1 cursor.offset⟩
  else
    Parse.fail .trailingInput

/-- A session parses as a parser that has entered no level yet, and the parser has then left all that it entered. -/
theorem Session.parse_eq_run (session : Session) (filename : String) :
    match Parser.run wholeSource ⟨session.cursor, 0, session.limit⟩ with
    | .ok root s => session.parse filename = (.ok root, { session with cursor := s.toCursor }) ∧ s.depth = 0
    | .error e s => session.parse filename =
        (.error (.ofFailure session.source session.limit filename e), { session with cursor := s.toCursor }) ∧ s.depth = 0 := by
  have hchunk : chunk session.limit = wholeSource (nesting (session.limit - 0)) := rfl
  unfold Parser.run
  rw [Session.parse, hchunk]
  cases wholeSource (nesting (session.limit - 0)) session.cursor <;> exact ⟨rfl, rfl⟩

end LuaSyntax
