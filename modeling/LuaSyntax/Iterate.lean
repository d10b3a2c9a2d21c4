/-! # Bounded repetition

A step that consumes input can be taken only as often as there is input. The bound of a
repetition is a list as long as the input still unread, of which each step spends one
element; a step that consumes input declines before the bound is spent.
-/
namespace LuaSyntax

variable {m : Type → Type} [Monad m] {α β : Type}

/-- Take steps until one declines, at most one more than the bound has elements. -/
@[specialize]
def iterateWithin (step : α → m (Option α)) : List β → α → m α
  | [], value => do return (← step value).getD value
  | _ :: fewer, value => do
    match ← step value with
    | some next => iterateWithin step fewer next
    | none => return value

end LuaSyntax
