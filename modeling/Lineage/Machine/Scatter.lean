/-
  Lineage.Machine.Scatter

  Distributing a list over the targets of a scattering assignment.

  Required targets take one value each.  Optional ones take what is to spare, from the
  left, and a rest target takes what all others leave.
-/
import Lineage.Program.Op
import Lineage.Value.Basic

namespace Lineage.Scatter

open Script (Name)

/-- What each target takes, with the label of the default of the first optional target that takes
nothing and has one. -/
structure Shares where
  bound : List (Name × Value) := []
  defaultDue : Option Label := none

/-- Deal values to targets; `spare` is how many optional targets take one, and `restSize` how many
values the rest target takes. -/
def deal (spare restSize : Nat) : List ScatterEntry → List Value → Except ScriptError Shares
  | [], _ => .ok {}
  | .rest name :: entries, values => do
    let shares ← deal spare restSize entries (values.drop restSize)
    return { shares with bound := (name, .list (values.take restSize)) :: shares.bound }
  | .required name :: entries, v :: values => do
    let shares ← deal spare restSize entries values
    return { shares with bound := (name, v) :: shares.bound }
  | .optional name default :: entries, values =>
    match spare, values with
    | spare + 1, v :: values => do
      let shares ← deal spare restSize entries values
      return { shares with bound := (name, v) :: shares.bound }
    | 0, values => do
      let shares ← deal 0 restSize entries values
      return { shares with defaultDue := default <|> shares.defaultDue }
    | _ + 1, [] => .error ErrorCode.arity
  | .required _ :: _, [] => .error ErrorCode.arity

/-- Distribute a list, if it has as many elements as the targets take. -/
def distribute (t : ScatterTable) (values : List Value) : Except ScriptError Shares :=
  let required := t.requiredCount
  let targets := t.entries.length
  let size := values.length
  if size < required ∨ (!t.hasRest ∧ targets < size) then
    .error (.withMessage .arity
      ("scatter expected " ++ toString required ++ " to " ++ toString targets ++ " values, got "
        ++ toString size))
  else
    let restSize := if t.hasRest ∧ targets ≤ size then size - targets + 1 else 0
    deal (size - required) restSize t.entries values

end Lineage.Scatter
