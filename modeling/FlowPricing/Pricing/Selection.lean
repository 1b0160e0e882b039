/-
Which of a round's improving paths become columns: either all of them, or
only the shortest few across all networks.
-/
import FlowPricing.Network.Path

namespace FlowPricing

/-- How many of the improving paths are taken. -/
inductive Selection where
  /-- Every network with an improving path contributes one column. -/
  | full
  /-- Only the `count` shortest improving paths are taken. -/
  | shortest (count : Nat)
deriving DecidableEq, Repr, Inhabited

namespace Selection

/-- Zero stands for all paths, any other number for that many. -/
def ofCount : Nat → Selection
  | 0 => full
  | count + 1 => shortest (count + 1)

/-- The rule as it is reported. -/
def text : Selection → String
  | full => "full"
  | shortest count => s!"{String.ofList (Numeral.ofNat count)}-shortest"

/-- The order in which paths are preferred: by length, in the total order
of numbers, and by group where lengths are the same. -/
def atMost (p q : Path) : Bool :=
  let a := Weight.rank p.length
  let b := Weight.rank q.length
  a < b || (a == b && p.group ≤ q.group)

/-- The paths that become columns. Only paths that are shorter than zero
by more than the tolerance are worth one. -/
def select (s : Selection) (tolerance : Float) (paths : List Path) :
    List Path :=
  let improving := paths.filter (·.isImproving tolerance)
  match s with
  | full => improving
  | shortest count => (improving.mergeSort atMost).take count

end Selection

end FlowPricing
