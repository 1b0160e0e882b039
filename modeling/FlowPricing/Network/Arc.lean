/-
Directed arcs between nodes. An arc is at once an edge of a network and
the identity of a master variable: its written form is that variable's
name.
-/
import FlowPricing.Network.Node

namespace FlowPricing

/-- A directed arc. -/
structure Arc where
  source : Node
  target : Node
deriving DecidableEq, Repr, Inhabited

namespace Arc

/-- The numbers arcs are ordered by, those of the source first. -/
def columns (a : Arc) : List Int := a.source.columns ++ a.target.columns

/-- The written arc: the name of its master variable. -/
def chars (a : Arc) : List Char :=
  'y' :: '(' :: a.source.chars ++ ',' :: a.target.chars ++ [')']

/-- The written arc, as a string. -/
def text (a : Arc) : String := String.ofList a.chars

end Arc

end FlowPricing
