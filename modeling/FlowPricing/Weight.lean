/-
What the library needs to know of the numbers that weigh arcs, beyond
their arithmetic: the value that stands for "no path", and the total
order in which equal comparison leaves no choice open — negative zero
before zero, and every bit pattern in a place of its own.
-/
namespace FlowPricing.Weight

/-- The length of a path that does not exist: above every finite length. -/
def infinity : Float := 1.0 / 0.0

/-- The place of a number in the total order. Magnitudes count upwards
from zero for a clear sign bit and downwards from minus one for a set
one. -/
def rank (x : Float) : Int :=
  let bits := x.toBits.toNat
  if bits < 0x8000000000000000 then bits else 0x7FFFFFFFFFFFFFFF - (bits : Int)

end FlowPricing.Weight
