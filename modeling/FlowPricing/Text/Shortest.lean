/-
The shortest decimal of a floating-point number: of all decimals that
round to the number, one on the coarsest grid of powers of ten, and of
the two that may lie there the nearer one.

A finite number is `m · 2^q`. The reals that round to it form an
interval around it, whose ends belong to it exactly if `m` is even. On
the grid of multiples of `10^k` only the two neighbours of the number
can be the nearest hit, so a grid is decided by comparing those two with
the ends of the interval, in exact integer arithmetic.
-/
namespace FlowPricing.Shortest

-- ============================================================ the number

/-- A positive number `significand · 2^exponent`. -/
structure Binary where
  significand : Nat
  exponent : Int
  /-- Whether the next smaller number is only half as far away as the
  next larger one. -/
  atBinade : Bool

/-- The magnitude of a finite number from its bits. -/
def Binary.ofBits (bits : Nat) : Binary :=
  let biased : Nat := bits / 0x10000000000000 % 0x800
  let fraction : Nat := bits % 0x10000000000000
  if biased = 0 then ⟨fraction, -1074, false⟩
  else ⟨fraction + 0x10000000000000, (biased : Int) - 1075,
    fraction = 0 && 1 < biased⟩

/-- A decimal `digits · 10^exponent`. -/
structure Decimal where
  digits : Nat
  exponent : Int
deriving DecidableEq, Repr

-- ============================================================ the interval

/-- How `c · 10^k` compares with `b · 2^r`. -/
def comparePowers (c : Nat) (k : Int) (b : Nat) (r : Int) : Ordering :=
  compare (c * Nat.pow 10 k.toNat * Nat.pow 2 (-r).toNat)
    (b * Nat.pow 2 r.toNat * Nat.pow 10 (-k).toNat)

namespace Binary

/-- Whether `c · 10^k` rounds to the number. The ends of the interval are
half a unit above and half a unit below, the lower one only a quarter at
a power of two; all are whole multiples of a quarter of the unit. -/
def isHit (x : Binary) (c : Nat) (k : Int) : Bool :=
  let quarter := x.exponent - 2
  let low := comparePowers c k
    (4 * x.significand - if x.atBinade then 1 else 2) quarter
  let high := comparePowers c k (4 * x.significand + 2) quarter
  if x.significand % 2 = 0 then low.isGE && high.isLE
  else low.isGT && high.isLT

/-- The largest multiple of `10^k`, as a count of `10^k`, that does not
exceed the number. -/
def floorOn (x : Binary) (k : Int) : Nat :=
  x.significand * Nat.pow 2 x.exponent.toNat * Nat.pow 10 (-k).toNat
    / (Nat.pow 10 k.toNat * Nat.pow 2 (-x.exponent).toNat)

/-- Of the neighbours `c` and `c + 1` on the grid of `10^k`, whether the
lower one is strictly nearer: whether the number lies below the middle of
the two. -/
def isNearerBelow (x : Binary) (c : Nat) (k : Int) : Bool :=
  (comparePowers (2 * c + 1) k (2 * x.significand) x.exponent).isGT

/-- The nearest multiple of `10^k` that rounds to the number, if there is
one; of two equally near ones the larger. -/
def hitOn (x : Binary) (k : Int) : Option Decimal :=
  let c := x.floorOn k
  match x.isHit c k, x.isHit (c + 1) k with
  | true, true => some ⟨if x.isNearerBelow c k then c else c + 1, k⟩
  | true, false => some ⟨c, k⟩
  | false, true => some ⟨c + 1, k⟩
  | false, false => none

/-- The shortest decimal: the hit on the coarsest grid that has one. No
grid coarser than `10^309` can have one, and every number is itself a
multiple of `10^-1074`. -/
def shortest (x : Binary) : Decimal :=
  ((List.range 1384).findSome? fun i : Nat =>
    x.hitOn (309 - (i : Int))).getD ⟨0, 0⟩

end Binary

end FlowPricing.Shortest
