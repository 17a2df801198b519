import Clausal.Decimal.Binary64

/-!
The shortest decimal that reads back. The decimals that read back as a number `m * 2 ^ q` fill the
interval between the midpoints to its two neighbours; the ends belong to it when `m` is even. On
the decimal grids of one, two, up to seventeen digits the number has two neighbours, and the first
grid with a neighbour inside the interval gives the answer: the nearer of the two when both are
inside, the upper one when the number is exactly half way.
-/

namespace Clausal.Decimal

/-- The decimal `digits * 10 ^ exponent`. -/
structure Numeral where
  digits : Nat
  exponent : Int
  deriving DecidableEq

/-- Compares `a * 10 ^ p` with `b * 2 ^ q`. -/
def compareScaled (a : Nat) (p : Int) (b : Nat) (q : Int) : Ordering :=
  compare ((a * Nat.pow 10 p.toNat) <<< (-q).toNat) ((b * Nat.pow 10 (-p).toNat) <<< q.toNat)

/-- The interval of reals that are rounded to `mantissa * 2 ^ exponent`, with its ends in quarters
of the unit. At the foot of a binade the gap below is half as wide. -/
structure Rounding where
  low : Nat
  high : Nat
  exponent : Int
  closed : Bool

def Rounding.of (mantissa : Nat) (exponent : Int) : Rounding where
  low :=
    if mantissa = Binary64.leastNormal ∧ Binary64.leastExponent < exponent then 4 * mantissa - 1
    else 4 * mantissa - 2
  high := 4 * mantissa + 2
  exponent := exponent - 2
  closed := mantissa % 2 == 0

def Rounding.contains (r : Rounding) (x : Numeral) : Bool :=
  match compareScaled x.digits x.exponent r.low r.exponent,
      compareScaled x.digits x.exponent r.high r.exponent with
  | .gt, .lt => true
  | .eq, .lt | .gt, .eq => r.closed
  | _, _ => false

/-- The largest `k` with `10 ^ k` at most `m * 2 ^ q`, for a positive `m`. -/
def decimalExponent (m : Nat) (q : Int) : Int :=
  let guess := (((m.log2 : Int) + q) * 30103) / 100000
  if compareScaled 1 (guess + 1) m q == .gt then guess else guess + 1

/-- The integer part of `m * 2 ^ q / 10 ^ p`. -/
def gridFloor (m : Nat) (q : Int) (p : Int) : Nat :=
  ((m * Nat.pow 10 (-p).toNat) <<< q.toNat) / (Nat.pow 10 p.toNat <<< (-q).toNat)

/-- The neighbour of `m * 2 ^ q` on the grid of multiples of `10 ^ p` that reads back. -/
def gridHit? (m : Nat) (q : Int) (p : Int) : Option Numeral :=
  let below : Numeral := ⟨gridFloor m q p, p⟩
  let above : Numeral := ⟨gridFloor m q p + 1, p⟩
  let interval := Rounding.of m q
  match interval.contains below, interval.contains above with
  | true, true =>
    if compareScaled (2 * below.digits + 1) p (2 * m) q == .gt then some below else some above
  | true, false => some below
  | false, true => some above
  | false, false => none

/-- The shortest decimal that reads back as `m * 2 ^ q`, for a positive `m`. -/
def shortest (m : Nat) (q : Int) : Numeral :=
  let top := decimalExponent m q
  let grids := (List.range 17).map fun (k : Nat) => top - (k : Int)
  (grids.findSome? (gridHit? m q)).getD ⟨gridFloor m q (top - 16), top - 16⟩

end Clausal.Decimal
