/-!
Numbers of 64 bits read as exact quantities. A finite number is an integer times a power of two;
in the other direction a quotient of naturals is rounded to the nearest number, a half going to
the even neighbour. Both directions use exact integer arithmetic on the bit pattern.
-/

namespace Clausal.Decimal

/-- What a bit pattern stands for: `± mantissa * 2 ^ exponent`, an infinity, or no number. -/
inductive Binary64
  | finite (negative : Bool) (mantissa : Nat) (exponent : Int)
  | infinite (negative : Bool)
  | notANumber
  deriving DecidableEq

namespace Binary64

/-- The significand of a normal number lies between this and its double. -/
def leastNormal : Nat := 1 <<< 52

/-- The exponent of the smallest positive number. -/
def leastExponent : Int := -1074

def ofBits (bits : Nat) : Binary64 :=
  let negative := (bits >>> 63) % 2 == 1
  let biased := (bits >>> 52) % 2048
  let fraction := bits % leastNormal
  if biased = 2047 then
    if fraction = 0 then infinite negative else notANumber
  else if biased = 0 then finite negative fraction leastExponent
  else finite negative (leastNormal + fraction) (leastExponent + (biased - 1 : Nat))

def ofFloat (x : Float) : Binary64 := ofBits x.toBits.toNat

/-- The integer nearest to a quotient; a half goes to the even neighbour. -/
def roundHalfEven (num den : Nat) : Nat :=
  let q := num / den
  let twice := 2 * (num % den)
  if twice < den then q
  else if den < twice then q + 1
  else if q % 2 = 0 then q else q + 1

/-- A quotient divided by a power of two, as a quotient of naturals. -/
def scaleDown (num den : Nat) (e : Int) : Nat × Nat :=
  if 0 ≤ e then (num, den <<< e.toNat) else (num <<< (-e).toNat, den)

/-- The exponent that puts a quotient between `leastNormal` and its double, or the least exponent
for quotients too small for that. -/
def exponentOf (num den : Nat) : Int :=
  let low : Int := (num.log2 : Int) - den.log2 - 53
  let (n, d) := scaleDown num den low
  max leastExponent (if n / d < 2 * leastNormal then low else low + 1)

/-- The pattern of positive infinity; every larger quotient is rounded to it. -/
def infinityBits : Nat := 2047 <<< 52

/-- The bit pattern of the number nearest to a quotient of naturals. A significand that rounds up
to twice the least normal one carries into the exponent, which is the next pattern. -/
def nearestBits (num den : Nat) : Nat :=
  if num = 0 then 0
  else
    let e := exponentOf num den
    let (n, d) := scaleDown num den e
    min infinityBits (((e - leastExponent).toNat <<< 52) + roundHalfEven n d)

def nearest (num den : Nat) : Float := Float.ofBits (UInt64.ofNat (nearestBits num den))

end Binary64

end Clausal.Decimal
