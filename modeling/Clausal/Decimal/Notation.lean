import Clausal.Decimal.Shortest

/-!
How numbers are written. All notations use the shortest digits that read back; they differ in
whether an integer keeps a fraction of zero and in the magnitudes that are written with an
exponent.
-/

namespace Clausal.Decimal

structure Notation where
  /-- Whether an integer is followed by a point and a zero. -/
  pointed : Bool
  /-- Magnitudes of these decimal exponents are written positionally. -/
  positional : Int → Bool

/-- Digits with the point placed after the first `whole` of them; there may be fewer, or none. -/
def placePoint (pointed : Bool) (digits : List Char) (whole : Int) : List Char :=
  if whole ≤ 0 then ['0', '.'] ++ List.replicate (-whole).toNat '0' ++ digits
  else if digits.length ≤ whole.toNat then
    digits ++ List.replicate (whole.toNat - digits.length) '0' ++
      (if pointed then ['.', '0'] else [])
  else digits.take whole.toNat ++ ['.'] ++ digits.drop whole.toNat

/-- Digits with the point after the first, and the power of ten. -/
def withExponent (digits : List Char) (power : Int) : List Char :=
  digits.take 1 ++ (if digits.length ≤ 1 then [] else '.' :: digits.drop 1) ++
    'e' :: (toString power).toList

/-- The digits of a decimal without the zeros at its end. -/
def Numeral.significant (x : Numeral) : List Char :=
  ((Nat.toDigits 10 x.digits).reverse.dropWhile (· == '0')).reverse

namespace Notation

def writeNumeral (n : Notation) (x : Numeral) : List Char :=
  let whole := (Nat.toDigits 10 x.digits).length + x.exponent
  if n.positional (whole - 1) then placePoint n.pointed x.significant whole
  else withExponent x.significant (whole - 1)

def write (n : Notation) (x : Float) : String :=
  match Binary64.ofFloat x with
  | .notANumber => "NaN"
  | .infinite negative => if negative then "-inf" else "inf"
  | .finite negative m q =>
    let magnitude :=
      if m = 0 then '0' :: (if n.pointed then ['.', '0'] else [])
      else n.writeNumeral (shortest m q)
    String.ofList (if negative then '-' :: magnitude else magnitude)

/-- Always positional, and an integer stands alone. -/
def plain : Notation := ⟨false, fun _ => true⟩

/-- An integer keeps a fraction of zero; below `10 ^ -4` and from `10 ^ 16` on an exponent is
written. -/
def explicit : Notation := ⟨true, fun power => -4 ≤ power && power < 16⟩

end Notation

end Clausal.Decimal
