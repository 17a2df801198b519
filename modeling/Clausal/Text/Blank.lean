/-!
Blank characters: the twenty-five characters with the White_Space property. They separate tokens
and are trimmed from command lines and settings.
-/

namespace Clausal.Text

def isBlank (c : Char) : Bool :=
  let n := c.toNat
  (0x9 ≤ n && n ≤ 0xd) || n == 0x20 || n == 0x85 || n == 0xa0 || n == 0x1680 ||
    (0x2000 ≤ n && n ≤ 0x200a) || n == 0x2028 || n == 0x2029 || n == 0x202f ||
    n == 0x205f || n == 0x3000

theorem isBlank_newline : isBlank '\n' = true := rfl

def dropBlank (cs : List Char) : List Char := cs.dropWhile isBlank

def trimBlank (s : String) : String :=
  String.ofList (dropBlank (dropBlank s.toList).reverse).reverse

end Clausal.Text
