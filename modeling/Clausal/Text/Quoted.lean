import Clausal.Text.Printable

/-!
Quoted text, as it appears in messages and inside tuples. The delimiter and the backslash are
escaped, a few controls have short names, and a character that is not printable or that would
join its neighbour is written by its code point.
-/

namespace Clausal.Text

def hexDigits (n : Nat) : List Char := Nat.toDigits 16 n

/-- The two half-width sound marks belong to the character before them, but have a form and a
place of their own. -/
def standsAlone (c : Char) : Bool := c = '\uff9e' || c = '\uff9f'

/-- Whether the character can be written as it is, with nothing lost from sight. -/
def showsInQuotes (c : Char) : Bool := isPrintable c && (!isExtending c || standsAlone c)

def quotedChar (delimiter : Char) (c : Char) : List Char :=
  if c = '\x00' then ['\\', '0']
  else if c = '\t' then ['\\', 't']
  else if c = '\r' then ['\\', 'r']
  else if c = '\n' then ['\\', 'n']
  else if c = '\\' then ['\\', '\\']
  else if c = delimiter then ['\\', delimiter]
  else if showsInQuotes c then [c]
  else ['\\', 'u', '\x7b'] ++ hexDigits c.toNat ++ ['\x7d']

def quotedWith (delimiter : Char) (cs : List Char) : List Char :=
  delimiter :: (cs.flatMap (quotedChar delimiter) ++ [delimiter])

def quoted (s : String) : String := String.ofList (quotedWith '"' s.toList)

def quotedCharacter (c : Char) : String := String.ofList (quotedWith '\'' [c])

end Clausal.Text
