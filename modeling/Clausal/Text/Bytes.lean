/-!
Byte positions in a text. Spans count the bytes of the encoded text, while the text itself is a
list of characters; these functions cut a list of characters at byte positions. A cut succeeds
only between two characters.
-/

namespace Clausal.Text

def byteLength (cs : List Char) : Nat := cs.foldr (fun c n => c.utf8Size + n) 0

@[simp] theorem byteLength_nil : byteLength [] = 0 := rfl

@[simp] theorem byteLength_cons (c : Char) (cs : List Char) :
    byteLength (c :: cs) = c.utf8Size + byteLength cs := rfl

@[simp] theorem byteLength_append (cs ds : List Char) :
    byteLength (cs ++ ds) = byteLength cs + byteLength ds := by
  induction cs with
  | nil => simp
  | cons c cs ih => simp [ih, Nat.add_assoc]

def dropBytes? : Nat → List Char → Option (List Char)
  | 0, cs => some cs
  | _ + 1, [] => none
  | n + 1, c :: cs => if c.utf8Size ≤ n + 1 then dropBytes? (n + 1 - c.utf8Size) cs else none

def takeBytes? : Nat → List Char → Option (List Char)
  | 0, _ => some []
  | _ + 1, [] => none
  | n + 1, c :: cs =>
    if c.utf8Size ≤ n + 1 then (takeBytes? (n + 1 - c.utf8Size) cs).map (c :: ·) else none

/-- The part of the text between two byte positions, if both lie between characters and the
second is not before the first. -/
def slice? (cs : List Char) (start stop : Nat) : Option (List Char) :=
  if start ≤ stop then (dropBytes? start cs).bind (takeBytes? (stop - start)) else none

theorem dropBytes?_byteLength (cs ds : List Char) :
    dropBytes? (byteLength cs) (cs ++ ds) = some ds := by
  induction cs with
  | nil => simp [dropBytes?]
  | cons c cs ih =>
    have hc := c.utf8Size_pos
    obtain ⟨n, hn⟩ : ∃ n, byteLength (c :: cs) = n + 1 :=
      ⟨c.utf8Size + byteLength cs - 1, by simp; omega⟩
    rw [hn, List.cons_append, dropBytes?, if_pos (by simp at hn; omega)]
    rw [show n + 1 - c.utf8Size = byteLength cs by simp at hn; omega]
    exact ih

theorem takeBytes?_byteLength (cs ds : List Char) :
    takeBytes? (byteLength cs) (cs ++ ds) = some cs := by
  induction cs with
  | nil => simp [takeBytes?]
  | cons c cs ih =>
    have hc := c.utf8Size_pos
    obtain ⟨n, hn⟩ : ∃ n, byteLength (c :: cs) = n + 1 :=
      ⟨c.utf8Size + byteLength cs - 1, by simp; omega⟩
    rw [hn, List.cons_append, takeBytes?, if_pos (by simp at hn; omega)]
    rw [show n + 1 - c.utf8Size = byteLength cs by simp at hn; omega, ih]
    rfl

/-- The slice between the ends of a middle part is that part. -/
theorem slice?_append (pre mid rest : List Char) :
    slice? (pre ++ (mid ++ rest)) (byteLength pre) (byteLength pre + byteLength mid) =
      some mid := by
  rw [slice?, if_pos (by omega), dropBytes?_byteLength]
  rw [show byteLength pre + byteLength mid - byteLength pre = byteLength mid by omega]
  exact takeBytes?_byteLength mid rest

end Clausal.Text
