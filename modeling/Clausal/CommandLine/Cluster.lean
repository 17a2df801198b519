import Clausal.CommandLine.Joining

/-!
The extended grapheme clusters of a text: the pieces that a reader sees as one character each.
A cut falls between two characters unless a rule joins them, and three of the rules look further
back than the last character: flags pair up from the left, a joiner ties two pictographs, and a
linker ties two consonants. Main statement: the clusters of a text, put together, are the text.
Cutting a text so belongs to the line editor, which is outside the loop.
-/

namespace Clausal.Text

inductive PictureState
  | absent
  /-- A pictograph and signs that extend it. -/
  | based
  /-- The same, and a joiner. -/
  | joined
deriving DecidableEq

inductive ConjunctState
  | absent
  /-- A consonant and signs that extend it. -/
  | based
  /-- The same, with a linker among the signs. -/
  | linked
deriving DecidableEq

/-- What the characters up to a place say about a cut there. -/
structure Joint where
  last : Joining
  /-- The run of flag halves that ends here has an odd length. -/
  halfFlag : Bool
  picture : PictureState
  conjunct : ConjunctState

namespace Joint

def picturesAfter : PictureState → Joining → PictureState
  | _, .pictograph => .based
  | .based, .extending => .based
  | .based, .linker => .based
  | .based, .nonJoiner => .based
  | .based, .joiner => .joined
  | _, _ => .absent

def conjunctAfter : ConjunctState → Joining → ConjunctState
  | _, .consonant => .based
  | .based, .linker => .linked
  | .linked, .linker => .linked
  | s, .extending => s
  | s, .joiner => s
  | _, _ => .absent

def after (x : Joint) (next : Joining) : Joint :=
  ⟨next, next = .regional && !x.halfFlag, picturesAfter x.picture next,
    conjunctAfter x.conjunct next⟩

/-- The joint after the first character, which has a cut before it. -/
def first (j : Joining) : Joint :=
  after ⟨.control, false, .absent, .absent⟩ j

/-- Whether the next character belongs to the cluster of the last one. The cases are in order of
rank: a line end and a control stand alone whatever comes next. -/
def joins (x : Joint) (next : Joining) : Bool :=
  match x.last, next with
  | .carriageReturn, .lineFeed => true
  | .carriageReturn, _ | .lineFeed, _ | .control, _ => false
  | _, .carriageReturn | _, .lineFeed | _, .control => false
  | .initial, .initial | .initial, .medial => true
  | .initial, .openSyllable | .initial, .closedSyllable => true
  | .openSyllable, .medial | .openSyllable, .final => true
  | .medial, .medial | .medial, .final => true
  | .closedSyllable, .final | .final, .final => true
  | _, .extending | _, .linker | _, .nonJoiner | _, .joiner | _, .spacingMark => true
  | .leadingSign, _ => true
  | _, .consonant => x.conjunct = .linked
  | _, .pictograph => x.picture = .joined
  | .regional, .regional => x.halfFlag
  | _, _ => false

end Joint

/-- Cuts the characters after a joint; the open cluster and the finished ones are kept reversed. -/
def clustersFrom (x : Joint) (current : List Char) (done : List (List Char)) :
    List Char → List (List Char)
  | [] => (current.reverse :: done).reverse
  | c :: cs =>
    let next := Joining.ofChar c
    if x.joins next then clustersFrom (x.after next) (c :: current) done cs
    else clustersFrom (x.after next) [c] (current.reverse :: done) cs

def clusters : List Char → List (List Char)
  | [] => []
  | c :: cs => clustersFrom (.first (.ofChar c)) [c] [] cs

theorem flatten_clustersFrom (x : Joint) (current : List Char) (done : List (List Char))
    (cs : List Char) :
    (clustersFrom x current done cs).flatten = done.reverse.flatten ++ current.reverse ++ cs := by
  induction cs generalizing x current done with
  | nil => simp [clustersFrom]
  | cons c cs ih =>
    simp only [clustersFrom]
    split <;> simp [ih]

/-- Nothing is lost between the cuts. -/
theorem flatten_clusters (cs : List Char) : (clusters cs).flatten = cs := by
  cases cs with
  | nil => rfl
  | cons c cs => simp [clusters, flatten_clustersFrom]

end Clausal.Text
