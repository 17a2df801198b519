import Clausal.CommandLine.Cluster
import Clausal.Session.Repl
import Clausal.Text.Bytes

/-!
The lines that the loop is handed, out of an input that is given as a whole. This is the work of a
line editor around the loop, and it follows the editor as it behaves without a terminal: a backspace
in a line takes back what was typed before it. It belongs to the outer layer of the program, which
only hands lines on, and no statement about the loop depends on it.
-/

namespace Clausal.Repl

/-- A line that is being put together: its characters, last one first, and the size in bytes of
each cluster in it, of which only the low byte is kept. -/
structure Draft where
  shown : List Char
  sizes : List UInt8

namespace Draft

/-- Takes back as many bytes as the last cluster is said to have. -/
def takeBack (d : Draft) : Draft :=
  match d.sizes with
  | [] => d
  | n :: sizes => ⟨(Text.dropBytes? n.toNat d.shown).getD d.shown, sizes⟩

def add (d : Draft) (cluster : List Char) : Draft :=
  ⟨cluster.reverse ++ d.shown, (Text.byteLength cluster).toUInt8 :: d.sizes⟩

/-- A backspace is always a cluster of its own. -/
def take (d : Draft) (cluster : List Char) : Draft :=
  if cluster = ['\x08'] then d.takeBack else d.add cluster

end Draft

/-- A line with its corrections applied: a backspace takes away the cluster before it. The clusters
are those of the line as it was typed. -/
def corrected (line : List Char) : List Char :=
  ((Text.clusters line).foldl Draft.take ⟨[], []⟩).shown.reverse

/-- A line as it is read: without its line end, and with its corrections applied. -/
def readLine (raw : List Char) (ended : Bool) : String :=
  let line := if ended && raw.getLast? == some '\r' then raw.dropLast else raw
  String.ofList (corrected line)

/-- The lines of an input that is given as a whole; the last one may lack its line end. -/
def inputLines (current : List Char) : List Char → List String
  | [] => if current.isEmpty then [] else [readLine current.reverse false]
  | c :: cs =>
    if c = '\n' then readLine current.reverse true :: inputLines [] cs
    else inputLines (c :: current) cs

/-- A whole run of the loop on an input that is given as a whole. -/
def run (config : Config) (terminal : Bool) (input : String) : Output :=
  (Output.line banner).append ((new config).feedAll terminal (inputLines [] input.toList))

end Clausal.Repl
