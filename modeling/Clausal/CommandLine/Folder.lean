/-!
The files that a run can read, given as a whole: a folder of texts by name. A path is followed
from the folder segment by segment, and each way in which that can fail is an error of its own.
-/

namespace Clausal

inductive ReadError
  | notFound
  | notDirectory
  | isDirectory
  | nameTooLong
  | other (text : String)

def ReadError.text : ReadError → String
  | notFound => "No such file or directory (os error 2)"
  | notDirectory => "Not a directory (os error 20)"
  | isDirectory => "Is a directory (os error 21)"
  | nameTooLong => "File name too long (os error 36)"
  | other text => text

/-- The segments of a path; a slash at an end or next to another leaves an empty one. -/
def pathSegments (path : String) : List String := go [] path.toList
where
  go (current : List Char) : List Char → List String
    | [] => [String.ofList current.reverse]
    | c :: cs =>
      if c = '/' then String.ofList current.reverse :: go [] cs else go (c :: current) cs

structure Folder where
  files : List (String × String)

namespace Folder

def find? (f : Folder) (place : List String) : Option String :=
  (f.files.find? fun file => pathSegments file.1 == place).map (·.2)

def isFolder (f : Folder) (place : List String) : Bool :=
  place.isEmpty || f.files.any fun file =>
    place.length < (pathSegments file.1).length && place.isPrefixOf (pathSegments file.1)

def maxName : Nat := 255

/-- Follows segments from a place in the folder. -/
def follow (f : Folder) (place : List String) : List String → Except ReadError (List String)
  | [] => .ok place
  | segment :: rest =>
    if f.isFolder place then
      if segment = "" ∨ segment = "." then follow f place rest
      else if segment = ".." then follow f place.dropLast rest
      else if maxName < segment.utf8ByteSize then .error .nameTooLong
      else follow f (place ++ [segment]) rest
    else if (f.find? place).isSome then .error .notDirectory
    else .error .notFound

def read (f : Folder) (path : String) : Except ReadError String :=
  if path = "" then .error .notFound
  else
    match f.follow [] (pathSegments path) with
    | .error e => .error e
    | .ok place =>
      match f.find? place with
      | some text => .ok text
      | none => .error (if f.isFolder place then .isDirectory else .notFound)

end Folder

end Clausal
