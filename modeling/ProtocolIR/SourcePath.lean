/-!
# Paths of sources

A path is a sequence of names separated by slashes; empty names and the name `.` do not count,
except for `.` at the very start. The extension of a path is what its last name has after its last dot,
unless there is no other part before that dot.
-/

namespace ProtocolIR.SourcePath

def isSeparator (c : Char) : Bool := c == '/'

/-- The names of a path. A leading `.` is kept. -/
def names (path : List Char) : List (List Char) :=
  match path.splitOnP isSeparator with
  | [] => []
  | first :: rest =>
    (if first.isEmpty then [] else [first]) ++ rest.filter fun name ↦ !name.isEmpty && name != ['.']

/-- The name of the file that a path leads to. -/
def fileName? (path : List Char) : Option (List Char) :=
  (names path).getLast?.filter fun name ↦ name != ['.'] && name != ['.', '.']

/-- The part of a name after its last dot. -/
def extensionOfName? (name : List Char) : Option (List Char) :=
  let after := (name.reverse.takeWhile (· != '.')).reverse
  let before := name.take (name.length - after.length - 1)
  if after.length < name.length && !before.isEmpty then some after else none

/-- The extension of a path with its dot, empty if there is none. -/
def extensionOf (path : String) : String :=
  match (fileName? path.toList).bind extensionOfName? with
  | some text => "." ++ String.ofList text
  | none => ""

end ProtocolIR.SourcePath
