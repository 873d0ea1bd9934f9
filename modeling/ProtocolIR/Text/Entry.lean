/-!
# Entry lines

An entry line is `| <name> -> <what it names>`, after any indentation. Neighbouring entry
lines of a text are listed by name, those of one name in the order in which they were written;
every other line keeps its place.
-/

namespace ProtocolIR.Text

/-- What stands before the first arrow. -/
def beforeArrow : List Char → Option (List Char)
  | [] => none
  | ' ' :: '-' :: '>' :: ' ' :: _ => some []
  | c :: rest => (beforeArrow rest).map (c :: ·)

/-- The name on an entry line. -/
def entryName? (line : String) : Option String :=
  match line.toList.dropWhile (· = ' ') with
  | '|' :: ' ' :: rest => (beforeArrow rest).map String.ofList
  | _ => none

/-- Puts a line in front, an entry behind the entries of smaller names that follow. -/
def insertLine (line : String) : List String → List String
  | [] => [line]
  | next :: rest =>
    match entryName? line, entryName? next with
    | some name, some other =>
      if other < name then next :: insertLine line rest else line :: next :: rest
    | _, _ => line :: next :: rest

/-- Lists every run of entry lines by name. -/
def arrangeLines (lines : List String) : List String := lines.foldr insertLine []

def arrange (text : String) : String :=
  String.intercalate "\n" (arrangeLines (text.splitOn "\n"))

end ProtocolIR.Text
