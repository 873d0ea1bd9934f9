/-!
# Qualified identifiers

An identifier is a plain text. A qualified identifier is a nonempty sequence of
segments, written with `::` between them. Cutting a text into segments drops the
empty ones, so `a::::b` and `::a::b` name the same thing as `a::b`; a text without
any segment is kept whole.
-/

namespace ProtocolIR

/-- Cuts a text at every `::`, from the left; the pieces may be empty. -/
def cutPath : List Char → List (List Char)
  | [] => [[]]
  | ':' :: ':' :: rest => [] :: cutPath rest
  | c :: rest =>
    match cutPath rest with
    | [] => [[c]]
    | piece :: pieces => (c :: piece) :: pieces

/-- Whether a text contains `::`. -/
def hasPathMark : List Char → Bool
  | [] => false
  | ':' :: ':' :: _ => true
  | _ :: rest => hasPathMark rest

/-- Whether an identifier is written as a path. -/
def isPath (id : String) : Bool := hasPathMark id.toList

/-- The nonempty segments of a text. -/
def pathSegments (text : String) : List String :=
  ((cutPath text.toList).filter (fun piece ↦ !piece.isEmpty)).map String.ofList

/-- A path with at least its last segment. -/
structure QualifiedId where
  outer : List String
  name : String
  deriving DecidableEq, Inhabited

namespace QualifiedId

def simple (name : String) : QualifiedId := ⟨[], name⟩

def ofSegments? (segments : List String) : Option QualifiedId :=
  segments.getLast?.map fun name ↦ ⟨segments.dropLast, name⟩

def parse? (text : String) : Option QualifiedId := ofSegments? (pathSegments text)

/-- The path a text spells; a text without segments is a name by itself. -/
def ofText (text : String) : QualifiedId := (parse? text).getD (simple text)

def segments (id : QualifiedId) : List String := id.outer ++ [id.name]

def first (id : QualifiedId) : String := id.outer.head?.getD id.name

def isSimple (id : QualifiedId) : Bool := id.outer.isEmpty

/-- Everything after the first segment. -/
def rest? (id : QualifiedId) : Option QualifiedId :=
  match id.outer with
  | [] => none
  | _ :: outer => some ⟨outer, id.name⟩

def length (id : QualifiedId) : Nat := id.outer.length + 1

def join (id : QualifiedId) (name : String) : QualifiedId := ⟨id.segments, name⟩

/-- The written form, which is also the identifier a scope may list verbatim. -/
def text (id : QualifiedId) : String := String.intercalate "::" id.segments

@[simp] theorem segments_simple (name : String) : (simple name).segments = [name] := rfl

@[simp] theorem length_segments (id : QualifiedId) : id.segments.length = id.length := by
  simp [segments, length]

end QualifiedId

end ProtocolIR
