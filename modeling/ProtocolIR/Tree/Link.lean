import ProtocolIR.Tree.Traversal

/-!
# Links and fresh identifiers
-/

namespace ProtocolIR

namespace Tree

/-- A link to a node with the canonical ID it has now. -/
def linkTo (t : Tree) (n : NodeId) : Link := ⟨n, (t.declaration? n).bind Declaration.canonicalId⟩

/-- Whether two canonical IDs may belong to one declaration: both are known only if equal. -/
def sameOrUnknown : Option String → Option String → Bool
  | some a, some b => a == b
  | _, _ => true

/-- The declaration or unit item a link leads to, provided it is attached and its canonical ID
has not become a different one. -/
def linkTarget (t : Tree) (link : Link) : Option NodeId :=
  if link.node.index < t.size then
    match t.kind link.node with
    | .declaration d =>
      if sameOrUnknown link.canonicalId d.canonicalId && t.isAttached link.node then some link.node
      else none
    | .item _ => if t.isAttached link.node then some link.node else none
    | _ => none
  else none

/-- The link to record where one may be present already: the target must be the same. -/
def retarget (n : NodeId) (present : Option Link) (link : Link) : Except Fault Link :=
  match present with
  | none => .ok link
  | some old => if old.node = link.node then .ok link else .error (.retarget n old.node link.node)

/-- Records what a name expression or a name type refers to. -/
def setResolved (t : Tree) (n : NodeId) (link : Link) : Except Fault Tree :=
  match t.kind n with
  | .expression (.name id present) => do
    return t.setKind n (.expression (.name id (some (← retarget n present link))))
  | .type data =>
    match data.shape with
    | .name id present => do
      return t.setKind n (.type { data with shape := .name id (some (← retarget n present link)) })
    | shape => .error (.typeNotName n shape.category)
  | kind => .error (.notName n kind.className)

/-- How many identifiers were drawn for a stem. -/
def drawnFor (t : Tree) (stem : String) : Nat := (t.drawn.lookup stem).getD 0

/-- An identifier made of a stem and the number of earlier draws for that stem. -/
def freshId (t : Tree) (stem : String) : String × Tree :=
  let count := t.drawnFor stem
  ("__anon_" ++ stem ++ "_" ++ toString count,
    { t with drawn := (stem, count + 1) :: t.drawn.filter fun entry ↦ entry.1 != stem })

end Tree

def Surgery.setResolved (n : NodeId) (link : Link) : Surgery Unit := fun t ↦ do
  return ((), ← t.setResolved n link)

end ProtocolIR
