import ProtocolIR.Print
import ProtocolIR.Text.Entry

/-!
# Indented dumps

A dump has one line per node, `- <class> <description> [<location>]`, indented by depth; an
empty slot shows as `- <empty>`. With scopes, the entries of a node's scope follow its line, and
after them its imports; the text lists the entries by ID.
-/

namespace ProtocolIR.Tree

def describeDeclaration (d : Declaration) : String :=
  let canonical := d.canonicalId.toList.map ("canonical=" ++ ·)
  let value :=
    match d.kind with
    | .label (some value) _ _ => ["value=" ++ toString value.toInt]
    | _ => []
  d.id ++ " (" ++ String.intercalate ", " (d.linkage.name :: canonical ++ value) ++ ")"

def describeQualifiers (q : Qualifiers) : String :=
  (if q.isConst then "const" else "mutable") ++
    match q.side with
    | .lhs => " lhs"
    | .rhs => " rhs"

def describeResolved (resolved : Option Link) : String :=
  if resolved.isSome then " (resolved)" else " (unresolved)"

/-- What a dump line says after the class of a node. -/
def describe (t : Tree) (n : NodeId) : Except Fault String :=
  match t.kind n with
  | .declaration d => .ok (describeDeclaration d)
  | .type data => do
    let state :=
      match data.shape with
      | .name _ resolved => describeResolved resolved
      | _ => ""
    let unified := (data.unification.map fun u ↦ " [unified=" ++ u ++ "]").getD ""
    return (← t.typeText n) ++ state ++ unified
  | .qualified q => .ok (describeQualifiers q)
  | .expression (.name id resolved) => .ok (id.text ++ describeResolved resolved)
  | .statement _ | .attrSet | .root => .ok ""
  | _ => t.short n

def indent (depth : Nat) : String := String.join (List.replicate depth "  ")

def dumpLine (t : Tree) (n : NodeId) (depth : Nat) : Except Fault String := do
  let description ← t.describe n
  return indent depth ++ "- " ++ (t.kind n).className ++
    (if description.isEmpty then "" else " " ++ description) ++
    ((t.location n).map fun l ↦ " [" ++ l.text ++ "]").getD ""

/-- The entries of the scope at a node, then its imports. -/
def scopeLines (t : Tree) (n : NodeId) (depth : Nat) : Except Fault (List String) :=
  match t.scopeOf n with
  | none => .ok []
  | some s => do
    let bar := indent depth ++ "  | "
    let entries := (t.scope s).items.flatMap fun (id, decls) ↦ decls.map fun d ↦ (id, d)
    let items ← entries.mapM fun (id, d) ↦ do
      return bar ++ id ++ " -> " ++ (t.kind d).className ++ " " ++ (← t.short d)
    let imports ← (t.scope s).imports.mapM fun m ↦ do
      return bar ++ "import " ++ (← t.short m)
    return items ++ imports

def dumpWithin (t : Tree) (scopes : Bool) : Nat → Nat → Option NodeId → Except Fault (List String)
  | _, depth, none => .ok [indent depth ++ "- <empty>"]
  | 0, _, some _ => .error .endless
  | fuel + 1, depth, some n => do
    let line ← t.dumpLine n depth
    let listed ← if scopes then t.scopeLines n depth else pure []
    let below ← (t.slots n).mapM (t.dumpWithin scopes fuel (depth + 1))
    return line :: listed ++ below.flatten

/-- The lines of the dump of a subtree, scope entries as the scopes hold them. -/
def dump (t : Tree) (n : NodeId) (scopes : Bool) : Except Fault (List String) :=
  t.dumpWithin scopes t.size 0 (some n)

/-- The dump as one text, its entry lines by ID. -/
def dumpText (t : Tree) (n : NodeId) (scopes : Bool) : Except Fault String := do
  return Text.arrange (String.intercalate "\n" (← t.dump n scopes))

end ProtocolIR.Tree
