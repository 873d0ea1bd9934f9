import ProtocolIR.CanonicalId
import ProtocolIR.Dump
import ProtocolIR.FrontEnd.Base
import ProtocolIR.FrontEnd.Units
import ProtocolIR.SourcePath

/-!
# Compilation

A compiler holds the modules under one root and the front ends for them. Compiling checks the
modules, runs rounds of scope building, naming, resolution, unification and coercion until a
round changes nothing, checks again, and lets the front ends make their products.
-/

namespace ProtocolIR

structure Options where
  maxRounds : Nat := 10
  /-- Whether running out of rounds is an error. -/
  strictFixedPoint : Bool := false
  skipValidation : Bool := false
  debugStreams : List String := []
  /-- Whether the final tree is logged with its scopes. -/
  dumpScopes : Bool := false
  deriving DecidableEq, Inhabited

inductive CompileError where
  | noFrontEnd (ext : String)
  | parse (error : ParseError)
  | validation (diagnostics : List Diagnostic)
  | grammar (diagnostics : List Diagnostic)
  | noFixedPoint (rounds : Nat)
  deriving DecidableEq, Inhabited

namespace CompileError

def message : CompileError → String
  | noFrontEnd ext => "no plugin handles files with extension '" ++ ext ++ "'"
  | parse error => error.message
  | validation ds => "validation failed:\n" ++ Diagnostic.listing ds
  | grammar ds => "grammar construction failed:\n" ++ Diagnostic.listing ds
  | noFixedPoint rounds => "no fixed point reached after " ++ toString rounds ++ " rounds"

def diagnostics : CompileError → List Diagnostic
  | validation ds | grammar ds => ds
  | noFrontEnd _ | parse _ | noFixedPoint _ => []

end CompileError

/-- What a successful compilation reports. The rounds include the last one, which changed
nothing. -/
structure Outcome where
  rounds : Nat
  reachedFixedPoint : Bool
  warnings : List Diagnostic
  deriving DecidableEq, Inhabited

structure Compiler where
  workspace : Workspace := {}
  frontEnds : List FrontEnd := []
  registry : Registry := .builtin
  options : Options := {}
  /-- The grammars that were made last. -/
  grammars : List Grammar := []
  deriving Inhabited

/-! ## Rounds -/

namespace Round

/-- The part of one front end in a round. -/
def step (session : Session) (start : NodeId) (f : FrontEnd) : Pass Bool := do
  Pass.debug .driver ("  " ++ f.component)
  Pass.modifyTree fun t ↦ f.buildScopes t start
  let named ← CanonicalId.assign start
  let resolved ← f.resolve session start
  let unified ← Unification.unify start
  let coerced ← Coercion.sweep session start
  return named || resolved || unified || coerced

/-- One round of all front ends; says whether anything changed. -/
def run (frontEnds : List FrontEnd) (session : Session) (start : NodeId) : Pass Bool := do
  Pass.modifyTree Tree.clearScopes
  frontEnds.foldlM (fun changed f ↦ return (← step session start f) || changed) false

/-- Rounds until one changes nothing, at most so many; gives the number of rounds and whether
the last one changed nothing. -/
def repeatUntilFixed (round : Pass Bool) : Nat → Nat → Pass (Nat × Bool)
  | 0, rounds => return (rounds, false)
  | left + 1, rounds => do
    let number := toString (rounds + 1)
    Pass.debug .driver ("round " ++ number)
    if ← round then
      Pass.debug .driver ("round " ++ number ++ " done, modified")
      repeatUntilFixed round left (rounds + 1)
    else
      Pass.debug .driver ("round " ++ number ++ " done, unchanged")
      return (rounds + 1, true)

end Round

/-! ## Validation and products -/

namespace Compilation

/-- The errors beneath a node, if there are any. -/
def errorsBeneath (t : Tree) (start : NodeId) : List Diagnostic :=
  (t.diagnostics start).filter Diagnostic.isError

def validatePre (frontEnds : List FrontEnd) (start : NodeId) : Pass (Except CompileError Unit) := do
  frontEnds.forM fun f ↦ do
    Pass.debug .driver ("pre-validation: " ++ f.component)
    Pass.modifyTree fun t ↦ f.validatePre t start
  match errorsBeneath (← Pass.tree) start with
  | [] => return .ok ()
  | errors => return .error (.validation errors)

def validatePost (frontEnds : List FrontEnd) (session : Session) (start : NodeId) :
    Pass (Except CompileError Unit) := do
  frontEnds.forM fun f ↦ do
    Pass.debug .driver ("post-validation: " ++ f.component)
    let t ← f.validatePost (← Pass.tree) session start
    Pass.modifyTree fun _ ↦ t
  match errorsBeneath (← Pass.tree) start with
  | [] => return .ok ()
  | errors => return .error (.validation errors)

def warnNoFixedPoint (rounds : Nat) : Pass Unit :=
  Pass.emit {
    level := .warn
    target := .stream .driver
    message := "no fixed point reached"
    fields := [("rounds", toString rounds)] }

/-- The products of the front ends; gives the grammars of the first that makes any. -/
def transform (frontEnds : List FrontEnd) (start : NodeId) : Pass (Option (List Grammar)) := do
  let products ← frontEnds.mapM fun f ↦ do
    let product ← f.transform start
    if product.isProduced then
      Pass.debug .driver ("transform: " ++ f.component ++ " produced output")
    return product
  return products.findSome? Product.grammars

/-- The errors that products may cause. -/
def productErrors (t : Tree) (start : NodeId) : List Diagnostic :=
  (errorsBeneath t start).filter fun d ↦ d.phase == .grammar || d.phase == .transform

end Compilation

/-! ## The compiler -/

namespace Compiler

def session (c : Compiler) : Session where
  registry := c.registry
  conversions := c.frontEnds.map FrontEnd.conversions

/-- Adds a front end after those that do not come after it. -/
def register (c : Compiler) (f : FrontEnd) : Compiler :=
  { c with
    frontEnds := c.frontEnds.takeWhile (fun g ↦ g.order ≤ f.order) ++
      f :: c.frontEnds.dropWhile fun g ↦ g.order ≤ f.order }

/-- A warning for a name that is not the name of a stream. -/
def unknownStream (name : String) : Event where
  level := .warn
  target := .setup
  message := "unknown debug stream"
  fields := [("stream", Text.quote name)]

/-- A compiler for both languages. -/
def standard (options : Options) : Compiler :=
  let unknown := options.debugStreams.filter fun name ↦ (Stream.ofName? name).isNone
  let start : Compiler := { options, workspace := { log := (unknown.map unknownStream).toArray } }
  (start.register .base).register .units

/-- Steps of a compiler. -/
abbrev Run := StateT Compiler (Except Fault)

/-- Runs a pass in the workspace of the compiler. -/
def perform {α : Type} (pass : Pass α) : Run α := fun c ↦ do
  let (a, workspace) ← pass c.workspace
  return (a, { c with workspace })

/-- Attaches a module. -/
def addModule (module : NodeId) : Run Unit := perform (Surgery.addChild Tree.root (some module))

/-- Parses a source with the front end for its extension and attaches the module. -/
def addSource (path : String) (content : ByteArray) : Run (Except CompileError NodeId) := do
  let ext := SourcePath.extensionOf path
  match (← get).frontEnds.find? fun f ↦ f.extension == ext with
  | none => return .error (.noFrontEnd ext)
  | some f =>
    perform (Pass.debug .driver ("parsing " ++ path ++ " with " ++ f.component))
    match ← perform (f.parse path content) with
    | .error error => return .error (.parse error)
    | .ok module =>
      addModule module
      return .ok module

/-- The text of a node by the first front end that has one, or else the common text. -/
def print (c : Compiler) (n : NodeId) : Except Fault String :=
  match c.frontEnds.findSome? fun f ↦ f.print c.workspace.tree n with
  | some text => .ok text
  | none => c.workspace.tree.short n

/-- The last steps: products, their errors, the dump, the warnings. -/
def finish (rounds : Nat) (reachedFixedPoint : Bool) : Run (Except CompileError Outcome) := do
  let c ← get
  match ← perform (Compilation.transform c.frontEnds Tree.root) with
  | some grammars => modify fun c ↦ { c with grammars }
  | none => pure ()
  let t := (← get).workspace.tree
  match Compilation.productErrors t Tree.root with
  | [] =>
    if c.options.dumpScopes then
      let text ← t.dumpText Tree.root true
      perform (Pass.debug .renderer text)
    let warnings := (t.diagnostics Tree.root).filter fun d ↦ !d.isError
    return .ok { rounds, reachedFixedPoint, warnings }
  | errors => return .error (.grammar errors)

/-- Compiles all modules. -/
def compile : Run (Except CompileError Outcome) := do
  let c ← get
  let session := c.session
  let checks := !c.options.skipValidation
  let checked ← if checks then perform (Compilation.validatePre c.frontEnds Tree.root) else pure (.ok ())
  if let .error error := checked then return .error error
  let (rounds, reached) ←
    perform (Round.repeatUntilFixed (Round.run c.frontEnds session Tree.root) c.options.maxRounds 0)
  if !reached then
    perform (Compilation.warnNoFixedPoint rounds)
    if c.options.strictFixedPoint then return .error (.noFixedPoint rounds)
  let checked ←
    if checks then perform (Compilation.validatePost c.frontEnds session Tree.root) else pure (.ok ())
  if let .error error := checked then return .error error
  finish rounds reached

end Compiler

end ProtocolIR
