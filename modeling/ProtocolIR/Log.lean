import ProtocolIR.Text.Entry

/-!
# The compilation log

Every pass reports on one named stream. A log is the list of events in the order
they were reported; an event is rendered to one text, which may span lines. The renderer's
stream carries dumps, so its entry lines are listed by name.
-/

namespace ProtocolIR

inductive Stream where
  | coercer
  | resolver
  | normalizer
  | unifier
  | scopes
  | renderer
  | driver
  | grammar
  | unitResolver
  deriving DecidableEq, Inhabited

namespace Stream

def all : List Stream :=
  [coercer, resolver, normalizer, unifier, scopes, renderer, driver, grammar, unitResolver]

def name : Stream → String
  | coercer => "coercer"
  | resolver => "resolver"
  | normalizer => "normalizer"
  | unifier => "unifier"
  | scopes => "scopes"
  | renderer => "renderer"
  | driver => "driver"
  | grammar => "pdl/grammar"
  | unitResolver => "pdl/resolver"

def ofName? (text : String) : Option Stream := all.find? fun stream ↦ stream.name == text

end Stream

inductive Level where
  | debug
  | warn
  deriving DecidableEq, Inhabited

def Level.text : Level → String
  | .debug => "DEBUG"
  | .warn => "WARN"

/-- Where an event comes from: a stream, or the setup of the streams themselves. -/
inductive Target where
  | stream (stream : Stream)
  | setup
  deriving DecidableEq, Inhabited

def Target.name : Target → String
  | .stream source => source.name
  | .setup => "weave::logging"

/-- A reported line with extra fields, each with the written form of its value. -/
structure Event where
  level : Level
  target : Target
  message : String
  fields : List (String × String) := []
  deriving DecidableEq, Inhabited

namespace Event

def debug (stream : Stream) (message : String) : Event :=
  { level := .debug, target := .stream stream, message }

def text (event : Event) : String :=
  let line := event.fields.foldl (fun line (key, value) ↦ line ++ " " ++ key ++ "=" ++ value)
    (event.level.text ++ " " ++ event.target.name ++ ": " ++ event.message)
  if event.target = .stream .renderer then Text.arrange line else line

end Event

end ProtocolIR
