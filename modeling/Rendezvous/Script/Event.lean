import Rendezvous.Configuration
import Rendezvous.Error
import Rendezvous.Text.Quoted

/-!
# What happens in a scripted run

`Event` is what a run reports as it goes, `ScriptError` is why it stopped. Both are shown as one
line; the first word of an event may be set in color.
-/

namespace Rendezvous

/-- Something that happened. -/
inductive Event where
  | declared (what name : String)
  | created (name : String) (ref : ProcRef)
  | took (proc : String) (term : Term)
  | rejected (proc : String) (kind : ErrorKind)
  | polled (pool : String) (ref : ProcRef)
  | checked (proc : String)

namespace Event

/-- The first word of an event. -/
def verb : Event → String
  | .declared .. => "declared"
  | .created .. => "created"
  | .took .. => "took"
  | .rejected .. => "rejected"
  | .polled .. => "polled"
  | .checked _ => "checked"

/-- The terminal's number for the color of an event. -/
def color : Event → Nat
  | .declared .. | .polled .. => 94
  | .created .. | .took .. | .checked _ => 92
  | .rejected .. => 93

/-- An event after its first word. -/
def details : Event → String
  | .declared what name => what ++ " " ++ name
  | .created name ref =>
    name ++ " (" ++ ref.process.short ++ ", provides " ++ ref.channel.short ++ ")"
  | .took proc term => proc ++ ": " ++ term.text
  | .rejected proc kind => proc ++ ": " ++ kind.title ++ " as expected"
  | .polled pool ref => pool ++ ": " ++ ref.process.short ++ " is liable"
  | .checked proc => proc

/-- An event without color. -/
def text (e : Event) : String := e.verb ++ " " ++ e.details

/-- An event with its first word in color. -/
def colored (e : Event) : String :=
  "\x1b[" ++ toString e.color ++ "m" ++ e.verb ++ "\x1b[0m " ++ e.details

end Event

/-- Why a run stopped. -/
inductive ScriptError where
  /-- A name that nothing has. -/
  | unknownName (name : String)
  /-- A term that cannot be read. -/
  | badTerm
  /-- An action that failed; declarations count as action 0. -/
  | action (index : Nat) (source : Error)
  /-- An action that did not turn out as expected. -/
  | expectation (index : Nat) (message : String)

/-- The text of an error; what is wrong with a term is not said. -/
def ScriptError.message : ScriptError → String
  | .unknownName name => "nothing is called `" ++ name ++ "`"
  | .badTerm => "invalid scenario"
  | .action index source => "action " ++ toString index ++ " failed: " ++ source.message
  | .expectation index message => "action " ++ toString index ++ ": " ++ message

/-- Placeholders as expectations list them. -/
def symList (syms : List Sym) : String :=
  "[" ++ ", ".intercalate (syms.map fun s => "Sym(" ++ Text.quoted s ++ ")") ++ "]"

end Rendezvous
