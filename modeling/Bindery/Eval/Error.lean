import Bindery.Span

/-!
Evaluation errors. An error says what went wrong, at which node, and which blocks and constructions
were being run at that moment. The place and the frames are filled in by the evaluator while the
error travels outwards, and the innermost ones stay.
-/

namespace Bindery

inductive Fault where
  | undefinedProperty (typeName property : String)
  | tooManyArguments (structureName : String) (expected got : Nat)
  /-- An input has neither an argument nor a default. -/
  | missingInput (structureName input : String)
  | typeMismatch (expected got : String)
  | stackOverflow (limit : Nat)
  | undefinedName (name : String)
  deriving DecidableEq

namespace Fault

/-- The stable code of a fault. -/
def code : Fault → String
  | .undefinedProperty .. => "E3001"
  | .tooManyArguments .. => "E3002"
  | .missingInput .. => "E3003"
  | .typeMismatch .. => "E3004"
  | .stackOverflow _ => "E3005"
  | .undefinedName _ => "E3006"

def message : Fault → String
  | .undefinedProperty typeName property => s!"`{typeName}` has no property `{property}`"
  | .tooManyArguments structureName expected got =>
    s!"`{structureName}` takes {expected} argument(s), got {got}"
  | .missingInput structureName input => s!"`{structureName}` needs a value for `{input}`"
  | .typeMismatch expected got => s!"type mismatch: expected {expected}, got {got}"
  | .stackOverflow limit => s!"maximum evaluation depth exceeded (limit: {limit})"
  | .undefinedName name => s!"`{name}` is not defined here"

end Fault

/-- A frame as a backtrace shows it. -/
structure BacktraceFrame where
  name : String
  span : Option Span
  deriving DecidableEq

/-- The line of a frame, the innermost frame having position zero. -/
def BacktraceFrame.line (frame : BacktraceFrame) (position : Nat) : String :=
  let place := match frame.span with
    | some span => s!" at {span.text}"
    | none => ""
  s!"  {position}: {frame.name}{place}\n"

/-- The frames that were being run when an error arose, innermost first. -/
abbrev Backtrace := List BacktraceFrame

/-- The text of a backtrace; an empty one has none. -/
def Backtrace.text (backtrace : Backtrace) : String :=
  if backtrace.isEmpty then ""
  else
    "evaluation backtrace:\n" ++
      String.join (backtrace.zipIdx.map fun (frame, position) => frame.line position)

structure EvalError where
  fault : Fault
  /-- The innermost node whose evaluation failed. -/
  span : Option Span := none
  backtrace : Option Backtrace := none
  deriving DecidableEq

namespace EvalError

/-- Sets the place of an error unless a node further in has done so. -/
def orSpan (error : EvalError) (span : Span) : EvalError :=
  { error with span := error.span <|> some span }

/-- The text of an error where a value is shown. -/
def text (error : EvalError) : String := s!"error[{error.fault.code}]: {error.fault.message}"

end EvalError
end Bindery
