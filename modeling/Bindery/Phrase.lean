import Bindery.Name
import Bindery.Span

/-!
Phrases are programs as they are written: blocks of statements, binds, structure definitions and
expressions, each with the stretch of text that it covers. Parentheses that only group are blocks
of one statement.
-/

namespace Bindery

inductive BinaryOp where
  | add | subtract | multiply | divide
  | equal | notEqual | less | lessEqual | greater | greaterEqual
  | and | or
  deriving DecidableEq

/-- The symbol under which messages name an operator. -/
def BinaryOp.symbol : BinaryOp → String
  | .add => "+"
  | .subtract => "-"
  | .multiply => "*"
  | .divide => "/"
  | .equal => "="
  | .notEqual => "≠"
  | .less => "<"
  | .lessEqual => "≤"
  | .greater => ">"
  | .greaterEqual => "≥"
  | .and => "&"
  | .or => "|"

inductive UnaryOp where
  | negate | not
  deriving DecidableEq

def UnaryOp.symbol : UnaryOp → String
  | .negate => "-"
  | .not => "~"

/-- The type that a bind declares for its value. -/
inductive DeclaredType where
  | text | number | boolean
  /-- Instances of the structures of this name. -/
  | named (name : Name)
  deriving DecidableEq

/-- A piece of a program together with the text that it covers. -/
inductive Phrase where
  | block (span : Span) (statements : List Phrase)
  /-- A bind, `name•type: value`. Only the inputs of a structure may lack the value. -/
  | bind (span : Span) (name : Name) (type : Option DeclaredType) (value : Option Phrase)
  /-- A structure definition, `•name(inputs) (body)`. -/
  | structureDef (span : Span) (name : Name) (inputs : List Phrase) (body : Option Phrase)
  /-- A property access, `subject.member`, the member standing at `memberSpan`. -/
  | property (span : Span) (subject : Phrase) (member : Name) (memberSpan : Span)
  | reference (span : Span) (name : Name)
  /-- An evaluation, `callee(arguments)`. -/
  | evaluate (span : Span) (callee : Phrase) (arguments : List Phrase)
  | number (span : Span) (bits : UInt64)
  | text (span : Span) (content : Name)
  | boolean (span : Span) (value : Bool)
  | binary (span : Span) (op : BinaryOp) (left right : Phrase)
  | unary (span : Span) (op : UnaryOp) (operand : Phrase)
  | conditional (span : Span) (condition yes no : Phrase)

def Phrase.span : Phrase → Span
  | .block span _ | .bind span .. | .structureDef span .. | .property span ..
  | .reference span _ | .evaluate span .. | .number span _ | .text span _ | .boolean span _
  | .binary span .. | .unary span .. | .conditional span .. => span

instance : Inhabited Phrase := ⟨.block .nowhere []⟩

end Bindery
