import Bindery.Name
import Bindery.Span

/-!
Tokens are what the grammar is written over: words, texts, numbers and fixed symbols. Each token
knows where it stands and how it is set off from the token before it, because two decisions of the
grammar hang on layout. The end of the input is no token; a token list carries it apart.
-/

namespace Bindery

/-- The tokens that have one meaning whatever the program: reserved words and punctuation. -/
inductive Symbol where
  | ifWord | thenWord | elseWord | trueWord | falseWord
  | bullet | leftParen | rightParen | colon | comma | dot | hash | question
  | plus | minus | star | slash
  | equal | notEqual | less | lessEqual | greater | greaterEqual
  | ampersand | pipe | tilde
  deriving DecidableEq

/-- The spelling under which messages name a symbol. -/
def Symbol.spelling : Symbol → String
  | .ifWord => "if"
  | .thenWord => "then"
  | .elseWord => "else"
  | .trueWord => "true"
  | .falseWord => "false"
  | .bullet => "•"
  | .leftParen => "("
  | .rightParen => ")"
  | .colon => ":"
  | .comma => ","
  | .dot => "."
  | .hash => "#"
  | .question => "?"
  | .plus => "+"
  | .minus => "-"
  | .star => "*"
  | .slash => "/"
  | .equal => "="
  | .notEqual => "≠"
  | .less => "<"
  | .lessEqual => "≤"
  | .greater => ">"
  | .greaterEqual => "≥"
  | .ampersand => "&"
  | .pipe => "|"
  | .tilde => "~"

def Symbol.describe (symbol : Symbol) : String := s!"`{symbol.spelling}`"

/-- What a token says. Identifiers and texts carry an `α`: their spelling as the text has it, or
the name that stands for it. A number carries its binary64 pattern, so that tokens can be
compared. -/
inductive TokenKind (α : Type) where
  | identifier (name : α)
  | text (content : α)
  | number (bits : UInt64)
  | symbol (symbol : Symbol)
  deriving DecidableEq

/-- How messages name a kind of token. -/
def TokenKind.describe {α : Type} : TokenKind α → String
  | .identifier _ => "identifier"
  | .text _ => "text"
  | .number _ => "number"
  | .symbol s => s.describe

def endOfInput : String := "end of input"

/-- How a token is set off from the token before it. -/
structure Layout where
  spaceBefore : Bool
  newlineBefore : Bool
  /-- It touches the token before it; the first token of a text touches none. -/
  adjacent : Bool
  deriving DecidableEq

/-- The layout of what follows a gap, `first` telling whether no token comes before it. -/
def Layout.ofGap (gap : List Char) (first : Bool) : Layout where
  spaceBefore := !gap.isEmpty
  newlineBefore := gap.contains '\n'
  adjacent := gap.isEmpty && !first

structure Token (α : Type) where
  kind : TokenKind α
  span : Span
  layout : Layout
  deriving DecidableEq

def Token.isSymbol {α : Type} [DecidableEq α] (token : Token α) (symbol : Symbol) : Bool :=
  token.kind == .symbol symbol

/-- Where a text ends, and how its end is set off from the last token. -/
structure EndMark where
  offset : Nat
  layout : Layout
  deriving DecidableEq

def EndMark.span (mark : EndMark) : Span := .point mark.offset

/-- The tokens of a text, with its end. -/
structure TokenList (α : Type) where
  tokens : List (Token α)
  endMark : EndMark
  deriving DecidableEq

namespace TokenList

variable {α : Type}

/-- How many entries the list has, the end of the input counted as one. -/
def length (list : TokenList α) : Nat := list.tokens.length + 1

/-- How messages name the entry at an index; every index past the last token is at the end. -/
def describeAt (list : TokenList α) (index : Nat) : String :=
  match list.tokens[index]? with
  | some token => token.kind.describe
  | none => endOfInput

end TokenList
end Bindery
