import Bindery.Phrase.Parser

/-!
A cursor in a token list. It asks for the token at its position, for the token after that, and it
moves on by one token at a time. What is asked for past the last token is the end of the input, so
a cursor that had run over the end would not show it.
-/

namespace Bindery

structure Cursor where
  list : TokenList Name
  /-- How many tokens were taken. -/
  position : Nat := 0
  /-- Where the token ends that was taken last. -/
  previousStop : Nat := 0

namespace Cursor

/-- The current token. There is none at the end of the input, nor past it. -/
def current? (cursor : Cursor) : Option (Token Name) := cursor.list.tokens[cursor.position]?

/-- The token after the current one. -/
def peek? (cursor : Cursor) : Option (Token Name) := cursor.list.tokens[cursor.position + 1]?

def isAtEnd (cursor : Cursor) : Bool := cursor.current?.isNone

def check (cursor : Cursor) (symbol : Symbol) : Bool :=
  cursor.current?.any (·.isSymbol symbol)

/-- Takes the current token. At the end of the input the cursor stays where it is. -/
def advance (cursor : Cursor) : Cursor :=
  match cursor.current? with
  | some token =>
    { cursor with position := cursor.position + 1, previousStop := token.span.stop }
  | none => cursor

def eat (cursor : Cursor) (symbol : Symbol) : Bool × Cursor :=
  if cursor.check symbol then (true, cursor.advance) else (false, cursor)

def expect (cursor : Cursor) (symbol : Symbol) : Except Complaint (Span × Cursor) :=
  match cursor.current? with
  | some token =>
    if token.isSymbol symbol then .ok (token.span, cursor.advance)
    else .error (.expected (.symbol symbol))
  | none => .error (.expected (.symbol symbol))

def expectIdentifier (cursor : Cursor) : Except Complaint ((Name × Span) × Cursor) :=
  match cursor.current? with
  | some ⟨.identifier name, span, _⟩ => .ok ((name, span), cursor.advance)
  | _ => .error (.expected .identifier)

/-- Whether a name comes next and behind it a colon or a bullet. -/
def announcesBind (cursor : Cursor) : Bool :=
  match cursor.current?, cursor.peek? with
  | some ⟨.identifier _, _, _⟩, some next => next.isSymbol .colon || next.isSymbol .bullet
  | _, _ => false

/-- The tokens from the current one on. -/
def left (cursor : Cursor) : List (Token Name) := cursor.list.tokens.drop cursor.position

end Cursor
end Bindery
