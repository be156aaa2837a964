import Bindery.Phrase
import Bindery.Token.Lexer

/-!
The grammar, read by recursive descent with at most one token of lookahead. Loosest first, an
expression is a conditional, or operands joined by `|`, `&`, equality, comparison, sums and
products, which associate to the left; then come prefixes, then property access and evaluation,
then literals, references and blocks.

Two decisions hang on layout. A parenthesis continues an expression as its arguments only if it
touches the token before it, and a structure has a body only if the body opens on the line on
which its inputs close.

Readers of nested phrases take a budget that exceeds the number of tokens left. They hand on a
smaller budget only after a token has been taken, so the budget is never used up.
-/

namespace Bindery

/-- What the grammar asks for where a token does not fit. -/
inductive Expectation where
  | symbol (symbol : Symbol)
  | identifier
  | type
  | expression
  deriving DecidableEq

def Expectation.describe : Expectation → String
  | .symbol s => s.describe
  | .identifier => "identifier"
  | .type => "type"
  | .expression => "expression"

/-- What is wrong at the place where reading stops. -/
inductive Complaint where
  | expected (what : Expectation)
  /-- A statement declares a name, which stands at `span`, and gives it no value. -/
  | unvalued (name : Name) (span : Span)
  deriving DecidableEq

/-- Why a phrase could not be read, with the tokens from the first unread one on. -/
structure Failure where
  complaint : Complaint
  rest : List (Token Name)

/-- A reader takes what it needs from the front of the tokens. -/
abbrev Parser (α : Type) := StateT (List (Token Name)) (Except Failure) α

namespace Parser

def refuse {α : Type} (complaint : Complaint) : Parser α :=
  fun tokens => .error ⟨complaint, tokens⟩

def expected {α : Type} (what : Expectation) : Parser α := refuse (.expected what)

def startsWith (symbol : Symbol) : List (Token Name) → Bool
  | token :: _ => token.isSymbol symbol
  | [] => false

def symbol (symbol : Symbol) : Parser Span
  | token :: rest =>
    if token.isSymbol symbol then .ok (token.span, rest)
    else expected (.symbol symbol) (token :: rest)
  | [] => expected (.symbol symbol) []

def accept (symbol : Symbol) : Parser Bool
  | token :: rest => if token.isSymbol symbol then .ok (true, rest) else .ok (false, token :: rest)
  | [] => .ok (false, [])

def identifier : Parser (Name × Span)
  | ⟨.identifier name, span, _⟩ :: rest => .ok ((name, span), rest)
  | tokens => expected .identifier tokens

/-- Reads items until `stop` holds of the tokens left. -/
def many {α : Type} (stop : List (Token Name) → Bool) (item : Parser α) : Nat → Parser (List α)
  | 0 => pure []
  | budget + 1 => fun tokens =>
    if stop tokens then .ok ([], tokens)
    else (do return (← item) :: (← many stop item budget)) tokens

/-- The binary operators of one level and the symbols that write them. -/
abbrev Level := List (Symbol × BinaryOp)

/-- The levels of binary operators, loosest first. -/
def levels : List Level :=
  [ [(.pipe, .or)],
    [(.ampersand, .and)],
    [(.equal, .equal), (.notEqual, .notEqual)],
    [(.less, .less), (.lessEqual, .lessEqual), (.greater, .greater),
      (.greaterEqual, .greaterEqual)],
    [(.plus, .add), (.minus, .subtract)],
    [(.star, .multiply), (.slash, .divide)] ]

def operator? (level : Level) (token : Token Name) : Option BinaryOp :=
  match token.kind with
  | .symbol s => level.lookup s
  | _ => none

/-- Goes on with `left` as long as an operator of the level and an operand follow. -/
def chain (level : Level) (operand : Parser Phrase) : Nat → Phrase → Parser Phrase
  | 0, left => pure left
  | budget + 1, left => fun tokens =>
    match tokens with
    | [] => .ok (left, [])
    | token :: rest =>
      match operator? level token with
      | none => .ok (left, token :: rest)
      | some op =>
        (do
          let right ← operand
          chain level operand budget (.binary (left.span.merge right.span) op left right)) rest

/-- Operands joined by the operators of the given levels, loosest first. -/
def operation (budget : Nat) (operand : Parser Phrase) : List Level → Parser Phrase
  | [] => operand
  | level :: tighter => do
    let left ← operation budget operand tighter
    chain level (operation budget operand tighter) budget left

def prefixOperator? (token : Token Name) : Option UnaryOp :=
  match token.kind with
  | .symbol .minus => some .negate
  | .symbol .tilde => some .not
  | _ => none

/-- An operand behind any number of prefix operators. -/
def prefixed (operand : Parser Phrase) : Parser Phrase
  | [] => operand []
  | token :: rest =>
    match prefixOperator? token with
    | none => operand (token :: rest)
    | some op => do
      let (inner, rest) ← prefixed operand rest
      return (.unary (token.span.merge inner.span) op inner, rest)

/-- Reads `item ','?`. -/
def separated {α : Type} (item : Parser α) : Parser α := do
  let read ← item
  let _ ← accept .comma
  return read

/-- Reads `(item ','?)* ')'` and tells where the parenthesis stands. -/
def untilClosed {α : Type} (item : Parser α) (budget : Nat) : Parser (List α × Span) := do
  let items ← many (startsWith .rightParen) (separated item) budget
  return (items, ← symbol .rightParen)

/-- Whether the next token is a parenthesis that touches what it follows. -/
def opensArguments : List (Token Name) → Bool
  | token :: _ => token.isSymbol .leftParen && token.layout.adjacent
  | [] => false

/-- Goes on with `subject` as long as a member or an argument list follows. -/
def selections (expression : Parser Phrase) : Nat → Phrase → Parser Phrase
  | 0, subject => pure subject
  | budget + 1, subject => fun tokens =>
    if startsWith .dot tokens then
      (do
        let _ ← symbol .dot
        let (member, memberSpan) ← identifier
        selections expression budget
          (.property (subject.span.merge memberSpan) subject member memberSpan)) tokens
    else if opensArguments tokens then
      (do
        let _ ← symbol .leftParen
        let (arguments, close) ← untilClosed expression budget
        selections expression budget
          (.evaluate ⟨subject.span.start, close.stop⟩ subject arguments)) tokens
    else .ok (subject, tokens)

/-- Reads `primary := NUMBER | TEXT | BOOLEAN | IDENT | block`. -/
def primary (block : Parser Phrase) : Parser Phrase
  | [] => expected .expression []
  | token :: rest =>
    match token.kind with
    | .number bits => .ok (.number token.span bits, rest)
    | .text content => .ok (.text token.span content, rest)
    | .identifier name => .ok (.reference token.span name, rest)
    | .symbol .trueWord => .ok (.boolean token.span true, rest)
    | .symbol .falseWord => .ok (.boolean token.span false, rest)
    | .symbol .leftParen => block (token :: rest)
    | _ => expected .expression (token :: rest)

/-- Reads `selection := primary ('.' IDENT | '(' (expr ','?)* ')')*`. -/
def selection (budget : Nat) (expression block : Parser Phrase) : Parser Phrase := do
  let subject ← primary block
  selections expression budget subject

/-- Reads `conditional := if expr then expr else expr`. -/
def conditional (expression : Parser Phrase) : Parser Phrase := do
  let start ← symbol .ifWord
  let condition ← expression
  let _ ← symbol .thenWord
  let yes ← expression
  let _ ← symbol .elseWord
  let no ← expression
  return .conditional (start.merge no.span) condition yes no

/-- Reads `expr := conditional | operation`, given the readers of nested phrases. -/
def expressionOver (budget : Nat) (expression block : Parser Phrase) : Parser Phrase :=
  fun tokens =>
    if startsWith .ifWord tokens then conditional expression tokens
    else operation budget (prefixed (selection budget expression block)) levels tokens

/-- Reads `type := '""' | '#' | '?' | IDENT` and tells where it ends. -/
def type : Parser (DeclaredType × Nat)
  | [] => expected .type []
  | token :: rest =>
    match token.kind with
    | .text content =>
      if content = .empty then .ok ((.text, token.span.stop), rest)
      else expected .type (token :: rest)
    | .symbol .hash => .ok ((.number, token.span.stop), rest)
    | .symbol .question => .ok ((.boolean, token.span.stop), rest)
    | .identifier name => .ok ((.named name, token.span.stop), rest)
    | _ => expected .type (token :: rest)

/-- Reads `('•' type)?`. -/
def declaration? : Parser (Option (DeclaredType × Nat)) := do
  if ← accept .bullet then return some (← type) else return none

/-- Reads `bind := IDENT ('•' type)? (':' expr)?`, the value being optional only for inputs. -/
def bind (valueRequired : Bool) (expression : Parser Phrase) : Parser Phrase := do
  let (name, nameSpan) ← identifier
  let declared ← declaration?
  let type := declared.map Prod.fst
  if ← accept .colon then
    let value ← expression
    return .bind ⟨nameSpan.start, value.span.stop⟩ name type (some value)
  else if valueRequired then refuse (.unvalued name nameSpan)
  else
    let stop := (declared.map Prod.snd).getD nameSpan.stop
    return .bind ⟨nameSpan.start, stop⟩ name type none

/-- Whether the next token is a parenthesis on the line of the token before it. -/
def opensBody : List (Token Name) → Bool
  | token :: _ => token.isSymbol .leftParen && !token.layout.newlineBefore
  | [] => false

def body? (block : Parser Phrase) : Parser (Option Phrase) := fun tokens =>
  if opensBody tokens then (some <$> block) tokens else .ok (none, tokens)

/-- Reads `structure := '•' IDENT '(' (input ','?)* ')' block?`. -/
def structureDef (budget : Nat) (expression block : Parser Phrase) : Parser Phrase := do
  let start ← symbol .bullet
  let (name, _) ← identifier
  let _ ← symbol .leftParen
  let (inputs, close) ← untilClosed (bind false expression) budget
  let body ← body? block
  let stop := (body.map (·.span.stop)).getD close.stop
  return .structureDef ⟨start.start, stop⟩ name inputs body

def opensBind : List (Token Name) → Bool
  | ⟨.identifier _, _, _⟩ :: rest => startsWith .colon rest || startsWith .bullet rest
  | _ => false

/-- Reads `statement := structure | bind | expr`. -/
def statement (budget : Nat) (expression block : Parser Phrase) : Parser Phrase := fun tokens =>
  if startsWith .bullet tokens then structureDef budget expression block tokens
  else if opensBind tokens then bind true expression tokens
  else expression tokens

def closesBlock (tokens : List (Token Name)) : Bool :=
  tokens.isEmpty || startsWith .rightParen tokens

/-- Reads `block := '(' statement* ')'`, given the readers of nested phrases. -/
def blockOver (budget : Nat) (expression block : Parser Phrase) : Parser Phrase := do
  let start ← symbol .leftParen
  let statements ← many closesBlock (statement budget expression block) budget
  let close ← symbol .rightParen
  return .block (start.merge close) statements

mutual

/-- Reads an expression from fewer tokens than the budget. -/
def expression : Nat → Parser Phrase
  | 0 => expected .expression
  | budget + 1 =>
    expressionOver budget (expression budget) (blockOver budget (expression budget) (block budget))

/-- Reads a block from fewer tokens than the budget. -/
def block : Nat → Parser Phrase
  | 0 => expected (.symbol .leftParen)
  | budget + 1 => blockOver budget (expression budget) (block budget)

end

/-- Reads `program := statement*`, up to the end of the input. -/
def statements (budget : Nat) : Parser (List Phrase) :=
  many List.isEmpty (statement budget (expression budget) (block budget)) budget

/-- Reads all tokens as one block, which covers the text up to the given offset. -/
def program (tokens : List (Token Name)) (stop : Nat) : Except Failure Phrase := do
  let (statements, _) ← statements (tokens.length + 1) tokens
  return .block ⟨0, stop⟩ statements

end Parser

inductive ParseError where
  | lexical (error : LexError)
  /-- The token found at `span` is not what the grammar expects there. -/
  | unexpectedToken (expected found : String) (span : Span)
  | unvaluedBind (name : String) (span : Span)
  deriving DecidableEq

namespace ParseError

def message : ParseError → String
  | .lexical error => error.message
  | .unexpectedToken expected found span =>
    s!"expected {expected}, found {found} at {span.text}"
  | .unvaluedBind name span => s!"`{name}` at {span.text} is declared without a value"

def span? : ParseError → Option Span
  | .lexical error => error.span?
  | .unexpectedToken _ _ span | .unvaluedBind _ span => some span

end ParseError

/-- The report of a failure: what was found instead is the first unread token. -/
def Failure.toParseError (failure : Failure) (endMark : EndMark) (interner : Interner) :
    ParseError :=
  match failure.complaint with
  | .unvalued name span => .unvaluedBind (interner.lookup name) span
  | .expected what =>
    match failure.rest with
    | token :: _ => .unexpectedToken what.describe token.kind.describe token.span
    | [] => .unexpectedToken what.describe endOfInput endMark.span

def TokenList.parse (list : TokenList Name) (interner : Interner) : Except ParseError Phrase :=
  (Parser.program list.tokens list.endMark.offset).mapError
    (·.toParseError list.endMark interner)

end Bindery
