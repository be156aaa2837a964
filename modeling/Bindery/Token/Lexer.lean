import Bindery.Token
import Bindery.Number.Numeral

/-!
Reading a text as tokens. Between tokens stand gaps of blank characters and comments, and each
token is the longest piece of the remaining text that any token pattern allows. Identifiers and
texts are named in the order in which they stand in the text, also when the text fails to be read
further on.
-/

namespace Bindery

inductive LexError where
  /-- No token starts with this character. -/
  | unexpectedCharacter (found : Char) (span : Span)
  | unterminatedText (span : Span)
  /-- Offsets into the text would not fit in 32 bits. -/
  | sourceTooLarge
  deriving DecidableEq

namespace LexError

def message : LexError → String
  | .unexpectedCharacter found span => s!"unexpected character `{found}` at {span.text}"
  | .unterminatedText span => s!"text literal starting at {span.text} is never closed"
  | .sourceTooLarge => "source is larger than 4 GiB"

def span? : LexError → Option Span
  | .unexpectedCharacter _ span | .unterminatedText span => some span
  | .sourceTooLarge => none

end LexError

namespace Lexer

/-- The characters that may stand between tokens outside comments. -/
def isBlank (c : Char) : Bool :=
  c == ' ' || c == '\t' || c == '\r' || c == '\n' || c == '\x0c'

/-- How many characters the gap at the front of a text has. Two slashes open a comment, which the
next line break closes. -/
def gapLength : (inComment : Bool) → List Char → Nat
  | _, [] => 0
  | true, c :: rest => gapLength (c != '\n') rest + 1
  | false, c :: rest =>
    if isBlank c then gapLength false rest + 1
    else if c == '/' && rest.head? == some '/' then gapLength true rest + 1
    else 0

theorem gapLength_le (inComment : Bool) (text : List Char) :
    gapLength inComment text ≤ text.length := by
  fun_induction gapLength inComment text with
  | case1 => exact Nat.le_refl _
  | case2 c rest ih => exact Nat.succ_le_succ ih
  | case3 c rest _ ih => exact Nat.succ_le_succ ih
  | case4 c rest _ _ ih => exact Nat.succ_le_succ ih
  | case5 => exact Nat.zero_le _

def isWordStart (c : Char) : Bool := c.isAlpha || c == '_'

def isWordPart (c : Char) : Bool := c.isAlphanum || c == '_'

def isQuote (c : Char) : Bool := c == '\x22' || c == '\x27'

/-- A word is reserved only if it is exactly a reserved word. -/
def wordKind : String → TokenKind String
  | "if" => .symbol .ifWord
  | "then" => .symbol .thenWord
  | "else" => .symbol .elseWord
  | "true" => .symbol .trueWord
  | "false" => .symbol .falseWord
  | word => .identifier word

/-- The symbol that a character and the one after it begin with, and how many characters it has
beyond the first. -/
def symbol? (c : Char) (next : Option Char) : Option (Symbol × Nat) :=
  match c with
  | '⊤' => some (.trueWord, 0)
  | '⊥' => some (.falseWord, 0)
  | '•' => some (.bullet, 0)
  | '(' => some (.leftParen, 0)
  | ')' => some (.rightParen, 0)
  | ':' => some (.colon, 0)
  | ',' => some (.comma, 0)
  | '.' => some (.dot, 0)
  | '#' => some (.hash, 0)
  | '?' => some (.question, 0)
  | '+' => some (.plus, 0)
  | '-' => some (.minus, 0)
  | '*' => some (.star, 0)
  | '/' => some (.slash, 0)
  | '=' => some (.equal, 0)
  | '≠' => some (.notEqual, 0)
  | '≤' => some (.lessEqual, 0)
  | '≥' => some (.greaterEqual, 0)
  | '&' => some (.ampersand, 0)
  | '|' => some (.pipe, 0)
  | '~' => some (.tilde, 0)
  | '!' => if next == some '=' then some (.notEqual, 1) else none
  | '<' => if next == some '=' then some (.lessEqual, 1) else some (.less, 0)
  | '>' => if next == some '=' then some (.greaterEqual, 1) else some (.greater, 0)
  | _ => none

/-- The digits after a point, if the text goes on with a point and at least one digit. -/
def fractionDigits : List Char → List Char
  | '.' :: rest => rest.takeWhile Char.isDigit
  | _ => []

inductive Misread where
  | unexpected
  | unterminated
  deriving DecidableEq

/-- The longest token at the front of a text, given by its first character and the rest, together
with how many characters of the rest belong to it. -/
def munch (c : Char) (rest : List Char) : Except Misread (TokenKind String × Nat) :=
  if isWordStart c then
    let more := rest.takeWhile isWordPart
    .ok (wordKind (.ofList (c :: more)), more.length)
  else if c.isDigit then
    let whole := rest.takeWhile Char.isDigit
    let fraction := fractionDigits (rest.drop whole.length)
    let point := if fraction.isEmpty then 0 else 1
    .ok (.number (Numeral.bits (c :: whole) fraction), whole.length + point + fraction.length)
  else if isQuote c then
    let content := rest.takeWhile (· != c)
    if content.length < rest.length then .ok (.text (.ofList content), content.length + 1)
    else .error .unterminated
  else
    match symbol? c rest.head? with
    | some (symbol, more) => .ok (.symbol symbol, more)
    | none => .error .unexpected

/-- The tokens of a text up to its end, or up to the first place where none can be read. -/
structure Scan where
  tokens : List (Token String)
  outcome : Except LexError EndMark

/-- Reads the text that starts at an offset; `first` tells whether no token comes before it. -/
def scan (offset : Nat) (first : Bool) (text : List Char) : Scan :=
  let gap := text.take (gapLength false text)
  let start := offset + utf8Length gap
  let layout := Layout.ofGap gap first
  match _h : text.drop (gapLength false text) with
  | [] => ⟨[], .ok ⟨start, layout⟩⟩
  | c :: rest =>
    match munch c rest with
    | .error .unexpected => ⟨[], .error (.unexpectedCharacter c ⟨start, start + c.utf8Size⟩)⟩
    | .error .unterminated =>
      ⟨[], .error (.unterminatedText ⟨start, start + utf8Length (c :: rest)⟩)⟩
    | .ok (kind, more) =>
      let stop := start + utf8Length (c :: rest.take more)
      let later := scan stop false (rest.drop more)
      { later with tokens := ⟨kind, ⟨start, stop⟩, layout⟩ :: later.tokens }
termination_by text.length
decreasing_by
  have := congrArg List.length _h
  simp only [List.length_drop, List.length_cons] at this ⊢
  omega

end Lexer

namespace Interner

/-- Names the spelling that a token carries, if it carries one. -/
def nameKind (interner : Interner) : TokenKind String → TokenKind Name × Interner
  | .identifier spelling => (interner.intern spelling).map .identifier id
  | .text content => (interner.intern content).map .text id
  | .number bits => (.number bits, interner)
  | .symbol symbol => (.symbol symbol, interner)

def nameTokens (interner : Interner) : List (Token String) → List (Token Name) × Interner
  | [] => ([], interner)
  | token :: rest =>
    let (kind, interner) := interner.nameKind token.kind
    let (named, interner) := interner.nameTokens rest
    ({ token with kind } :: named, interner)

end Interner

/-- The largest text, in bytes, whose offsets fit in 32 bits. -/
def maxSourceLength : Nat := 0xffffffff

/-- Reads a text as tokens whose spellings are named in the given table. A text that fails to be
read still leaves behind the names of the tokens before the fault. -/
def lex (text : String) (interner : Interner) : Except LexError (TokenList Name) × Interner :=
  if text.utf8ByteSize > maxSourceLength then (.error .sourceTooLarge, interner)
  else
    let scanned := Lexer.scan 0 true text.toList
    let (tokens, interner) := interner.nameTokens scanned.tokens
    (scanned.outcome.map (TokenList.mk tokens), interner)

theorem lex_eq {text : String} (interner : Interner) (h : text.utf8ByteSize ≤ maxSourceLength) :
    lex text interner =
      ((Lexer.scan 0 true text.toList).outcome.map
        (TokenList.mk (interner.nameTokens (Lexer.scan 0 true text.toList).tokens).1),
        (interner.nameTokens (Lexer.scan 0 true text.toList).tokens).2) :=
  if_neg (Nat.not_lt.mpr h)

end Bindery
