import Bindery.Phrase
import Bindery.Token

/-!
The grammar, written down apart from its reader. A derivation belongs to a part of the grammar, to
the tokens at which the part starts, to what is read there and to the tokens that are left over.
What is left over counts: a repetition ends only where it cannot go on, so a derivation says what
may not follow it.
-/

namespace Bindery.Grammar

abbrev Tokens := List (Token Name)

/-- The levels of binary operators, loosest first. -/
inductive Tier where
  | disjunction | conjunction | equality | comparison | sum | product
  deriving DecidableEq

def Tier.operator? : Tier → Symbol → Option BinaryOp
  | .disjunction, .pipe => some .or
  | .conjunction, .ampersand => some .and
  | .equality, .equal => some .equal
  | .equality, .notEqual => some .notEqual
  | .comparison, .less => some .less
  | .comparison, .lessEqual => some .lessEqual
  | .comparison, .greater => some .greater
  | .comparison, .greaterEqual => some .greaterEqual
  | .sum, .plus => some .add
  | .sum, .minus => some .subtract
  | .product, .star => some .multiply
  | .product, .slash => some .divide
  | _, _ => none

/-- The level that binds tighter by one, if there is one. -/
def Tier.tighter? : Tier → Option Tier
  | .disjunction => some .conjunction
  | .conjunction => some .equality
  | .equality => some .comparison
  | .comparison => some .sum
  | .sum => some .product
  | .product => none

def unaryOperator? : Symbol → Option UnaryOp
  | .minus => some .negate
  | .tilde => some .not
  | _ => none

/-- The declared type that a token writes; the type of texts is written as the empty text. -/
def writtenType? : TokenKind Name → Option DeclaredType
  | .text content => if content = .empty then some .text else none
  | .symbol .hash => some .number
  | .symbol .question => some .boolean
  | .identifier name => some (.named name)
  | _ => none

def Next (symbol : Symbol) (tokens : Tokens) : Prop :=
  ∃ span layout rest, tokens = ⟨.symbol symbol, span, layout⟩ :: rest

def NextOperator (tier : Tier) (tokens : Tokens) : Prop :=
  ∃ symbol, (tier.operator? symbol).isSome ∧ Next symbol tokens

/-- A parenthesis comes next and touches the token before it. -/
def OpensArguments (tokens : Tokens) : Prop :=
  ∃ span layout rest, tokens = ⟨.symbol .leftParen, span, layout⟩ :: rest ∧ layout.adjacent = true

/-- A parenthesis comes next, on the line of the token before it. -/
def OpensBody (tokens : Tokens) : Prop :=
  ∃ span layout rest,
    tokens = ⟨.symbol .leftParen, span, layout⟩ :: rest ∧ layout.newlineBefore = false

def OpensBind (tokens : Tokens) : Prop :=
  ∃ name span layout rest,
    tokens = ⟨.identifier name, span, layout⟩ :: rest ∧ (Next .colon rest ∨ Next .bullet rest)

/-- A block can have no further statement. -/
def Closed (tokens : Tokens) : Prop := tokens = [] ∨ Next .rightParen tokens

/-- Reads `','?`, taking the comma if there is one. -/
inductive Separated : Tokens → Tokens → Prop
  | comma {span layout rest} : Separated (⟨.symbol .comma, span, layout⟩ :: rest) rest
  | bare {tokens} : ¬ Next .comma tokens → Separated tokens tokens

/-- Reads `('•' type)?` and tells where the type ends. -/
inductive Declares : Tokens → Option (DeclaredType × Nat) → Tokens → Prop
  | untyped {tokens} : ¬ Next .bullet tokens → Declares tokens none tokens
  | typed {span layout token type rest} : writtenType? token.kind = some type →
      Declares (⟨.symbol .bullet, span, layout⟩ :: token :: rest)
        (some (type, token.span.stop)) rest

/-- The parts of the grammar. An operand is what the operators of a level join; a chain goes on with
the operand at its left, and selections go on with their subject. -/
inductive Category where
  | program (stop : Nat)
  | statements | statement | structureDef | inputs | input | bind | body
  | expression
  | tier (tier : Tier)
  | operand (tier : Tier)
  | chain (tier : Tier) (left : Phrase)
  | unary | selection
  | selections (subject : Phrase)
  | arguments | primary | block

abbrev Category.Reading : Category → Type
  | .statements | .inputs | .arguments => List Phrase
  | .body => Option Phrase
  | _ => Phrase

/-- `Derivation c tokens reading rest`: the part `c` of the grammar starts at `tokens`, reads
`reading` and leaves `rest`. -/
inductive Derivation : (c : Category) → Tokens → c.Reading → Tokens → Type
  /- `program := statement* EOF` -/
  | program {stop tokens statements} :
      Derivation .statements tokens statements [] →
      Derivation (.program stop) tokens (.block ⟨0, stop⟩ statements) []
  | noStatement {tokens} : Closed tokens → Derivation .statements tokens [] tokens
  | moreStatements {tokens p between statements rest} :
      Derivation .statement tokens p between →
      Derivation .statements between statements rest →
      Derivation .statements tokens (p :: statements) rest
  /- `statement := structure | bind | expr` -/
  | ofStructureDef {tokens p rest} :
      Derivation .structureDef tokens p rest → Derivation .statement tokens p rest
  | ofBind {tokens p rest} : Derivation .bind tokens p rest → Derivation .statement tokens p rest
  | ofExpression {tokens p rest} : ¬ OpensBind tokens →
      Derivation .expression tokens p rest → Derivation .statement tokens p rest
  /- `structure := '•' IDENT '(' (input ','?)* ')' block?` -/
  | structureDef {start startLayout name nameSpan nameLayout openSpan openLayout close closeLayout
      tokens inputs afterInputs body rest} :
      Derivation .inputs tokens inputs (⟨.symbol .rightParen, close, closeLayout⟩ :: afterInputs) →
      Derivation .body afterInputs body rest →
      Derivation .structureDef
        (⟨.symbol .bullet, start, startLayout⟩ :: ⟨.identifier name, nameSpan, nameLayout⟩ ::
          ⟨.symbol .leftParen, openSpan, openLayout⟩ :: tokens)
        (.structureDef ⟨start.start, (body.map (·.span.stop)).getD close.stop⟩ name inputs body)
        rest
  | noInput {tokens} : Next .rightParen tokens → Derivation .inputs tokens [] tokens
  | moreInputs {tokens p afterInput between inputs rest} :
      Derivation .input tokens p afterInput →
      Separated afterInput between →
      Derivation .inputs between inputs rest →
      Derivation .inputs tokens (p :: inputs) rest
  | noBody {tokens} : ¬ OpensBody tokens → Derivation .body tokens none tokens
  | ofBlock {tokens p rest} : OpensBody tokens →
      Derivation .block tokens p rest → Derivation .body tokens (some p) rest
  /- `bind := IDENT ('•' type)? ':' expr`, and an input may go without `':' expr` -/
  | bind {name nameSpan nameLayout tokens declared colon colonLayout afterColon value rest} :
      Declares tokens declared (⟨.symbol .colon, colon, colonLayout⟩ :: afterColon) →
      Derivation .expression afterColon value rest →
      Derivation .bind (⟨.identifier name, nameSpan, nameLayout⟩ :: tokens)
        (.bind ⟨nameSpan.start, value.span.stop⟩ name (declared.map Prod.fst) (some value)) rest
  | valued {tokens p rest} : Derivation .bind tokens p rest → Derivation .input tokens p rest
  | unvalued {name nameSpan nameLayout tokens declared rest} :
      Declares tokens declared rest → ¬ Next .colon rest →
      Derivation .input (⟨.identifier name, nameSpan, nameLayout⟩ :: tokens)
        (.bind ⟨nameSpan.start, (declared.map Prod.snd).getD nameSpan.stop⟩ name
          (declared.map Prod.fst) none) rest
  /- `expr := 'if' expr 'then' expr 'else' expr | operands` -/
  | conditional {start startLayout thenSpan thenLayout elseSpan elseLayout tokens condition
      afterThen yes afterElse no rest} :
      Derivation .expression tokens condition
        (⟨.symbol .thenWord, thenSpan, thenLayout⟩ :: afterThen) →
      Derivation .expression afterThen yes
        (⟨.symbol .elseWord, elseSpan, elseLayout⟩ :: afterElse) →
      Derivation .expression afterElse no rest →
      Derivation .expression (⟨.symbol .ifWord, start, startLayout⟩ :: tokens)
        (.conditional (start.merge no.span) condition yes no) rest
  | ofTier {tokens p rest} :
      Derivation (.tier .disjunction) tokens p rest → Derivation .expression tokens p rest
  /- Each level is `operand (operator operand)*`, and joins from left to right. -/
  | joined {tier tokens left between p rest} :
      Derivation (.operand tier) tokens left between →
      Derivation (.chain tier left) between p rest →
      Derivation (.tier tier) tokens p rest
  | ofTighter {tier tighter tokens p rest} : tier.tighter? = some tighter →
      Derivation (.tier tighter) tokens p rest → Derivation (.operand tier) tokens p rest
  | ofUnary {tier tokens p rest} : tier.tighter? = none →
      Derivation .unary tokens p rest → Derivation (.operand tier) tokens p rest
  | chainEnd {tier left tokens} : ¬ NextOperator tier tokens →
      Derivation (.chain tier left) tokens left tokens
  | chainStep {tier left symbol op span layout tokens right between p rest} :
      tier.operator? symbol = some op →
      Derivation (.operand tier) tokens right between →
      Derivation (.chain tier (.binary (left.span.merge right.span) op left right))
        between p rest →
      Derivation (.chain tier left) (⟨.symbol symbol, span, layout⟩ :: tokens) p rest
  /- `unary := ('-' | '~') unary | selection` -/
  | prefixed {symbol op span layout tokens p rest} :
      unaryOperator? symbol = some op →
      Derivation .unary tokens p rest →
      Derivation .unary (⟨.symbol symbol, span, layout⟩ :: tokens)
        (.unary (span.merge p.span) op p) rest
  | ofSelection {tokens p rest} :
      Derivation .selection tokens p rest → Derivation .unary tokens p rest
  /- `selection := primary ('.' IDENT | '(' (expr ','?)* ')')*` -/
  | selection {tokens subject between p rest} :
      Derivation .primary tokens subject between →
      Derivation (.selections subject) between p rest →
      Derivation .selection tokens p rest
  | selected {subject tokens} : ¬ Next .dot tokens → ¬ OpensArguments tokens →
      Derivation (.selections subject) tokens subject tokens
  | property {subject dot dotLayout member memberSpan memberLayout tokens p rest} :
      Derivation
        (.selections (.property (subject.span.merge memberSpan) subject member memberSpan))
        tokens p rest →
      Derivation (.selections subject)
        (⟨.symbol .dot, dot, dotLayout⟩ :: ⟨.identifier member, memberSpan, memberLayout⟩ :: tokens)
        p rest
  | evaluate {subject openSpan openLayout close closeLayout tokens arguments between p rest} :
      openLayout.adjacent = true →
      Derivation .arguments tokens arguments
        (⟨.symbol .rightParen, close, closeLayout⟩ :: between) →
      Derivation (.selections (.evaluate ⟨subject.span.start, close.stop⟩ subject arguments))
        between p rest →
      Derivation (.selections subject) (⟨.symbol .leftParen, openSpan, openLayout⟩ :: tokens) p rest
  | noArgument {tokens} : Next .rightParen tokens → Derivation .arguments tokens [] tokens
  | moreArguments {tokens p afterArgument between arguments rest} :
      Derivation .expression tokens p afterArgument →
      Separated afterArgument between →
      Derivation .arguments between arguments rest →
      Derivation .arguments tokens (p :: arguments) rest
  /- `primary := NUMBER | TEXT | BOOLEAN | IDENT | block` -/
  | number {bits span layout rest} :
      Derivation .primary (⟨.number bits, span, layout⟩ :: rest) (.number span bits) rest
  | text {content span layout rest} :
      Derivation .primary (⟨.text content, span, layout⟩ :: rest) (.text span content) rest
  | trueWord {span layout rest} :
      Derivation .primary (⟨.symbol .trueWord, span, layout⟩ :: rest) (.boolean span true) rest
  | falseWord {span layout rest} :
      Derivation .primary (⟨.symbol .falseWord, span, layout⟩ :: rest) (.boolean span false) rest
  | reference {name span layout rest} :
      Derivation .primary (⟨.identifier name, span, layout⟩ :: rest) (.reference span name) rest
  | ofPrimaryBlock {tokens p rest} :
      Derivation .block tokens p rest → Derivation .primary tokens p rest
  /- `block := '(' statement* ')'` -/
  | block {openSpan openLayout close closeLayout tokens statements rest} :
      Derivation .statements tokens statements
        (⟨.symbol .rightParen, close, closeLayout⟩ :: rest) →
      Derivation .block (⟨.symbol .leftParen, openSpan, openLayout⟩ :: tokens)
        (.block (openSpan.merge close) statements) rest

/-- The parts of the grammar that read at least one token. -/
def Category.Consumes : Category → Prop
  | .program _ | .statements | .inputs | .body | .chain .. | .selections _ | .arguments => False
  | _ => True

theorem Separated.length_le {tokens rest : Tokens} (h : Separated tokens rest) :
    rest.length ≤ tokens.length := by
  cases h with
  | comma => exact Nat.le_succ _
  | bare _ => exact Nat.le_refl _

theorem Declares.length_le {tokens rest : Tokens} {declared : Option (DeclaredType × Nat)}
    (h : Declares tokens declared rest) : rest.length ≤ tokens.length := by
  cases h with
  | untyped _ => exact Nat.le_refl _
  | typed _ => simp only [List.length_cons]; omega

namespace Derivation

variable {c : Category} {tokens rest : Tokens} {reading : c.Reading}

theorem length_le_and_lt (d : Derivation c tokens reading rest) :
    rest.length ≤ tokens.length ∧ (c.Consumes → rest.length < tokens.length) := by
  induction d with
  | noStatement _ | noInput _ | noBody _ | chainEnd _ | selected _ _ | noArgument _ =>
      exact ⟨Nat.le_refl _, False.elim⟩
  | ofStructureDef _ ih | ofBind _ ih | ofExpression _ _ ih | valued _ ih | ofTier _ ih
  | ofTighter _ _ ih | ofUnary _ _ ih | ofSelection _ ih | ofPrimaryBlock _ ih =>
      exact ⟨ih.1, fun _ => ih.2 trivial⟩
  | program _ ih => exact ⟨ih.1, False.elim⟩
  | ofBlock _ _ ih => exact ⟨ih.1, False.elim⟩
  | moreStatements _ _ first more => exact ⟨by have := first.1; have := more.1; omega, False.elim⟩
  | moreInputs _ sep _ first more | moreArguments _ sep _ first more =>
      refine ⟨?_, False.elim⟩
      have := sep.length_le
      have := first.1
      have := more.1
      omega
  | joined _ _ first more | selection _ _ first more =>
      have := first.2 trivial
      have := more.1
      exact ⟨by omega, fun _ => by omega⟩
  | bind declares _ ih =>
      have := declares.length_le
      have := ih.1
      simp only [List.length_cons] at *
      exact ⟨by omega, fun _ => by omega⟩
  | unvalued declares _ =>
      have := declares.length_le
      simp only [List.length_cons]
      exact ⟨by omega, fun _ => by omega⟩
  | structureDef _ _ first more | chainStep _ _ _ first more | evaluate _ _ _ first more =>
      have := first.1
      have := more.1
      simp only [List.length_cons] at *
      exact ⟨by omega, fun _ => by omega⟩
  | conditional _ _ _ first second third =>
      have := first.1
      have := second.1
      have := third.1
      simp only [List.length_cons] at *
      exact ⟨by omega, fun _ => by omega⟩
  | prefixed _ _ ih | property _ ih | block _ ih =>
      have := ih.1
      simp only [List.length_cons] at *
      exact ⟨by omega, fun _ => by omega⟩
  | number | text | trueWord | falseWord | reference =>
      simp only [List.length_cons]
      exact ⟨by omega, fun _ => by omega⟩

theorem length_le (d : Derivation c tokens reading rest) : rest.length ≤ tokens.length :=
  d.length_le_and_lt.1

theorem length_lt (d : Derivation c tokens reading rest) (hc : c.Consumes) :
    rest.length < tokens.length :=
  d.length_le_and_lt.2 hc

end Derivation

/-- The tokens with which a primary can start. -/
def startsPrimary : TokenKind Name → Bool
  | .identifier _ | .text _ | .number _ => true
  | .symbol .trueWord | .symbol .falseWord | .symbol .leftParen => true
  | _ => false

def startsUnary : TokenKind Name → Bool
  | .symbol .minus | .symbol .tilde => true
  | kind => startsPrimary kind

def startsExpression : TokenKind Name → Bool
  | .symbol .ifWord => true
  | kind => startsUnary kind

def startsBind : TokenKind Name → Bool
  | .identifier _ => true
  | _ => false

/-- The tokens with which a part of the grammar that reads any can start. -/
def Category.starts : Category → TokenKind Name → Bool
  | .statement, kind => kind == .symbol .bullet || startsExpression kind
  | .structureDef, kind => kind == .symbol .bullet
  | .bind, kind | .input, kind => startsBind kind
  | .expression, kind => startsExpression kind
  | .tier _, kind | .operand _, kind | .unary, kind => startsUnary kind
  | .selection, kind | .primary, kind => startsPrimary kind
  | .block, kind => kind == .symbol .leftParen
  | _, _ => false

theorem startsUnary_of_startsPrimary {kind : TokenKind Name} (h : startsPrimary kind = true) :
    startsUnary kind = true := by
  simp only [startsUnary]
  split <;> first | rfl | exact h

theorem startsExpression_of_startsUnary {kind : TokenKind Name} (h : startsUnary kind = true) :
    startsExpression kind = true := by
  simp only [startsExpression]
  split <;> first | rfl | exact h

theorem startsUnary_of_unaryOperator? {symbol : Symbol} {op : UnaryOp}
    (h : unaryOperator? symbol = some op) : startsUnary (.symbol symbol) = true := by
  simp only [unaryOperator?] at h
  split at h
  · rfl
  · rfl
  · cases h

theorem startsExpression_of_startsBind {kind : TokenKind Name} (h : startsBind kind = true) :
    startsExpression kind = true := by
  cases kind with
  | identifier _ => rfl
  | text _ | number _ | symbol _ => cases h

/-- No derivation of a part that reads something starts at the end of the input, nor with a token
that its part does not start with. -/
theorem Derivation.starts {c : Category} {tokens rest : Tokens} {reading : c.Reading}
    (d : Derivation c tokens reading rest) (hc : c.Consumes) :
    ∃ token further, tokens = token :: further ∧ c.starts token.kind = true := by
  induction d with
  | program _ _ | noStatement _ | moreStatements _ _ _ _ | noInput _ | moreInputs _ _ _ _ _
  | noBody _ | ofBlock _ _ _ | chainEnd _ | chainStep _ _ _ _ _ | selected _ _ | property _ _
  | evaluate _ _ _ _ _ | noArgument _ | moreArguments _ _ _ _ _ => exact hc.elim
  | structureDef _ _ _ _ | bind _ _ _ | unvalued _ _ | conditional _ _ _ _ _ _ | number | text
  | trueWord | falseWord | reference | block _ _ => exact ⟨_, _, rfl, rfl⟩
  | prefixed h _ _ => exact ⟨_, _, rfl, startsUnary_of_unaryOperator? h⟩
  | ofStructureDef _ ih =>
      obtain ⟨token, further, rfl, h⟩ := ih trivial
      exact ⟨token, further, rfl, (Bool.or_eq_true _ _).mpr (.inl h)⟩
  | ofBind _ ih =>
      obtain ⟨token, further, rfl, h⟩ := ih trivial
      exact ⟨token, further, rfl,
        (Bool.or_eq_true _ _).mpr (.inr (startsExpression_of_startsBind h))⟩
  | ofExpression _ _ ih =>
      obtain ⟨token, further, rfl, h⟩ := ih trivial
      exact ⟨token, further, rfl, (Bool.or_eq_true _ _).mpr (.inr h)⟩
  | ofTier _ ih =>
      obtain ⟨token, further, rfl, h⟩ := ih trivial
      exact ⟨token, further, rfl, startsExpression_of_startsUnary h⟩
  | ofSelection _ ih =>
      obtain ⟨token, further, rfl, h⟩ := ih trivial
      exact ⟨token, further, rfl, startsUnary_of_startsPrimary h⟩
  | valued _ ih | ofTighter _ _ ih | ofUnary _ _ ih | joined _ _ ih _ | selection _ _ ih _ =>
      exact ih trivial
  | ofPrimaryBlock _ ih =>
      obtain ⟨token, further, rfl, h⟩ := ih trivial
      exact ⟨token, further, rfl, congrArg startsPrimary (eq_of_beq h)⟩

/-- What starts with another token is not read by a part of the grammar. -/
theorem Derivation.not_next {c : Category} {tokens rest : Tokens} {reading : c.Reading}
    (d : Derivation c tokens reading rest) (hc : c.Consumes) (symbol : Symbol)
    (hs : c.starts (.symbol symbol) = false) : ¬ Next symbol tokens := by
  rintro ⟨span, layout, further, rfl⟩
  obtain ⟨token, _, h, hstarts⟩ := d.starts hc
  cases h
  simp [hs] at hstarts

theorem Derivation.not_closed {tokens rest : Tokens} {p : Phrase}
    (d : Derivation .statement tokens p rest) : ¬ Closed tokens := by
  rintro (rfl | h)
  · obtain ⟨_, _, h, _⟩ := d.starts trivial
    cases h
  · exact d.not_next trivial .rightParen rfl h

def NextUnary (tokens : Tokens) : Prop :=
  ∃ symbol, (unaryOperator? symbol).isSome ∧ Next symbol tokens

theorem Derivation.not_nextUnary {tokens rest : Tokens} {p : Phrase}
    (d : Derivation .selection tokens p rest) : ¬ NextUnary tokens := by
  rintro ⟨symbol, hs, hnext⟩
  cases symbol <;> first | exact d.not_next trivial _ rfl hnext | cases hs

/-- A bind is told from an expression by its first two tokens. -/
theorem Derivation.opensBind {tokens rest : Tokens} {p : Phrase}
    (d : Derivation .bind tokens p rest) : OpensBind tokens := by
  cases d with
  | bind declares _ =>
      refine ⟨_, _, _, _, rfl, ?_⟩
      cases declares with
      | untyped _ => exact .inl ⟨_, _, _, rfl⟩
      | typed _ => exact .inr ⟨_, _, _, rfl⟩

end Bindery.Grammar
