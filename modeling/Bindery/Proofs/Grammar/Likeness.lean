import Bindery.Proofs.Grammar.Readers
import Mathlib.Data.List.Forall2

/-!
The reader looks at little. Of a name it sees whether it is the empty text, of the layout how a
parenthesis is set off, and of a place nothing at all. So texts that are alike in the rest are read
alike: to phrases that differ only as the texts do, or with failures at the same token.
-/

namespace Bindery

/-- Which names may stand for each other, and which offsets. -/
structure Likeness where
  name : Name → Name → Prop
  offset : Nat → Nat → Prop
  empty_iff : ∀ {n n' : Name}, name n n' → (n = .empty ↔ n' = .empty)
  min : ∀ {a a' b b' : Nat}, offset a a' → offset b b' → offset (min a b) (min a' b')
  max : ∀ {a a' b b' : Nat}, offset a a' → offset b b' → offset (max a b) (max a' b')

namespace Likeness

variable (like : Likeness)

def AlikeSpan (span span' : Span) : Prop :=
  like.offset span.start span'.start ∧ like.offset span.stop span'.stop

inductive AlikeKind : TokenKind Name → TokenKind Name → Prop
  | identifier {name name'} : like.name name name' →
      AlikeKind (.identifier name) (.identifier name')
  | text {content content'} :
    like.name content content' → AlikeKind (.text content) (.text content')
  | number {bits} : AlikeKind (.number bits) (.number bits)
  | symbol {symbol} : AlikeKind (.symbol symbol) (.symbol symbol)

/-- The layout of a token counts if it is a parenthesis that opens. -/
structure AlikeToken (token token' : Token Name) : Prop where
  kind : like.AlikeKind token.kind token'.kind
  span : like.AlikeSpan token.span token'.span
  layout : token.kind = .symbol .leftParen →
    token.layout.adjacent = token'.layout.adjacent ∧
    token.layout.newlineBefore = token'.layout.newlineBefore

abbrev AlikeTokens : List (Token Name) → List (Token Name) → Prop := List.Forall₂ like.AlikeToken

inductive AlikeType : DeclaredType → DeclaredType → Prop
  | text : AlikeType .text .text
  | number : AlikeType .number .number
  | boolean : AlikeType .boolean .boolean
  | named {name name'} : like.name name name' → AlikeType (.named name) (.named name')

mutual

def AlikePhrase : Phrase → Phrase → Prop
  | .block span statements, .block span' statements' =>
    like.AlikeSpan span span' ∧ AlikePhrases statements statements'
  | .bind span name type value, .bind span' name' type' value' =>
    like.AlikeSpan span span' ∧ like.name name name' ∧ Option.Rel like.AlikeType type type' ∧
      AlikePhrase? value value'
  | .structureDef span name inputs body, .structureDef span' name' inputs' body' =>
    like.AlikeSpan span span' ∧ like.name name name' ∧ AlikePhrases inputs inputs' ∧
      AlikePhrase? body body'
  | .property span subject member memberSpan, .property span' subject' member' memberSpan' =>
    like.AlikeSpan span span' ∧ AlikePhrase subject subject' ∧ like.name member member' ∧
      like.AlikeSpan memberSpan memberSpan'
  | .reference span name, .reference span' name' =>
    like.AlikeSpan span span' ∧ like.name name name'
  | .evaluate span callee arguments, .evaluate span' callee' arguments' =>
    like.AlikeSpan span span' ∧ AlikePhrase callee callee' ∧ AlikePhrases arguments arguments'
  | .number span bits, .number span' bits' => like.AlikeSpan span span' ∧ bits = bits'
  | .text span content, .text span' content' =>
    like.AlikeSpan span span' ∧ like.name content content'
  | .boolean span value, .boolean span' value' => like.AlikeSpan span span' ∧ value = value'
  | .binary span op left right, .binary span' op' left' right' =>
    like.AlikeSpan span span' ∧ op = op' ∧ AlikePhrase left left' ∧ AlikePhrase right right'
  | .unary span op operand, .unary span' op' operand' =>
    like.AlikeSpan span span' ∧ op = op' ∧ AlikePhrase operand operand'
  | .conditional span condition yes no, .conditional span' condition' yes' no' =>
    like.AlikeSpan span span' ∧ AlikePhrase condition condition' ∧ AlikePhrase yes yes' ∧
      AlikePhrase no no'
  | _, _ => False

def AlikePhrase? : Option Phrase → Option Phrase → Prop
  | none, none => True
  | some p, some p' => AlikePhrase p p'
  | _, _ => False

def AlikePhrases : List Phrase → List Phrase → Prop
  | [], [] => True
  | p :: rest, p' :: rest' => AlikePhrase p p' ∧ AlikePhrases rest rest'
  | _, _ => False

end

inductive AlikeComplaint : Complaint → Complaint → Prop
  | expected {what} : AlikeComplaint (.expected what) (.expected what)
  | unvalued {name name' span span'} : like.name name name' → like.AlikeSpan span span' →
      AlikeComplaint (.unvalued name span) (.unvalued name' span')

/-- What a reader comes to, results being related by `R`. -/
inductive AlikeResult {α : Type} (R : α → α → Prop) :
    Except Failure (α × List (Token Name)) → Except Failure (α × List (Token Name)) → Prop
  | ok {result result' rest rest'} : R result result' → like.AlikeTokens rest rest' →
      AlikeResult R (.ok (result, rest)) (.ok (result', rest'))
  | error {complaint complaint' rest rest'} : like.AlikeComplaint complaint complaint' →
      like.AlikeTokens rest rest' →
      AlikeResult R (.error ⟨complaint, rest⟩) (.error ⟨complaint', rest'⟩)

/-- Readers come to alike results on alike tokens. -/
def AlikeReader {α : Type} (R : α → α → Prop) (reader reader' : Parser α) : Prop :=
  ∀ tokens tokens', like.AlikeTokens tokens tokens' →
    like.AlikeResult R (reader tokens) (reader' tokens')

variable {like}

theorem AlikeSpan.merge {a a' b b' : Span} (ha : like.AlikeSpan a a') (hb : like.AlikeSpan b b') :
    like.AlikeSpan (a.merge b) (a'.merge b') :=
  ⟨like.min ha.1 hb.1, like.max ha.2 hb.2⟩

theorem AlikePhrase.span {p p' : Phrase} (h : like.AlikePhrase p p') :
    like.AlikeSpan p.span p'.span := by
  cases p with
  | block | bind | structureDef | property | reference | evaluate | number | text | boolean | binary
  | unary | conditional => cases p' <;> first | exact h.1 | exact h.elim

section Tokens

variable {kind kind' : TokenKind Name} {token token' : Token Name}
  {tokens tokens' : List (Token Name)}

theorem AlikeKind.eq_symbol_iff (h : like.AlikeKind kind kind') (symbol : Symbol) :
    kind = .symbol symbol ↔ kind' = .symbol symbol := by
  cases h with
  | identifier | text => exact ⟨nofun, nofun⟩
  | number | symbol => exact Iff.rfl

theorem AlikeToken.isSymbol (h : like.AlikeToken token token') (symbol : Symbol) :
    token.isSymbol symbol = token'.isSymbol symbol := by
  rw [Bool.eq_iff_iff]
  simp only [Token.isSymbol, beq_iff_eq]
  exact h.kind.eq_symbol_iff symbol

theorem AlikeToken.operator? (h : like.AlikeToken token token') (level : Parser.Level) :
    Parser.operator? level token = Parser.operator? level token' := by
  have hkind := h.kind
  simp only [Parser.operator?]
  generalize token.kind = kind, token'.kind = kind' at hkind
  cases hkind <;> rfl

theorem AlikeToken.prefixOperator? (h : like.AlikeToken token token') :
    Parser.prefixOperator? token = Parser.prefixOperator? token' := by
  have hkind := h.kind
  simp only [Parser.prefixOperator?]
  generalize token.kind = kind, token'.kind = kind' at hkind
  cases hkind <;> rfl

theorem AlikeTokens.startsWith (h : like.AlikeTokens tokens tokens') (symbol : Symbol) :
    Parser.startsWith symbol tokens = Parser.startsWith symbol tokens' := by
  cases h with
  | nil => rfl
  | cons htoken _ => exact htoken.isSymbol symbol

theorem AlikeTokens.isEmpty (h : like.AlikeTokens tokens tokens') :
    tokens.isEmpty = tokens'.isEmpty := by
  cases h <;> rfl

theorem AlikeTokens.closesBlock (h : like.AlikeTokens tokens tokens') :
    Parser.closesBlock tokens = Parser.closesBlock tokens' := by
  simp only [Parser.closesBlock, h.isEmpty, h.startsWith]

theorem AlikeTokens.opensArguments (h : like.AlikeTokens tokens tokens') :
    Parser.opensArguments tokens = Parser.opensArguments tokens' := by
  cases h with
  | nil => rfl
  | @cons token token' rest rest' htoken _ =>
      simp only [Parser.opensArguments, ← htoken.isSymbol]
      cases hparen : token.isSymbol .leftParen with
      | false => rfl
      | true => rw [(htoken.layout (eq_of_beq hparen)).1]

theorem AlikeTokens.opensBody (h : like.AlikeTokens tokens tokens') :
    Parser.opensBody tokens = Parser.opensBody tokens' := by
  cases h with
  | nil => rfl
  | @cons token token' rest rest' htoken _ =>
      simp only [Parser.opensBody, ← htoken.isSymbol]
      cases hparen : token.isSymbol .leftParen with
      | false => rfl
      | true => rw [(htoken.layout (eq_of_beq hparen)).2]

theorem AlikeTokens.opensBind (h : like.AlikeTokens tokens tokens') :
    Parser.opensBind tokens = Parser.opensBind tokens' := by
  cases h with
  | nil => rfl
  | @cons token token' rest rest' htoken hrest =>
      obtain ⟨kind, span, layout⟩ := token
      obtain ⟨kind', span', layout'⟩ := token'
      have hkind : like.AlikeKind kind kind' := htoken.kind
      cases hkind with
      | identifier => simp only [Parser.opensBind, AlikeTokens.startsWith hrest]
      | text | number | symbol => rfl

end Tokens

theorem alikePhrases_of_forall₂ {ps ps' : List Phrase}
    (h : List.Forall₂ like.AlikePhrase ps ps') : like.AlikePhrases ps ps' := by
  induction h with
  | nil => exact trivial
  | cons hp _ ih => exact ⟨hp, ih⟩

namespace AlikeReader

variable {α β : Type} {R : α → α → Prop} {S : β → β → Prop}

theorem pure {result result' : α} (h : R result result') :
    like.AlikeReader R (Pure.pure result : Parser α) (Pure.pure result') :=
  fun _ _ htokens => .ok h htokens

theorem refuse {complaint complaint' : Complaint}
    (h : like.AlikeComplaint complaint complaint') :
    like.AlikeReader R (Parser.refuse complaint) (Parser.refuse complaint') :=
  fun _ _ htokens => .error h htokens

theorem bind {reader reader' : Parser α} {next next' : α → Parser β}
    (h : like.AlikeReader R reader reader')
    (hnext : ∀ result result', R result result' →
      like.AlikeReader S (next result) (next' result')) :
    like.AlikeReader S (reader >>= next) (reader' >>= next') := by
  intro tokens tokens' htokens
  rw [Parser.andThen_run, Parser.andThen_run]
  have hresult := h tokens tokens' htokens
  generalize reader tokens = outcome, reader' tokens' = outcome' at hresult
  cases hresult with
  | ok hresult hrest => exact hnext _ _ hresult _ _ hrest
  | error hcomplaint hrest => exact .error hcomplaint hrest

/-- Where two readers look at the tokens alike, they may look before they read. -/
theorem ite {c c' : List (Token Name) → Bool} {reader reader' other other' : Parser α}
    (hc : ∀ tokens tokens', like.AlikeTokens tokens tokens' → c tokens = c' tokens')
    (h : like.AlikeReader R reader reader') (hother : like.AlikeReader R other other') :
    like.AlikeReader R (fun tokens => if c tokens then reader tokens else other tokens)
      (fun tokens => if c' tokens then reader' tokens else other' tokens) := by
  intro tokens tokens' htokens
  simp only [hc tokens tokens' htokens]
  split
  · exact h tokens tokens' htokens
  · exact hother tokens tokens' htokens

theorem symbol (symbol : Symbol) :
    like.AlikeReader like.AlikeSpan (Parser.symbol symbol) (Parser.symbol symbol) := by
  intro tokens tokens' htokens
  cases htokens with
  | nil => exact .error .expected .nil
  | cons htoken hrest =>
      simp only [Parser.symbol, ← htoken.isSymbol]
      split
      · exact .ok htoken.span hrest
      · exact .error .expected (.cons htoken hrest)

theorem accept (symbol : Symbol) :
    like.AlikeReader Eq (Parser.accept symbol) (Parser.accept symbol) := by
  intro tokens tokens' htokens
  cases htokens with
  | nil => exact .ok rfl .nil
  | cons htoken hrest =>
      simp only [Parser.accept, ← htoken.isSymbol]
      split
      · exact .ok rfl hrest
      · exact .ok rfl (.cons htoken hrest)

theorem identifier :
    like.AlikeReader (fun read read' => like.name read.1 read'.1 ∧ like.AlikeSpan read.2 read'.2)
      Parser.identifier Parser.identifier := by
  intro tokens tokens' htokens
  cases htokens with
  | nil => exact .error .expected .nil
  | @cons token token' _ _ htoken hrest =>
      obtain ⟨kind, span, layout⟩ := token
      obtain ⟨kind', span', layout'⟩ := token'
      have hkind : like.AlikeKind kind kind' := htoken.kind
      cases hkind with
      | identifier hname => exact .ok ⟨hname, htoken.span⟩ hrest
      | text | number | symbol => exact .error .expected (.cons htoken hrest)

theorem many {stop : List (Token Name) → Bool} {item item' : Parser α}
    (hstop : ∀ tokens tokens', like.AlikeTokens tokens tokens' → stop tokens = stop tokens')
    (hitem : like.AlikeReader R item item') (budget : Nat) :
    like.AlikeReader (List.Forall₂ R) (Parser.many stop item budget)
      (Parser.many stop item' budget) := by
  induction budget with
  | zero => exact .pure .nil
  | succ budget ih =>
      refine .ite hstop (.pure .nil) ?_
      refine .bind hitem fun result result' hresult => ?_
      exact .bind ih fun results results' hresults => .pure (.cons hresult hresults)

theorem chain (level : Parser.Level) {operand operand' : Parser Phrase}
    (hoperand : like.AlikeReader like.AlikePhrase operand operand') (budget : Nat)
    {left left' : Phrase} (hleft : like.AlikePhrase left left') :
    like.AlikeReader like.AlikePhrase (Parser.chain level operand budget left)
      (Parser.chain level operand' budget left') := by
  induction budget generalizing left left' with
  | zero => exact .pure hleft
  | succ budget ih =>
      intro tokens tokens' htokens
      cases htokens with
      | nil => exact .ok hleft .nil
      | @cons token token' rest rest' htoken hrest =>
          simp only [Parser.chain, ← htoken.operator?]
          cases Parser.operator? level token with
          | none => exact .ok hleft (.cons htoken hrest)
          | some op =>
              have hjoined (right right' : Phrase) (hright : like.AlikePhrase right right') :
                  like.AlikePhrase (.binary (left.span.merge right.span) op left right)
                    (.binary (left'.span.merge right'.span) op left' right') :=
                ⟨hleft.span.merge hright.span, rfl, hleft, hright⟩
              exact AlikeReader.bind hoperand (fun right right' hright => ih (hjoined _ _ hright))
                _ _ hrest

theorem operation (budget : Nat) {operand operand' : Parser Phrase}
    (hoperand : like.AlikeReader like.AlikePhrase operand operand') (levels : List Parser.Level) :
    like.AlikeReader like.AlikePhrase (Parser.operation budget operand levels)
      (Parser.operation budget operand' levels) := by
  induction levels with
  | nil => exact hoperand
  | cons level tighter ih => exact .bind ih fun left left' hleft => .chain level ih budget hleft

theorem prefixed {operand operand' : Parser Phrase}
    (hoperand : like.AlikeReader like.AlikePhrase operand operand') :
    like.AlikeReader like.AlikePhrase (Parser.prefixed operand) (Parser.prefixed operand') := by
  intro tokens tokens' htokens
  induction htokens with
  | nil => exact hoperand _ _ .nil
  | @cons token token' rest rest' htoken hrest ih =>
      simp only [Parser.prefixed, ← htoken.prefixOperator?]
      cases Parser.prefixOperator? token with
      | none => exact hoperand _ _ (.cons htoken hrest)
      | some op =>
          simp only
          generalize Parser.prefixed operand rest = outcome,
            Parser.prefixed operand' rest' = outcome' at ih
          cases ih with
          | ok hinner hafter =>
              exact .ok ⟨htoken.span.merge hinner.span, rfl, hinner⟩ hafter
          | error hcomplaint hafter => exact .error hcomplaint hafter

theorem separated {item item' : Parser α} (hitem : like.AlikeReader R item item') :
    like.AlikeReader R (Parser.separated item) (Parser.separated item') :=
  .bind hitem fun _ _ hread => .bind (.accept .comma) fun _ _ _ => .pure hread

theorem untilClosed {item item' : Parser α} (hitem : like.AlikeReader R item item')
    (budget : Nat) :
    like.AlikeReader
      (fun read read' => List.Forall₂ R read.1 read'.1 ∧ like.AlikeSpan read.2 read'.2)
      (Parser.untilClosed item budget) (Parser.untilClosed item' budget) :=
  .bind (.many (fun _ _ htokens => htokens.startsWith _) (.separated hitem) budget)
    fun _ _ hitems => .bind (.symbol .rightParen) fun _ _ hclose => .pure ⟨hitems, hclose⟩

theorem selections {expression expression' : Parser Phrase}
    (hexpression : like.AlikeReader like.AlikePhrase expression expression') (budget : Nat)
    {subject subject' : Phrase} (hsubject : like.AlikePhrase subject subject') :
    like.AlikeReader like.AlikePhrase (Parser.selections expression budget subject)
      (Parser.selections expression' budget subject') := by
  induction budget generalizing subject subject' with
  | zero => exact .pure hsubject
  | succ budget ih =>
      refine .ite (fun _ _ htokens => htokens.startsWith _) ?_
        (.ite (fun _ _ htokens => htokens.opensArguments) ?_ fun _ _ htokens =>
          .ok hsubject htokens)
      · refine .bind (.symbol .dot) fun _ _ _ => .bind .identifier fun member member' hmember => ?_
        obtain ⟨member, memberSpan⟩ := member
        obtain ⟨member', memberSpan'⟩ := member'
        have hproperty : like.AlikePhrase
            (.property (subject.span.merge memberSpan) subject member memberSpan)
            (.property (subject'.span.merge memberSpan') subject' member' memberSpan') :=
          ⟨hsubject.span.merge hmember.2, hsubject, hmember.1, hmember.2⟩
        exact ih hproperty
      · refine .bind (.symbol .leftParen) fun _ _ _ =>
          .bind (.untilClosed hexpression budget) fun read read' hread => ?_
        obtain ⟨arguments, close⟩ := read
        obtain ⟨arguments', close'⟩ := read'
        have hevaluate : like.AlikePhrase
            (.evaluate ⟨subject.span.start, close.stop⟩ subject arguments)
            (.evaluate ⟨subject'.span.start, close'.stop⟩ subject' arguments') :=
          ⟨⟨hsubject.span.1, hread.2.2⟩, hsubject, alikePhrases_of_forall₂ hread.1⟩
        exact ih hevaluate

theorem primary {block block' : Parser Phrase}
    (hblock : like.AlikeReader like.AlikePhrase block block') :
    like.AlikeReader like.AlikePhrase (Parser.primary block) (Parser.primary block') := by
  intro tokens tokens' htokens
  cases htokens with
  | nil => exact .error .expected .nil
  | @cons token token' _ _ htoken hrest =>
      obtain ⟨kind, span, layout⟩ := token
      obtain ⟨kind', span', layout'⟩ := token'
      have hkind : like.AlikeKind kind kind' := htoken.kind
      cases hkind with
      | identifier hname | text hname => exact .ok ⟨htoken.span, hname⟩ hrest
      | number => exact .ok ⟨htoken.span, rfl⟩ hrest
      | @symbol symbol =>
          cases symbol with
          | trueWord | falseWord => exact .ok ⟨htoken.span, rfl⟩ hrest
          | leftParen => exact hblock _ _ (.cons htoken hrest)
          | _ => exact .error .expected (.cons htoken hrest)

theorem selection {expression expression' block block' : Parser Phrase}
    (hexpression : like.AlikeReader like.AlikePhrase expression expression')
    (hblock : like.AlikeReader like.AlikePhrase block block') (budget : Nat) :
    like.AlikeReader like.AlikePhrase (Parser.selection budget expression block)
      (Parser.selection budget expression' block') :=
  .bind (.primary hblock) fun _ _ hsubject => .selections hexpression budget hsubject

theorem conditional {expression expression' : Parser Phrase}
    (h : like.AlikeReader like.AlikePhrase expression expression') :
    like.AlikeReader like.AlikePhrase (Parser.conditional expression)
      (Parser.conditional expression') := by
  refine .bind (.symbol .ifWord) fun start start' hstart => ?_
  refine .bind h fun condition condition' hcondition => .bind (.symbol .thenWord) fun _ _ _ => ?_
  refine .bind h fun yes yes' hyes => .bind (.symbol .elseWord) fun _ _ _ => ?_
  exact .bind h fun no no' hno => .pure ⟨hstart.merge hno.span, hcondition, hyes, hno⟩

theorem expressionOver {expression expression' block block' : Parser Phrase}
    (hexpression : like.AlikeReader like.AlikePhrase expression expression')
    (hblock : like.AlikeReader like.AlikePhrase block block') (budget : Nat) :
    like.AlikeReader like.AlikePhrase (Parser.expressionOver budget expression block)
      (Parser.expressionOver budget expression' block') :=
  .ite (fun _ _ htokens => htokens.startsWith _) (.conditional hexpression)
    (.operation budget (.prefixed (.selection hexpression hblock budget)) _)

theorem type :
    like.AlikeReader (fun read read' => like.AlikeType read.1 read'.1 ∧ like.offset read.2 read'.2)
      Parser.type Parser.type := by
  intro tokens tokens' htokens
  cases htokens with
  | nil => exact .error .expected .nil
  | @cons token token' _ _ htoken hrest =>
      obtain ⟨kind, span, layout⟩ := token
      obtain ⟨kind', span', layout'⟩ := token'
      have hkind : like.AlikeKind kind kind' := htoken.kind
      have hstop : like.offset span.stop span'.stop := htoken.span.2
      cases hkind with
      | identifier hname => exact .ok ⟨.named hname, hstop⟩ hrest
      | text hname =>
          simp only [Parser.type, like.empty_iff hname]
          split
          · exact .ok ⟨.text, hstop⟩ hrest
          · exact .error .expected (.cons htoken hrest)
      | number => exact .error .expected (.cons htoken hrest)
      | @symbol symbol =>
          cases symbol with
          | hash => exact .ok ⟨.number, hstop⟩ hrest
          | question => exact .ok ⟨.boolean, hstop⟩ hrest
          | _ => exact .error .expected (.cons htoken hrest)

theorem declaration? :
    like.AlikeReader
      (Option.Rel fun read read' => like.AlikeType read.1 read'.1 ∧ like.offset read.2 read'.2)
      Parser.declaration? Parser.declaration? := by
  refine .bind (.accept .bullet) fun accepted accepted' haccepted => ?_
  subst haccepted
  cases accepted with
  | true => exact .bind .type fun _ _ htype => .pure (.some htype)
  | false => exact .pure .none

theorem bindPhrase (valueRequired : Bool) {expression expression' : Parser Phrase}
    (h : like.AlikeReader like.AlikePhrase expression expression') :
    like.AlikeReader like.AlikePhrase (Parser.bind valueRequired expression)
      (Parser.bind valueRequired expression') := by
  refine .bind .identifier fun read read' hread => ?_
  obtain ⟨name, nameSpan⟩ := read
  obtain ⟨name', nameSpan'⟩ := read'
  obtain ⟨hname, hspan⟩ := hread
  refine .bind .declaration? fun declared declared' hdeclared => ?_
  have htype : Option.Rel like.AlikeType (declared.map Prod.fst) (declared'.map Prod.fst) := by
    cases hdeclared with
    | none => exact .none
    | some hwritten => exact .some hwritten.1
  have hstop : like.offset ((declared.map Prod.snd).getD nameSpan.stop)
      ((declared'.map Prod.snd).getD nameSpan'.stop) := by
    cases hdeclared with
    | none => exact hspan.2
    | some hwritten => exact hwritten.2
  refine .bind (.accept .colon) fun accepted accepted' haccepted => ?_
  subst haccepted
  cases accepted with
  | true =>
      exact .bind h fun value value' hvalue =>
        .pure ⟨⟨hspan.1, hvalue.span.2⟩, hname, htype, hvalue⟩
  | false =>
      cases valueRequired with
      | true => exact .refuse (.unvalued hname hspan)
      | false => exact .pure ⟨⟨hspan.1, hstop⟩, hname, htype, trivial⟩

theorem body? {block block' : Parser Phrase}
    (hblock : like.AlikeReader like.AlikePhrase block block') :
    like.AlikeReader like.AlikePhrase? (Parser.body? block) (Parser.body? block') := by
  refine .ite (fun _ _ htokens => htokens.opensBody) ?_ fun _ _ htokens => .ok trivial htokens
  rw [← bind_pure_comp, ← bind_pure_comp]
  exact .bind hblock fun _ _ hbody => .pure hbody

theorem structureDef {expression expression' block block' : Parser Phrase}
    (hexpression : like.AlikeReader like.AlikePhrase expression expression')
    (hblock : like.AlikeReader like.AlikePhrase block block') (budget : Nat) :
    like.AlikeReader like.AlikePhrase (Parser.structureDef budget expression block)
      (Parser.structureDef budget expression' block') := by
  refine .bind (.symbol .bullet) fun start start' hstart => ?_
  refine .bind .identifier fun name name' hname => .bind (.symbol .leftParen) fun _ _ _ => ?_
  refine .bind (.untilClosed (.bindPhrase false hexpression) budget) fun read read' hread => ?_
  refine .bind (.body? hblock) fun body body' hbody => ?_
  have hstop : like.offset ((body.map (·.span.stop)).getD read.2.stop)
      ((body'.map (·.span.stop)).getD read'.2.stop) := by
    cases body with
    | none =>
        cases body' with
        | none => exact hread.2.2
        | some _ => exact hbody.elim
    | some _ =>
        cases body' with
        | none => exact hbody.elim
        | some _ => exact (AlikePhrase.span hbody).2
  exact .pure ⟨⟨hstart.1, hstop⟩, hname.1, alikePhrases_of_forall₂ hread.1, hbody⟩

theorem statement {expression expression' block block' : Parser Phrase}
    (hexpression : like.AlikeReader like.AlikePhrase expression expression')
    (hblock : like.AlikeReader like.AlikePhrase block block') (budget : Nat) :
    like.AlikeReader like.AlikePhrase (Parser.statement budget expression block)
      (Parser.statement budget expression' block') :=
  .ite (fun _ _ htokens => htokens.startsWith _) (.structureDef hexpression hblock budget)
    (.ite (fun _ _ htokens => htokens.opensBind) (.bindPhrase true hexpression) hexpression)

theorem blockOver {expression expression' block block' : Parser Phrase}
    (hexpression : like.AlikeReader like.AlikePhrase expression expression')
    (hblock : like.AlikeReader like.AlikePhrase block block') (budget : Nat) :
    like.AlikeReader like.AlikePhrase (Parser.blockOver budget expression block)
      (Parser.blockOver budget expression' block') := by
  refine .bind (.symbol .leftParen) fun start start' hstart => ?_
  refine .bind (.many (fun _ _ htokens => htokens.closesBlock)
    (.statement hexpression hblock budget) budget) fun statements statements' hstatements => ?_
  exact .bind (.symbol .rightParen) fun close close' hclose =>
    .pure ⟨hstart.merge hclose, alikePhrases_of_forall₂ hstatements⟩

/-- Expressions and blocks are read alike, by induction on how deeply they may nest. -/
theorem expression_block (budget : Nat) :
    like.AlikeReader like.AlikePhrase (Parser.expression budget) (Parser.expression budget) ∧
      like.AlikeReader like.AlikePhrase (Parser.block budget) (Parser.block budget) := by
  induction budget with
  | zero => exact ⟨.refuse .expected, .refuse .expected⟩
  | succ budget ih =>
      -- Blocks go first, for an expression may start with one of the same level.
      have hblock := blockOver ih.1 ih.2 budget
      exact ⟨.expressionOver ih.1 hblock budget, hblock⟩

theorem statements (budget : Nat) :
    like.AlikeReader (List.Forall₂ like.AlikePhrase) (Parser.statements budget)
      (Parser.statements budget) :=
  .many (fun _ _ htokens => htokens.isEmpty)
    (.statement (expression_block budget).1 (expression_block budget).2 budget) budget

end AlikeReader

/-- What the reader of programs comes to. -/
inductive AlikeRead (like : Likeness) : Except Failure Phrase → Except Failure Phrase → Prop
  | ok {p p'} : like.AlikePhrase p p' → AlikeRead like (.ok p) (.ok p')
  | error {complaint complaint' rest rest'} : like.AlikeComplaint complaint complaint' →
      like.AlikeTokens rest rest' →
      AlikeRead like (.error ⟨complaint, rest⟩) (.error ⟨complaint', rest'⟩)

/-- Programs whose texts start and end alike are read alike. -/
theorem AlikeTokens.program {tokens tokens' : List (Token Name)}
    (h : like.AlikeTokens tokens tokens') {stop stop' : Nat} (hstart : like.offset 0 0)
    (hstop : like.offset stop stop') :
    like.AlikeRead (Parser.program tokens stop) (Parser.program tokens' stop') := by
  have hresult := AlikeReader.statements (tokens.length + 1) tokens tokens' h
  have hlength := h.length_eq
  simp only [Parser.program, ← hlength]
  generalize Parser.statements (tokens.length + 1) tokens = outcome,
    Parser.statements (tokens.length + 1) tokens' = outcome' at hresult
  cases hresult with
  | ok hstatements _ => exact .ok ⟨⟨hstart, hstop⟩, alikePhrases_of_forall₂ hstatements⟩
  | error hcomplaint hrest => exact .error hcomplaint hrest

theorem empty_iff_of_eq {name name' : Name} (h : name = name') :
    name = .empty ↔ name' = .empty := by
  rw [h]

/-- The same names, wherever in a text they stand. -/
def elsewhere : Likeness where
  name := Eq
  offset _ _ := True
  empty_iff := @empty_iff_of_eq
  min _ _ := trivial
  max _ _ := trivial

theorem elsewhere_alikeKind_iff {kind kind' : TokenKind Name} :
    elsewhere.AlikeKind kind kind' ↔ kind = kind' := by
  constructor
  · intro h
    cases h with
    | identifier hname | text hname => exact congrArg _ hname
    | number | symbol => rfl
  · rintro rfl
    cases kind with
    | identifier | text => first | exact .identifier rfl | exact .text rfl
    | number => exact .number
    | symbol => exact .symbol

end Likeness
end Bindery
