import Bindery.Phrase.Parser
import Bindery.Proofs.Grammar.Derivation

/-!
What each reader accepts, one statement for a reader: it comes to a result exactly if the tokens
have a certain shape and the readers that it calls come to theirs. Proofs about the whole parser
use these statements and do not look into the readers.
-/

namespace Bindery.Parser
open Grammar

variable {α β : Type} {tokens rest : Tokens}

/-! Results of composed readers. -/

theorem andThen_run (first : Parser α) (next : α → Parser β) (tokens : Tokens) :
    (first >>= next) tokens =
      match first tokens with
      | .ok (a, between) => next a between
      | .error failure => .error failure := by
  change Except.bind (first tokens) _ = _
  cases first tokens <;> rfl

theorem andThen_eq_ok {first : Parser α} {next : α → Parser β} {b : β} :
    (first >>= next) tokens = .ok (b, rest) ↔
      ∃ a between, first tokens = .ok (a, between) ∧ next a between = .ok (b, rest) := by
  rw [andThen_run]
  cases first tokens with
  | error failure => simp
  | ok result =>
      constructor
      · intro h
        exact ⟨result.1, result.2, rfl, h⟩
      · rintro ⟨a, between, h, hn⟩
        cases h
        exact hn

theorem pure_eq_ok {a b : α} :
    (pure a : Parser α) tokens = .ok (b, rest) ↔ a = b ∧ tokens = rest := by
  change Except.ok (a, tokens) = Except.ok (b, rest) ↔ _
  simp only [Except.ok.injEq, Prod.mk.injEq]

theorem map_eq_ok {reader : Parser α} {f : α → β} {b : β} :
    (f <$> reader) tokens = .ok (b, rest) ↔ ∃ a, reader tokens = .ok (a, rest) ∧ f a = b := by
  rw [← bind_pure_comp, andThen_eq_ok]
  simp only [pure_eq_ok]
  constructor
  · rintro ⟨a, between, h, hb, rfl⟩
    exact ⟨a, h, hb⟩
  · rintro ⟨a, h, hb⟩
    exact ⟨a, rest, h, hb, rfl⟩

theorem refuse_ne_ok {complaint : Complaint} {a : α} :
    (refuse complaint : Parser α) tokens ≠ .ok (a, rest) := by
  simp [refuse]

theorem expected_ne_ok {what : Expectation} {a : α} :
    (expected what : Parser α) tokens ≠ .ok (a, rest) := refuse_ne_ok

/-! Single tokens, and what is told from the next one. -/

theorem isSymbol_iff {token : Token Name} {s : Symbol} :
    token.isSymbol s = true ↔ token.kind = .symbol s := by
  simp [Token.isSymbol]

theorem startsWith_iff {s : Symbol} : startsWith s tokens = true ↔ Next s tokens := by
  cases tokens with
  | nil => simp [startsWith, Next]
  | cons token further =>
      obtain ⟨kind, span, layout⟩ := token
      simp [startsWith, Next, isSymbol_iff]

theorem startsWith_eq_false {s : Symbol} (h : ¬ Next s tokens) : startsWith s tokens = false :=
  Bool.eq_false_iff.mpr fun hs => h (startsWith_iff.mp hs)

theorem opensArguments_iff : opensArguments tokens = true ↔ OpensArguments tokens := by
  constructor
  · intro h
    cases tokens with
    | nil => cases h
    | cons token further =>
        obtain ⟨kind, span, layout⟩ := token
        simp only [opensArguments, Bool.and_eq_true, isSymbol_iff] at h
        obtain ⟨rfl, ha⟩ := h
        exact ⟨_, _, _, rfl, ha⟩
  · rintro ⟨span, layout, further, rfl, ha⟩
    simp only [opensArguments, Bool.and_eq_true, isSymbol_iff]
    exact ⟨trivial, ha⟩

theorem opensBody_iff : opensBody tokens = true ↔ OpensBody tokens := by
  constructor
  · intro h
    cases tokens with
    | nil => cases h
    | cons token further =>
        obtain ⟨kind, span, layout⟩ := token
        simp only [opensBody, Bool.and_eq_true, isSymbol_iff, Bool.not_eq_true'] at h
        obtain ⟨rfl, hl⟩ := h
        exact ⟨_, _, _, rfl, hl⟩
  · rintro ⟨span, layout, further, rfl, hl⟩
    simp only [opensBody, Bool.and_eq_true, isSymbol_iff, Bool.not_eq_true']
    exact ⟨trivial, hl⟩

theorem opensBind_iff : opensBind tokens = true ↔ OpensBind tokens := by
  unfold opensBind
  split
  · rw [Bool.or_eq_true, startsWith_iff, startsWith_iff]
    constructor
    · intro h
      exact ⟨_, _, _, _, rfl, h⟩
    · rintro ⟨name, span, layout, further, hr, h⟩
      cases hr
      exact h
  · next h =>
      simp only [Bool.false_eq_true, false_iff]
      rintro ⟨name, span, layout, further, rfl, _⟩
      exact h name span layout further rfl

theorem closesBlock_iff : closesBlock tokens = true ↔ Closed tokens := by
  simp [closesBlock, Closed, startsWith_iff]

theorem symbol_eq_ok {s : Symbol} {span : Span} :
    symbol s tokens = .ok (span, rest) ↔ ∃ layout, tokens = ⟨.symbol s, span, layout⟩ :: rest := by
  cases tokens with
  | nil => simp [symbol, expected, refuse]
  | cons token further =>
      obtain ⟨kind, at', layout⟩ := token
      by_cases h : kind = .symbol s <;>
        simp [symbol, Token.isSymbol, expected, refuse, h]

theorem identifier_eq_ok {name : Name} {span : Span} :
    identifier tokens = .ok ((name, span), rest) ↔
      ∃ layout, tokens = ⟨.identifier name, span, layout⟩ :: rest := by
  unfold identifier
  split
  · simp only [Except.ok.injEq, Prod.mk.injEq]
    constructor
    · rintro ⟨⟨rfl, rfl⟩, rfl⟩
      exact ⟨_, rfl⟩
    · rintro ⟨layout, h⟩
      cases h
      exact ⟨⟨rfl, rfl⟩, rfl⟩
  · next h =>
      simp only [expected_ne_ok, false_iff]
      rintro ⟨layout, rfl⟩
      exact h _ _ _ _ rfl

/-- The symbol is taken if it comes next, and otherwise nothing is. -/
theorem accept_eq_ok {s : Symbol} {taken : Bool} :
    accept s tokens = .ok (taken, rest) ↔
      (taken = true ∧ ∃ span layout, tokens = ⟨.symbol s, span, layout⟩ :: rest) ∨
      (taken = false ∧ ¬ Next s tokens ∧ tokens = rest) := by
  have taken_iff : Next s tokens → (accept s tokens = .ok (taken, rest) ↔
      taken = true ∧ ∃ span layout, tokens = ⟨.symbol s, span, layout⟩ :: rest) := by
    rintro ⟨span, layout, further, rfl⟩
    simp only [accept, isSymbol_iff, if_true, Except.ok.injEq, Prod.mk.injEq]
    constructor
    · rintro ⟨rfl, rfl⟩
      exact ⟨rfl, _, _, rfl⟩
    · rintro ⟨rfl, _, _, h⟩
      cases h
      exact ⟨rfl, rfl⟩
  have left_iff : ¬ Next s tokens → (accept s tokens = .ok (taken, rest) ↔
      taken = false ∧ tokens = rest) := by
    intro hn
    cases tokens with
    | nil => simp only [accept, Except.ok.injEq, Prod.mk.injEq, Bool.false_eq]
    | cons token further =>
        obtain ⟨kind, at', layout⟩ := token
        have hk : kind ≠ .symbol s := fun hk => hn ⟨at', layout, further, by rw [hk]⟩
        simp only [accept, isSymbol_iff, if_neg hk, Except.ok.injEq, Prod.mk.injEq, Bool.false_eq]
  by_cases hn : Next s tokens
  · rw [taken_iff hn]
    simp [hn]
  · rw [left_iff hn]
    constructor
    · rintro ⟨h, rfl⟩
      exact .inr ⟨h, hn, rfl⟩
    · rintro (⟨_, span, layout, rfl⟩ | ⟨h, _, hr⟩)
      · exact absurd ⟨span, layout, rest, rfl⟩ hn
      · exact ⟨h, hr⟩

theorem separated_eq_ok {item : Parser α} {a : α} :
    separated item tokens = .ok (a, rest) ↔
      ∃ between, item tokens = .ok (a, between) ∧ Separated between rest := by
  simp only [separated, andThen_eq_ok, pure_eq_ok, accept_eq_ok]
  constructor
  · rintro ⟨_, between, h, _, after, ht, rfl, rfl⟩
    refine ⟨between, h, ?_⟩
    obtain ⟨_, _, _, rfl⟩ | ⟨_, hn, rfl⟩ := ht
    · exact .comma
    · exact .bare hn
  · rintro ⟨between, h, hs⟩
    refine ⟨a, between, h, ?_⟩
    cases hs with
    | comma => exact ⟨Bool.true, rest, .inl ⟨rfl, _, _, rfl⟩, rfl, rfl⟩
    | bare hn => exact ⟨Bool.false, rest, .inr ⟨rfl, hn, rfl⟩, rfl, rfl⟩

theorem type_eq_ok {declared : DeclaredType} {stop : Nat} :
    type tokens = .ok ((declared, stop), rest) ↔
      ∃ token, tokens = token :: rest ∧ writtenType? token.kind = some declared ∧
        token.span.stop = stop := by
  cases tokens with
  | nil => simp [type, expected, refuse]
  | cons token further =>
      obtain ⟨kind, span, layout⟩ := token
      cases kind with
      | text content =>
          by_cases h : content = .empty
          · simp [type, writtenType?, h]
            grind
          · simp [type, writtenType?, expected, refuse, h]
      | number bits => simp [type, writtenType?, expected, refuse]
      | identifier name => simp [type, writtenType?]; grind
      | symbol s => cases s <;> simp [type, writtenType?, expected, refuse] <;> grind

theorem declaration?_eq_ok {declared : Option (DeclaredType × Nat)} :
    declaration? tokens = .ok (declared, rest) ↔ Declares tokens declared rest := by
  simp only [declaration?, andThen_eq_ok, accept_eq_ok]
  constructor
  · rintro ⟨_, between, ⟨rfl, span, layout, rfl⟩ | ⟨rfl, hn, rfl⟩, h⟩
    · simp only [if_true, andThen_eq_ok, pure_eq_ok] at h
      obtain ⟨⟨type, stop⟩, _, h, rfl, rfl⟩ := h
      obtain ⟨token, rfl, hw, rfl⟩ := type_eq_ok.mp h
      exact .typed hw
    · simp only [Bool.false_eq_true, if_false, pure_eq_ok] at h
      obtain ⟨rfl, rfl⟩ := h
      exact .untyped hn
  · intro h
    cases h with
    | untyped hn =>
        refine ⟨Bool.false, tokens, .inr ⟨rfl, hn, rfl⟩, ?_⟩
        simp only [Bool.false_eq_true, if_false, pure_eq_ok, and_self]
    | @typed span layout token type rest hw =>
        refine ⟨Bool.true, token :: rest, .inl ⟨rfl, span, layout, rfl⟩, ?_⟩
        simp only [if_true, andThen_eq_ok, pure_eq_ok]
        exact ⟨_, _, type_eq_ok.mpr ⟨token, rfl, hw, rfl⟩, rfl, rfl⟩

/-! Phrases. -/

theorem untilClosed_eq_ok {item : Parser α} {budget : Nat} {items : List α} {close : Span} :
    untilClosed item budget tokens = .ok ((items, close), rest) ↔
      ∃ layout, many (startsWith .rightParen) (separated item) budget tokens =
        .ok (items, ⟨.symbol .rightParen, close, layout⟩ :: rest) := by
  simp only [untilClosed, andThen_eq_ok, pure_eq_ok, symbol_eq_ok]
  constructor
  · rintro ⟨_, between, h, _, _, ⟨layout, rfl⟩, hc, rfl⟩
    cases hc
    exact ⟨layout, h⟩
  · rintro ⟨layout, h⟩
    exact ⟨items, _, h, close, rest, ⟨layout, rfl⟩, rfl, rfl⟩

theorem bind_eq_ok {required : Bool} {expression : Parser Phrase} {p : Phrase} :
    Parser.bind required expression tokens = .ok (p, rest) ↔
      ∃ name nameSpan nameLayout further declared between,
        tokens = ⟨.identifier name, nameSpan, nameLayout⟩ :: further ∧
        Declares further declared between ∧
        ((∃ colon colonLayout afterColon value,
            between = ⟨.symbol .colon, colon, colonLayout⟩ :: afterColon ∧
            expression afterColon = .ok (value, rest) ∧
            p = .bind ⟨nameSpan.start, value.span.stop⟩ name (declared.map Prod.fst)
              (some value)) ∨
          (required = false ∧ ¬ Next .colon between ∧ between = rest ∧
            p = .bind ⟨nameSpan.start, (declared.map Prod.snd).getD nameSpan.stop⟩ name
              (declared.map Prod.fst) none)) := by
  simp only [Parser.bind, andThen_eq_ok]
  constructor
  · rintro ⟨⟨name, nameSpan⟩, further, hname, declared, between, hdeclared, colon, after, hcolon, h⟩
    obtain ⟨nameLayout, rfl⟩ := identifier_eq_ok.mp hname
    refine ⟨name, nameSpan, nameLayout, further, declared, between, rfl,
      declaration?_eq_ok.mp hdeclared, ?_⟩
    obtain ⟨rfl, span, layout, rfl⟩ | ⟨rfl, hn, rfl⟩ := accept_eq_ok.mp hcolon
    · simp only [if_true, andThen_eq_ok, pure_eq_ok] at h
      obtain ⟨value, _, hvalue, rfl, rfl⟩ := h
      exact .inl ⟨span, layout, after, value, rfl, hvalue, rfl⟩
    · cases required with
      | true => simp [refuse_ne_ok] at h
      | false =>
          simp only [Bool.false_eq_true, if_false, pure_eq_ok] at h
          obtain ⟨rfl, rfl⟩ := h
          exact .inr ⟨rfl, hn, rfl, rfl⟩
  · rintro ⟨name, nameSpan, nameLayout, further, declared, between, rfl, hdeclared, h⟩
    refine ⟨(name, nameSpan), further, identifier_eq_ok.mpr ⟨nameLayout, rfl⟩, declared, between,
      declaration?_eq_ok.mpr hdeclared, ?_⟩
    obtain ⟨span, layout, after, value, rfl, hvalue, rfl⟩ | ⟨rfl, hn, rfl, rfl⟩ := h
    · refine ⟨true, after, accept_eq_ok.mpr (.inl ⟨rfl, span, layout, rfl⟩), ?_⟩
      simp only [if_true, andThen_eq_ok, pure_eq_ok]
      exact ⟨value, rest, hvalue, rfl, rfl⟩
    · refine ⟨false, between, accept_eq_ok.mpr (.inr ⟨rfl, hn, rfl⟩), ?_⟩
      simp only [Bool.false_eq_true, if_false, pure_eq_ok, and_self]

theorem body?_eq_ok {block : Parser Phrase} {body : Option Phrase} :
    body? block tokens = .ok (body, rest) ↔
      (OpensBody tokens ∧ ∃ p, block tokens = .ok (p, rest) ∧ some p = body) ∨
      (¬ OpensBody tokens ∧ none = body ∧ tokens = rest) := by
  unfold body?
  by_cases h : OpensBody tokens
  · rw [if_pos (opensBody_iff.mpr h), map_eq_ok]
    simp [h]
  · rw [if_neg (fun hb => h (opensBody_iff.mp hb))]
    simp [h]

theorem structureDef_eq_ok {budget : Nat} {expression block : Parser Phrase} {p : Phrase} :
    Parser.structureDef budget expression block tokens = .ok (p, rest) ↔
      ∃ start startLayout name nameSpan nameLayout openSpan openLayout further inputs close
        closeLayout afterInputs body,
        tokens = ⟨.symbol .bullet, start, startLayout⟩ ::
          ⟨.identifier name, nameSpan, nameLayout⟩ ::
          ⟨.symbol .leftParen, openSpan, openLayout⟩ :: further ∧
        many (startsWith .rightParen) (separated (Parser.bind false expression)) budget further =
          .ok (inputs, ⟨.symbol .rightParen, close, closeLayout⟩ :: afterInputs) ∧
        body? block afterInputs = .ok (body, rest) ∧
        p = .structureDef ⟨start.start, (body.map (·.span.stop)).getD close.stop⟩ name inputs
          body := by
  simp only [Parser.structureDef, andThen_eq_ok, pure_eq_ok]
  constructor
  · rintro ⟨start, _, hstart, ⟨name, nameSpan⟩, _, hname, openSpan, further, hopen,
      ⟨inputs, close⟩, afterInputs, hinputs, body, _, hbody, rfl, rfl⟩
    obtain ⟨startLayout, rfl⟩ := symbol_eq_ok.mp hstart
    obtain ⟨nameLayout, rfl⟩ := identifier_eq_ok.mp hname
    obtain ⟨openLayout, rfl⟩ := symbol_eq_ok.mp hopen
    obtain ⟨closeLayout, hinputs⟩ := untilClosed_eq_ok.mp hinputs
    exact ⟨start, startLayout, name, nameSpan, nameLayout, openSpan, openLayout, further, inputs,
      close, closeLayout, afterInputs, body, rfl, hinputs, hbody, rfl⟩
  · rintro ⟨start, startLayout, name, nameSpan, nameLayout, openSpan, openLayout, further, inputs,
      close, closeLayout, afterInputs, body, rfl, hinputs, hbody, rfl⟩
    exact ⟨start, _, symbol_eq_ok.mpr ⟨startLayout, rfl⟩, (name, nameSpan), _,
      identifier_eq_ok.mpr ⟨nameLayout, rfl⟩, openSpan, further,
      symbol_eq_ok.mpr ⟨openLayout, rfl⟩, (inputs, close), afterInputs,
      untilClosed_eq_ok.mpr ⟨closeLayout, hinputs⟩, body, rest, hbody, rfl, rfl⟩

theorem conditional_eq_ok {expression : Parser Phrase} {p : Phrase} :
    Parser.conditional expression tokens = .ok (p, rest) ↔
      ∃ start startLayout further condition thenSpan thenLayout afterThen yes elseSpan elseLayout
        afterElse no,
        tokens = ⟨.symbol .ifWord, start, startLayout⟩ :: further ∧
        expression further =
          .ok (condition, ⟨.symbol .thenWord, thenSpan, thenLayout⟩ :: afterThen) ∧
        expression afterThen = .ok (yes, ⟨.symbol .elseWord, elseSpan, elseLayout⟩ :: afterElse) ∧
        expression afterElse = .ok (no, rest) ∧
        p = .conditional (start.merge no.span) condition yes no := by
  simp only [Parser.conditional, andThen_eq_ok, pure_eq_ok]
  constructor
  · rintro ⟨start, further, hif, condition, _, hcondition, thenSpan, afterThen, hthen, yes, _,
      hyes, elseSpan, afterElse, helse, no, _, hno, rfl, rfl⟩
    obtain ⟨startLayout, rfl⟩ := symbol_eq_ok.mp hif
    obtain ⟨thenLayout, rfl⟩ := symbol_eq_ok.mp hthen
    obtain ⟨elseLayout, rfl⟩ := symbol_eq_ok.mp helse
    exact ⟨start, startLayout, further, condition, thenSpan, thenLayout, afterThen, yes, elseSpan,
      elseLayout, afterElse, no, rfl, hcondition, hyes, hno, rfl⟩
  · rintro ⟨start, startLayout, further, condition, thenSpan, thenLayout, afterThen, yes, elseSpan,
      elseLayout, afterElse, no, rfl, hcondition, hyes, hno, rfl⟩
    exact ⟨start, further, symbol_eq_ok.mpr ⟨startLayout, rfl⟩, condition, _, hcondition, thenSpan,
      afterThen, symbol_eq_ok.mpr ⟨thenLayout, rfl⟩, yes, _, hyes, elseSpan, afterElse,
      symbol_eq_ok.mpr ⟨elseLayout, rfl⟩, no, rest, hno, rfl, rfl⟩

theorem blockOver_eq_ok {budget : Nat} {expression block : Parser Phrase} {p : Phrase} :
    blockOver budget expression block tokens = .ok (p, rest) ↔
      ∃ openSpan openLayout further statements close closeLayout,
        tokens = ⟨.symbol .leftParen, openSpan, openLayout⟩ :: further ∧
        many closesBlock (Parser.statement budget expression block) budget further =
          .ok (statements, ⟨.symbol .rightParen, close, closeLayout⟩ :: rest) ∧
        p = .block (openSpan.merge close) statements := by
  simp only [blockOver, andThen_eq_ok, pure_eq_ok]
  constructor
  · rintro ⟨openSpan, further, hopen, statements, _, hstatements, close, _, hclose, rfl, rfl⟩
    obtain ⟨openLayout, rfl⟩ := symbol_eq_ok.mp hopen
    obtain ⟨closeLayout, rfl⟩ := symbol_eq_ok.mp hclose
    exact ⟨openSpan, openLayout, further, statements, close, closeLayout, rfl, hstatements, rfl⟩
  · rintro ⟨openSpan, openLayout, further, statements, close, closeLayout, rfl, hstatements, rfl⟩
    exact ⟨openSpan, further, symbol_eq_ok.mpr ⟨openLayout, rfl⟩, statements, _, hstatements,
      close, rest, symbol_eq_ok.mpr ⟨closeLayout, rfl⟩, rfl, rfl⟩

theorem program_eq_ok {tokens : Tokens} {stop : Nat} {p : Phrase} :
    Parser.program tokens stop = .ok p ↔
      ∃ statements rest, Parser.statements (tokens.length + 1) tokens = .ok (statements, rest) ∧
        p = .block ⟨0, stop⟩ statements := by
  unfold Parser.program
  cases Parser.statements (tokens.length + 1) tokens with
  | error failure => simp [Bind.bind, Except.bind]
  | ok result =>
      simp only [Bind.bind, Except.bind, Pure.pure, Except.pure, Except.ok.injEq]
      constructor
      · rintro rfl
        exact ⟨result.1, result.2, rfl, rfl⟩
      · rintro ⟨statements, rest, rfl, rfl⟩
        rfl

/-! Repetitions, one round at a time. -/

theorem many_stop {stop : Tokens → Bool} {item : Parser α} (budget : Nat)
    (h : stop tokens = true) : many stop item (budget + 1) tokens = .ok ([], tokens) := by
  simp only [many, h, if_true]

theorem many_step_eq_ok {stop : Tokens → Bool} {item : Parser α} {budget : Nat} {items : List α}
    (h : stop tokens = false) :
    many stop item (budget + 1) tokens = .ok (items, rest) ↔
      ∃ a between more, item tokens = .ok (a, between) ∧
        many stop item budget between = .ok (more, rest) ∧ a :: more = items := by
  simp only [many, h, Bool.false_eq_true, if_false, andThen_eq_ok, pure_eq_ok]
  constructor
  · rintro ⟨a, between, ha, more, _, hmore, rfl, rfl⟩
    exact ⟨a, between, more, ha, hmore, rfl⟩
  · rintro ⟨a, between, more, ha, hmore, rfl⟩
    exact ⟨a, between, ha, more, rest, hmore, rfl, rfl⟩

/-- The operators of a level as the reader lists them. -/
def level : Tier → Level
  | .disjunction => [(.pipe, .or)]
  | .conjunction => [(.ampersand, .and)]
  | .equality => [(.equal, .equal), (.notEqual, .notEqual)]
  | .comparison =>
    [(.less, .less), (.lessEqual, .lessEqual), (.greater, .greater), (.greaterEqual, .greaterEqual)]
  | .sum => [(.plus, .add), (.minus, .subtract)]
  | .product => [(.star, .multiply), (.slash, .divide)]

/-- The levels that bind tighter than a given one, loosest first. -/
def tighterLevels : Tier → List Level
  | .disjunction => levels.drop 1
  | .conjunction => levels.drop 2
  | .equality => levels.drop 3
  | .comparison => levels.drop 4
  | .sum => levels.drop 5
  | .product => []

theorem tighterLevels_eq_cons {tier tighter : Tier} (h : tier.tighter? = some tighter) :
    tighterLevels tier = level tighter :: tighterLevels tighter := by
  cases tier <;> cases h <;> rfl

theorem tighterLevels_eq_nil {tier : Tier} (h : tier.tighter? = none) :
    tighterLevels tier = [] := by
  cases tier <;> first | rfl | cases h

theorem lookup_level (tier : Tier) (s : Symbol) : (level tier).lookup s = tier.operator? s := by
  cases tier <;> cases s <;> rfl

theorem operator?_eq_some_iff {tier : Tier} {token : Token Name} {op : BinaryOp} :
    operator? (level tier) token = some op ↔
      ∃ s, token.kind = .symbol s ∧ tier.operator? s = some op := by
  unfold operator?
  split
  · next s h => simp [h, lookup_level]
  · next h =>
      simp only [reduceCtorEq, false_iff]
      rintro ⟨s, hs, _⟩
      exact h s hs

theorem chain_end {tier : Tier} {operand : Parser Phrase} (budget : Nat) (left : Phrase)
    (h : ¬ NextOperator tier tokens) :
    chain (level tier) operand budget left tokens = .ok (left, tokens) := by
  cases budget with
  | zero => rfl
  | succ budget =>
      cases tokens with
      | nil => rfl
      | cons token further =>
          have hnone : operator? (level tier) token = none := by
            rw [Option.eq_none_iff_forall_ne_some]
            intro op hop
            obtain ⟨s, hs, hs'⟩ := operator?_eq_some_iff.mp hop
            exact h ⟨s, by rw [hs']; rfl, token.span, token.layout, further, by rw [← hs]⟩
          simp only [chain, hnone]

theorem chain_step_eq_ok {tier : Tier} {operand : Parser Phrase} {budget : Nat} {left p : Phrase}
    {s : Symbol} {op : BinaryOp} {span : Span} {layout : Layout} {further : Tokens}
    (h : tier.operator? s = some op) :
    chain (level tier) operand (budget + 1) left (⟨.symbol s, span, layout⟩ :: further) =
        .ok (p, rest) ↔
      ∃ right between, operand further = .ok (right, between) ∧
        chain (level tier) operand budget (.binary (left.span.merge right.span) op left right)
          between = .ok (p, rest) := by
  have hop : operator? (level tier) ⟨.symbol s, span, layout⟩ = some op :=
    operator?_eq_some_iff.mpr ⟨s, rfl, h⟩
  simp only [chain, hop, andThen_eq_ok]

theorem prefixOperator?_eq_some_iff {token : Token Name} {op : UnaryOp} :
    prefixOperator? token = some op ↔ ∃ s, token.kind = .symbol s ∧ unaryOperator? s = some op := by
  obtain ⟨kind, span, layout⟩ := token
  cases kind with
  | symbol s => cases s <;> simp [prefixOperator?, unaryOperator?]
  | identifier _ | text _ | number _ => simp [prefixOperator?]

theorem prefixed_end {operand : Parser Phrase} (h : ¬ NextUnary tokens) :
    prefixed operand tokens = operand tokens := by
  cases tokens with
  | nil => rfl
  | cons token further =>
      have hnone : prefixOperator? token = none := by
        rw [Option.eq_none_iff_forall_ne_some]
        intro op hop
        obtain ⟨s, hs, hs'⟩ := prefixOperator?_eq_some_iff.mp hop
        exact h ⟨s, by rw [hs']; rfl, token.span, token.layout, further, by rw [← hs]⟩
      simp only [prefixed, hnone]

theorem prefixed_step_eq_ok {operand : Parser Phrase} {p : Phrase} {s : Symbol} {op : UnaryOp}
    {span : Span} {layout : Layout} {further : Tokens} (h : unaryOperator? s = some op) :
    prefixed operand (⟨.symbol s, span, layout⟩ :: further) = .ok (p, rest) ↔
      ∃ inner, prefixed operand further = .ok (inner, rest) ∧
        p = .unary (span.merge inner.span) op inner := by
  have hop : prefixOperator? ⟨.symbol s, span, layout⟩ = some op :=
    prefixOperator?_eq_some_iff.mpr ⟨s, rfl, h⟩
  simp only [prefixed, hop]
  cases prefixed operand further with
  | error failure => simp [Bind.bind, Except.bind]
  | ok result =>
      simp only [Bind.bind, Except.bind, Pure.pure, Except.pure, Except.ok.injEq, Prod.mk.injEq]
      constructor
      · rintro ⟨rfl, rfl⟩
        exact ⟨result.1, rfl, rfl⟩
      · rintro ⟨inner, rfl, rfl⟩
        exact ⟨rfl, rfl⟩

theorem selections_end {expression : Parser Phrase} (budget : Nat) (subject : Phrase)
    (hdot : ¬ Next .dot tokens) (hopen : ¬ OpensArguments tokens) :
    selections expression budget subject tokens = .ok (subject, tokens) := by
  cases budget with
  | zero => rfl
  | succ budget =>
      have hopen : ¬ opensArguments tokens = true := fun h => hopen (opensArguments_iff.mp h)
      simp only [selections, startsWith_eq_false hdot, Bool.false_eq_true, if_false, if_neg hopen]

theorem selections_property_eq_ok {expression : Parser Phrase} {budget : Nat} {subject p : Phrase}
    (h : Next .dot tokens) :
    selections expression (budget + 1) subject tokens = .ok (p, rest) ↔
      ∃ dot dotLayout member memberSpan memberLayout further,
        tokens = ⟨.symbol .dot, dot, dotLayout⟩ ::
          ⟨.identifier member, memberSpan, memberLayout⟩ :: further ∧
        selections expression budget
          (.property (subject.span.merge memberSpan) subject member memberSpan) further =
            .ok (p, rest) := by
  simp only [selections, startsWith_iff.mpr h, if_true, andThen_eq_ok]
  constructor
  · rintro ⟨dot, _, hdot, ⟨member, memberSpan⟩, further, hmember, hmore⟩
    obtain ⟨dotLayout, rfl⟩ := symbol_eq_ok.mp hdot
    obtain ⟨memberLayout, rfl⟩ := identifier_eq_ok.mp hmember
    exact ⟨dot, dotLayout, member, memberSpan, memberLayout, further, rfl, hmore⟩
  · rintro ⟨dot, dotLayout, member, memberSpan, memberLayout, further, rfl, hmore⟩
    exact ⟨dot, _, symbol_eq_ok.mpr ⟨dotLayout, rfl⟩, (member, memberSpan), further,
      identifier_eq_ok.mpr ⟨memberLayout, rfl⟩, hmore⟩

theorem selections_evaluate_eq_ok {expression : Parser Phrase} {budget : Nat} {subject p : Phrase}
    {openSpan : Span} {layout : Layout} {further : Tokens} (h : layout.adjacent = true) :
    selections expression (budget + 1) subject (⟨.symbol .leftParen, openSpan, layout⟩ :: further) =
        .ok (p, rest) ↔
      ∃ arguments close closeLayout between,
        many (startsWith .rightParen) (separated expression) budget further =
          .ok (arguments, ⟨.symbol .rightParen, close, closeLayout⟩ :: between) ∧
        selections expression budget (.evaluate ⟨subject.span.start, close.stop⟩ subject arguments)
          between = .ok (p, rest) := by
  have hopen : opensArguments (⟨.symbol .leftParen, openSpan, layout⟩ :: further) = true :=
    opensArguments_iff.mpr ⟨_, _, _, rfl, h⟩
  have hdot : startsWith .dot (⟨.symbol .leftParen, openSpan, layout⟩ :: further) = false := rfl
  simp only [selections, hdot, Bool.false_eq_true, if_false, hopen, if_true, andThen_eq_ok]
  constructor
  · rintro ⟨_, _, hstart, ⟨arguments, close⟩, between, harguments, hmore⟩
    obtain ⟨_, hstart⟩ := symbol_eq_ok.mp hstart
    cases hstart
    obtain ⟨closeLayout, harguments⟩ := untilClosed_eq_ok.mp harguments
    exact ⟨arguments, close, closeLayout, between, harguments, hmore⟩
  · rintro ⟨arguments, close, closeLayout, between, harguments, hmore⟩
    exact ⟨openSpan, further, symbol_eq_ok.mpr ⟨layout, rfl⟩, (arguments, close), between,
      untilClosed_eq_ok.mpr ⟨closeLayout, harguments⟩, hmore⟩

end Bindery.Parser
