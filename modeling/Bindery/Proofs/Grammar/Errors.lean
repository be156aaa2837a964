import Bindery.Proofs.Grammar.Completeness
import Bindery.Proofs.Grammar.Refusal
import Bindery.Proofs.Grammar.Soundness

/-!
Errors of the reader. A reader fails exactly if one of the readers that it calls fails, or if a
token does not fit that it needs itself. So the reader of a part of the grammar fails where the
grammar refuses the part, with the complaint and the tokens of the refusal.
-/

namespace Bindery.Parser
open Grammar

variable {α β : Type} {tokens : Tokens} {failure : Failure}

theorem andThen_eq_error {first : Parser α} {next : α → Parser β} :
    (first >>= next) tokens = .error failure ↔
      first tokens = .error failure ∨
        ∃ a between, first tokens = .ok (a, between) ∧ next a between = .error failure := by
  rw [andThen_run]
  cases first tokens with
  | error failure' => simp
  | ok result =>
      constructor
      · exact fun h => .inr ⟨result.1, result.2, rfl, h⟩
      · rintro (h | ⟨a, between, h, hnext⟩)
        · cases h
        · cases h
          exact hnext

theorem pure_ne_error {a : α} : (pure a : Parser α) tokens ≠ .error failure := nofun

theorem map_eq_error {reader : Parser α} {f : α → β} :
    (f <$> reader) tokens = .error failure ↔ reader tokens = .error failure := by
  rw [← bind_pure_comp, andThen_eq_error]
  exact ⟨fun h => h.resolve_right fun ⟨_, _, _, hpure⟩ => pure_ne_error hpure, .inl⟩

/-- A reader that takes what it expects, or else fails right here. -/
theorem eq_error_iff_of_cases {reader : Parser α} {what : Expectation}
    (h : (∃ result, reader tokens = .ok result) ∨ reader tokens = .error ⟨.expected what, tokens⟩) :
    reader tokens = .error failure ↔
      (¬ ∃ result, reader tokens = .ok result) ∧ failure = ⟨.expected what, tokens⟩ := by
  rcases h with ⟨result, h⟩ | h <;> simp [h, eq_comm]

theorem symbol_eq_error {s : Symbol} :
    symbol s tokens = .error failure ↔
      ¬ Next s tokens ∧ failure = ⟨.expected (.symbol s), tokens⟩ := by
  rw [eq_error_iff_of_cases]
  · refine and_congr_left fun _ => not_congr ⟨?_, ?_⟩
    · rintro ⟨⟨span, rest⟩, h⟩
      obtain ⟨layout, rfl⟩ := symbol_eq_ok.mp h
      exact ⟨span, layout, rest, rfl⟩
    · rintro ⟨span, layout, rest, rfl⟩
      exact ⟨(span, rest), symbol_eq_ok.mpr ⟨layout, rfl⟩⟩
  · cases tokens with
    | nil => exact .inr rfl
    | cons token further =>
        simp only [symbol]
        split
        · exact .inl ⟨_, rfl⟩
        · exact .inr rfl

theorem identifier_eq_error :
    identifier tokens = .error failure ↔
      ¬ NextIdentifier tokens ∧ failure = ⟨.expected .identifier, tokens⟩ := by
  rw [eq_error_iff_of_cases]
  · refine and_congr_left fun _ => not_congr ⟨?_, ?_⟩
    · rintro ⟨⟨⟨name, span⟩, rest⟩, h⟩
      obtain ⟨layout, rfl⟩ := identifier_eq_ok.mp h
      exact ⟨name, span, layout, rest, rfl⟩
    · rintro ⟨name, span, layout, rest, rfl⟩
      exact ⟨((name, span), rest), identifier_eq_ok.mpr ⟨layout, rfl⟩⟩
  · unfold identifier
    split
    · exact .inl ⟨_, rfl⟩
    · exact .inr rfl

theorem type_eq_error :
    type tokens = .error failure ↔ ¬ NextType tokens ∧ failure = ⟨.expected .type, tokens⟩ := by
  rw [eq_error_iff_of_cases]
  · refine and_congr_left fun _ => not_congr ⟨?_, ?_⟩
    · rintro ⟨⟨⟨declared, stop⟩, rest⟩, h⟩
      obtain ⟨token, rfl, hwritten, -⟩ := type_eq_ok.mp h
      exact ⟨token, rest, declared, rfl, hwritten⟩
    · rintro ⟨token, rest, declared, rfl, hwritten⟩
      exact ⟨((declared, token.span.stop), rest), type_eq_ok.mpr ⟨token, rfl, hwritten, rfl⟩⟩
  · cases tokens with
    | nil => exact .inr rfl
    | cons token further =>
        simp only [type]
        split
        · split
          · exact .inl ⟨_, rfl⟩
          · exact .inr rfl
        · exact .inl ⟨_, rfl⟩
        · exact .inl ⟨_, rfl⟩
        · exact .inl ⟨_, rfl⟩
        · exact .inr rfl

theorem accept_ne_error {s : Symbol} : accept s tokens ≠ .error failure := by
  intro h
  cases tokens with
  | nil => cases h
  | cons token further =>
      simp only [accept] at h
      split at h <;> cases h

theorem separated_eq_error {item : Parser α} :
    separated item tokens = .error failure ↔ item tokens = .error failure := by
  simp only [separated, andThen_eq_error, accept_ne_error, pure_ne_error, and_false, exists_false,
    or_false]

theorem declaration?_eq_error :
    declaration? tokens = .error failure ↔
      ∃ span layout rest, tokens = ⟨.symbol .bullet, span, layout⟩ :: rest ∧ ¬ NextType rest ∧
        failure = ⟨.expected .type, rest⟩ := by
  simp only [declaration?, andThen_eq_error, accept_ne_error, false_or, accept_eq_ok]
  constructor
  · rintro ⟨_, between, ⟨rfl, span, layout, rfl⟩ | ⟨rfl, -⟩, h⟩
    · simp only [if_true, andThen_eq_error, pure_ne_error, and_false, exists_false, or_false] at h
      exact ⟨span, layout, between, rfl, type_eq_error.mp h⟩
    · exact absurd h pure_ne_error
  · rintro ⟨span, layout, rest, rfl, h⟩
    refine ⟨true, rest, .inl ⟨rfl, span, layout, rfl⟩, ?_⟩
    simp only [if_true, andThen_eq_error]
    exact .inl (type_eq_error.mpr h)

theorem bind_eq_error {required : Bool} {expression : Parser Phrase} :
    Parser.bind required expression tokens = .error failure ↔
      (¬ NextIdentifier tokens ∧ failure = ⟨.expected .identifier, tokens⟩) ∨
      ∃ name nameSpan nameLayout further,
        tokens = ⟨.identifier name, nameSpan, nameLayout⟩ :: further ∧
        ((∃ span layout rest, further = ⟨.symbol .bullet, span, layout⟩ :: rest ∧
            ¬ NextType rest ∧ failure = ⟨.expected .type, rest⟩) ∨
          ∃ declared between, Declares further declared between ∧
            ((∃ colon colonLayout afterColon,
                between = ⟨.symbol .colon, colon, colonLayout⟩ :: afterColon ∧
                expression afterColon = .error failure) ∨
              (required = true ∧ ¬ Next .colon between ∧
                failure = ⟨.unvalued name nameSpan, between⟩))) := by
  simp only [Parser.bind, andThen_eq_error, identifier_eq_error, declaration?_eq_error,
    accept_ne_error, false_or, accept_eq_ok]
  refine or_congr_right ⟨?_, ?_⟩
  · rintro ⟨⟨name, nameSpan⟩, further, hname, h⟩
    obtain ⟨nameLayout, rfl⟩ := identifier_eq_ok.mp hname
    refine ⟨name, nameSpan, nameLayout, further, rfl, h.imp_right ?_⟩
    rintro ⟨declared, between, hdeclared, colon, after, hcolon, h⟩
    refine ⟨declared, between, declaration?_eq_ok.mp hdeclared, ?_⟩
    obtain ⟨rfl, span, layout, rfl⟩ | ⟨rfl, hnext, rfl⟩ := hcolon
    · simp only [if_true, andThen_eq_error, pure_ne_error, and_false, exists_false, or_false] at h
      exact .inl ⟨span, layout, after, rfl, h⟩
    · cases required with
      | true =>
          cases h
          exact .inr ⟨rfl, hnext, rfl⟩
      | false => cases h
  · rintro ⟨name, nameSpan, nameLayout, further, rfl, h⟩
    refine ⟨(name, nameSpan), further, identifier_eq_ok.mpr ⟨nameLayout, rfl⟩, h.imp_right ?_⟩
    rintro ⟨declared, between, hdeclared, h⟩
    refine ⟨declared, between, declaration?_eq_ok.mpr hdeclared, ?_⟩
    obtain ⟨span, layout, after, rfl, hvalue⟩ | ⟨rfl, hnext, rfl⟩ := h
    · refine ⟨true, after, .inl ⟨rfl, span, layout, rfl⟩, ?_⟩
      simp only [if_true, andThen_eq_error]
      exact .inl hvalue
    · exact ⟨false, between, .inr ⟨rfl, hnext, rfl⟩, rfl⟩

theorem body?_eq_error {block : Parser Phrase} :
    body? block tokens = .error failure ↔ OpensBody tokens ∧ block tokens = .error failure := by
  unfold body?
  by_cases h : OpensBody tokens
  · rw [if_pos (opensBody_iff.mpr h), map_eq_error]
    simp [h]
  · rw [if_neg fun hb => h (opensBody_iff.mp hb)]
    simp [h]

theorem many_step_eq_error {stop : Tokens → Bool} {item : Parser α} {budget : Nat}
    (h : stop tokens = false) :
    many stop item (budget + 1) tokens = .error failure ↔
      item tokens = .error failure ∨
        ∃ a between, item tokens = .ok (a, between) ∧
          many stop item budget between = .error failure := by
  simp only [many, h, Bool.false_eq_true, if_false, andThen_eq_error, pure_ne_error, and_false,
    exists_false, or_false]

theorem untilClosed_eq_error {item : Parser α} {budget : Nat} :
    untilClosed item budget tokens = .error failure ↔
      many (startsWith .rightParen) (separated item) budget tokens = .error failure ∨
        ∃ items rest, many (startsWith .rightParen) (separated item) budget tokens =
          .ok (items, rest) ∧ ¬ Next .rightParen rest ∧
            failure = ⟨.expected (.symbol .rightParen), rest⟩ := by
  simp only [untilClosed, andThen_eq_error, symbol_eq_error, pure_ne_error, and_false,
    exists_false, or_false]

/-- What comes after a symbol that is there. -/
theorem symbol_andThen {s : Symbol} {span : Span} {layout : Layout} {rest : Tokens}
    {next : Span → Parser β} :
    (symbol s >>= next) (⟨.symbol s, span, layout⟩ :: rest) = next span rest := by
  rw [andThen_run, symbol_eq_ok.mpr ⟨layout, rfl⟩]

theorem structureDef_eq_error {budget : Nat} {expression block : Parser Phrase} {start : Span}
    {startLayout : Layout} {further : Tokens} :
    Parser.structureDef budget expression block (⟨.symbol .bullet, start, startLayout⟩ :: further) =
        .error failure ↔
      (¬ NextIdentifier further ∧ failure = ⟨.expected .identifier, further⟩) ∨
      ∃ name nameSpan nameLayout after,
        further = ⟨.identifier name, nameSpan, nameLayout⟩ :: after ∧
        ((¬ Next .leftParen after ∧ failure = ⟨.expected (.symbol .leftParen), after⟩) ∨
          ∃ openSpan openLayout tokens,
            after = ⟨.symbol .leftParen, openSpan, openLayout⟩ :: tokens ∧
            (untilClosed (Parser.bind false expression) budget tokens = .error failure ∨
              ∃ inputs close closeLayout afterInputs,
                many (startsWith .rightParen) (separated (Parser.bind false expression)) budget
                  tokens = .ok (inputs, ⟨.symbol .rightParen, close, closeLayout⟩ :: afterInputs) ∧
                body? block afterInputs = .error failure)) := by
  rw [Parser.structureDef, symbol_andThen]
  simp only [andThen_eq_error, identifier_eq_error, symbol_eq_error, pure_ne_error, and_false,
    exists_false, or_false]
  refine or_congr_right ⟨?_, ?_⟩
  · rintro ⟨⟨name, nameSpan⟩, after, hname, h⟩
    obtain ⟨nameLayout, rfl⟩ := identifier_eq_ok.mp hname
    refine ⟨name, nameSpan, nameLayout, after, rfl, h.imp_right ?_⟩
    rintro ⟨openSpan, tokens, hopen, hmore⟩
    obtain ⟨openLayout, rfl⟩ := symbol_eq_ok.mp hopen
    refine ⟨openSpan, openLayout, tokens, rfl, hmore.imp_right ?_⟩
    rintro ⟨⟨inputs, close⟩, afterInputs, hinputs, hbody⟩
    obtain ⟨closeLayout, hinputs⟩ := untilClosed_eq_ok.mp hinputs
    exact ⟨inputs, close, closeLayout, afterInputs, hinputs, hbody⟩
  · rintro ⟨name, nameSpan, nameLayout, after, rfl, h⟩
    refine ⟨(name, nameSpan), after, identifier_eq_ok.mpr ⟨nameLayout, rfl⟩, h.imp_right ?_⟩
    rintro ⟨openSpan, openLayout, tokens, rfl, hmore⟩
    refine ⟨openSpan, tokens, symbol_eq_ok.mpr ⟨openLayout, rfl⟩, hmore.imp_right ?_⟩
    rintro ⟨inputs, close, closeLayout, afterInputs, hinputs, hbody⟩
    exact ⟨(inputs, close), afterInputs, untilClosed_eq_ok.mpr ⟨closeLayout, hinputs⟩, hbody⟩

theorem conditional_eq_error {expression : Parser Phrase} {start : Span} {startLayout : Layout}
    {further : Tokens} :
    Parser.conditional expression (⟨.symbol .ifWord, start, startLayout⟩ :: further) =
        .error failure ↔
      expression further = .error failure ∨
      ∃ condition between, expression further = .ok (condition, between) ∧
        ((¬ Next .thenWord between ∧ failure = ⟨.expected (.symbol .thenWord), between⟩) ∨
          ∃ thenSpan thenLayout afterThen,
            between = ⟨.symbol .thenWord, thenSpan, thenLayout⟩ :: afterThen ∧
            (expression afterThen = .error failure ∨
              ∃ yes between', expression afterThen = .ok (yes, between') ∧
                ((¬ Next .elseWord between' ∧
                    failure = ⟨.expected (.symbol .elseWord), between'⟩) ∨
                  ∃ elseSpan elseLayout afterElse,
                    between' = ⟨.symbol .elseWord, elseSpan, elseLayout⟩ :: afterElse ∧
                    expression afterElse = .error failure))) := by
  rw [Parser.conditional, symbol_andThen]
  simp only [andThen_eq_error, symbol_eq_error, pure_ne_error, and_false, exists_false, or_false]
  refine or_congr_right <| exists_congr fun condition => exists_congr fun between =>
    and_congr_right fun _ => or_congr_right ⟨?_, ?_⟩
  · rintro ⟨thenSpan, afterThen, hthen, h⟩
    obtain ⟨thenLayout, rfl⟩ := symbol_eq_ok.mp hthen
    refine ⟨thenSpan, thenLayout, afterThen, rfl, h.imp_right ?_⟩
    rintro ⟨yes, between', hyes, hmore⟩
    refine ⟨yes, between', hyes, hmore.imp_right ?_⟩
    rintro ⟨elseSpan, afterElse, helse, hno⟩
    obtain ⟨elseLayout, rfl⟩ := symbol_eq_ok.mp helse
    exact ⟨elseSpan, elseLayout, afterElse, rfl, hno⟩
  · rintro ⟨thenSpan, thenLayout, afterThen, rfl, h⟩
    refine ⟨thenSpan, afterThen, symbol_eq_ok.mpr ⟨thenLayout, rfl⟩, h.imp_right ?_⟩
    rintro ⟨yes, between', hyes, hmore⟩
    refine ⟨yes, between', hyes, hmore.imp_right ?_⟩
    rintro ⟨elseSpan, elseLayout, afterElse, rfl, hno⟩
    exact ⟨elseSpan, afterElse, symbol_eq_ok.mpr ⟨elseLayout, rfl⟩, hno⟩

theorem blockOver_eq_error {budget : Nat} {expression block : Parser Phrase} {openSpan : Span}
    {openLayout : Layout} {further : Tokens} :
    blockOver budget expression block (⟨.symbol .leftParen, openSpan, openLayout⟩ :: further) =
        .error failure ↔
      many closesBlock (Parser.statement budget expression block) budget further = .error failure ∨
      ∃ statements rest,
        many closesBlock (Parser.statement budget expression block) budget further =
          .ok (statements, rest) ∧
        ¬ Next .rightParen rest ∧ failure = ⟨.expected (.symbol .rightParen), rest⟩ := by
  rw [blockOver, symbol_andThen]
  simp only [andThen_eq_error, symbol_eq_error, pure_ne_error, and_false, exists_false, or_false]

theorem chain_step_eq_error {tier : Tier} {operand : Parser Phrase} {budget : Nat} {left : Phrase}
    {s : Symbol} {op : BinaryOp} {span : Span} {layout : Layout} {further : Tokens}
    (h : tier.operator? s = some op) :
    chain (level tier) operand (budget + 1) left (⟨.symbol s, span, layout⟩ :: further) =
        .error failure ↔
      operand further = .error failure ∨
      ∃ right between, operand further = .ok (right, between) ∧
        chain (level tier) operand budget (.binary (left.span.merge right.span) op left right)
          between = .error failure := by
  have hop : operator? (level tier) ⟨.symbol s, span, layout⟩ = some op :=
    operator?_eq_some_iff.mpr ⟨s, rfl, h⟩
  simp only [chain, hop, andThen_eq_error]

theorem prefixed_step_eq_error {operand : Parser Phrase} {s : Symbol} {op : UnaryOp} {span : Span}
    {layout : Layout} {further : Tokens} (h : unaryOperator? s = some op) :
    prefixed operand (⟨.symbol s, span, layout⟩ :: further) = .error failure ↔
      prefixed operand further = .error failure := by
  have hop : prefixOperator? ⟨.symbol s, span, layout⟩ = some op :=
    prefixOperator?_eq_some_iff.mpr ⟨s, rfl, h⟩
  simp only [prefixed, hop]
  cases prefixed operand further with
  | error failure' => exact ⟨fun h => h, fun h => h⟩
  | ok result => exact iff_of_false (fun h => by cases h) (fun h => by cases h)

theorem selections_property_eq_error {expression : Parser Phrase} {budget : Nat} {subject : Phrase}
    {dot : Span} {dotLayout : Layout} {further : Tokens} :
    selections expression (budget + 1) subject (⟨.symbol .dot, dot, dotLayout⟩ :: further) =
        .error failure ↔
      (¬ NextIdentifier further ∧ failure = ⟨.expected .identifier, further⟩) ∨
      ∃ member memberSpan memberLayout after,
        further = ⟨.identifier member, memberSpan, memberLayout⟩ :: after ∧
        selections expression budget
          (.property (subject.span.merge memberSpan) subject member memberSpan) after =
            .error failure := by
  have hdot : startsWith .dot (⟨.symbol .dot, dot, dotLayout⟩ :: further) = true := rfl
  simp only [selections, hdot, if_true, symbol_andThen, andThen_eq_error, identifier_eq_error]
  refine or_congr_right ⟨?_, ?_⟩
  · rintro ⟨⟨member, memberSpan⟩, after, hmember, h⟩
    obtain ⟨memberLayout, rfl⟩ := identifier_eq_ok.mp hmember
    exact ⟨member, memberSpan, memberLayout, after, rfl, h⟩
  · rintro ⟨member, memberSpan, memberLayout, after, rfl, h⟩
    exact ⟨(member, memberSpan), after, identifier_eq_ok.mpr ⟨memberLayout, rfl⟩, h⟩

theorem selections_evaluate_eq_error {expression : Parser Phrase} {budget : Nat} {subject : Phrase}
    {openSpan : Span} {layout : Layout} {further : Tokens} (h : layout.adjacent = true) :
    selections expression (budget + 1) subject (⟨.symbol .leftParen, openSpan, layout⟩ :: further) =
        .error failure ↔
      untilClosed expression budget further = .error failure ∨
      ∃ arguments close closeLayout between,
        many (startsWith .rightParen) (separated expression) budget further =
          .ok (arguments, ⟨.symbol .rightParen, close, closeLayout⟩ :: between) ∧
        selections expression budget (.evaluate ⟨subject.span.start, close.stop⟩ subject arguments)
          between = .error failure := by
  have hopen : opensArguments (⟨.symbol .leftParen, openSpan, layout⟩ :: further) = true :=
    opensArguments_iff.mpr ⟨_, _, _, rfl, h⟩
  have hdot : startsWith .dot (⟨.symbol .leftParen, openSpan, layout⟩ :: further) = false := rfl
  simp only [selections, hdot, Bool.false_eq_true, if_false, hopen, if_true, symbol_andThen,
    andThen_eq_error]
  refine or_congr_right ⟨?_, ?_⟩
  · rintro ⟨⟨arguments, close⟩, between, harguments, h⟩
    obtain ⟨closeLayout, harguments⟩ := untilClosed_eq_ok.mp harguments
    exact ⟨arguments, close, closeLayout, between, harguments, h⟩
  · rintro ⟨arguments, close, closeLayout, between, harguments, h⟩
    exact ⟨(arguments, close), between, untilClosed_eq_ok.mpr ⟨closeLayout, harguments⟩, h⟩

theorem nextPrimary_cons_iff {token : Token Name} :
    NextPrimary (token :: rest) ↔ startsPrimary token.kind = true := by
  constructor
  · rintro ⟨_, _, heq, h⟩
    cases heq
    exact h
  · exact fun h => ⟨token, rest, rfl, h⟩

theorem primary_of_leftParen {block : Parser Phrase} (h : Next .leftParen tokens) :
    primary block tokens = block tokens := by
  obtain ⟨span, layout, rest, rfl⟩ := h
  rfl

theorem primary_of_not_nextPrimary {block : Parser Phrase} (h : ¬ NextPrimary tokens) :
    primary block tokens = .error ⟨.expected .expression, tokens⟩ := by
  cases tokens with
  | nil => rfl
  | cons token rest =>
      obtain ⟨kind, span, layout⟩ := token
      rw [nextPrimary_cons_iff] at h
      cases kind with
      | identifier | text | number => exact absurd rfl h
      | symbol s => cases s <;> first | rfl | exact absurd rfl h

theorem primary_of_nextPrimary {block : Parser Phrase} (h : NextPrimary tokens)
    (hparen : ¬ Next .leftParen tokens) : ∃ result, primary block tokens = .ok result := by
  obtain ⟨⟨kind, span, layout⟩, rest, rfl, h⟩ := h
  cases kind with
  | identifier | text | number => exact ⟨_, rfl⟩
  | symbol s =>
      cases s with
      | trueWord | falseWord => exact ⟨_, rfl⟩
      | leftParen => exact absurd ⟨_, _, _, rfl⟩ hparen
      | _ => cases h

theorem primary_eq_error {block : Parser Phrase} :
    primary block tokens = .error failure ↔
      (¬ NextPrimary tokens ∧ failure = ⟨.expected .expression, tokens⟩) ∨
      (Next .leftParen tokens ∧ block tokens = .error failure) := by
  by_cases hparen : Next .leftParen tokens
  · have hprimary : NextPrimary tokens := by
      obtain ⟨span, layout, rest, rfl⟩ := hparen
      exact ⟨_, _, rfl, rfl⟩
    simp only [primary_of_leftParen hparen, hparen, hprimary, not_true_eq_false, false_and,
      true_and, false_or]
  · by_cases hprimary : NextPrimary tokens
    · obtain ⟨result, h⟩ : ∃ result, primary block tokens = .ok result :=
        primary_of_nextPrimary hprimary hparen
      simp only [h, hparen, hprimary, not_true_eq_false, false_and, or_self, reduceCtorEq]
    · simp only [primary_of_not_nextPrimary hprimary, hparen, hprimary, not_false_eq_true,
        true_and, false_and, or_false, Except.error.injEq]
      exact eq_comm

theorem program_eq_error {stop : Nat} :
    Parser.program tokens stop = .error failure ↔
      Parser.statements (tokens.length + 1) tokens = .error failure := by
  unfold Parser.program
  cases Parser.statements (tokens.length + 1) tokens with
  | error failure' => simp [Bind.bind, Except.bind]
  | ok result => exact ⟨nofun, nofun⟩

end Bindery.Parser

namespace Bindery.Grammar
open Bindery.Parser

/-- The tokens announce a part of the grammar that is read only where it is announced. -/
def Category.Announced : Category → Tokens → Prop
  | .structureDef, tokens => Next .bullet tokens
  | .bind, tokens => OpensBind tokens
  | .block, tokens => Next .leftParen tokens
  | _, _ => True

/-- On fewer tokens than a bound, the grammar refuses what the reader fails on. -/
def RefusedBelow (bound : Nat) (c : Category) (reader : Parser c.Reading) : Prop :=
  ∀ tokens failure, tokens.length < bound → c.Announced tokens → reader tokens = .error failure →
    Refuses c tokens failure.complaint failure.rest

/-- Where a repetition fails, an item failed after some that did not. -/
theorem many_refused {α : Type} {stop : Tokens → Bool} {item : Parser α} {bound : Nat}
    {R : Tokens → Failure → Prop}
    (hfirst : ∀ tokens failure, tokens.length < bound → stop tokens = false →
      item tokens = .error failure → R tokens failure)
    (hmore : ∀ tokens a between failure, tokens.length < bound → item tokens = .ok (a, between) →
      between.length < tokens.length ∧ (R between failure → R tokens failure)) :
    ∀ budget tokens failure, tokens.length < budget → tokens.length < bound →
      many stop item budget tokens = .error failure → R tokens failure := by
  intro budget
  induction budget with
  | zero => intro tokens failure hbudget; omega
  | succ budget ih =>
      intro tokens failure hbudget hbound h
      cases hs : stop tokens with
      | true =>
          rw [many_stop budget hs] at h
          cases h
      | false =>
          rcases (many_step_eq_error hs).mp h with h | ⟨a, between, ha, h⟩
          · exact hfirst tokens failure hbound hs h
          · have step := hmore tokens a between failure hbound ha
            have shorter := step.1
            exact step.2 (ih between failure (by omega) (by omega) h)

section
variable {n : Nat} {expression block : Parser Phrase}
  (sE : SoundBelow n .expression expression) (hE : RefusedBelow n .expression expression)
include hE

/-- A bind that needs a value is read where one is announced; an input is read in any case. -/
theorem bind_refused {c : Category} {required : Bool} {tokens : Tokens} {failure : Failure}
    (hc : c = .bind ∧ required = true ∧ OpensBind tokens ∨ c = .input ∧ required = false)
    (hlt : tokens.length < n)
    (h : Parser.bind required expression tokens = .error failure) :
    Refuses c tokens failure.complaint failure.rest := by
  have hbinds : c = .bind ∨ c = .input := hc.imp And.left And.left
  rcases bind_eq_error.mp h with ⟨hname, rfl⟩ | ⟨name, nameSpan, nameLayout, further, rfl, hmore⟩
  · obtain ⟨-, -, hopens⟩ | ⟨rfl, -⟩ := hc
    · obtain ⟨name, span, layout, rest, rfl, -⟩ := hopens
      exact absurd ⟨name, span, layout, rest, rfl⟩ hname
    · exact .here (.inputName hname)
  obtain ⟨span, layout, rest, rfl, htype, rfl⟩ | ⟨declared, between, hdeclared, hlast⟩ := hmore
  · exact .here (.type hbinds htype)
  have hle := hdeclared.length_le
  obtain ⟨colon, colonLayout, afterColon, rfl, hvalue⟩ | ⟨rfl, hcolon, rfl⟩ := hlast
  · simp only [List.length_cons] at hlt hle
    exact .further (.value hbinds hdeclared) (hE _ _ (by omega) trivial hvalue)
  · obtain ⟨rfl, -⟩ | ⟨-, hrequired⟩ := hc
    · exact .here (.unvalued hdeclared hcolon)
    · cases hrequired

include sE

theorem inputs_refused {budget : Nat} {tokens : Tokens} {failure : Failure}
    (hbudget : tokens.length < budget) (hn : tokens.length < n)
    (h : untilClosed (Parser.bind false expression) budget tokens = .error failure) :
    Refuses .inputs tokens failure.complaint failure.rest := by
  rcases untilClosed_eq_error.mp h with h | ⟨inputs, rest, h, hnext, -⟩
  · refine many_refused
      (R := fun tokens failure => Refuses .inputs tokens failure.complaint failure.rest)
      (fun tokens failure hlt hstop h => ?_) (fun tokens p between failure hlt h => ?_)
      budget tokens failure hbudget hn h
    · have hclose : ¬ Next .rightParen tokens := fun hnext => by
        rw [startsWith_iff.mpr hnext] at hstop
        cases hstop
      exact .further (.firstInput hclose)
        (bind_refused hE (.inr ⟨rfl, rfl⟩) hlt (separated_eq_error.mp h))
    · obtain ⟨afterInput, hp, sep⟩ := separated_eq_ok.mp h
      obtain ⟨d⟩ := (bind_sound false sE).1 tokens p afterInput hlt hp
      have := d.length_lt trivial
      have := sep.length_le
      exact ⟨by omega, fun h => .further (.moreInputs d sep) h⟩
  · obtain ⟨d⟩ := inputs_sound sE budget tokens inputs rest hbudget hn h
    exact absurd d.allows hnext

theorem arguments_refused {budget : Nat} {tokens : Tokens} {failure : Failure}
    (hbudget : tokens.length < budget) (hn : tokens.length < n)
    (h : untilClosed expression budget tokens = .error failure) :
    Refuses .arguments tokens failure.complaint failure.rest := by
  rcases untilClosed_eq_error.mp h with h | ⟨arguments, rest, h, hnext, -⟩
  · refine many_refused
      (R := fun tokens failure => Refuses .arguments tokens failure.complaint failure.rest)
      (fun tokens failure hlt hstop h => ?_) (fun tokens p between failure hlt h => ?_)
      budget tokens failure hbudget hn h
    · have hclose : ¬ Next .rightParen tokens := fun hnext => by
        rw [startsWith_iff.mpr hnext] at hstop
        cases hstop
      exact .further (.firstArgument hclose) (hE _ _ hlt trivial (separated_eq_error.mp h))
    · obtain ⟨afterArgument, hp, sep⟩ := separated_eq_ok.mp h
      obtain ⟨d⟩ := sE tokens p afterArgument hlt hp
      have := d.length_lt trivial
      have := sep.length_le
      exact ⟨by omega, fun h => .further (.moreArguments d sep) h⟩
  · obtain ⟨d⟩ := arguments_sound sE budget tokens arguments rest hbudget hn h
    exact absurd d.allows hnext

variable (hB : RefusedBelow n .block block)
include hB

theorem structureDef_refused :
    RefusedBelow n .structureDef (Parser.structureDef n expression block) := by
  intro tokens failure hlt hbullet h
  obtain ⟨start, startLayout, further, rfl⟩ := hbullet
  rcases structureDef_eq_error.mp h with
    ⟨hname, rfl⟩ | ⟨name, nameSpan, nameLayout, after, rfl, hmore⟩
  · exact .here (.structureName hname)
  obtain ⟨hopen, rfl⟩ | ⟨openSpan, openLayout, tokens, rfl, hmore⟩ := hmore
  · exact .here (.structureOpening hopen)
  simp only [List.length_cons] at hlt
  obtain hinputs | ⟨inputs, close, closeLayout, afterInputs, hinputs, hbody⟩ := hmore
  · exact .further .structureInputs (inputs_refused sE hE (by omega) (by omega) hinputs)
  · obtain ⟨d⟩ := inputs_sound sE n tokens inputs _ (by omega) (by omega) hinputs
    have hle := d.length_le
    simp only [List.length_cons] at hle
    obtain ⟨hopens, hblock⟩ := body?_eq_error.mp hbody
    have hparen : Next .leftParen afterInputs := by
      obtain ⟨span, layout, rest, rfl, -⟩ := hopens
      exact ⟨span, layout, rest, rfl⟩
    exact .further (.structureBody d) <| .further (.body hopens) (hB _ _ (by omega) hparen hblock)

theorem statement_refused :
    RefusedBelow n .statement (Parser.statement n expression block) := by
  intro tokens failure hlt _ h
  unfold Parser.statement at h
  by_cases hbullet : Next .bullet tokens
  · rw [if_pos (startsWith_iff.mpr hbullet)] at h
    exact .further (.ofStructureDef hbullet)
      (structureDef_refused sE hE hB tokens failure hlt hbullet h)
  rw [startsWith_eq_false hbullet, if_neg Bool.false_ne_true] at h
  by_cases hopens : OpensBind tokens
  · rw [if_pos (opensBind_iff.mpr hopens)] at h
    exact .further (.ofBind hopens) (bind_refused hE (.inl ⟨rfl, rfl, hopens⟩) hlt h)
  · rw [if_neg fun hb => hopens (opensBind_iff.mp hb)] at h
    exact .further (.ofExpression hbullet hopens) (hE tokens failure hlt trivial h)

theorem statements_refused (sB : SoundBelow n .block block) {budget : Nat} {tokens : Tokens}
    {failure : Failure} (hbudget : tokens.length < budget) (hn : tokens.length < n)
    (h : many closesBlock (Parser.statement n expression block) budget tokens = .error failure) :
    Refuses .statements tokens failure.complaint failure.rest := by
  refine many_refused
    (R := fun tokens failure => Refuses .statements tokens failure.complaint failure.rest)
    (fun tokens failure (hlt : tokens.length < n) hstop h => ?_)
    (fun tokens p between failure hlt h => ?_) budget tokens failure hbudget hn h
  · have hclosed : ¬ Closed tokens := fun hclosed => by
      rw [closesBlock_iff.mpr hclosed] at hstop
      cases hstop
    exact .further (.firstStatement hclosed)
      (statement_refused sE hE hB tokens failure hlt trivial h)
  · obtain ⟨d⟩ := statement_sound sE sB tokens p between hlt h
    exact ⟨d.length_lt trivial, fun h => .further (.moreStatements d) h⟩

theorem blockOver_refused (sB : SoundBelow n .block block) :
    RefusedBelow (n + 1) .block (blockOver n expression block) := by
  intro tokens failure hlt hparen h
  obtain ⟨openSpan, openLayout, further, rfl⟩ := hparen
  simp only [List.length_cons] at hlt
  rcases blockOver_eq_error.mp h with h | ⟨statements, rest, hstatements, hclose, rfl⟩
  · exact .further .block (statements_refused sE hE hB sB (by omega) (by omega) h)
  · obtain ⟨⟨d⟩, -⟩ := statements_sound sE sB closesBlock (fun _ hs => closesBlock_iff.mp hs) n
      further statements _ (by omega) (by omega) hstatements
    obtain rfl := d.allows.resolve_right hclose
    exact .here (.closing d)

end

section
variable {n : Nat} {expression block : Parser Phrase}

theorem primary_refused (hB : RefusedBelow (n + 1) .block block) :
    RefusedBelow (n + 1) .primary (primary block) := by
  intro tokens failure hlt _ h
  rcases primary_eq_error.mp h with ⟨hprimary, rfl⟩ | ⟨hparen, h⟩
  · exact .here (.primary hprimary)
  · exact .further (.primary hparen) (hB tokens failure hlt hparen h)

theorem selections_refused (sE : SoundBelow n .expression expression)
    (hE : RefusedBelow n .expression expression) :
    ∀ budget subject tokens failure, tokens.length < budget → tokens.length < n →
      selections expression budget subject tokens = .error failure →
      Refuses (.selections subject) tokens failure.complaint failure.rest := by
  intro budget
  induction budget with
  | zero => intro subject tokens failure hbudget; omega
  | succ budget ih =>
      intro subject tokens failure hbudget hn h
      by_cases hdot : Next .dot tokens
      · obtain ⟨dot, dotLayout, further, rfl⟩ := hdot
        simp only [List.length_cons] at hbudget hn
        rcases selections_property_eq_error.mp h with
          ⟨hmember, rfl⟩ | ⟨member, memberSpan, memberLayout, after, rfl, hmore⟩
        · exact .here (.member hmember)
        · simp only [List.length_cons] at hbudget hn
          exact .further .property (ih _ after failure (by omega) (by omega) hmore)
      by_cases hopen : OpensArguments tokens
      · obtain ⟨span, layout, further, rfl, hadjacent⟩ := hopen
        simp only [List.length_cons] at hbudget hn
        rcases (selections_evaluate_eq_error hadjacent).mp h with
          harguments | ⟨arguments, close, closeLayout, between, harguments, hmore⟩
        · exact .further (.arguments hadjacent)
            (arguments_refused sE hE (by omega) (by omega) harguments)
        · obtain ⟨d⟩ :=
            arguments_sound sE budget further arguments _ (by omega) (by omega) harguments
          have hle := d.length_le
          simp only [List.length_cons] at hle
          exact .further (.evaluate hadjacent d) (ih _ between failure (by omega) (by omega) hmore)
      · rw [selections_end _ _ hdot hopen] at h
        cases h

theorem selection_refused (sE : SoundBelow n .expression expression)
    (hE : RefusedBelow n .expression expression) (sB : SoundBelow (n + 1) .block block)
    (hB : RefusedBelow (n + 1) .block block) :
    RefusedBelow (n + 1) .selection (Parser.selection n expression block) := by
  intro tokens failure hlt _ h
  rcases andThen_eq_error.mp h with h | ⟨subject, between, hsubject, h⟩
  · exact .further .subject (primary_refused hB tokens failure hlt trivial h)
  · obtain ⟨d⟩ := primary_sound sB tokens subject between hlt hsubject
    have := d.length_lt trivial
    exact .further (.selection d)
      (selections_refused sE hE n subject between failure (by omega) (by omega) h)

theorem prefixed_refused {operand : Parser Phrase} (hO : RefusedBelow (n + 1) .selection operand) :
    RefusedBelow (n + 1) .unary (prefixed operand) := by
  intro tokens
  induction tokens with
  | nil =>
      intro failure hlt _ h
      have hprefix : ¬ NextUnary [] := fun ⟨symbol, _, hnext⟩ => (atHead_next symbol).1 hnext
      exact .further (.ofSelection hprefix) (hO [] failure hlt trivial h)
  | cons token further ih =>
      intro failure hlt _ h
      by_cases hprefix : NextUnary (token :: further)
      · obtain ⟨symbol, hs, span, layout, _, hcons⟩ := hprefix
        cases hcons
        obtain ⟨op, hop⟩ := Option.isSome_iff_exists.mp hs
        simp only [List.length_cons] at hlt
        exact .further (.prefixed hop)
          (ih failure (by omega) trivial ((prefixed_step_eq_error hop).mp h))
      · rw [prefixed_end hprefix] at h
        exact .further (.ofSelection hprefix) (hO _ failure hlt trivial h)

theorem chain_refused {tier : Tier} {operand : Parser Phrase}
    (sO : SoundBelow (n + 1) (.operand tier) operand)
    (hO : RefusedBelow (n + 1) (.operand tier) operand) :
    ∀ budget left tokens failure, tokens.length < budget → tokens.length < n + 1 →
      chain (level tier) operand budget left tokens = .error failure →
      Refuses (.chain tier left) tokens failure.complaint failure.rest := by
  intro budget
  induction budget with
  | zero => intro left tokens failure hbudget; omega
  | succ budget ih =>
      intro left tokens failure hbudget hn h
      by_cases hop : NextOperator tier tokens
      · obtain ⟨symbol, hs, span, layout, further, rfl⟩ := hop
        obtain ⟨op, hop⟩ := Option.isSome_iff_exists.mp hs
        simp only [List.length_cons] at hbudget hn
        rcases (chain_step_eq_error hop).mp h with h | ⟨right, between, hright, hmore⟩
        · exact .further (.nextOperand hop) (hO further failure (by omega) trivial h)
        · obtain ⟨d⟩ := sO further right between (by omega) hright
          have := d.length_le
          exact .further (.chainStep hop d) (ih _ between failure (by omega) (by omega) hmore)
      · rw [chain_end _ _ hop] at h
        cases h

/-- From the tightest level to the loosest, each level being the operand of the next. -/
theorem operation_refused {operand : Parser Phrase} (sO : SoundBelow (n + 1) .unary operand)
    (hO : RefusedBelow (n + 1) .unary operand) (tier : Tier) :
    RefusedBelow (n + 1) (.tier tier) (operation n operand (level tier :: tighterLevels tier)) := by
  have join (tier : Tier)
      (sT : SoundBelow (n + 1) (.operand tier) (operation n operand (tighterLevels tier)))
      (hT : RefusedBelow (n + 1) (.operand tier) (operation n operand (tighterLevels tier))) :
      RefusedBelow (n + 1) (.tier tier)
        (operation n operand (level tier :: tighterLevels tier)) := by
    intro tokens failure hlt _ h
    rcases andThen_eq_error.mp h with h | ⟨left, between, hleft, h⟩
    · exact .further .firstOperand (hT tokens failure hlt trivial h)
    · obtain ⟨d⟩ := sT tokens left between hlt hleft
      have := d.length_lt trivial
      exact .further (.joined d)
        (chain_refused sT hT n left between failure (by omega) (by omega) h)
  have step (tier tighter : Tier) (ht : tier.tighter? = some tighter)
      (hT : RefusedBelow (n + 1) (.tier tighter)
        (operation n operand (level tighter :: tighterLevels tighter))) :
      RefusedBelow (n + 1) (.tier tier)
        (operation n operand (level tier :: tighterLevels tier)) := by
    have hlevels := tighterLevels_eq_cons ht
    refine join tier (fun tokens p rest hlt h => ?_) fun tokens failure hlt _ h => ?_
    · rw [hlevels] at h
      obtain ⟨d⟩ := operation_sound sO tighter tokens p rest hlt h
      exact ⟨.ofTighter ht d⟩
    · rw [hlevels] at h
      exact .further (.ofTighter ht) (hT tokens failure hlt trivial h)
  have product : RefusedBelow (n + 1) (.tier .product) _ :=
    join .product
      (fun tokens p rest hlt h => by
        obtain ⟨d⟩ := sO tokens p rest hlt h
        exact ⟨.ofUnary rfl d⟩)
      fun tokens failure hlt _ h => .further (.ofUnary rfl) (hO tokens failure hlt trivial h)
  have sum := step .sum .product rfl product
  have comparison := step .comparison .sum rfl sum
  have equality := step .equality .comparison rfl comparison
  have conjunction := step .conjunction .equality rfl equality
  have disjunction := step .disjunction .conjunction rfl conjunction
  cases tier <;> assumption

theorem expressionOver_refused (sE : SoundBelow n .expression expression)
    (hE : RefusedBelow n .expression expression) (sB : SoundBelow (n + 1) .block block)
    (hB : RefusedBelow (n + 1) .block block) :
    RefusedBelow (n + 1) .expression (expressionOver n expression block) := by
  intro tokens failure hlt _ h
  unfold expressionOver at h
  by_cases hif : Next .ifWord tokens
  · rw [if_pos (startsWith_iff.mpr hif)] at h
    obtain ⟨start, startLayout, further, rfl⟩ := hif
    simp only [List.length_cons] at hlt
    rcases conditional_eq_error.mp h with h | ⟨condition, between, hcondition, hmore⟩
    · exact .further .condition (hE further failure (by omega) trivial h)
    obtain ⟨d⟩ := sE further condition between (by omega) hcondition
    have hle := d.length_le
    obtain ⟨hthen, rfl⟩ | ⟨thenSpan, thenLayout, afterThen, rfl, hmore⟩ := hmore
    · exact .here (.thenWord d hthen)
    simp only [List.length_cons] at hle
    obtain hyes | ⟨yes, between', hyes, hmore⟩ := hmore
    · exact .further (.yes d) (hE afterThen failure (by omega) trivial hyes)
    obtain ⟨d'⟩ := sE afterThen yes between' (by omega) hyes
    have hle' := d'.length_le
    obtain ⟨helse, rfl⟩ | ⟨elseSpan, elseLayout, afterElse, rfl, hno⟩ := hmore
    · exact .here (.elseWord d d' helse)
    simp only [List.length_cons] at hle'
    exact .further (.no d d') (hE afterElse failure (by omega) trivial hno)
  · rw [startsWith_eq_false hif, if_neg Bool.false_ne_true] at h
    have hunary := prefixed_refused (selection_refused sE hE sB hB)
    exact .further (.ofTier hif) (operation_refused (prefixed_sound (selection_sound sE sB)) hunary
      .disjunction tokens failure hlt trivial h)

end

theorem nested_refused (n : Nat) :
    RefusedBelow n .expression (expression n) ∧ RefusedBelow n .block (block n) := by
  induction n with
  | zero => exact ⟨fun _ _ hlt => by omega, fun _ _ hlt => by omega⟩
  | succ n ih =>
      obtain ⟨hE, hB⟩ := ih
      obtain ⟨sE, sB⟩ := nested_sound n
      have hblock : RefusedBelow (n + 1) .block (block (n + 1)) := blockOver_refused sE hE hB sB
      have sblock : SoundBelow (n + 1) .block (block (n + 1)) := blockOver_sound sE sB
      exact ⟨expressionOver_refused sE hE sblock hblock, hblock⟩

/-- At a parenthesis that closes no block, there is no statement. -/
theorem statement_of_rightParen {tokens : Tokens} (h : Next .rightParen tokens) (n : Nat) :
    Parser.statement (n + 1) (expression (n + 1)) (block (n + 1)) tokens =
      .error ⟨.expected .expression, tokens⟩ := by
  obtain ⟨span, layout, rest, rfl⟩ := h
  rfl

/-- What the reader of programs fails on is refused. -/
theorem program_refused {tokens : Tokens} {stop : Nat} {failure : Failure}
    (h : Parser.program tokens stop = .error failure) :
    Refuses (.program stop) tokens failure.complaint failure.rest := by
  obtain ⟨sE, sB⟩ := nested_sound (tokens.length + 1)
  obtain ⟨hE, hB⟩ := nested_refused (tokens.length + 1)
  have hstatements := many_refused
    (R := fun tokens failure => Refuses .statements tokens failure.complaint failure.rest ∨
      ∃ statements rest, Nonempty (Derivation .statements tokens statements rest) ∧
        Next .rightParen rest ∧ failure = ⟨.expected .expression, rest⟩)
    (fun further failure (hlt : further.length < tokens.length + 1) hstop h => ?_)
    (fun further p between failure hlt h => ?_) _ tokens failure (Nat.lt_succ_self _)
    (Nat.lt_succ_self _) (program_eq_error.mp h)
  · obtain hrefused | ⟨statements, rest, ⟨d⟩, hnext, rfl⟩ := hstatements
    · exact .further .program hrefused
    · exact .here (.program d hnext)
  · -- The statements may have come to a parenthesis, where only a block would end.
    by_cases hnext : Next .rightParen further
    · rw [statement_of_rightParen hnext] at h
      cases h
      exact .inr ⟨[], further, ⟨.noStatement (.inr hnext)⟩, hnext, rfl⟩
    · have hclosed : ¬ Closed further := not_or.mpr ⟨fun hnil => by simp [hnil] at hstop, hnext⟩
      exact .inl (.further (.firstStatement hclosed)
        (statement_refused sE hE hB further failure hlt trivial h))
  · obtain ⟨d⟩ := statement_sound sE sB further p between hlt h
    refine ⟨d.length_lt trivial, Or.imp (.further (.moreStatements d)) ?_⟩
    rintro ⟨statements, rest, ⟨d'⟩, hrest⟩
    exact ⟨p :: statements, rest, ⟨.moreStatements d d'⟩, hrest⟩

/-- Under every budget that exceeds the tokens, the reader of a part of the grammar fails on
them. -/
def Rejects : Category → Tokens → Failure → Prop
  | .program stop, tokens, failure => Parser.program tokens stop = .error failure
  | .statements, tokens, failure => ∀ stop n budget,
      (∀ tokens, stop tokens = true → Closed tokens) → tokens.length < n →
      tokens.length < budget →
      many stop (Parser.statement n (expression n) (block n)) budget tokens = .error failure
  | .statement, tokens, failure => ∀ n, tokens.length < n →
      Parser.statement n (expression n) (block n) tokens = .error failure
  | .structureDef, tokens, failure => ∀ n, tokens.length < n →
      Parser.structureDef n (expression n) (block n) tokens = .error failure
  | .inputs, tokens, failure => ∀ n budget, tokens.length < n → tokens.length < budget →
      many (startsWith .rightParen) (separated (Parser.bind false (expression n))) budget tokens =
        .error failure
  | .input, tokens, failure => ∀ n, tokens.length < n →
      Parser.bind false (expression n) tokens = .error failure
  | .bind, tokens, failure => ∀ n, tokens.length < n →
      Parser.bind true (expression n) tokens = .error failure
  | .body, tokens, failure => ∀ n, tokens.length < n → body? (block n) tokens = .error failure
  | .expression, tokens, failure => ∀ n, tokens.length < n → expression n tokens = .error failure
  | .tier tier, tokens, failure => ∀ n, tokens.length < n + 1 →
      operation n (operandReader n) (level tier :: tighterLevels tier) tokens = .error failure
  | .operand tier, tokens, failure => ∀ n, tokens.length < n + 1 →
      operation n (operandReader n) (tighterLevels tier) tokens = .error failure
  | .chain tier left, tokens, failure => ∀ n budget, tokens.length < n + 1 →
      tokens.length < budget →
      chain (level tier) (operation n (operandReader n) (tighterLevels tier)) budget left tokens =
        .error failure
  | .unary, tokens, failure => ∀ n, tokens.length < n + 1 → operandReader n tokens = .error failure
  | .selection, tokens, failure => ∀ n, tokens.length < n + 1 →
      Parser.selection n (expression n) (block (n + 1)) tokens = .error failure
  | .selections subject, tokens, failure => ∀ n budget, tokens.length < n →
      tokens.length < budget → selections (expression n) budget subject tokens = .error failure
  | .arguments, tokens, failure => ∀ n budget, tokens.length < n → tokens.length < budget →
      many (startsWith .rightParen) (separated (expression n)) budget tokens = .error failure
  | .primary, tokens, failure => ∀ n, tokens.length < n → primary (block n) tokens = .error failure
  | .block, tokens, failure => ∀ n, tokens.length < n → block n tokens = .error failure

section
variable {α : Type} {stop : Tokens → Bool} {item : Parser α} {budget : Nat}
  {tokens between : Tokens} {failure : Failure}

theorem many_first_error (hs : stop tokens = false) (hbudget : tokens.length < budget)
    (h : item tokens = .error failure) : many stop item budget tokens = .error failure := by
  cases budget with
  | zero => omega
  | succ budget => exact (many_step_eq_error hs).mpr (.inl h)

theorem many_more_error {a : α} (hs : stop tokens = false) (hbudget : tokens.length < budget)
    (hlt : between.length < tokens.length) (ha : item tokens = .ok (a, between))
    (hmore : ∀ budget, between.length < budget →
      many stop item budget between = .error failure) :
    many stop item budget tokens = .error failure := by
  cases budget with
  | zero => omega
  | succ budget =>
      exact (many_step_eq_error hs).mpr (.inr ⟨a, between, ha, hmore budget (by omega)⟩)

end

/-- Where the part that is sought is rejected, so is the part that seeks it. -/
theorem Seeks.rejects {c c' : Category} {tokens tokens' : Tokens} {failure : Failure}
    (h : Seeks c tokens c' tokens') (ih : Rejects c' tokens' failure) :
    Rejects c tokens failure := by
  cases h with
  | program =>
      exact program_eq_error.mpr (ih List.isEmpty _ _ (fun _ he => .inl (List.isEmpty_iff.mp he))
        (Nat.lt_succ_self _) (Nat.lt_succ_self _))
  | firstStatement hclosed =>
      intro stop n budget hstop hn hbudget
      exact many_first_error (Bool.eq_false_iff.mpr fun hs => hclosed (hstop _ hs)) hbudget
        (ih n hn)
  | moreStatements d =>
      intro stop n budget hstop hn hbudget
      have hlt := d.length_lt trivial
      exact many_more_error (Bool.eq_false_iff.mpr fun hs => d.not_closed (hstop _ hs)) hbudget hlt
        (d.accepts n hn) fun budget hbudget => ih stop n budget hstop (by omega) hbudget
  | ofStructureDef hbullet =>
      intro n hn
      simp only [Parser.statement, startsWith_iff.mpr hbullet, if_true]
      exact ih n hn
  | ofBind hopens =>
      intro n hn
      have hbullet : startsWith .bullet tokens = false := by
        obtain ⟨name, span, layout, rest, rfl, -⟩ := hopens
        rfl
      simp only [Parser.statement, hbullet, opensBind_iff.mpr hopens, Bool.false_eq_true, if_false,
        if_true]
      exact ih n hn
  | ofExpression hbullet hopens =>
      intro n hn
      have hb := Bool.eq_false_iff.mpr fun hb => hopens (opensBind_iff.mp hb)
      simp only [Parser.statement, startsWith_eq_false hbullet, hb, Bool.false_eq_true, if_false]
      exact ih n hn
  | structureInputs =>
      intro n hn
      simp only [List.length_cons] at hn
      exact structureDef_eq_error.mpr (.inr ⟨_, _, _, _, rfl, .inr ⟨_, _, _, rfl,
        .inl (untilClosed_eq_error.mpr (.inl (ih n n (by omega) (by omega))))⟩⟩)
  | structureBody d =>
      intro n hn
      have hle := d.length_le
      simp only [List.length_cons] at hn hle
      exact structureDef_eq_error.mpr (.inr ⟨_, _, _, _, rfl, .inr ⟨_, _, _, rfl,
        .inr ⟨_, _, _, _, d.accepts n n (by omega) (by omega), ih n (by omega)⟩⟩⟩)
  | firstInput hclose =>
      intro n budget hn hbudget
      exact many_first_error (startsWith_eq_false hclose) hbudget
        (separated_eq_error.mpr (ih n hn))
  | moreInputs d sep =>
      intro n budget hn hbudget
      have hlt := d.length_lt trivial
      have hle := sep.length_le
      exact many_more_error (startsWith_eq_false (d.not_next trivial .rightParen rfl)) hbudget
        (by omega) (separated_eq_ok.mpr ⟨_, d.accepts n hn, sep⟩)
        fun budget hbudget => ih n budget (by omega) hbudget
  | body hopens =>
      intro n hn
      exact body?_eq_error.mpr ⟨hopens, ih n hn⟩
  | value hc hdeclared =>
      have hle := hdeclared.length_le
      rcases hc with rfl | rfl <;>
      · intro n hn
        simp only [List.length_cons] at hn hle
        exact bind_eq_error.mpr (.inr ⟨_, _, _, _, rfl, .inr ⟨_, _, hdeclared,
          .inl ⟨_, _, _, rfl, ih n (by omega)⟩⟩⟩)
  | condition =>
      intro n hn
      simp only [List.length_cons] at hn
      cases n with
      | zero => omega
      | succ n => exact conditional_eq_error.mpr (.inl (ih n (by omega)))
  | yes d =>
      intro n hn
      have hle := d.length_le
      simp only [List.length_cons] at hn hle
      cases n with
      | zero => omega
      | succ n =>
          exact conditional_eq_error.mpr (.inr ⟨_, _, d.accepts n (by omega),
            .inr ⟨_, _, _, rfl, .inl (ih n (by omega))⟩⟩)
  | no d d' =>
      intro n hn
      have hle := d.length_le
      have hle' := d'.length_le
      simp only [List.length_cons] at hn hle hle'
      cases n with
      | zero => omega
      | succ n =>
          exact conditional_eq_error.mpr (.inr ⟨_, _, d.accepts n (by omega),
            .inr ⟨_, _, _, rfl, .inr ⟨_, _, d'.accepts n (by omega),
              .inr ⟨_, _, _, rfl, ih n (by omega)⟩⟩⟩⟩)
  | ofTier hif =>
      intro n hn
      cases n with
      | zero => omega
      | succ n =>
          simp only [expression, expressionOver, startsWith_eq_false hif, Bool.false_eq_true,
            if_false]
          exact ih n hn
  | firstOperand =>
      intro n hn
      exact andThen_eq_error.mpr (.inl (ih n hn))
  | joined d =>
      intro n hn
      have hlt := d.length_lt trivial
      exact andThen_eq_error.mpr (.inr ⟨_, _, d.accepts n hn, ih n n (by omega) (by omega)⟩)
  | ofTighter ht =>
      intro n hn
      rw [tighterLevels_eq_cons ht]
      exact ih n hn
  | ofUnary ht =>
      intro n hn
      rw [tighterLevels_eq_nil ht]
      exact ih n hn
  | nextOperand hop =>
      intro n budget hn hbudget
      simp only [List.length_cons] at hn hbudget
      cases budget with
      | zero => omega
      | succ budget => exact (chain_step_eq_error hop).mpr (.inl (ih n (by omega)))
  | chainStep hop d =>
      intro n budget hn hbudget
      have hle := d.length_le
      simp only [List.length_cons] at hn hbudget
      cases budget with
      | zero => omega
      | succ budget =>
          exact (chain_step_eq_error hop).mpr
            (.inr ⟨_, _, d.accepts n (by omega), ih n budget (by omega) (by omega)⟩)
  | prefixed hop =>
      intro n hn
      simp only [List.length_cons] at hn
      exact (prefixed_step_eq_error hop).mpr (ih n (by omega))
  | ofSelection hprefix =>
      intro n hn
      rw [operandReader, prefixed_end hprefix]
      exact ih n hn
  | subject =>
      intro n hn
      exact andThen_eq_error.mpr (.inl (ih (n + 1) hn))
  | selection d =>
      intro n hn
      have hlt := d.length_lt trivial
      exact andThen_eq_error.mpr
        (.inr ⟨_, _, d.accepts (n + 1) hn, ih n n (by omega) (by omega)⟩)
  | property =>
      intro n budget hn hbudget
      simp only [List.length_cons] at hn hbudget
      cases budget with
      | zero => omega
      | succ budget =>
          exact selections_property_eq_error.mpr
            (.inr ⟨_, _, _, _, rfl, ih n budget (by omega) (by omega)⟩)
  | arguments hadjacent =>
      intro n budget hn hbudget
      simp only [List.length_cons] at hn hbudget
      cases budget with
      | zero => omega
      | succ budget =>
          exact (selections_evaluate_eq_error hadjacent).mpr
            (.inl (untilClosed_eq_error.mpr (.inl (ih n budget (by omega) (by omega)))))
  | evaluate hadjacent d =>
      intro n budget hn hbudget
      have hle := d.length_le
      simp only [List.length_cons] at hn hbudget hle
      cases budget with
      | zero => omega
      | succ budget =>
          exact (selections_evaluate_eq_error hadjacent).mpr (.inr ⟨_, _, _, _,
            d.accepts n budget (by omega) (by omega), ih n budget (by omega) (by omega)⟩)
  | firstArgument hclose =>
      intro n budget hn hbudget
      exact many_first_error (startsWith_eq_false hclose) hbudget
        (separated_eq_error.mpr (ih n hn))
  | moreArguments d sep =>
      intro n budget hn hbudget
      have hlt := d.length_lt trivial
      have hle := sep.length_le
      exact many_more_error (startsWith_eq_false (d.not_next trivial .rightParen rfl)) hbudget
        (by omega) (separated_eq_ok.mpr ⟨_, d.accepts n hn, sep⟩)
        fun budget hbudget => ih n budget (by omega) hbudget
  | primary hparen =>
      intro n hn
      exact primary_eq_error.mpr (.inr ⟨hparen, ih n hn⟩)
  | block =>
      intro n hn
      simp only [List.length_cons] at hn
      cases n with
      | zero => omega
      | succ n =>
          exact blockOver_eq_error.mpr
            (.inl (ih closesBlock n n (fun _ hs => closesBlock_iff.mp hs) (by omega) (by omega)))

/-- The reader of programs goes on where a block would end, and fails there. -/
theorem many_statements_of_rightParen {tokens rest : Tokens} {statements : List Phrase} {n : Nat}
    (d : Derivation .statements tokens statements rest) (hnext : Next .rightParen rest)
    (hn : tokens.length < n) : ∀ budget, tokens.length < budget →
      many List.isEmpty (Parser.statement n (expression n) (block n)) budget tokens =
        .error ⟨.expected .expression, rest⟩ := by
  induction statements generalizing tokens with
  | nil =>
      intro budget hbudget
      cases d with
      | noStatement _ =>
          cases n with
          | zero => omega
          | succ n =>
              have hne : rest.isEmpty = false := by
                obtain ⟨_, _, _, rfl⟩ := hnext
                rfl
              exact many_first_error hne hbudget (statement_of_rightParen hnext n)
  | cons p statements ih =>
      intro budget hbudget
      cases d with
      | moreStatements d d' =>
          have hlt := d.length_lt trivial
          have hne : tokens.isEmpty = false :=
            Bool.eq_false_iff.mpr fun he => d.not_closed (.inl (List.isEmpty_iff.mp he))
          exact many_more_error hne hbudget hlt (d.accepts n hn) (ih d' (by omega))

theorem Misfit.rejects {c : Category} {tokens rest : Tokens} {complaint : Complaint}
    (h : Misfit c tokens complaint rest) : Rejects c tokens ⟨complaint, rest⟩ := by
  cases h with
  | program d hnext =>
      exact program_eq_error.mpr
        (many_statements_of_rightParen d hnext (Nat.lt_succ_self _) _ (Nat.lt_succ_self _))
  | structureName hname => exact fun _ _ => structureDef_eq_error.mpr (.inl ⟨hname, rfl⟩)
  | structureOpening hopen =>
      exact fun _ _ => structureDef_eq_error.mpr
        (.inr ⟨_, _, _, _, rfl, .inl ⟨hopen, rfl⟩⟩)
  | inputName hname => exact fun _ _ => bind_eq_error.mpr (.inl ⟨hname, rfl⟩)
  | type hc htype =>
      rcases hc with rfl | rfl <;>
        exact fun _ _ => bind_eq_error.mpr
          (.inr ⟨_, _, _, _, rfl, .inl ⟨_, _, _, rfl, htype, rfl⟩⟩)
  | unvalued hdeclared hcolon =>
      exact fun _ _ => bind_eq_error.mpr
        (.inr ⟨_, _, _, _, rfl, .inr ⟨_, _, hdeclared, .inr ⟨rfl, hcolon, rfl⟩⟩⟩)
  | thenWord d hthen =>
      intro n hn
      simp only [List.length_cons] at hn
      cases n with
      | zero => omega
      | succ n =>
          exact conditional_eq_error.mpr
            (.inr ⟨_, _, d.accepts n (by omega), .inl ⟨hthen, rfl⟩⟩)
  | elseWord d d' helse =>
      intro n hn
      have hle := d.length_le
      simp only [List.length_cons] at hn hle
      cases n with
      | zero => omega
      | succ n =>
          exact conditional_eq_error.mpr (.inr ⟨_, _, d.accepts n (by omega),
            .inr ⟨_, _, _, rfl, .inr ⟨_, _, d'.accepts n (by omega), .inl ⟨helse, rfl⟩⟩⟩⟩)
  | primary hprimary => exact fun _ _ => primary_eq_error.mpr (.inl ⟨hprimary, rfl⟩)
  | member hmember =>
      intro n budget _ hbudget
      cases budget with
      | zero => omega
      | succ budget => exact selections_property_eq_error.mpr (.inl ⟨hmember, rfl⟩)
  | closing d =>
      intro n hn
      simp only [List.length_cons] at hn
      cases n with
      | zero => omega
      | succ n =>
          exact blockOver_eq_error.mpr (.inr ⟨_, [], d.accepts closesBlock n n
            (fun _ hs => closesBlock_iff.mp hs) rfl (by omega) (by omega),
            (atHead_next .rightParen).1, rfl⟩)

theorem Refuses.rejects {c : Category} {tokens rest : Tokens} {complaint : Complaint}
    (h : Refuses c tokens complaint rest) : Rejects c tokens ⟨complaint, rest⟩ := by
  induction h with
  | here h => exact h.rejects
  | further h _ ih => exact h.rejects ih

/-- The reader of programs fails on the tokens that the grammar refuses. -/
theorem program_eq_error_iff {tokens : Tokens} {stop : Nat} {failure : Failure} :
    Parser.program tokens stop = .error failure ↔
      Refuses (.program stop) tokens failure.complaint failure.rest :=
  ⟨program_refused, Refuses.rejects⟩

end Bindery.Grammar
