import Bindery.Proofs.Grammar.Follow

/-!
Programs one after the other. What the grammar derives is derived as well if further tokens follow
that start on a new line, for these go on with nothing: a parenthesis would have to touch what it
continues, or to stand on its line, and of the operators only the minus can start a statement. There
is one exception. A name alone is taken as the start of a bind if a bullet follows.
-/

namespace Bindery.Grammar

/-- Tokens start a statement on a new line, but not with a minus. -/
def Apart (tokens : Tokens) : Prop :=
  ∃ token further, tokens = token :: further ∧ Category.statement.starts token.kind = true ∧
    token.kind ≠ .symbol .minus ∧ token.layout.adjacent = false ∧
    token.layout.newlineBefore = true

namespace Apart

variable {tokens : Tokens} (h : Apart tokens)
include h

theorem not_next {symbol : Symbol} (hsymbol : Category.statement.starts (.symbol symbol) = false) :
    ¬ Next symbol tokens := by
  obtain ⟨token, further, rfl, hstarts, -⟩ := h
  intro hnext
  obtain ⟨span, layout, rest, heq⟩ := hnext
  cases heq
  rw [hsymbol] at hstarts
  cases hstarts

theorem not_nextOperator (tier : Tier) : ¬ NextOperator tier tokens := by
  obtain ⟨token, further, rfl, hstarts, hminus, -⟩ := h
  intro hnext
  obtain ⟨symbol, hoperator, span, layout, rest, heq⟩ := hnext
  cases heq
  cases symbol with
  | minus => exact hminus rfl
  | plus | star | slash | equal | notEqual | less | lessEqual | greater | greaterEqual | ampersand
  | pipe => cases hstarts
  | ifWord | thenWord | elseWord | trueWord | falseWord | bullet | leftParen | rightParen | colon
  | comma | dot | hash | question | tilde => cases tier <;> cases hoperator

theorem not_opensArguments : ¬ OpensArguments tokens := by
  obtain ⟨token, further, rfl, -, -, hadjacent, -⟩ := h
  intro hopens
  obtain ⟨span, layout, rest, heq, hlayout⟩ := hopens
  cases heq
  rw [hlayout] at hadjacent
  cases hadjacent

theorem not_opensBody : ¬ OpensBody tokens := by
  obtain ⟨token, further, rfl, -, -, -, hline⟩ := h
  intro hopens
  obtain ⟨span, layout, rest, heq, hlayout⟩ := hopens
  cases heq
  rw [hlayout] at hline
  cases hline

end Apart

/-- A bind is told by two tokens, so further ones do not matter. -/
theorem opensBind_of_append {tokens further : Tokens} (hlength : 2 ≤ tokens.length)
    (h : OpensBind (tokens ++ further)) : OpensBind tokens := by
  obtain ⟨name, span, layout, rest, heq, hnext⟩ := h
  match tokens, hlength with
  | first :: second :: tokens, _ =>
      cases heq
      refine ⟨name, span, layout, second :: tokens, rfl, ?_⟩
      exact hnext.imp ((atHead_next .colon).2 _ _ _) ((atHead_next .bullet).2 _ _ _)

/-- The parts of the grammar that may be the last thing on a line. -/
def Category.EndsLine : Category → Prop
  | .program _ | .statements | .inputs | .input | .arguments => False
  | _ => True

/-- What a part of the grammar reads may be followed by further tokens: either something was left
over already, or they stand apart and make no bind of it. -/
def MayMeet (c : Category) (tokens rest further : Tokens) : Prop :=
  rest ≠ [] ∨ c.EndsLine ∧ Apart further ∧
    (c = .statement → OpensBind (tokens ++ further) → OpensBind tokens)

theorem MayMeet.noFurther {c : Category} {tokens rest further : Tokens}
    (h : MayMeet c tokens rest further) : NoFurther rest (rest ++ further) := by
  cases rest with
  | cons token rest => exact .of_head? rfl
  | nil =>
      obtain ⟨-, hapart, -⟩ := h.resolve_left fun hne => hne rfl
      exact ⟨fun h => absurd h (hapart.not_next rfl), fun h => absurd h (hapart.not_next rfl),
        fun h => absurd h (hapart.not_next rfl),
        fun tier h => absurd h (hapart.not_nextOperator tier),
        fun h => absurd h hapart.not_opensArguments, fun h => absurd h hapart.not_opensBody⟩

theorem Derivation.extend {c : Category} {tokens rest further : Tokens} {reading : c.Reading}
    (d : Derivation c tokens reading rest) (h : MayMeet c tokens rest further) :
    Nonempty (Derivation c (tokens ++ further) reading (rest ++ further)) := by
  have hallows := d.allows
  have hlt := d.length_lt
  have hrest (hc : ¬ c.EndsLine) : rest ≠ [] := h.resolve_right fun hends => hc hends.1
  obtain ⟨used, rfl, hrefit⟩ := d.refit
  rw [List.append_assoc]
  refine hrefit (rest ++ further) h.noFurther ?_
  cases c with
  | program => exact absurd hallows (hrest id)
  | statements => exact .inr ((atHead_next _).append (hallows.resolve_left (hrest id)))
  | inputs | arguments => exact (atHead_next _).append hallows
  | input => exact fun hnext => (atHead_next _).of_append hnext (hrest id)
  | statement =>
      -- An expression that is followed by more could become a bind if it is a single token.
      intro hopens
      rcases h with hne | ⟨-, -, hopens'⟩
      · rw [← List.append_assoc] at hopens
        refine opensBind_of_append ?_ hopens
        have hpos := List.length_pos_iff.mpr hne
        have := hlt trivial
        omega
      · exact hopens' rfl (List.append_assoc .. ▸ hopens)
  | structureDef | bind | body | expression | tier | operand | chain | unary | selection
  | selections | primary | block => trivial

/-- Where a part of the grammar comes to a name alone, it has read that name and nothing more. -/
def Category.ReadsName (c : Category) (tokens : Tokens) (reading : c.Reading) (rest : Tokens) :
    Prop :=
  match c, reading with
  | .chain _ left, p | .selections left, p =>
    ∀ span name, p = .reference span name → left = p ∧ tokens = rest
  | .statement, p | .structureDef, p | .bind, p | .expression, p | .tier _, p | .operand _, p
  | .unary, p | .selection, p | .primary, p | .block, p =>
    ∀ span name, p = .reference span name →
      ∃ layout, tokens = ⟨.identifier name, span, layout⟩ :: rest
  | .program _, _ | .statements, _ | .inputs, _ | .input, _ | .body, _ | .arguments, _ => True

theorem Derivation.readsName {c : Category} {tokens rest : Tokens} {reading : c.Reading}
    (d : Derivation c tokens reading rest) : c.ReadsName tokens reading rest := by
  induction d with
  | program | noStatement | moreStatements | noInput | moreInputs | noBody | ofBlock | valued
  | unvalued | noArgument | moreArguments => exact trivial
  | ofStructureDef _ ih | ofBind _ ih | ofExpression _ _ ih | ofTier _ ih | ofTighter _ _ ih
  | ofUnary _ _ ih | ofSelection _ ih | ofPrimaryBlock _ ih => exact ih
  | structureDef | bind | conditional | prefixed | number | text | trueWord | falseWord | block =>
      exact nofun
  | joined _ _ first more | selection _ _ first more =>
      intro span name hname
      obtain ⟨rfl, rfl⟩ := more span name hname
      exact first span name hname
  | chainEnd | selected => exact fun _ _ _ => ⟨rfl, rfl⟩
  | chainStep _ _ _ _ more =>
      intro span name hname
      cases (more span name hname).1.trans hname
  | property _ more | evaluate _ _ _ _ more =>
      intro span name hname
      cases (more span name hname).1.trans hname
  | reference =>
      intro span name hname
      cases hname
      exact ⟨_, rfl⟩

/-- What a level reads is an expression if no operator follows. -/
theorem Derivation.expression_of_tier {tokens rest : Tokens} {p : Phrase} {tier : Tier}
    (d : Derivation (.tier tier) tokens p rest) (hend : ∀ tier, ¬ NextOperator tier rest) :
    Nonempty (Derivation .expression tokens p rest) := by
  have looser (tier tighter : Tier) (htier : tier.tighter? = some tighter)
      (d : Derivation (.tier tighter) tokens p rest) : Derivation (.tier tier) tokens p rest :=
    .joined (.ofTighter htier d) (.chainEnd (hend tier))
  have conjunction (d : Derivation (.tier .conjunction) tokens p rest) :=
    Derivation.ofTier (looser .disjunction .conjunction rfl d)
  have equality (d : Derivation (.tier .equality) tokens p rest) :=
    conjunction (looser .conjunction .equality rfl d)
  have comparison (d : Derivation (.tier .comparison) tokens p rest) :=
    equality (looser .equality .comparison rfl d)
  have sum (d : Derivation (.tier .sum) tokens p rest) :=
    comparison (looser .comparison .sum rfl d)
  cases tier with
  | disjunction => exact ⟨.ofTier d⟩
  | conjunction => exact ⟨conjunction d⟩
  | equality => exact ⟨equality d⟩
  | comparison => exact ⟨comparison d⟩
  | sum => exact ⟨sum d⟩
  | product => exact ⟨sum (looser .sum .product rfl d)⟩

theorem Derivation.expression_of_unary {tokens rest : Tokens} {p : Phrase}
    (d : Derivation .unary tokens p rest) (hend : ∀ tier, ¬ NextOperator tier rest) :
    Nonempty (Derivation .expression tokens p rest) := by
  have product : Derivation (.tier .product) tokens p rest :=
    .joined (.ofUnary rfl d) (.chainEnd (hend .product))
  exact product.expression_of_tier hend

theorem Derivation.eq_reference {name : Name} {span : Span} {layout : Layout} {p : Phrase}
    (d : Derivation .statement [⟨.identifier name, span, layout⟩] p []) :
    p = .reference span name := by
  have hselected : Derivation (.selections (.reference span name)) [] (.reference span name) [] :=
    .selected (atHead_next .dot).1 atHead_opensArguments.1
  have hreference : Derivation .primary [⟨.identifier name, span, layout⟩]
    (.reference span name) [] := .reference
  obtain ⟨e⟩ := expression_of_unary (.ofSelection (.selection hreference hselected)) fun tier =>
    (atHead_nextOperator tier).1
  refine (d.unique (.ofExpression (fun hopens => ?_) e)).1
  obtain ⟨_, _, _, _, heq, hnext⟩ := hopens
  cases heq
  exact hnext.elim (atHead_next .colon).1 (atHead_next .bullet).1

/-- The last of the statements is a name alone. -/
def EndsInName (statements : List Phrase) : Prop :=
  ∃ span name, statements.getLast? = some (.reference span name)

theorem EndsInName.cons {p : Phrase} {statements : List Phrase} (h : EndsInName statements) :
    EndsInName (p :: statements) := by
  obtain ⟨span, name, hlast⟩ := h
  cases statements with
  | nil => cases hlast
  | cons q statements => exact ⟨span, name, by rw [List.getLast?_cons_cons]; exact hlast⟩

theorem Apart.of_statements {token : Token Name} {tokens : Tokens} {statements : List Phrase}
    (d : Derivation .statements (token :: tokens) statements [])
    (hminus : token.kind ≠ .symbol .minus) (hadjacent : token.layout.adjacent = false)
    (hline : token.layout.newlineBefore = true) : Apart (token :: tokens) := by
  cases d with
  | moreStatements first _ =>
      obtain ⟨_, _, heq, hstarts⟩ := first.starts trivial
      cases heq
      exact ⟨token, tokens, rfl, hstarts, hminus, hadjacent, hline⟩

/-- Statements that stand apart join the statements before them. -/
theorem Derivation.statements_append {tokens further : Tokens} {statements more : List Phrase}
    (d : Derivation .statements tokens statements [])
    (d' : Derivation .statements further more []) (hapart : further ≠ [] → Apart further)
    (hname : ¬ (EndsInName statements ∧ Next .bullet further)) :
    Nonempty (Derivation .statements (tokens ++ further) (statements ++ more) []) := by
  by_cases hnil : further = []
  · subst hnil
    cases d' with
    | noStatement _ =>
        rw [List.append_nil, List.append_nil]
        exact ⟨d⟩
    | moreStatements e _ => exact absurd (.inl rfl) e.not_closed
  have hapart := hapart hnil
  induction statements generalizing tokens with
  | nil =>
      cases d with
      | noStatement _ => exact ⟨d'⟩
  | cons p statements ih =>
      cases d with
      | @moreStatements _ _ between _ _ first later =>
          obtain ⟨e'⟩ := ih later fun hends => hname ⟨hends.1.cons, hends.2⟩
          have hmeet : MayMeet .statement tokens between further := by
            cases between with
            | cons token between => exact .inl (List.cons_ne_nil _ _)
            | nil =>
                refine .inr ⟨trivial, hapart, fun _ hopens => ?_⟩
                match tokens, first with
                | [], first => exact absurd (.inl rfl) first.not_closed
                | [token], first =>
                    -- A name that is a statement: only a bullet makes a bind of it.
                    obtain ⟨name, span, layout, _, heq, hnext⟩ := hopens
                    cases heq
                    have hbullet := hnext.resolve_left (hapart.not_next rfl)
                    cases later with
                    | noStatement _ =>
                        refine absurd ⟨⟨span, name, ?_⟩, hbullet⟩ hname
                        rw [first.eq_reference]
                        rfl
                    | moreStatements e _ => exact absurd (.inl rfl) e.not_closed
                | _ :: _ :: _, _ => exact opensBind_of_append (Nat.le_add_left _ _) hopens
          obtain ⟨e⟩ := first.extend hmeet
          exact ⟨.moreStatements e e'⟩

/-- A bullet at the start of statements starts a structure definition. -/
theorem Derivation.of_bullet {tokens : Tokens} {statements : List Phrase}
    (d : Derivation .statements tokens statements []) (h : Next .bullet tokens) :
    ∃ bullet bulletLayout name nameSpan nameLayout paren parenLayout further,
      tokens = ⟨.symbol .bullet, bullet, bulletLayout⟩ ::
        ⟨.identifier name, nameSpan, nameLayout⟩ ::
          ⟨.symbol .leftParen, paren, parenLayout⟩ :: further := by
  cases d with
  | noStatement _ => exact absurd h (atHead_next .bullet).1
  | moreStatements first _ =>
      cases first with
      | ofStructureDef e =>
          cases e with
          | structureDef _ _ => exact ⟨_, _, _, _, _, _, _, _, rfl⟩
      | ofBind e => exact absurd h (e.not_next trivial .bullet rfl)
      | ofExpression _ e => exact absurd h (e.not_next trivial .bullet rfl)

/-- A name alone before a bullet is no statement, and it is no bind either: that would need a type
and a colon, not a name and a parenthesis. -/
theorem Derivation.not_statements_append {tokens further : Tokens} {statements more : List Phrase}
    (d : Derivation .statements tokens statements [])
    (d' : Derivation .statements further more []) (hname : EndsInName statements)
    (hbullet : Next .bullet further) (whole : List Phrase)
    (e : Derivation .statements (tokens ++ further) whole []) : False := by
  induction statements generalizing tokens whole with
  | nil =>
      obtain ⟨_, _, hlast⟩ := hname
      cases hlast
  | cons p statements ih =>
      cases d with
      | @moreStatements _ _ between _ _ first later =>
          cases statements with
          | nil =>
              cases later with
              | noStatement _ =>
                  obtain ⟨span, name, hlast⟩ := hname
                  cases hlast
                  -- The whole goes on with a name, a bullet, a name and a parenthesis.
                  obtain ⟨layout, rfl⟩ := first.readsName span name rfl
                  obtain ⟨_, _, _, _, _, _, _, _, rfl⟩ := d'.of_bullet hbullet
                  cases e with
                  | moreStatements e _ =>
                      cases e with
                      | ofStructureDef e => cases e
                      | ofBind e =>
                          cases e with
                          | bind declares _ => cases declares
                      | ofExpression hbind _ => exact hbind ⟨_, _, _, _, rfl, .inr hbullet⟩
          | cons q statements =>
              have hbetween : between ≠ [] := by
                cases later with
                | moreStatements e _ => exact fun hnil => e.not_closed (.inl hnil)
              have hlast : EndsInName (q :: statements) := by
                obtain ⟨span, name, hlast⟩ := hname
                exact ⟨span, name, by rw [← hlast, List.getLast?_cons_cons]⟩
              have hmeet : MayMeet .statement tokens between further := .inl hbetween
              obtain ⟨first'⟩ := first.extend hmeet
              generalize tokens ++ further = joint at e first'
              cases e with
              | noStatement hclosed => exact first'.not_closed hclosed
              | moreStatements e e' =>
                  obtain ⟨-, rfl, -⟩ := first'.unique e
                  exact ih later hlast _ e'

/-- How its first token is set off does not matter to a part of the grammar that takes it. -/
theorem Derivation.relayout {c : Category} {tokens rest : Tokens} {reading : c.Reading}
    (d : Derivation c tokens reading rest) (hc : c.Consumes) (layout : Layout) :
    ∀ token further, tokens = token :: further →
      Nonempty (Derivation c ({ token with layout } :: further) reading rest) := by
  induction d with
  | program | noStatement | moreStatements | noInput | moreInputs | noBody | ofBlock | chainEnd
  | chainStep | selected | property | evaluate | noArgument | moreArguments => exact hc.elim
  | ofStructureDef _ ih =>
      intro token further heq
      obtain ⟨e⟩ := ih trivial token further heq
      exact ⟨.ofStructureDef e⟩
  | ofBind _ ih =>
      intro token further heq
      obtain ⟨e⟩ := ih trivial token further heq
      exact ⟨.ofBind e⟩
  | ofExpression hbind _ ih =>
      intro token further heq
      obtain ⟨e⟩ := ih trivial token further heq
      refine ⟨.ofExpression (fun hopens => hbind ?_) e⟩
      obtain ⟨name, span, _, rest, heq', hnext⟩ := hopens
      obtain ⟨kind, _, layout'⟩ := token
      cases heq'
      exact ⟨name, _, layout', further, heq, hnext⟩
  | valued _ ih =>
      intro token further heq
      obtain ⟨e⟩ := ih trivial token further heq
      exact ⟨.valued e⟩
  | ofTier _ ih =>
      intro token further heq
      obtain ⟨e⟩ := ih trivial token further heq
      exact ⟨.ofTier e⟩
  | joined _ d' first _ =>
      intro token further heq
      obtain ⟨e⟩ := first trivial token further heq
      exact ⟨.joined e d'⟩
  | ofTighter htier _ ih =>
      intro token further heq
      obtain ⟨e⟩ := ih trivial token further heq
      exact ⟨.ofTighter htier e⟩
  | ofUnary htier _ ih =>
      intro token further heq
      obtain ⟨e⟩ := ih trivial token further heq
      exact ⟨.ofUnary htier e⟩
  | ofSelection _ ih =>
      intro token further heq
      obtain ⟨e⟩ := ih trivial token further heq
      exact ⟨.ofSelection e⟩
  | selection _ d' first _ =>
      intro token further heq
      obtain ⟨e⟩ := first trivial token further heq
      exact ⟨.selection e d'⟩
  | ofPrimaryBlock _ ih =>
      intro token further heq
      obtain ⟨e⟩ := ih trivial token further heq
      exact ⟨.ofPrimaryBlock e⟩
  | structureDef d d' _ _ =>
      intro token further heq
      cases heq
      exact ⟨.structureDef d d'⟩
  | bind declares d _ =>
      intro token further heq
      cases heq
      exact ⟨.bind declares d⟩
  | unvalued declares hcolon =>
      intro token further heq
      cases heq
      exact ⟨.unvalued declares hcolon⟩
  | conditional d d' d'' _ _ _ =>
      intro token further heq
      cases heq
      exact ⟨.conditional d d' d''⟩
  | prefixed hop d _ =>
      intro token further heq
      cases heq
      exact ⟨.prefixed hop d⟩
  | number | text | trueWord | falseWord | reference =>
      intro token further heq
      cases heq
      refine ⟨?_⟩
      constructor
  | block d _ =>
      intro token further heq
      cases heq
      exact ⟨.block d⟩

/-- A line break before the first token does not matter to statements. -/
theorem Derivation.statements_relayout {token : Token Name} {tokens : Tokens}
    {statements : List Phrase} (d : Derivation .statements (token :: tokens) statements [])
    (layout : Layout) :
    Nonempty (Derivation .statements ({ token with layout } :: tokens) statements []) := by
  cases d with
  | moreStatements first later =>
      obtain ⟨e⟩ := first.relayout trivial layout token tokens rfl
      exact ⟨.moreStatements e later⟩

end Bindery.Grammar
