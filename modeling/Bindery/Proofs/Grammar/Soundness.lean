import Bindery.Proofs.Grammar.Readers

/-!
Whatever the reader accepts is derivable. Readers of nested phrases are known to be right on fewer
tokens than their budget, which every reader meets by taking a token before it calls one of them;
the same tokens show that a repetition ends before its budget does.
-/

namespace Bindery.Grammar
open Bindery.Parser

/-- On fewer tokens than a bound, what the reader accepts is derivable. -/
def SoundBelow (bound : Nat) (c : Category) (reader : Parser c.Reading) : Prop :=
  ∀ tokens reading rest, tokens.length < bound → reader tokens = .ok (reading, rest) →
    Nonempty (Derivation c tokens reading rest)

/-- A repetition has a property of its tokens, items and rest if it has it where it stops and keeps
it when an item is put in front. -/
theorem many_sound {α : Type} {stop : Tokens → Bool} {item : Parser α} {bound : Nat}
    {R : Tokens → List α → Tokens → Prop}
    (hstop : ∀ tokens, stop tokens = true → R tokens [] tokens)
    (hitem : ∀ tokens a between items rest, tokens.length < bound →
      item tokens = .ok (a, between) →
      between.length < tokens.length ∧ (R between items rest → R tokens (a :: items) rest)) :
    ∀ budget tokens items rest, tokens.length < budget → tokens.length < bound →
      many stop item budget tokens = .ok (items, rest) → R tokens items rest := by
  intro budget
  induction budget with
  | zero => intro tokens items rest hbudget; omega
  | succ budget ih =>
      intro tokens items rest hbudget hbound h
      cases hs : stop tokens with
      | true =>
          rw [many_stop budget hs] at h
          cases h
          exact hstop tokens hs
      | false =>
          obtain ⟨a, between, more, ha, hmore, rfl⟩ := (many_step_eq_ok hs).mp h
          -- An item takes a token, so the budget outlasts the tokens.
          have step := hitem tokens a between more rest hbound ha
          have shorter := step.1
          exact step.2 (ih between more rest (by omega) (by omega) hmore)

section
variable {n : Nat} {expression block : Parser Phrase}

theorem bind_sound (required : Bool) (hE : SoundBelow n .expression expression) :
    SoundBelow n .input (Parser.bind required expression) ∧
      SoundBelow n .bind (Parser.bind true expression) := by
  constructor
  · intro tokens p rest hlt h
    obtain ⟨name, nameSpan, nameLayout, further, declared, between, rfl, hdeclared, h⟩ :=
      bind_eq_ok.mp h
    have hle := hdeclared.length_le
    obtain ⟨colon, colonLayout, after, value, rfl, hvalue, rfl⟩ | ⟨_, hn, rfl, rfl⟩ := h
    · simp only [List.length_cons] at hlt hle
      obtain ⟨d⟩ := hE after value rest (by omega) hvalue
      exact ⟨.valued (.bind hdeclared d)⟩
    · exact ⟨.unvalued hdeclared hn⟩
  · intro tokens p rest hlt h
    obtain ⟨name, nameSpan, nameLayout, further, declared, between, rfl, hdeclared, h⟩ :=
      bind_eq_ok.mp h
    have hle := hdeclared.length_le
    obtain ⟨colon, colonLayout, after, value, rfl, hvalue, rfl⟩ | ⟨h, _⟩ := h
    · simp only [List.length_cons] at hlt hle
      obtain ⟨d⟩ := hE after value rest (by omega) hvalue
      exact ⟨.bind hdeclared d⟩
    · cases h

theorem inputs_sound (hE : SoundBelow n .expression expression) (budget : Nat) (tokens : Tokens)
    (inputs : List Phrase) (rest : Tokens) (hbudget : tokens.length < budget)
    (hn : tokens.length < n)
    (h : many (startsWith .rightParen) (separated (Parser.bind false expression)) budget tokens =
      .ok (inputs, rest)) :
    Nonempty (Derivation .inputs tokens inputs rest) := by
  refine many_sound
    (R := fun tokens inputs rest => Nonempty (Derivation .inputs tokens inputs rest))
    ?_ ?_ budget tokens inputs rest hbudget hn h
  · exact fun tokens hs => ⟨.noInput (startsWith_iff.mp hs)⟩
  · intro tokens p between inputs rest hlt h
    obtain ⟨afterInput, hp, sep⟩ := separated_eq_ok.mp h
    obtain ⟨d⟩ := (bind_sound false hE).1 tokens p afterInput hlt hp
    have := d.length_lt trivial
    have := sep.length_le
    exact ⟨by omega, fun ⟨more⟩ => ⟨.moreInputs d sep more⟩⟩

theorem arguments_sound (hE : SoundBelow n .expression expression) (budget : Nat)
    (tokens : Tokens) (arguments : List Phrase) (rest : Tokens) (hbudget : tokens.length < budget)
    (hn : tokens.length < n)
    (h : many (startsWith .rightParen) (separated expression) budget tokens =
      .ok (arguments, rest)) :
    Nonempty (Derivation .arguments tokens arguments rest) := by
  refine many_sound
    (R := fun tokens arguments rest => Nonempty (Derivation .arguments tokens arguments rest))
    ?_ ?_ budget tokens arguments rest hbudget hn h
  · exact fun tokens hs => ⟨.noArgument (startsWith_iff.mp hs)⟩
  · intro tokens p between arguments rest hlt h
    obtain ⟨afterArgument, hp, sep⟩ := separated_eq_ok.mp h
    obtain ⟨d⟩ := hE tokens p afterArgument hlt hp
    have := d.length_lt trivial
    have := sep.length_le
    exact ⟨by omega, fun ⟨more⟩ => ⟨.moreArguments d sep more⟩⟩

theorem structureDef_sound (hE : SoundBelow n .expression expression)
    (hB : SoundBelow n .block block) :
    SoundBelow n .structureDef (Parser.structureDef n expression block) := by
  intro tokens p rest hlt h
  obtain ⟨start, startLayout, name, nameSpan, nameLayout, openSpan, openLayout, further, inputs,
    close, closeLayout, afterInputs, body, rfl, hinputs, hbody, rfl⟩ := structureDef_eq_ok.mp h
  simp only [List.length_cons] at hlt
  obtain ⟨dinputs⟩ := inputs_sound hE n further inputs _ (by omega) (by omega) hinputs
  have hle := dinputs.length_le
  simp only [List.length_cons] at hle
  obtain ⟨hopens, q, hq, rfl⟩ | ⟨hopens, rfl, rfl⟩ := body?_eq_ok.mp hbody
  · obtain ⟨dbody⟩ := hB afterInputs q rest (by omega) hq
    exact ⟨.structureDef dinputs (.ofBlock hopens dbody)⟩
  · exact ⟨.structureDef dinputs (.noBody hopens)⟩

theorem statement_sound (hE : SoundBelow n .expression expression)
    (hB : SoundBelow n .block block) :
    SoundBelow n .statement (Parser.statement n expression block) := by
  intro tokens p rest hlt h
  unfold Parser.statement at h
  split at h
  · obtain ⟨d⟩ := structureDef_sound hE hB tokens p rest hlt h
    exact ⟨.ofStructureDef d⟩
  · split at h
    · obtain ⟨d⟩ := (bind_sound true hE).2 tokens p rest hlt h
      exact ⟨.ofBind d⟩
    · next hbind =>
        obtain ⟨d⟩ := hE tokens p rest hlt h
        exact ⟨.ofExpression (fun hb => hbind (opensBind_iff.mpr hb)) d⟩

theorem statements_sound (hE : SoundBelow n .expression expression)
    (hB : SoundBelow n .block block) (stop : Tokens → Bool)
    (hstop : ∀ tokens, stop tokens = true → Closed tokens) (budget : Nat) (tokens : Tokens)
    (statements : List Phrase) (rest : Tokens) (hbudget : tokens.length < budget)
    (hn : tokens.length < n)
    (h : many stop (Parser.statement n expression block) budget tokens = .ok (statements, rest)) :
    Nonempty (Derivation .statements tokens statements rest) ∧ stop rest = true := by
  refine many_sound
    (R := fun tokens statements rest =>
      Nonempty (Derivation .statements tokens statements rest) ∧ stop rest = true)
    ?_ ?_ budget tokens statements rest hbudget hn h
  · exact fun tokens hs => ⟨⟨.noStatement (hstop tokens hs)⟩, hs⟩
  · intro tokens p between statements rest hlt hp
    obtain ⟨d⟩ := statement_sound hE hB tokens p between hlt hp
    exact ⟨d.length_lt trivial, fun ⟨⟨more⟩, hs⟩ => ⟨⟨.moreStatements d more⟩, hs⟩⟩

/-- A block takes its parenthesis itself, so it may start with as many tokens as the budget. -/
theorem blockOver_sound (hE : SoundBelow n .expression expression)
    (hB : SoundBelow n .block block) :
    SoundBelow (n + 1) .block (blockOver n expression block) := by
  intro tokens p rest hlt h
  obtain ⟨openSpan, openLayout, further, statements, close, closeLayout, rfl, hstatements, rfl⟩ :=
    blockOver_eq_ok.mp h
  simp only [List.length_cons] at hlt
  obtain ⟨⟨d⟩, _⟩ := statements_sound hE hB closesBlock (fun _ hs => closesBlock_iff.mp hs) n
    further statements _ (by omega) (by omega) hstatements
  exact ⟨.block d⟩

theorem primary_sound (hB : SoundBelow (n + 1) .block block) :
    SoundBelow (n + 1) .primary (primary block) := by
  intro tokens p rest hlt h
  cases tokens with
  | nil => cases h
  | cons token further =>
      obtain ⟨kind, span, layout⟩ := token
      cases kind with
      | identifier name => cases h; exact ⟨.reference⟩
      | text content => cases h; exact ⟨.text⟩
      | number bits => cases h; exact ⟨.number⟩
      | symbol s =>
          cases s <;> try exact absurd h expected_ne_ok
          case trueWord => cases h; exact ⟨.trueWord⟩
          case falseWord => cases h; exact ⟨.falseWord⟩
          case leftParen =>
              obtain ⟨d⟩ := hB _ p rest hlt h
              exact ⟨.ofPrimaryBlock d⟩

theorem selections_sound (hE : SoundBelow n .expression expression) :
    ∀ budget subject tokens p rest, tokens.length < budget → tokens.length < n →
      selections expression budget subject tokens = .ok (p, rest) →
      Nonempty (Derivation (.selections subject) tokens p rest) := by
  intro budget
  induction budget with
  | zero => intro subject tokens p rest hbudget; omega
  | succ budget ih =>
      intro subject tokens p rest hbudget hn h
      by_cases hdot : Next .dot tokens
      · obtain ⟨dot, dotLayout, member, memberSpan, memberLayout, further, rfl, hmore⟩ :=
          (selections_property_eq_ok hdot).mp h
        simp only [List.length_cons] at hbudget hn
        obtain ⟨d⟩ := ih _ further p rest (by omega) (by omega) hmore
        exact ⟨.property d⟩
      · by_cases hopen : OpensArguments tokens
        · obtain ⟨span, layout, further, rfl, hadjacent⟩ := hopen
          obtain ⟨arguments, close, closeLayout, between, harguments, hmore⟩ :=
            (selections_evaluate_eq_ok hadjacent).mp h
          simp only [List.length_cons] at hbudget hn
          obtain ⟨darguments⟩ :=
            arguments_sound hE budget further arguments _ (by omega) (by omega) harguments
          have hle := darguments.length_le
          simp only [List.length_cons] at hle
          obtain ⟨d⟩ := ih _ between p rest (by omega) (by omega) hmore
          exact ⟨.evaluate hadjacent darguments d⟩
        · rw [selections_end _ _ hdot hopen] at h
          cases h
          exact ⟨.selected hdot hopen⟩

theorem selection_sound (hE : SoundBelow n .expression expression)
    (hB : SoundBelow (n + 1) .block block) :
    SoundBelow (n + 1) .selection (Parser.selection n expression block) := by
  intro tokens p rest hlt h
  obtain ⟨subject, between, hsubject, hmore⟩ := andThen_eq_ok.mp h
  obtain ⟨d⟩ := primary_sound hB tokens subject between hlt hsubject
  have := d.length_lt trivial
  obtain ⟨more⟩ := selections_sound hE n subject between p rest (by omega) (by omega) hmore
  exact ⟨.selection d more⟩

theorem prefixed_sound {operand : Parser Phrase} (hO : SoundBelow (n + 1) .selection operand) :
    SoundBelow (n + 1) .unary (prefixed operand) := by
  intro tokens
  induction tokens with
  | nil =>
      intro p rest hlt h
      obtain ⟨d⟩ := hO [] p rest hlt h
      exact ⟨.ofSelection d⟩
  | cons token further ih =>
      intro p rest hlt h
      by_cases hu : NextUnary (token :: further)
      · obtain ⟨s, hs, span, layout, _, hcons⟩ := hu
        cases hcons
        obtain ⟨op, hop⟩ := Option.isSome_iff_exists.mp hs
        obtain ⟨inner, hinner, rfl⟩ := (prefixed_step_eq_ok hop).mp h
        simp only [List.length_cons] at hlt
        obtain ⟨d⟩ := ih inner rest (by omega) hinner
        exact ⟨.prefixed hop d⟩
      · rw [prefixed_end hu] at h
        obtain ⟨d⟩ := hO _ p rest hlt h
        exact ⟨.ofSelection d⟩

theorem chain_sound {tier : Tier} {operand : Parser Phrase}
    (hO : SoundBelow (n + 1) (.operand tier) operand) :
    ∀ budget left tokens p rest, tokens.length < budget → tokens.length < n + 1 →
      chain (level tier) operand budget left tokens = .ok (p, rest) →
      Nonempty (Derivation (.chain tier left) tokens p rest) := by
  intro budget
  induction budget with
  | zero => intro left tokens p rest hbudget; omega
  | succ budget ih =>
      intro left tokens p rest hbudget hn h
      by_cases hop : NextOperator tier tokens
      · obtain ⟨s, hs, span, layout, further, rfl⟩ := hop
        obtain ⟨op, hop⟩ := Option.isSome_iff_exists.mp hs
        obtain ⟨right, between, hright, hmore⟩ := (chain_step_eq_ok hop).mp h
        simp only [List.length_cons] at hbudget hn
        obtain ⟨d⟩ := hO further right between (by omega) hright
        have := d.length_le
        obtain ⟨more⟩ := ih _ between p rest (by omega) (by omega) hmore
        exact ⟨.chainStep hop d more⟩
      · rw [chain_end _ _ hop] at h
        cases h
        exact ⟨.chainEnd hop⟩

/-- From the tightest level to the loosest, each level being the operand of the next. -/
theorem operation_sound {operand : Parser Phrase} (hO : SoundBelow (n + 1) .unary operand)
    (tier : Tier) :
    SoundBelow (n + 1) (.tier tier) (operation n operand (level tier :: tighterLevels tier)) := by
  have join : ∀ tier,
      SoundBelow (n + 1) (.operand tier) (operation n operand (tighterLevels tier)) →
      SoundBelow (n + 1) (.tier tier) (operation n operand (level tier :: tighterLevels tier)) := by
    intro tier hT tokens p rest hlt h
    obtain ⟨left, between, hleft, hmore⟩ := andThen_eq_ok.mp h
    obtain ⟨d⟩ := hT tokens left between hlt hleft
    have := d.length_lt trivial
    obtain ⟨more⟩ := chain_sound hT n left between p rest (by omega) (by omega) hmore
    exact ⟨.joined d more⟩
  have step : ∀ tier tighter, tier.tighter? = some tighter →
      SoundBelow (n + 1) (.tier tighter)
        (operation n operand (level tighter :: tighterLevels tighter)) →
      SoundBelow (n + 1) (.tier tier) (operation n operand (level tier :: tighterLevels tier)) := by
    intro tier tighter ht hT
    refine join tier fun tokens p rest hlt h => ?_
    rw [tighterLevels_eq_cons ht] at h
    obtain ⟨d⟩ := hT tokens p rest hlt h
    exact ⟨.ofTighter ht d⟩
  have product := join .product fun tokens p rest hlt h => by
    obtain ⟨d⟩ := hO tokens p rest hlt h
    exact ⟨.ofUnary rfl d⟩
  have sum := step .sum .product rfl product
  have comparison := step .comparison .sum rfl sum
  have equality := step .equality .comparison rfl comparison
  have conjunction := step .conjunction .equality rfl equality
  have disjunction := step .disjunction .conjunction rfl conjunction
  cases tier <;> assumption

theorem expressionOver_sound (hE : SoundBelow n .expression expression)
    (hB : SoundBelow (n + 1) .block block) :
    SoundBelow (n + 1) .expression (expressionOver n expression block) := by
  intro tokens p rest hlt h
  unfold expressionOver at h
  split at h
  · obtain ⟨start, startLayout, further, condition, thenSpan, thenLayout, afterThen, yes, elseSpan,
      elseLayout, afterElse, no, rfl, hcondition, hyes, hno, rfl⟩ := conditional_eq_ok.mp h
    simp only [List.length_cons] at hlt
    obtain ⟨dcondition⟩ := hE further condition _ (by omega) hcondition
    have := dcondition.length_le
    simp only [List.length_cons] at this
    obtain ⟨dyes⟩ := hE afterThen yes _ (by omega) hyes
    have := dyes.length_le
    simp only [List.length_cons] at this
    obtain ⟨dno⟩ := hE afterElse no rest (by omega) hno
    exact ⟨.conditional dcondition dyes dno⟩
  · obtain ⟨d⟩ := operation_sound (prefixed_sound (selection_sound hE hB)) .disjunction
      tokens p rest hlt h
    exact ⟨.ofTier d⟩

end

theorem nested_sound (n : Nat) :
    SoundBelow n .expression (expression n) ∧ SoundBelow n .block (block n) := by
  induction n with
  | zero => exact ⟨fun _ _ _ hlt => by omega, fun _ _ _ hlt => by omega⟩
  | succ n ih =>
      obtain ⟨hE, hB⟩ := ih
      -- An expression may start with a block of its own level, so the block goes first.
      have hblock : SoundBelow (n + 1) .block (block (n + 1)) := blockOver_sound hE hB
      exact ⟨expressionOver_sound hE hblock, hblock⟩

theorem program_sound {tokens : Tokens} {stop : Nat} {p : Phrase}
    (h : Parser.program tokens stop = .ok p) :
    Nonempty (Derivation (.program stop) tokens p []) := by
  obtain ⟨statements, rest, hs, rfl⟩ := program_eq_ok.mp h
  obtain ⟨hE, hB⟩ := nested_sound (tokens.length + 1)
  obtain ⟨⟨d⟩, hrest⟩ := statements_sound hE hB List.isEmpty
    (fun _ he => .inl (List.isEmpty_iff.mp he)) _ tokens statements rest (by omega) (by omega) hs
  rw [List.isEmpty_iff] at hrest
  subst hrest
  exact ⟨.program d⟩

end Bindery.Grammar
