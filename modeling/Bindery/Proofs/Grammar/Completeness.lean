import Bindery.Proofs.Grammar.Readers

/-!
Whatever is derivable is accepted, under every budget that exceeds the number of tokens. The
induction is on the derivation, and for each part of the grammar the statement is about its reader.
-/

namespace Bindery.Grammar
open Bindery.Parser

/-- The reader of an operand under a budget. -/
abbrev operandReader (n : Nat) : Parser Phrase :=
  prefixed (Parser.selection n (expression n) (block (n + 1)))

/-- Under every budget that exceeds the tokens, the reader of a part of the grammar accepts them
with the given result and leaves the given rest. -/
def Accepts : (c : Category) → Tokens → c.Reading → Tokens → Prop
  | .program stop, tokens, p, _ => Parser.program tokens stop = .ok p
  | .statements, tokens, statements, rest => ∀ stop n budget,
      (∀ tokens, stop tokens = true → Closed tokens) → stop rest = true →
      tokens.length < n → tokens.length < budget →
      many stop (Parser.statement n (expression n) (block n)) budget tokens =
        .ok (statements, rest)
  | .statement, tokens, p, rest => ∀ n, tokens.length < n →
      Parser.statement n (expression n) (block n) tokens = .ok (p, rest)
  | .structureDef, tokens, p, rest => ∀ n, tokens.length < n →
      Parser.structureDef n (expression n) (block n) tokens = .ok (p, rest)
  | .inputs, tokens, inputs, rest => ∀ n budget, tokens.length < n → tokens.length < budget →
      many (startsWith .rightParen) (separated (Parser.bind false (expression n))) budget tokens =
        .ok (inputs, rest)
  | .input, tokens, p, rest => ∀ n, tokens.length < n →
      Parser.bind false (expression n) tokens = .ok (p, rest)
  | .bind, tokens, p, rest => ∀ required n, tokens.length < n →
      Parser.bind required (expression n) tokens = .ok (p, rest)
  | .body, tokens, body, rest => ∀ n, tokens.length < n →
      body? (block n) tokens = .ok (body, rest)
  | .expression, tokens, p, rest => ∀ n, tokens.length < n → expression n tokens = .ok (p, rest)
  | .tier tier, tokens, p, rest => ∀ n, tokens.length < n + 1 →
      operation n (operandReader n) (level tier :: tighterLevels tier) tokens = .ok (p, rest)
  | .operand tier, tokens, p, rest => ∀ n, tokens.length < n + 1 →
      operation n (operandReader n) (tighterLevels tier) tokens = .ok (p, rest)
  | .chain tier left, tokens, p, rest => ∀ n budget, tokens.length < n + 1 →
      tokens.length < budget →
      chain (level tier) (operation n (operandReader n) (tighterLevels tier)) budget left tokens =
        .ok (p, rest)
  | .unary, tokens, p, rest => ∀ n, tokens.length < n + 1 →
      operandReader n tokens = .ok (p, rest)
  | .selection, tokens, p, rest => ∀ n, tokens.length < n + 1 →
      Parser.selection n (expression n) (block (n + 1)) tokens = .ok (p, rest)
  | .selections subject, tokens, p, rest => ∀ n budget, tokens.length < n →
      tokens.length < budget → selections (expression n) budget subject tokens = .ok (p, rest)
  | .arguments, tokens, arguments, rest => ∀ n budget, tokens.length < n →
      tokens.length < budget →
      many (startsWith .rightParen) (separated (expression n)) budget tokens =
        .ok (arguments, rest)
  | .primary, tokens, p, rest => ∀ n, tokens.length < n →
      primary (block n) tokens = .ok (p, rest)
  | .block, tokens, p, rest => ∀ n, tokens.length < n → block n tokens = .ok (p, rest)

/-- A repetition takes one more item if it does not stop in front of it. -/
theorem many_step {α : Type} {stop : Tokens → Bool} {item : Parser α} {budget : Nat}
    {tokens between rest : Tokens} {a : α} {items : List α} (hs : stop tokens = false)
    (hbudget : tokens.length < budget) (hlt : between.length < tokens.length)
    (ha : item tokens = .ok (a, between))
    (hmore : ∀ budget, between.length < budget →
      many stop item budget between = .ok (items, rest)) :
    many stop item budget tokens = .ok (a :: items, rest) := by
  cases budget with
  | zero => omega
  | succ budget =>
      exact (many_step_eq_ok hs).mpr ⟨a, between, items, ha, hmore budget (by omega), rfl⟩

theorem many_end {α : Type} {stop : Tokens → Bool} {item : Parser α} {budget : Nat}
    {tokens : Tokens} (hs : stop tokens = true) (hbudget : tokens.length < budget) :
    many stop item budget tokens = .ok ([], tokens) := by
  cases budget with
  | zero => omega
  | succ budget => exact many_stop budget hs

theorem Derivation.accepts {c : Category} {tokens rest : Tokens} {reading : c.Reading}
    (d : Derivation c tokens reading rest) : Accepts c tokens reading rest := by
  induction d with
  | @program stop tokens statements _ ih =>
      refine program_eq_ok.mpr ⟨statements, [], ?_, rfl⟩
      exact ih List.isEmpty _ _ (fun _ he => .inl (List.isEmpty_iff.mp he)) rfl
        (Nat.lt_succ_self _) (Nat.lt_succ_self _)
  | noStatement _ =>
      intro stop n budget _ hrest _ hbudget
      exact many_end hrest hbudget
  | moreStatements d _ first more =>
      intro stop n budget hstop hrest hn hbudget
      have hlt := d.length_lt trivial
      have hs := Bool.eq_false_iff.mpr fun hs => d.not_closed (hstop _ hs)
      exact many_step hs hbudget hlt (first n hn) fun budget hbudget =>
        more stop n budget hstop hrest (by omega) hbudget
  | ofStructureDef d ih =>
      intro n hn
      obtain ⟨token, further, rfl, hstarts⟩ := d.starts trivial
      have hs : startsWith .bullet (token :: further) = true :=
        isSymbol_iff.mpr (eq_of_beq hstarts)
      simp only [Parser.statement, hs, if_true]
      exact ih n hn
  | ofBind d ih =>
      intro n hn
      have hs := startsWith_eq_false (d.not_next trivial .bullet rfl)
      have hb := opensBind_iff.mpr d.opensBind
      simp only [Parser.statement, hs, Bool.false_eq_true, if_false, hb, if_true]
      exact ih true n hn
  | ofExpression hbind d ih =>
      intro n hn
      have hs := startsWith_eq_false (d.not_next trivial .bullet rfl)
      have hb := Bool.eq_false_iff.mpr fun hb => hbind (opensBind_iff.mp hb)
      simp only [Parser.statement, hs, hb, Bool.false_eq_true, if_false]
      exact ih n hn
  | structureDef dinputs _ inputs body =>
      intro n hn
      have hle := dinputs.length_le
      simp only [List.length_cons] at hn hle
      exact structureDef_eq_ok.mpr ⟨_, _, _, _, _, _, _, _, _, _, _, _, _, rfl,
        inputs n n (by omega) (by omega), body n (by omega), rfl⟩
  | noInput hnext =>
      intro n budget _ hbudget
      exact many_end (startsWith_iff.mpr hnext) hbudget
  | moreInputs d sep _ first more =>
      intro n budget hn hbudget
      have hlt := d.length_lt trivial
      have hle := sep.length_le
      exact many_step (startsWith_eq_false (d.not_next trivial .rightParen rfl)) hbudget (by omega)
        (separated_eq_ok.mpr ⟨_, first n hn, sep⟩)
        fun budget hbudget => more n budget (by omega) hbudget
  | noBody hopens =>
      intro n _
      exact body?_eq_ok.mpr (.inr ⟨hopens, rfl, rfl⟩)
  | ofBlock hopens _ ih =>
      intro n hn
      exact body?_eq_ok.mpr (.inl ⟨hopens, _, ih n hn, rfl⟩)
  | bind hdeclared _ ih =>
      intro required n hn
      have hle := hdeclared.length_le
      simp only [List.length_cons] at hn hle
      exact bind_eq_ok.mpr ⟨_, _, _, _, _, _, rfl, hdeclared,
        .inl ⟨_, _, _, _, rfl, ih n (by omega), rfl⟩⟩
  | valued _ ih => exact ih false
  | unvalued hdeclared hcolon =>
      intro n _
      exact bind_eq_ok.mpr ⟨_, _, _, _, _, _, rfl, hdeclared, .inr ⟨rfl, hcolon, rfl, rfl⟩⟩
  | conditional dcondition dyes _ condition yes no =>
      intro n hn
      have hcondition := dcondition.length_le
      have hyes := dyes.length_le
      simp only [List.length_cons] at hn hcondition hyes
      cases n with
      | zero => omega
      | succ n =>
          exact conditional_eq_ok.mpr ⟨_, _, _, _, _, _, _, _, _, _, _, _, rfl,
            condition n (by omega), yes n (by omega), no n (by omega), rfl⟩
  | ofTier d ih =>
      intro n hn
      cases n with
      | zero => omega
      | succ n =>
          have hs := startsWith_eq_false (d.not_next trivial .ifWord rfl)
          simp only [expression, expressionOver, hs, Bool.false_eq_true, if_false]
          exact ih n hn
  | joined d _ first more =>
      intro n hn
      have hlt := d.length_lt trivial
      exact andThen_eq_ok.mpr ⟨_, _, first n hn, more n n (by omega) (by omega)⟩
  | ofTighter ht _ ih =>
      intro n hn
      rw [tighterLevels_eq_cons ht]
      exact ih n hn
  | ofUnary ht _ ih =>
      intro n hn
      rw [tighterLevels_eq_nil ht]
      exact ih n hn
  | chainEnd hop =>
      intro n budget _ _
      exact chain_end budget _ hop
  | chainStep hop d _ first more =>
      intro n budget hn hbudget
      have hle := d.length_le
      simp only [List.length_cons] at hn hbudget
      cases budget with
      | zero => omega
      | succ budget =>
          exact (chain_step_eq_ok hop).mpr
            ⟨_, _, first n (by omega), more n budget (by omega) (by omega)⟩
  | prefixed hop _ ih =>
      intro n hn
      simp only [List.length_cons] at hn
      exact (prefixed_step_eq_ok hop).mpr ⟨_, ih n (by omega), rfl⟩
  | ofSelection d ih =>
      intro n hn
      rw [operandReader, prefixed_end d.not_nextUnary]
      exact ih n hn
  | selection d _ first more =>
      intro n hn
      have hlt := d.length_lt trivial
      exact andThen_eq_ok.mpr ⟨_, _, first (n + 1) hn, more n n (by omega) (by omega)⟩
  | selected hdot hopen =>
      intro n budget _ _
      exact selections_end budget _ hdot hopen
  | property _ ih =>
      intro n budget hn hbudget
      simp only [List.length_cons] at hn hbudget
      cases budget with
      | zero => omega
      | succ budget =>
          exact (selections_property_eq_ok ⟨_, _, _, rfl⟩).mpr
            ⟨_, _, _, _, _, _, rfl, ih n budget (by omega) (by omega)⟩
  | evaluate hadjacent d _ first more =>
      intro n budget hn hbudget
      have hle := d.length_le
      simp only [List.length_cons] at hn hbudget hle
      cases budget with
      | zero => omega
      | succ budget =>
          exact (selections_evaluate_eq_ok hadjacent).mpr
            ⟨_, _, _, _, first n budget (by omega) (by omega),
              more n budget (by omega) (by omega)⟩
  | noArgument hnext =>
      intro n budget _ hbudget
      exact many_end (startsWith_iff.mpr hnext) hbudget
  | moreArguments d sep _ first more =>
      intro n budget hn hbudget
      have hlt := d.length_lt trivial
      have hle := sep.length_le
      exact many_step (startsWith_eq_false (d.not_next trivial .rightParen rfl)) hbudget (by omega)
        (separated_eq_ok.mpr ⟨_, first n hn, sep⟩)
        fun budget hbudget => more n budget (by omega) hbudget
  | number | text | trueWord | falseWord | reference =>
      intro n _
      rfl
  | ofPrimaryBlock d ih =>
      intro n hn
      obtain ⟨token, further, rfl, hstarts⟩ := d.starts trivial
      have hk : token.kind = .symbol .leftParen := eq_of_beq hstarts
      simp only [primary, hk]
      exact ih n hn
  | block d ih =>
      intro n hn
      have hle := d.length_le
      simp only [List.length_cons] at hn hle
      cases n with
      | zero => omega
      | succ n =>
          exact blockOver_eq_ok.mpr ⟨_, _, _, _, _, _, rfl,
            ih closesBlock n n (fun _ hs => closesBlock_iff.mp hs) rfl (by omega) (by omega), rfl⟩

end Bindery.Grammar
