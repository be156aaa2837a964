import Mathlib.Logic.Relation
import Bindery.Proofs.Grammar.Calls
import Bindery.Proofs.Grammar.Cursor
import Bindery.Proofs.Grammar.Program
import Bindery.Proofs.Grammar.Rows

/-!
Progress of the reader. Every reader that is called comes to an end, and no budget is ever used up:
under all that exceed the tokens it comes to the same. It leaves the tokens from some place on, and
fewer than it found if it is one of those that have to take a token; what it reads then stops where
the last of these ends. A program is read when every token has been taken by one step of its
derivation.
-/

namespace Bindery

namespace Grammar
open Bindery.Parser

/-- The reader of a part of the grammar. Readers that it calls have a budget, and if it is a loop it
has at most so many rounds. -/
def readerOf : (c : Category) → (budget rounds : Nat) → Parser c.Reading
  | .program stop, n, rounds => do
    let statements ← many List.isEmpty (Parser.statement n (expression n) (block n)) rounds
    return .block ⟨0, stop⟩ statements
  | .statements, n, rounds =>
    many closesBlock (Parser.statement n (expression n) (block n)) rounds
  | .statement, n, _ => Parser.statement n (expression n) (block n)
  | .structureDef, n, _ => Parser.structureDef n (expression n) (block n)
  | .inputs, n, rounds =>
    many (startsWith .rightParen) (separated (Parser.bind false (expression n))) rounds
  | .input, n, _ => Parser.bind false (expression n)
  | .bind, n, _ => Parser.bind true (expression n)
  | .body, n, _ => body? (block n)
  | .expression, n, _ => expression n
  -- Parts between an expression and its primaries have the budget of what the expression calls.
  | .tier t, n, _ => operation (n - 1) (operandReader (n - 1)) (level t :: tighterLevels t)
  | .operand t, n, _ => operation (n - 1) (operandReader (n - 1)) (tighterLevels t)
  | .chain t left, n, rounds =>
    chain (level t) (operation (n - 1) (operandReader (n - 1)) (tighterLevels t)) rounds left
  | .unary, n, _ => operandReader (n - 1)
  | .selection, n, _ => Parser.selection (n - 1) (expression (n - 1)) (block (n - 1 + 1))
  | .selections subject, n, rounds => selections (expression n) rounds subject
  | .arguments, n, rounds => many (startsWith .rightParen) (separated (expression n)) rounds
  | .primary, n, _ => primary (block n)
  | .block, n, _ => block n

theorem program_eq_reader (tokens : Tokens) (stop : Nat) :
    Parser.program tokens stop =
      (readerOf (.program stop) (tokens.length + 1) (tokens.length + 1) tokens).map
        Prod.fst := by
  rw [Parser.program, readerOf, andThen_run, Parser.statements]
  cases many List.isEmpty _ _ tokens <;> rfl

variable {c : Category} {tokens rest : Tokens} {reading : c.Reading} {complaint : Complaint}

/-- The reader comes to this, whatever the budget and the number of rounds, if they exceed the
tokens. -/
def Reads (c : Category) (tokens : Tokens) (outcome : Except Failure (c.Reading × Tokens)) : Prop :=
  ∀ budget rounds, tokens.length < budget → tokens.length < rounds →
    readerOf c budget rounds tokens = outcome

theorem Derivation.reads (d : Derivation c tokens reading rest) :
    Reads c tokens (.ok (reading, rest)) := by
  intro n rounds hn hrounds
  have haccepts := d.accepts
  cases c with
  | program stop =>
      cases d with
      | program d =>
          have h := d.accepts List.isEmpty n rounds (fun _ he => .inl (List.isEmpty_iff.mp he)) rfl
            hn hrounds
          exact andThen_eq_ok.mpr ⟨_, _, h, rfl⟩
  | statements =>
      exact haccepts closesBlock n rounds (fun _ hs => closesBlock_iff.mp hs)
        (closesBlock_iff.mpr d.allows) hn hrounds
  | bind => exact haccepts true n hn
  | statement | structureDef | input | body | expression | primary | block => exact haccepts n hn
  | inputs | arguments | selections subject => exact haccepts n rounds hn hrounds
  | tier | operand | unary | selection => exact haccepts (n - 1) (by omega)
  | chain t left => exact haccepts (n - 1) rounds (by omega) hrounds

theorem Refuses.reads (h : Refuses c tokens complaint rest) :
    Reads c tokens (.error ⟨complaint, rest⟩) := by
  intro n rounds hn hrounds
  have hrejects := h.rejects
  cases c with
  | program stop =>
      refine andThen_eq_error.mpr (.inl ?_)
      cases h with
      | here h =>
          cases h with
          | program d hnext => exact many_statements_of_rightParen d hnext hn rounds hrounds
          | type hbinds => rcases hbinds with h | h <;> cases h
      | further h hrefuses =>
          cases h with
          | program =>
              exact hrefuses.rejects List.isEmpty n rounds
                (fun _ he => .inl (List.isEmpty_iff.mp he)) hn hrounds
          | value hbinds => rcases hbinds with h | h <;> cases h
  | statements =>
      exact hrejects closesBlock n rounds (fun _ hs => closesBlock_iff.mp hs) hn hrounds
  | statement | structureDef | input | bind | body | expression | primary | block =>
      exact hrejects n hn
  | inputs | arguments | selections subject => exact hrejects n rounds hn hrounds
  | tier | operand | unary | selection => exact hrejects (n - 1) (by omega)
  | chain t left => exact hrejects (n - 1) rounds (by omega) hrounds

section
variable {n : Nat}

theorem operand_sound {operand : Parser Phrase} (hO : SoundBelow (n + 1) .unary operand)
    (tier : Tier) :
    SoundBelow (n + 1) (.operand tier) (operation n operand (tighterLevels tier)) := by
  intro tokens p rest hlt h
  cases ht : tier.tighter? with
  | some tighter =>
      rw [tighterLevels_eq_cons ht] at h
      obtain ⟨d⟩ := operation_sound hO tighter tokens p rest hlt h
      exact ⟨.ofTighter ht d⟩
  | none =>
      rw [tighterLevels_eq_nil ht] at h
      obtain ⟨d⟩ := hO tokens p rest hlt h
      exact ⟨.ofUnary ht d⟩

theorem operand_refused {operand : Parser Phrase} (sO : SoundBelow (n + 1) .unary operand)
    (hO : RefusedBelow (n + 1) .unary operand) (tier : Tier) :
    RefusedBelow (n + 1) (.operand tier) (operation n operand (tighterLevels tier)) := by
  intro tokens failure hlt _ h
  cases ht : tier.tighter? with
  | some tighter =>
      rw [tighterLevels_eq_cons ht] at h
      exact .further (.ofTighter ht) (operation_refused sO hO tighter tokens failure hlt trivial h)
  | none =>
      rw [tighterLevels_eq_nil ht] at h
      exact .further (.ofUnary ht) (hO tokens failure hlt trivial h)

end

/-- What a reader comes to with enough rounds, the grammar derives. -/
theorem readerOf_sound (h : readerOf c (tokens.length + 1) (tokens.length + 1) tokens =
    .ok (reading, rest)) : Nonempty (Derivation c tokens reading rest) := by
  have hlt := Nat.lt_succ_self tokens.length
  obtain ⟨hE, hB⟩ := nested_sound (tokens.length + 1)
  obtain ⟨hE', -⟩ := nested_sound tokens.length
  have hselection := selection_sound hE' hB
  have hunary := prefixed_sound hselection
  cases c with
  | program stop =>
      obtain ⟨statements, between, h, hpure⟩ := andThen_eq_ok.mp h
      cases hpure
      obtain ⟨⟨d⟩, hrest⟩ := statements_sound hE hB List.isEmpty
        (fun _ he => .inl (List.isEmpty_iff.mp he)) _ tokens statements rest hlt hlt h
      obtain rfl := List.isEmpty_iff.mp hrest
      exact ⟨.program d⟩
  | statements =>
      exact (statements_sound hE hB closesBlock (fun _ hs => closesBlock_iff.mp hs) _ tokens reading
        rest hlt hlt h).1
  | statement => exact statement_sound hE hB tokens reading rest hlt h
  | structureDef => exact structureDef_sound hE hB tokens reading rest hlt h
  | inputs => exact inputs_sound hE _ tokens reading rest hlt hlt h
  | input => exact (bind_sound false hE).1 tokens reading rest hlt h
  | bind => exact (bind_sound true hE).2 tokens reading rest hlt h
  | body =>
      obtain ⟨hopens, p, hp, rfl⟩ | ⟨hopens, rfl, rfl⟩ := body?_eq_ok.mp h
      · obtain ⟨d⟩ := hB tokens p rest hlt hp
        exact ⟨.ofBlock hopens d⟩
      · exact ⟨.noBody hopens⟩
  | expression => exact hE tokens reading rest hlt h
  | tier t => exact operation_sound hunary t tokens reading rest hlt h
  | operand t => exact operand_sound hunary t tokens reading rest hlt h
  | chain t left =>
      exact chain_sound (operand_sound hunary t) _ left tokens reading rest hlt hlt h
  | unary => exact hunary tokens reading rest hlt h
  | selection => exact hselection tokens reading rest hlt h
  | selections subject => exact selections_sound hE _ subject tokens reading rest hlt hlt h
  | arguments => exact arguments_sound hE _ tokens reading rest hlt hlt h
  | primary => exact primary_sound hB tokens reading rest hlt h
  | block => exact hB tokens reading rest hlt h

/-- What a reader fails on with enough rounds, the grammar refuses. -/
theorem readerOf_refused {failure : Failure} (hannounced : c.Announced tokens)
    (h : readerOf c (tokens.length + 1) (tokens.length + 1) tokens = .error failure) :
    Refuses c tokens failure.complaint failure.rest := by
  have hlt := Nat.lt_succ_self tokens.length
  obtain ⟨sE, sB⟩ := nested_sound (tokens.length + 1)
  obtain ⟨sE', -⟩ := nested_sound tokens.length
  obtain ⟨hE, hB⟩ := nested_refused (tokens.length + 1)
  obtain ⟨hE', -⟩ := nested_refused tokens.length
  have sselection := selection_sound sE' sB
  have sunary := prefixed_sound sselection
  have hselection := selection_refused sE' hE' sB hB
  have hunary := prefixed_refused hselection
  cases c with
  | program stop =>
      refine program_refused ?_
      rw [program_eq_reader, h]
      rfl
  | statements => exact statements_refused sE hE hB sB hlt hlt h
  | statement => exact statement_refused sE hE hB tokens failure hlt trivial h
  | structureDef => exact structureDef_refused sE hE hB tokens failure hlt hannounced h
  | inputs => exact inputs_refused sE hE hlt hlt (untilClosed_eq_error.mpr (.inl h))
  | input => exact bind_refused hE (.inr ⟨rfl, rfl⟩) hlt h
  | bind => exact bind_refused hE (.inl ⟨rfl, rfl, hannounced⟩) hlt h
  | body =>
      obtain ⟨hopens, hblock⟩ := body?_eq_error.mp h
      have hparen : Next .leftParen tokens := by
        obtain ⟨span, layout, rest, rfl, -⟩ := hopens
        exact ⟨span, layout, rest, rfl⟩
      exact .further (.body hopens) (hB tokens failure hlt hparen hblock)
  | expression => exact hE tokens failure hlt trivial h
  | tier t => exact operation_refused sunary hunary t tokens failure hlt trivial h
  | operand t => exact operand_refused sunary hunary t tokens failure hlt trivial h
  | chain t left =>
      exact chain_refused (operand_sound sunary t) (operand_refused sunary hunary t) _ left tokens
        failure hlt hlt h
  | unary => exact hunary tokens failure hlt trivial h
  | selection => exact hselection tokens failure hlt trivial h
  | selections subject => exact selections_refused sE hE _ subject tokens failure hlt hlt h
  | arguments => exact arguments_refused sE hE hlt hlt (untilClosed_eq_error.mpr (.inl h))
  | primary => exact primary_refused hB tokens failure hlt trivial h
  | block => exact hB tokens failure hlt hannounced h

/-- A reader that is called comes to an end, and budgets and rounds have no part in it. -/
theorem derived_or_refused (hannounced : c.Announced tokens) :
    (∃ reading rest, Nonempty (Derivation c tokens reading rest)) ∨
      ∃ complaint rest, Refuses c tokens complaint rest := by
  cases h : readerOf c (tokens.length + 1) (tokens.length + 1) tokens with
  | ok result => exact .inl ⟨result.1, result.2, readerOf_sound h⟩
  | error failure => exact .inr ⟨_, _, readerOf_refused hannounced h⟩

/-- The comma that may follow an input or an argument. -/
def separatorIn (tokens : Tokens) : Tokens :=
  if startsWith .comma tokens then tokens.take 1 else []

/-- The bullet and the type that may follow a declared name. -/
def declarationIn (tokens : Tokens) : Tokens :=
  if startsWith .bullet tokens then tokens.take 2 else []

theorem Separated.taken_append {tokens rest : Tokens} (h : Separated tokens rest) :
    separatorIn tokens ++ rest = tokens := by
  cases h with
  | comma => rfl
  | bare hno =>
      rw [separatorIn, startsWith_eq_false hno, if_neg Bool.false_ne_true, List.nil_append]

theorem Declares.taken_append {tokens rest : Tokens} {declared : Option (DeclaredType × Nat)}
    (h : Declares tokens declared rest) : declarationIn tokens ++ rest = tokens := by
  cases h with
  | untyped hno =>
      rw [declarationIn, startsWith_eq_false hno, if_neg Bool.false_ne_true, List.nil_append]
  | typed => rfl

/-- The tokens that the steps of a derivation take, in the order of the steps. -/
def Derivation.taken {c : Category} {tokens rest : Tokens} {reading : c.Reading} :
    Derivation c tokens reading rest → Tokens
  | .program d | .ofStructureDef d | .ofBind d | .ofExpression _ d | .ofBlock _ d | .valued d
  | .ofTier d | .ofTighter _ d | .ofUnary _ d | .ofSelection d | .ofPrimaryBlock d => d.taken
  | .noStatement _ | .noInput _ | .noBody _ | .chainEnd _ | .selected _ _ | .noArgument _ => []
  | .moreStatements d d' | .joined d d' | .selection d d' => d.taken ++ d'.taken
  | @structureDef start startLayout name nameSpan nameLayout openSpan openLayout close closeLayout
      _ _ _ _ _ d d' =>
    [⟨.symbol .bullet, start, startLayout⟩, ⟨.identifier name, nameSpan, nameLayout⟩,
      ⟨.symbol .leftParen, openSpan, openLayout⟩] ++ d.taken ++
      [⟨.symbol .rightParen, close, closeLayout⟩] ++ d'.taken
  | @moreInputs _ _ afterInput _ _ _ d _ d' => d.taken ++ separatorIn afterInput ++ d'.taken
  | @moreArguments _ _ afterArgument _ _ _ d _ d' =>
    d.taken ++ separatorIn afterArgument ++ d'.taken
  | @bind name nameSpan nameLayout tokens _ colon colonLayout _ _ _ _ d =>
    [⟨.identifier name, nameSpan, nameLayout⟩] ++ declarationIn tokens ++
      [⟨.symbol .colon, colon, colonLayout⟩] ++ d.taken
  | @unvalued name nameSpan nameLayout tokens _ _ _ _ =>
    [⟨.identifier name, nameSpan, nameLayout⟩] ++ declarationIn tokens
  | @conditional start startLayout thenSpan thenLayout elseSpan elseLayout _ _ _ _ _ _ _ d d' d'' =>
    [⟨.symbol .ifWord, start, startLayout⟩] ++ d.taken ++
      [⟨.symbol .thenWord, thenSpan, thenLayout⟩] ++ d'.taken ++
      [⟨.symbol .elseWord, elseSpan, elseLayout⟩] ++ d''.taken
  | @chainStep _ _ symbol _ span layout _ _ _ _ _ _ d d' =>
    [⟨.symbol symbol, span, layout⟩] ++ d.taken ++ d'.taken
  | @prefixed symbol _ span layout _ _ _ _ d => [⟨.symbol symbol, span, layout⟩] ++ d.taken
  | @property _ dot dotLayout member memberSpan memberLayout _ _ _ d =>
    [⟨.symbol .dot, dot, dotLayout⟩, ⟨.identifier member, memberSpan, memberLayout⟩] ++ d.taken
  | @evaluate _ openSpan openLayout close closeLayout _ _ _ _ _ _ d d' =>
    [⟨.symbol .leftParen, openSpan, openLayout⟩] ++ d.taken ++
      [⟨.symbol .rightParen, close, closeLayout⟩] ++ d'.taken
  | @number bits span layout _ => [⟨.number bits, span, layout⟩]
  | @text content span layout _ => [⟨.text content, span, layout⟩]
  | @trueWord span layout _ => [⟨.symbol .trueWord, span, layout⟩]
  | @falseWord span layout _ => [⟨.symbol .falseWord, span, layout⟩]
  | @reference name span layout _ => [⟨.identifier name, span, layout⟩]
  | @block openSpan openLayout close closeLayout _ _ _ d =>
    [⟨.symbol .leftParen, openSpan, openLayout⟩] ++ d.taken ++
      [⟨.symbol .rightParen, close, closeLayout⟩]

theorem Derivation.taken_append (d : Derivation c tokens reading rest) :
    d.taken ++ rest = tokens := by
  induction d with
  | noStatement _ | noInput _ | noBody _ | chainEnd _ | selected _ _ | noArgument _ | number | text
  | trueWord | falseWord | reference => rfl
  | program _ ih | ofStructureDef _ ih | ofBind _ ih | ofExpression _ _ ih | ofBlock _ _ ih
  | valued _ ih | ofTier _ ih | ofTighter _ _ ih | ofUnary _ _ ih | ofSelection _ ih
  | ofPrimaryBlock _ ih => exact ih
  | moreStatements _ _ ih ih' | joined _ _ ih ih' | selection _ _ ih ih' =>
      rw [taken, List.append_assoc, ih', ih]
  | moreInputs _ sep _ ih ih' | moreArguments _ sep _ ih ih' =>
      rw [taken, List.append_assoc, List.append_assoc, ih', sep.taken_append, ih]
  | structureDef _ _ ih ih' =>
      simp only [taken, List.append_assoc, List.cons_append, List.nil_append, ih', ih]
  | bind declares _ ih =>
      simp only [taken, List.append_assoc, List.cons_append, List.nil_append, ih,
        declares.taken_append]
  | unvalued declares _ =>
      simp only [taken, List.cons_append, List.nil_append, declares.taken_append]
  | conditional _ _ _ ih ih' ih'' =>
      simp only [taken, List.append_assoc, List.cons_append, List.nil_append, ih'', ih', ih]
  | chainStep _ _ _ ih ih' | evaluate _ _ _ ih ih' =>
      simp only [taken, List.append_assoc, List.cons_append, List.nil_append, ih', ih]
  | prefixed _ _ ih | property _ ih | block _ ih =>
      simp only [taken, List.append_assoc, List.cons_append, List.nil_append, ih]

end Grammar

/-- What covers the tokens that a cursor took last stops where the cursor recalls. -/
theorem Cursor.Recalls.stop_eq {cursor : Cursor} {tokens : Grammar.Tokens} {span : Span}
    (h : cursor.Recalls) (htokens : tokens <:+ cursor.list.tokens)
    (hspans : Grammar.Spans tokens cursor.left span) : span.stop = cursor.previousStop := by
  obtain ⟨front, hfront⟩ := htokens
  obtain ⟨used, rfl, -, hstop⟩ := hspans
  have htaken : cursor.taken = front ++ used := by
    refine List.append_cancel_right (cursor.taken_append_left.trans ?_)
    rw [List.append_assoc, hfront]
  rw [h, htaken, List.getLast?_append, Option.map_or, hstop]
  rfl

namespace TokenList
open Bindery.Grammar Bindery.Parser

/-- These are the tokens from a cursor of the list on, which is not past the end. -/
def StandsAt (list : TokenList Name) (tokens : Tokens) : Prop :=
  ∃ cursor : Cursor, cursor.list = list ∧ cursor.InBounds ∧ cursor.Recalls ∧ cursor.left = tokens

/-- All tokens are to be read as a program. -/
def whole (list : TokenList Name) : Task := ⟨.program list.endMark.offset, list.tokens⟩

/-- The task comes up when the list is read. -/
def Reaches (list : TokenList Name) (task : Task) : Prop :=
  Relation.ReflTransGen Task.Calls list.whole task

variable {list : TokenList Name} {task : Task}

theorem Reaches.suffix (h : list.Reaches task) : task.tokens <:+ list.tokens := by
  induction h with
  | refl => exact List.suffix_refl _
  | tail _ hcalls ih => exact hcalls.suffix.trans ih

theorem Reaches.announced (h : list.Reaches task) : task.part.Announced task.tokens := by
  rcases h.cases_tail with rfl | ⟨caller, -, hcalls⟩
  · trivial
  · exact hcalls.announced

theorem Reaches.refuses {complaint : Complaint} {rest : Tokens} (h : list.Reaches task)
    (hrefuses : Refuses task.part task.tokens complaint rest) :
    Refuses (.program list.endMark.offset) list.tokens complaint rest := by
  induction h with
  | refl => exact hrefuses
  | tail _ hcalls ih => exact ih (hcalls.refuses hrefuses)

theorem parse_eq_error_of_refuses {complaint : Complaint} {rest : Tokens} (interner : Interner)
    (h : Refuses (.program list.endMark.offset) list.tokens complaint rest) :
    list.parse interner =
      .error (Failure.toParseError ⟨complaint, rest⟩ list.endMark interner) := by
  have hprogram : Parser.program list.tokens list.endMark.offset = .error ⟨complaint, rest⟩ :=
    program_eq_error_iff.mpr h
  rw [parse, hprogram]
  rfl

/-- What holds of all readers that are called while a token list is read. -/
structure Progresses (list : TokenList Name) (interner : Interner) : Prop where
  /-- The list is read by the reader of programs. -/
  begins : list.parse interner =
    (((readerOf list.whole.part (list.tokens.length + 1) (list.tokens.length + 1)
      list.whole.tokens).map Prod.fst).mapError (·.toParseError list.endMark interner))
  /-- Calls are nested, and loops go on, only so often. -/
  bounded : ∀ tasks, (list.whole :: tasks).IsChain Task.Calls →
    tasks.length ≤ 20 * list.tokens.length + 19
  /-- The first cursor stands at the first token. -/
  starts : Cursor.InBounds { list } ∧ Cursor.Recalls { list } ∧
    Cursor.left { list } = list.whole.tokens
  /-- Every call is made at a token of the list or at its end. -/
  inBounds : ∀ task, list.Reaches task → list.StandsAt task.tokens
  /-- A cursor that is not past the end does not pass it. -/
  moves : ∀ cursor : Cursor, cursor.list = list → cursor.InBounds → cursor.Moves
  /-- Every reader that is called comes to an end under all budgets, and if it succeeds at a part
  that takes a token, fewer are left. -/
  settles : ∀ task, list.Reaches task →
    (∃ reading rest, Reads task.part task.tokens (.ok (reading, rest)) ∧ list.StandsAt rest ∧
      rest.length ≤ task.tokens.length ∧
      (task.part.Consumes → rest.length < task.tokens.length)) ∨
    ∃ failure, Reads task.part task.tokens (.error failure) ∧ list.StandsAt failure.rest
  /-- Where the tokens stand in order, as those of a text do (`ordered_nameTokens`), the span of what
  takes tokens stops where the cursor behind it says that the last token ended. Binds and structures
  stop there whatever they end with. -/
  stops : Ordered list.tokens → ∀ task (reading : task.part.Reading) (cursor : Cursor),
    list.Reaches task → task.part.Consumes → cursor.list = list → cursor.Recalls →
    Reads task.part task.tokens (.ok (reading, cursor.left)) →
    ∀ p ∈ task.part.phrases reading, p.span.stop = cursor.previousStop
  /-- From one round of a loop to the next, at least one token is taken. -/
  rounds : ∀ task task', list.Reaches task → task.Calls task' → task.part.Loops →
    task'.part.Loops → task'.tokens.length < task.tokens.length
  /-- Nothing is tried again: the failure of a call is that of the whole. -/
  fails : ∀ task failure, list.Reaches task → Reads task.part task.tokens (.error failure) →
    list.parse interner = .error (failure.toParseError list.endMark interner)
  /-- Inputs that are not closed end with an error at the end of the input. -/
  unclosedInputs : Reads .inputs [] (.error ⟨.expected .identifier, []⟩) ∧
    (list.Reaches ⟨.inputs, []⟩ → list.parse interner =
      .error (.unexpectedToken "identifier" endOfInput list.endMark.span))
  /-- So do arguments. -/
  unclosedArguments : Reads .arguments [] (.error ⟨.expected .expression, []⟩) ∧
    (list.Reaches ⟨.arguments, []⟩ → list.parse interner =
      .error (.unexpectedToken "expression" endOfInput list.endMark.span))
  /-- If the list is a program, nothing is left, and each token was taken once. -/
  completes : ∀ p, list.parse interner = .ok p →
    Reads list.whole.part list.whole.tokens (.ok (p, [])) ∧
    ∃ d : Derivation list.whole.part list.whole.tokens p [], d.taken = list.tokens

theorem parse_progresses (list : TokenList Name) (interner : Interner) :
    list.Progresses interner := by
  have fails (task : Task) (failure : Failure) (hreaches : list.Reaches task)
      (hreads : Reads task.part task.tokens (.error failure)) :
      list.parse interner = .error (failure.toParseError list.endMark interner) := by
    have hrefuses := readerOf_refused hreaches.announced
      (hreads _ _ (Nat.lt_succ_self _) (Nat.lt_succ_self _))
    exact parse_eq_error_of_refuses interner (hreaches.refuses hrefuses)
  have stands {tokens rest : Tokens} (htokens : tokens <:+ list.tokens) (hrest : rest <:+ tokens) :
      list.StandsAt rest := Cursor.exists_of_suffix (hrest.trans htokens)
  exact {
    begins := by
      rw [parse, program_eq_reader]
      rfl
    bounded := fun _ => length_le_measure
    starts := ⟨Nat.zero_le _, Cursor.recalls_start list, rfl⟩
    inBounds := fun task hreaches => stands hreaches.suffix (List.suffix_refl _)
    moves := fun cursor _ h => h.moves
    settles := fun task hreaches => by
      rcases derived_or_refused hreaches.announced with
        ⟨reading, rest, ⟨d⟩⟩ | ⟨complaint, rest, hrefuses⟩
      · exact .inl ⟨reading, rest, d.reads, stands hreaches.suffix d.suffix, d.length_le,
          d.length_lt⟩
      · obtain ⟨used, heq, -⟩ := hrefuses.refit
        exact .inr ⟨_, hrefuses.reads, stands hreaches.suffix ⟨used, heq.symm⟩⟩
    stops := fun hordered task reading cursor hreaches hconsumes hlist hrecalls hreads p hp => by
      obtain ⟨d⟩ := readerOf_sound (hreads _ _ (Nat.lt_succ_self _) (Nat.lt_succ_self _))
      have hsuffix := hreaches.suffix
      refine hrecalls.stop_eq (hlist ▸ hsuffix) ?_
      exact d.spans_of_consumes hconsumes (hordered.suffix hsuffix) p hp
    rounds := fun _ _ _ hcalls => hcalls.length_lt_of_loops
    fails := fails
    unclosedInputs := by
      have hreader : readerOf .inputs 1 1 [] = .error ⟨.expected .identifier, []⟩ := rfl
      have hannounced : Category.Announced .inputs [] := trivial
      have hrefuses := readerOf_refused hannounced hreader
      exact ⟨hrefuses.reads, fun hreaches => fails _ _ hreaches hrefuses.reads⟩
    unclosedArguments := by
      have hreader : readerOf .arguments 1 1 [] = .error ⟨.expected .expression, []⟩ := rfl
      have hannounced : Category.Announced .arguments [] := trivial
      have hrefuses := readerOf_refused hannounced hreader
      exact ⟨hrefuses.reads, fun hreaches => fails _ _ hreaches hrefuses.reads⟩
    completes := fun p hparse => by
      obtain ⟨d⟩ := program_sound (parse_eq_ok_iff.mp hparse)
      exact ⟨d.reads, d, (List.append_nil _).symm.trans d.taken_append⟩ }

end TokenList
end Bindery
