import Mathlib.Data.List.Chain
import Bindery.Proofs.Grammar.Errors

/-!
Calls of the reader. To read a part of the grammar, others have to be read, and a loop goes on
behind what it has read. With each call a token is taken, or a part is called that stands lower in
the grammar, so calls are nested only so deep and loops have only so many rounds. Nothing is tried
again: where a call is refused, so is the caller.
-/

namespace Bindery.Grammar
open Bindery.Parser

/-- A part of the grammar that is to be read from some tokens. -/
structure Task where
  part : Category
  tokens : Tokens

/-- To read the one, the other has to be read: a reader calls another, or a loop goes on behind what
it has read. The loop of a program goes on where a block would end. -/
inductive Task.Calls : Task → Task → Prop
  | ofProgram {stop tokens} : tokens ≠ [] → Task.Calls ⟨.program stop, tokens⟩ ⟨.statement, tokens⟩
  | moreOfProgram {stop tokens p between} : Derivation .statement tokens p between →
      Task.Calls ⟨.program stop, tokens⟩ ⟨.program stop, between⟩
  | seeks {c tokens c' tokens'} : (∀ stop, c ≠ .program stop) → Seeks c tokens c' tokens' →
      Task.Calls ⟨c, tokens⟩ ⟨c', tokens'⟩

/-- Where a level of operators stands, the tightest at the bottom. -/
def Tier.height : Tier → Nat
  | .product => 0
  | .sum => 1
  | .comparison => 2
  | .equality => 3
  | .conjunction => 4
  | .disjunction => 5

theorem Tier.height_of_tighter? {tier tighter : Tier} (h : tier.tighter? = some tighter) :
    tier.height = tighter.height + 1 := by
  cases tier <;> cases h <;> rfl

/-- How far a part of the grammar stands above those that are read before a token is taken. -/
def Category.rank : Category → Nat
  | .block | .structureDef | .input | .bind | .chain .. | .selections _ => 0
  | .primary | .body | .inputs => 1
  | .selection => 2
  | .unary => 3
  | .operand t => 2 * t.height + 4
  | .tier t => 2 * t.height + 5
  | .expression => 16
  | .arguments | .statement => 17
  | .statements => 18
  | .program _ => 19

theorem Category.rank_le (c : Category) : c.rank ≤ 19 := by
  cases c with
  | operand t | tier t => cases t <;> decide
  | _ => simp only [rank]; omega

/-- With each call this gets smaller: a token is taken, or the part that is called stands lower. -/
def Task.measure (task : Task) : Nat := 20 * task.tokens.length + task.part.rank

theorem Seeks.shorter_or_lower {c c' : Category} {tokens tokens' : Tokens}
    (h : Seeks c tokens c' tokens') :
    tokens'.length < tokens.length ∨ tokens' = tokens ∧ c'.rank < c.rank := by
  cases h with
  | program | firstStatement | ofStructureDef | ofBind | ofExpression | firstInput | body | ofTier
  | firstOperand | ofSelection | subject | firstArgument | primary =>
      exact .inr ⟨rfl, by simp only [Category.rank, Tier.height]; omega⟩
  | ofUnary => exact .inr ⟨rfl, by simp only [Category.rank]; omega⟩
  | moreStatements d | joined d | selection d => exact .inl (d.length_lt trivial)
  | structureInputs | condition | nextOperand | prefixed | property | arguments | block =>
      exact .inl (by simp only [List.length_cons]; omega)
  | structureBody d | yes d | chainStep _ d | evaluate _ d =>
      have hle := d.length_le
      exact .inl (by simp only [List.length_cons] at *; omega)
  | value _ hdeclared =>
      have hle := hdeclared.length_le
      exact .inl (by simp only [List.length_cons] at *; omega)
  | no d d' =>
      have hle := d.length_le
      have hle' := d'.length_le
      exact .inl (by simp only [List.length_cons] at *; omega)
  | moreInputs d sep | moreArguments d sep =>
      exact .inl (Nat.lt_of_le_of_lt sep.length_le (d.length_lt trivial))
  | ofTighter ht =>
      refine .inr ⟨rfl, ?_⟩
      simp only [Category.rank, Tier.height_of_tighter? ht]
      omega

namespace Task.Calls

variable {task task' : Task}

/-- With each call a token is taken, or a part is called that stands lower. -/
theorem measure_lt (h : task.Calls task') : task'.measure < task.measure := by
  cases h with
  | ofProgram => simp only [Task.measure, Category.rank]; omega
  | moreOfProgram d =>
      have hlt := d.length_lt trivial
      simp only [Task.measure]
      omega
  | @seeks c _ c' _ _ h =>
      have hrank := c'.rank_le
      simp only [Task.measure]
      rcases h.shorter_or_lower with hlt | ⟨rfl, hlt⟩ <;> omega

theorem suffix (h : task.Calls task') : task'.tokens <:+ task.tokens := by
  cases h with
  | ofProgram => exact List.suffix_refl _
  | moreOfProgram d => exact d.suffix
  | seeks _ h =>
      obtain ⟨front, heq, -⟩ := h.refit
      exact ⟨front, heq.symm⟩

/-- A part that is read only where it is announced is called only there. -/
theorem announced (h : task.Calls task') : task'.part.Announced task'.tokens := by
  cases h with
  | ofProgram | moreOfProgram => trivial
  | seeks _ h =>
      cases h with
      | ofStructureDef hannounced | ofBind hannounced | primary hannounced => exact hannounced
      | body hopens =>
          obtain ⟨span, layout, rest, rfl, -⟩ := hopens
          exact ⟨span, layout, rest, rfl⟩
      | _ => trivial

/-- Nothing is tried again: where a call is refused, so is the caller. -/
theorem refuses {complaint : Complaint} {rest : Tokens} (h : task.Calls task')
    (hrefuses : Refuses task'.part task'.tokens complaint rest) :
    Refuses task.part task.tokens complaint rest := by
  cases h with
  | @ofProgram stop tokens hne =>
      by_cases hnext : Next .rightParen tokens
      · -- No statement starts with the parenthesis, so it is what was refused.
        have hfails : Parser.statement _ (expression _) (block _) tokens = .error ⟨_, _⟩ :=
          hrefuses.rejects (tokens.length + 1) (Nat.lt_succ_self _)
        rw [statement_of_rightParen hnext] at hfails
        cases hfails
        exact .here (.program (.noStatement (.inr hnext)) hnext)
      · exact .further .program
          (.further (.firstStatement (not_or.mpr ⟨hne, hnext⟩)) hrefuses)
  | moreOfProgram d =>
      cases hrefuses with
      | here h =>
          cases h with
          | program d' hnext => exact .here (.program (.moreStatements d d') hnext)
          | type hbinds => rcases hbinds with h | h <;> cases h
      | further h hrefuses =>
          cases h with
          | program => exact .further .program (.further (.moreStatements d) hrefuses)
          | value hbinds => rcases hbinds with h | h <;> cases h
  | seeks _ h => exact .further h hrefuses

end Task.Calls

/-- Calls are nested, and loops go on, only so often. -/
theorem length_le_measure {task : Task} {tasks : List Task}
    (h : (task :: tasks).IsChain Task.Calls) : tasks.length ≤ task.measure := by
  induction tasks generalizing task with
  | nil => exact Nat.zero_le _
  | cons next tasks ih =>
      obtain ⟨hcalls, hmore⟩ := List.isChain_cons_cons.mp h
      exact Nat.succ_le_of_lt (Nat.lt_of_le_of_lt (ih hmore) hcalls.measure_lt)

/-- The parts that are loops: each round of one is a call of the part itself. -/
def Category.Loops : Category → Prop
  | .program _ | .statements | .inputs | .arguments | .chain .. | .selections _ => True
  | _ => False

/-- From one round to the next, at least one token is taken. -/
theorem Task.Calls.length_lt_of_loops {task task' : Task} (h : task.Calls task')
    (hloops : task.part.Loops) (hloops' : task'.part.Loops) :
    task'.tokens.length < task.tokens.length := by
  cases h with
  | ofProgram => cases hloops'
  | moreOfProgram d => exact d.length_lt trivial
  | seeks hprogram h =>
      refine h.shorter_or_lower.resolve_right fun ⟨_, hrank⟩ => ?_
      cases h with
      | program => exact hprogram _ rfl
      | moreStatements | moreInputs | chainStep | property | evaluate | moreArguments =>
          exact Nat.lt_irrefl _ hrank
      | arguments => exact Nat.not_lt_zero _ hrank
      | _ => first | exact hloops | exact hloops'

end Bindery.Grammar
