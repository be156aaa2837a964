import Bindery.Phrase.Cursor
import Bindery.Proofs.Grammar.Readers

/-!
Cursors and readers. A reader sees a cursor as the tokens from the current one on, and what it takes
from their front the cursor takes by moving on. Since the cursor does not move at the end of the
input, its position never passes the end, and it always recalls where the last token ends that it
took.
-/

namespace Bindery.Cursor
open Bindery.Parser Bindery.Grammar

variable {α : Type} {cursor : Cursor}

/-- The position is that of a token or of the end of the input. -/
def InBounds (cursor : Cursor) : Prop := cursor.position ≤ cursor.list.tokens.length

/-- The tokens before the current one. -/
def taken (cursor : Cursor) : Tokens := cursor.list.tokens.take cursor.position

/-- The cursor knows where the token ends that was taken last. Before the first it has 0 there. -/
def Recalls (cursor : Cursor) : Prop :=
  cursor.previousStop = (cursor.taken.getLast?.map (·.span.stop)).getD 0

theorem taken_append_left (cursor : Cursor) : cursor.taken ++ cursor.left = cursor.list.tokens :=
  List.take_append_drop _ _

theorem head?_left (cursor : Cursor) : cursor.left.head? = cursor.current? := List.head?_drop

theorem head?_tail_left (cursor : Cursor) : cursor.left.tail.head? = cursor.peek? := by
  rw [left, List.tail_drop, List.head?_drop]
  rfl

theorem left_advance (cursor : Cursor) : cursor.advance.left = cursor.left.tail := by
  rw [advance]
  cases h : cursor.current? with
  | some token => exact List.tail_drop.symm
  | none =>
      have hnil : cursor.left = [] := List.head?_eq_none_iff.mp (cursor.head?_left.trans h)
      simp only [hnil, List.tail_nil]

theorem InBounds.advance (h : cursor.InBounds) : cursor.advance.InBounds := by
  rw [Cursor.advance]
  cases hcurrent : cursor.current? with
  | some token => exact (List.getElem?_eq_some_iff.mp hcurrent).1
  | none => exact h

theorem recalls_start (list : TokenList Name) : Cursor.Recalls { list } := rfl

theorem Recalls.advance (h : cursor.Recalls) : cursor.advance.Recalls := by
  rw [Cursor.advance]
  cases hcurrent : cursor.current? with
  | some token =>
      have htaken : cursor.list.tokens.take (cursor.position + 1) = cursor.taken ++ [token] := by
        rw [List.take_add_one, show cursor.list.tokens[cursor.position]? = _ from hcurrent]
        rfl
      rw [Recalls, taken, htaken, List.getLast?_concat]
      rfl
  | none => exact h

/-- To move on is to take the current token or to stay, so what either keeps every move keeps. -/
theorem forall_moves {P : Cursor → Prop} (hstays : P cursor) (hadvances : P cursor.advance) :
    (∀ s, P (cursor.eat s).2) ∧
      (∀ s span later, cursor.expect s = .ok (span, later) → P later) ∧
      ∀ name later, cursor.expectIdentifier = .ok (name, later) → P later := by
  refine ⟨fun s => ?_, fun s span later h => ?_, fun name later h => ?_⟩
  · rw [eat]
    split
    · exact hadvances
    · exact hstays
  · rw [expect] at h
    split at h
    · split at h
      · cases h
        exact hadvances
      · cases h
    · cases h
  · rw [expectIdentifier] at h
    split at h
    · cases h
      exact hadvances
    · cases h

/-- Only at its last place is a cursor at the end of the input. -/
theorem InBounds.isAtEnd_iff (h : cursor.InBounds) :
    cursor.isAtEnd = true ↔ cursor.position = cursor.list.tokens.length := by
  rw [isAtEnd, current?, Option.isNone_iff_eq_none, List.getElem?_eq_none_iff]
  exact ⟨fun hle => Nat.le_antisymm h hle, Nat.le_of_eq ∘ Eq.symm⟩

/-- What a reader of the tokens from the cursor on comes to, where the cursor comes to this. -/
def seen (cursor : Cursor) : Except Complaint (α × Cursor) → Except Failure (α × Tokens)
  | .ok (a, later) => .ok (a, later.left)
  | .error complaint => .error ⟨complaint, cursor.left⟩

theorem cases_left (cursor : Cursor) :
    (cursor.current? = none ∧ cursor.left = []) ∨
      ∃ token, cursor.current? = some token ∧ cursor.left = token :: cursor.advance.left := by
  rw [← head?_left, left_advance]
  cases h : cursor.left with
  | nil => exact .inl ⟨rfl, rfl⟩
  | cons token rest => exact .inr ⟨token, rfl, rfl⟩

theorem startsWith_left (cursor : Cursor) (s : Symbol) :
    startsWith s cursor.left = cursor.check s := by
  rw [check]
  rcases cursor.cases_left with ⟨hcurrent, hleft⟩ | ⟨token, hcurrent, hleft⟩ <;>
    rw [hcurrent, hleft] <;> rfl

theorem accept_left (cursor : Cursor) (s : Symbol) :
    accept s cursor.left = .ok ((cursor.eat s).1, (cursor.eat s).2.left) := by
  rw [eat, check]
  rcases cursor.cases_left with ⟨hcurrent, hleft⟩ | ⟨token, hcurrent, hleft⟩
  · simp only [hcurrent, hleft, accept, Option.any_none, Bool.false_eq_true, if_false]
  · rw [hcurrent, hleft, accept, Option.any_some]
    split
    · rfl
    · rw [← hleft]

theorem symbol_left (cursor : Cursor) (s : Symbol) :
    symbol s cursor.left = cursor.seen (cursor.expect s) := by
  rw [expect]
  rcases cursor.cases_left with ⟨hcurrent, hleft⟩ | ⟨token, hcurrent, hleft⟩
  · simp only [hcurrent, hleft, symbol, seen]
    rfl
  · simp only [hcurrent, hleft, symbol]
    split
    · rfl
    · simp only [seen, hleft]
      rfl

theorem identifier_left (cursor : Cursor) :
    identifier cursor.left = cursor.seen cursor.expectIdentifier := by
  rw [expectIdentifier]
  rcases cursor.cases_left with ⟨hcurrent, hleft⟩ | ⟨⟨kind, span, layout⟩, hcurrent, hleft⟩
  · simp only [hcurrent, hleft, identifier, seen]
    rfl
  · rw [hcurrent, hleft]
    cases kind with
    | identifier name => rfl
    | text | number | symbol =>
        simp only [identifier, seen, hleft]
        rfl

theorem opensBind_left (cursor : Cursor) : opensBind cursor.left = cursor.announcesBind := by
  rw [announcesBind, ← head?_left, ← head?_tail_left]
  rcases cursor.left with _ | ⟨⟨kind, span, layout⟩, _ | ⟨next, rest⟩⟩
  · rfl
  · cases kind <;> rfl
  · cases kind <;> rfl

/-- A cursor moves as the readers take tokens, and it does not pass the end. -/
structure Moves (cursor : Cursor) : Prop where
  advance : cursor.advance.InBounds ∧ cursor.advance.left = cursor.left.tail
  eat : ∀ s, (cursor.eat s).2.InBounds ∧
    accept s cursor.left = .ok ((cursor.eat s).1, (cursor.eat s).2.left)
  expect : ∀ s, (∀ span later, cursor.expect s = .ok (span, later) → later.InBounds) ∧
    symbol s cursor.left = cursor.seen (cursor.expect s)
  expectIdentifier : (∀ name later, cursor.expectIdentifier = .ok (name, later) → later.InBounds) ∧
    identifier cursor.left = cursor.seen cursor.expectIdentifier
  check : ∀ s, startsWith s cursor.left = cursor.check s
  announcesBind : opensBind cursor.left = cursor.announcesBind
  /-- If the cursor knows where the token ends that was taken last, it does so however it moves. -/
  recalls : cursor.Recalls → cursor.advance.Recalls ∧ (∀ s, (cursor.eat s).2.Recalls) ∧
    (∀ s span later, cursor.expect s = .ok (span, later) → later.Recalls) ∧
    ∀ name later, cursor.expectIdentifier = .ok (name, later) → later.Recalls

theorem InBounds.moves (h : cursor.InBounds) : cursor.Moves := by
  obtain ⟨heat, hexpect, hidentifier⟩ := forall_moves h h.advance
  exact {
    advance := ⟨h.advance, cursor.left_advance⟩
    eat := fun s => ⟨heat s, cursor.accept_left s⟩
    expect := fun s => ⟨hexpect s, cursor.symbol_left s⟩
    expectIdentifier := ⟨hidentifier, cursor.identifier_left⟩
    check := cursor.startsWith_left
    announcesBind := cursor.opensBind_left
    recalls := fun hrecalls => ⟨hrecalls.advance, forall_moves hrecalls hrecalls.advance⟩ }

/-- What is left of the tokens at some place belongs to a cursor there. -/
theorem exists_of_suffix {list : TokenList Name} {tokens : Tokens} (h : tokens <:+ list.tokens) :
    ∃ cursor : Cursor, cursor.list = list ∧ cursor.InBounds ∧ cursor.Recalls ∧
      cursor.left = tokens := by
  obtain ⟨taken, htaken⟩ := h
  have hlength := congrArg List.length htaken
  rw [List.length_append] at hlength
  let previousStop := (taken.getLast?.map (·.span.stop)).getD 0
  refine ⟨{ list, position := taken.length, previousStop }, rfl, ?_, ?_, ?_⟩
  · exact Nat.le.intro hlength
  · rw [Recalls, Cursor.taken, ← htaken, List.take_left]
  · rw [left, ← htaken, List.drop_left]

end Bindery.Cursor
