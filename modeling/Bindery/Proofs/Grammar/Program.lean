import Bindery.Proofs.Grammar.Completeness
import Bindery.Proofs.Grammar.Soundness

/-!
The reader computes the grammar, and the grammar is unambiguous: at given tokens a part of the
grammar has at most one derivation, which therefore fixes what is read and what is left over.
-/

namespace Bindery.Grammar

theorem Separated.unique {tokens rest rest' : Tokens} (h : Separated tokens rest)
    (h' : Separated tokens rest') : rest = rest' := by
  cases h with
  | comma =>
      cases h' with
      | comma => rfl
      | bare hn => exact absurd ⟨_, _, _, rfl⟩ hn
  | bare hn =>
      cases h' with
      | comma => exact absurd ⟨_, _, _, rfl⟩ hn
      | bare _ => rfl

theorem Declares.unique {tokens rest rest' : Tokens} {d d' : Option (DeclaredType × Nat)}
    (h : Declares tokens d rest) (h' : Declares tokens d' rest') : d = d' ∧ rest = rest' := by
  cases h with
  | untyped hn =>
      cases h' with
      | untyped _ => exact ⟨rfl, rfl⟩
      | typed _ => exact absurd ⟨_, _, _, rfl⟩ hn
  | typed hw =>
      cases h' with
      | untyped hn => exact absurd ⟨_, _, _, rfl⟩ hn
      | typed hw' =>
          rw [hw] at hw'
          cases hw'
          exact ⟨rfl, rfl⟩

/-- Two derivations of one part of the grammar at the same tokens read the same, leave the same and
are the same. -/
theorem Derivation.unique {c : Category} {tokens rest : Tokens} {reading : c.Reading}
    (d : Derivation c tokens reading rest) :
    ∀ {reading' rest'} (d' : Derivation c tokens reading' rest'),
      reading = reading' ∧ rest = rest' ∧ HEq d d' := by
  induction d with
  | program _ ih =>
      intro _ _ d'
      cases d' with
      | program e =>
          obtain ⟨rfl, -, h⟩ := ih e
          cases h
          exact ⟨rfl, rfl, .rfl⟩
  | noStatement h =>
      intro _ _ d'
      cases d' with
      | noStatement _ => exact ⟨rfl, rfl, .rfl⟩
      | moreStatements e _ => exact absurd h e.not_closed
  | moreStatements d _ first more =>
      intro _ _ d'
      cases d' with
      | noStatement h => exact absurd h d.not_closed
      | moreStatements e e' =>
          obtain ⟨rfl, rfl, h⟩ := first e
          cases h
          obtain ⟨rfl, rfl, h⟩ := more e'
          cases h
          exact ⟨rfl, rfl, .rfl⟩
  | ofStructureDef d ih =>
      intro _ _ d'
      cases d' with
      | ofStructureDef e =>
          obtain ⟨rfl, rfl, h⟩ := ih e
          cases h
          exact ⟨rfl, rfl, .rfl⟩
      | ofBind e => cases d; cases e
      | ofExpression _ e =>
          cases d
          exact absurd ⟨_, _, _, rfl⟩ (e.not_next trivial .bullet rfl)
  | ofBind d ih =>
      intro _ _ d'
      cases d' with
      | ofStructureDef e => cases d; cases e
      | ofBind e =>
          obtain ⟨rfl, rfl, h⟩ := ih e
          cases h
          exact ⟨rfl, rfl, .rfl⟩
      | ofExpression hbind _ => exact absurd d.opensBind hbind
  | ofExpression hbind d ih =>
      intro _ _ d'
      cases d' with
      | ofStructureDef e =>
          cases e
          exact absurd ⟨_, _, _, rfl⟩ (d.not_next trivial .bullet rfl)
      | ofBind e => exact absurd e.opensBind hbind
      | ofExpression _ e =>
          obtain ⟨rfl, rfl, h⟩ := ih e
          cases h
          exact ⟨rfl, rfl, .rfl⟩
  | structureDef _ _ inputs body =>
      intro _ _ d'
      cases d' with
      | structureDef e e' =>
          obtain ⟨rfl, hrest, h⟩ := inputs e
          cases hrest
          cases h
          obtain ⟨rfl, rfl, h⟩ := body e'
          cases h
          exact ⟨rfl, rfl, .rfl⟩
  | noInput h =>
      intro _ _ d'
      cases d' with
      | noInput _ => exact ⟨rfl, rfl, .rfl⟩
      | moreInputs e _ _ => exact absurd h (e.not_next trivial .rightParen rfl)
  | moreInputs d sep _ first more =>
      intro _ _ d'
      cases d' with
      | noInput h => exact absurd h (d.not_next trivial .rightParen rfl)
      | moreInputs e sep' e' =>
          obtain ⟨rfl, rfl, h⟩ := first e
          cases h
          cases sep.unique sep'
          obtain ⟨rfl, rfl, h⟩ := more e'
          cases h
          exact ⟨rfl, rfl, .rfl⟩
  | noBody h =>
      intro _ _ d'
      cases d' with
      | noBody _ => exact ⟨rfl, rfl, .rfl⟩
      | ofBlock h' _ => exact absurd h' h
  | ofBlock h _ ih =>
      intro _ _ d'
      cases d' with
      | noBody h' => exact absurd h h'
      | ofBlock _ e =>
          obtain ⟨rfl, rfl, h⟩ := ih e
          cases h
          exact ⟨rfl, rfl, .rfl⟩
  | bind hdeclared _ ih =>
      intro _ _ d'
      cases d' with
      | bind hdeclared' e =>
          obtain ⟨rfl, hrest⟩ := hdeclared.unique hdeclared'
          cases hrest
          obtain ⟨rfl, rfl, h⟩ := ih e
          cases h
          exact ⟨rfl, rfl, .rfl⟩
  | valued d ih =>
      intro _ _ d'
      cases d' with
      | valued e =>
          obtain ⟨rfl, rfl, h⟩ := ih e
          cases h
          exact ⟨rfl, rfl, .rfl⟩
      | unvalued hdeclared' hcolon =>
          cases d with
          | bind hdeclared _ =>
              obtain ⟨-, rfl⟩ := hdeclared.unique hdeclared'
              exact absurd ⟨_, _, _, rfl⟩ hcolon
  | unvalued hdeclared hcolon =>
      intro _ _ d'
      cases d' with
      | valued e =>
          cases e with
          | bind hdeclared' _ =>
              obtain ⟨-, rfl⟩ := hdeclared.unique hdeclared'
              exact absurd ⟨_, _, _, rfl⟩ hcolon
      | unvalued hdeclared' _ =>
          obtain ⟨rfl, rfl⟩ := hdeclared.unique hdeclared'
          exact ⟨rfl, rfl, .rfl⟩
  | conditional _ _ _ condition yes no =>
      intro _ _ d'
      cases d' with
      | conditional e e' e'' =>
          obtain ⟨rfl, hrest, h⟩ := condition e
          cases hrest
          cases h
          obtain ⟨rfl, hrest, h⟩ := yes e'
          cases hrest
          cases h
          obtain ⟨rfl, rfl, h⟩ := no e''
          cases h
          exact ⟨rfl, rfl, .rfl⟩
      | ofTier e => exact absurd ⟨_, _, _, rfl⟩ (e.not_next trivial .ifWord rfl)
  | ofTier d ih =>
      intro _ _ d'
      cases d' with
      | conditional _ _ _ => exact absurd ⟨_, _, _, rfl⟩ (d.not_next trivial .ifWord rfl)
      | ofTier e =>
          obtain ⟨rfl, rfl, h⟩ := ih e
          cases h
          exact ⟨rfl, rfl, .rfl⟩
  | joined _ _ first more =>
      intro _ _ d'
      cases d' with
      | joined e e' =>
          obtain ⟨rfl, rfl, h⟩ := first e
          cases h
          obtain ⟨rfl, rfl, h⟩ := more e'
          cases h
          exact ⟨rfl, rfl, .rfl⟩
  | ofTighter ht _ ih =>
      intro _ _ d'
      cases d' with
      | ofTighter ht' e =>
          rw [ht] at ht'
          cases ht'
          obtain ⟨rfl, rfl, h⟩ := ih e
          cases h
          exact ⟨rfl, rfl, .rfl⟩
      | ofUnary ht' _ =>
          rw [ht] at ht'
          cases ht'
  | ofUnary ht _ ih =>
      intro _ _ d'
      cases d' with
      | ofTighter ht' _ =>
          rw [ht] at ht'
          cases ht'
      | ofUnary _ e =>
          obtain ⟨rfl, rfl, h⟩ := ih e
          cases h
          exact ⟨rfl, rfl, .rfl⟩
  | chainEnd hop =>
      intro _ _ d'
      cases d' with
      | chainEnd _ => exact ⟨rfl, rfl, .rfl⟩
      | chainStep hop' _ _ =>
          exact absurd ⟨_, by rw [hop']; rfl, _, _, _, rfl⟩ hop
  | chainStep hop _ _ first more =>
      intro _ _ d'
      cases d' with
      | chainEnd hop' => exact absurd ⟨_, by rw [hop]; rfl, _, _, _, rfl⟩ hop'
      | chainStep hop' e e' =>
          rw [hop] at hop'
          cases hop'
          obtain ⟨rfl, rfl, h⟩ := first e
          cases h
          obtain ⟨rfl, rfl, h⟩ := more e'
          cases h
          exact ⟨rfl, rfl, .rfl⟩
  | prefixed hop _ ih =>
      intro _ _ d'
      cases d' with
      | prefixed hop' e =>
          rw [hop] at hop'
          cases hop'
          obtain ⟨rfl, rfl, h⟩ := ih e
          cases h
          exact ⟨rfl, rfl, .rfl⟩
      | ofSelection e =>
          exact absurd ⟨_, by rw [hop]; rfl, _, _, _, rfl⟩ e.not_nextUnary
  | ofSelection d ih =>
      intro _ _ d'
      cases d' with
      | prefixed hop _ => exact absurd ⟨_, by rw [hop]; rfl, _, _, _, rfl⟩ d.not_nextUnary
      | ofSelection e =>
          obtain ⟨rfl, rfl, h⟩ := ih e
          cases h
          exact ⟨rfl, rfl, .rfl⟩
  | selection _ _ first more =>
      intro _ _ d'
      cases d' with
      | selection e e' =>
          obtain ⟨rfl, rfl, h⟩ := first e
          cases h
          obtain ⟨rfl, rfl, h⟩ := more e'
          cases h
          exact ⟨rfl, rfl, .rfl⟩
  | selected hdot hopen =>
      intro _ _ d'
      cases d' with
      | selected _ _ => exact ⟨rfl, rfl, .rfl⟩
      | property _ => exact absurd ⟨_, _, _, rfl⟩ hdot
      | evaluate hadjacent _ _ => exact absurd ⟨_, _, _, rfl, hadjacent⟩ hopen
  | property _ ih =>
      intro _ _ d'
      cases d' with
      | selected hdot _ => exact absurd ⟨_, _, _, rfl⟩ hdot
      | property e =>
          obtain ⟨rfl, rfl, h⟩ := ih e
          cases h
          exact ⟨rfl, rfl, .rfl⟩
  | evaluate hadjacent _ _ first more =>
      intro _ _ d'
      cases d' with
      | selected _ hopen => exact absurd ⟨_, _, _, rfl, hadjacent⟩ hopen
      | evaluate _ e e' =>
          obtain ⟨rfl, hrest, h⟩ := first e
          cases hrest
          cases h
          obtain ⟨rfl, rfl, h⟩ := more e'
          cases h
          exact ⟨rfl, rfl, .rfl⟩
  | noArgument h =>
      intro _ _ d'
      cases d' with
      | noArgument _ => exact ⟨rfl, rfl, .rfl⟩
      | moreArguments e _ _ => exact absurd h (e.not_next trivial .rightParen rfl)
  | moreArguments d sep _ first more =>
      intro _ _ d'
      cases d' with
      | noArgument h => exact absurd h (d.not_next trivial .rightParen rfl)
      | moreArguments e sep' e' =>
          obtain ⟨rfl, rfl, h⟩ := first e
          cases h
          cases sep.unique sep'
          obtain ⟨rfl, rfl, h⟩ := more e'
          cases h
          exact ⟨rfl, rfl, .rfl⟩
  | number =>
      intro _ _ d'
      cases d' with
      | number => exact ⟨rfl, rfl, .rfl⟩
      | ofPrimaryBlock e => cases e
  | text =>
      intro _ _ d'
      cases d' with
      | text => exact ⟨rfl, rfl, .rfl⟩
      | ofPrimaryBlock e => cases e
  | trueWord =>
      intro _ _ d'
      cases d' with
      | trueWord => exact ⟨rfl, rfl, .rfl⟩
      | ofPrimaryBlock e => cases e
  | falseWord =>
      intro _ _ d'
      cases d' with
      | falseWord => exact ⟨rfl, rfl, .rfl⟩
      | ofPrimaryBlock e => cases e
  | reference =>
      intro _ _ d'
      cases d' with
      | reference => exact ⟨rfl, rfl, .rfl⟩
      | ofPrimaryBlock e => cases e
  | ofPrimaryBlock d ih =>
      intro _ _ d'
      cases d' with
      | ofPrimaryBlock e =>
          obtain ⟨rfl, rfl, h⟩ := ih e
          cases h
          exact ⟨rfl, rfl, .rfl⟩
      | number | text | trueWord | falseWord | reference => cases d
  | block _ ih =>
      intro _ _ d'
      cases d' with
      | block e =>
          obtain ⟨rfl, hrest, h⟩ := ih e
          cases hrest
          cases h
          exact ⟨rfl, rfl, .rfl⟩

theorem parse_eq_ok_iff {list : TokenList Name} {interner : Interner} {p : Phrase} :
    list.parse interner = .ok p ↔ Parser.program list.tokens list.endMark.offset = .ok p := by
  unfold TokenList.parse
  cases Parser.program list.tokens list.endMark.offset with
  | error failure => exact iff_of_false (fun h => by cases h) (fun h => by cases h)
  | ok q =>
      exact ⟨fun h => congrArg Except.ok (Except.ok.inj h),
        fun h => congrArg Except.ok (Except.ok.inj h)⟩

/-- The reader comes to a program exactly if the grammar derives it from all tokens of the text, and
there is at most one program with at most one derivation. -/
theorem parse_eq_ok_iff_derivation (list : TokenList Name) (interner : Interner) (p : Phrase) :
    (list.parse interner = .ok p ↔
      Nonempty (Derivation (.program list.endMark.offset) list.tokens p [])) ∧
    Subsingleton ((p : Phrase) × Derivation (.program list.endMark.offset) list.tokens p []) := by
  refine ⟨parse_eq_ok_iff.trans ⟨program_sound, fun ⟨d⟩ => d.accepts⟩, ⟨?_⟩⟩
  intro ⟨p, d⟩ ⟨p', d'⟩
  obtain ⟨rfl, -, h⟩ := d.unique d'
  cases h
  rfl

end Bindery.Grammar
