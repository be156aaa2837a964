import Bindery.Proofs.Grammar.Program
import Bindery.Proofs.Tree.PostOrder

/-!
The tree of a text. What the grammar derives stands where it may, so the source of a text is a tree
in post-order whose nodes all fit their places, and its index is the index of that tree.
-/

namespace Bindery
namespace Grammar

/-- What a part of the grammar reads may stand where the part is used. -/
def Category.Fits : (c : Category) → c.Reading → Prop
  | .program _, p => p.Fits .body
  | .statements, ps => Phrase.FitAll .statement ps
  | .inputs, ps => Phrase.FitAll .input ps
  | .arguments, ps => Phrase.FitAll .expression ps
  | .statement, p | .structureDef, p => p.Fits .statement
  | .bind, p => p.Fits .statement ∧ p.Fits .input
  | .input, p => p.Fits .input
  | .body, p? => Phrase.FitsIfAny .body p?
  | .block, p => p.Fits .body ∧ p.Fits .expression
  | .chain _ left, p => left.Fits .expression → p.Fits .expression
  | .selections subject, p => subject.Fits .expression → p.Fits .expression
  | .expression, p | .tier _, p | .operand _, p | .unary, p | .selection, p | .primary, p =>
    p.Fits .expression

theorem Derivation.fits {c : Category} {tokens rest : Tokens} {reading : c.Reading}
    (d : Derivation c tokens reading rest) : c.Fits reading := by
  induction d with
  | program _ ih => exact ⟨rfl, ih⟩
  | noStatement _ | noInput _ | noArgument _ | noBody _ => exact trivial
  | moreStatements _ _ first more => exact ⟨first, more⟩
  | moreInputs _ _ _ first more | moreArguments _ _ _ first more => exact ⟨first, more⟩
  | ofStructureDef _ ih => exact ih
  | valued _ ih => exact ih.2
  | ofBind _ ih => exact ih.1
  | ofExpression _ _ ih => exact ih.statement
  | structureDef _ _ inputs body => exact ⟨rfl, inputs, body⟩
  | ofBlock _ _ ih => exact ih.1
  | bind _ _ ih => exact ⟨⟨rfl, ih⟩, ⟨rfl, ih⟩⟩
  | unvalued _ _ => exact ⟨rfl, trivial⟩
  | conditional _ _ _ condition yes no => exact ⟨rfl, condition, yes, no⟩
  | ofTier _ ih | ofTighter _ _ ih | ofUnary _ _ ih | ofSelection _ ih => exact ih
  | joined _ _ first more | selection _ _ first more => exact more first
  | chainEnd _ | selected _ _ => exact id
  | chainStep _ _ _ right more => exact fun left => more ⟨rfl, left, right⟩
  | prefixed _ _ ih => exact ⟨rfl, ih⟩
  | property _ ih => exact fun subject => ih ⟨rfl, subject⟩
  | evaluate _ _ _ arguments more => exact fun subject => more ⟨rfl, subject, arguments⟩
  | number | text | trueWord | falseWord | reference => exact rfl
  | ofPrimaryBlock _ ih => exact ih.2
  | block _ ih => exact ⟨⟨rfl, ih⟩, ⟨rfl, ih⟩⟩

end Grammar

/-- The source is a tree in post-order under a block, and its nodes stand where they may. -/
structure Source.WellFormed (source : Source) : Prop extends source.Indexed where
  interval : source.arena.Interval 0 [source.root] source.arena.size
  fits : ∀ id, source.arena.NodeFits id
  root_fits : Place.body.admits (source.kind source.root).shape = true

namespace Source

theorem exists_of_isOk {ε α : Type} {result : Except ε α} (h : result.isOk = true) :
    ∃ a, result = .ok a := by
  cases result with
  | error error => cases h
  | ok a => exact ⟨a, rfl⟩

theorem exists_of_toOption_bind {ε α β : Type} {result : Except ε α} {read : α → Option β} {b : β}
    (h : result.toOption.bind read = some b) : ∃ a, result = .ok a ∧ read a = some b := by
  cases result with
  | error error => cases h
  | ok a => exact ⟨a, rfl, h⟩

theorem WellFormed.root_kind {source : Source} (h : source.WellFormed) :
    ∃ statements, source.kind source.root = .block statements :=
  NodeKind.exists_block_of_body h.root_fits

theorem wellFormed_ofPhrase {p : Phrase} (h : p.Fits .body) (name text : String)
    (interner : Interner) : (ofPhrase name text p interner).WellFormed := by
  have hgrows := Numbering.phrase_grows p h Arena.sound_empty
  have hinterval : p.numbered.2.Interval 0 [p.numbered.1] p.numbered.2.size := hgrows.interval
  obtain ⟨nodes, htraversal, hnodup, hmem⟩ := hinterval.traversal
  have hindexed := indexed_ofArena name text interner htraversal
    hnodup fun id hid => ((hmem id).mp hid).2
  exact ⟨hindexed, hinterval, fun id => (hgrows.sound id).fits,
    hgrows.admits _ (List.mem_singleton.mpr rfl)⟩

theorem snd_parse {name text : String} {interner : Interner}
    (h : text.utf8ByteSize ≤ maxSourceLength) :
    (parse name text interner).2 =
      (interner.nameTokens (Lexer.scan 0 true text.toList).tokens).2 := by
  rw [parse, lex_eq interner h]
  cases (Lexer.scan 0 true text.toList).outcome <;> rfl

/-- A text is read as a source if it is not too large, consists of tokens, and these derive
statements. -/
theorem parse_eq_ok_iff {name text : String} {interner : Interner} {source : Source} :
    (parse name text interner).1 = .ok source ↔
      text.utf8ByteSize ≤ maxSourceLength ∧ ∃ mark statements,
        (Lexer.scan 0 true text.toList).outcome = .ok mark ∧
        Nonempty (Grammar.Derivation .statements
          (interner.nameTokens (Lexer.scan 0 true text.toList).tokens).1 statements []) ∧
        source = ofPhrase name text (.block ⟨0, mark.offset⟩ statements)
          (interner.nameTokens (Lexer.scan 0 true text.toList).tokens).2 := by
  by_cases hsize : text.utf8ByteSize ≤ maxSourceLength
  · rw [parse, lex_eq interner hsize]
    generalize Lexer.scan 0 true text.toList = scanned
    generalize interner.nameTokens scanned.tokens = named
    obtain ⟨tokens, outcome⟩ := scanned
    cases outcome with
    | error error => simp [Except.map]
    | ok mark =>
        simp only [Except.map, Except.ok.injEq, exists_and_left, exists_eq_left', hsize, true_and]
        constructor
        · intro h
          cases hparse : (TokenList.mk named.1 mark).parse named.2 with
          | error error =>
              rw [hparse] at h
              cases h
          | ok p =>
              rw [hparse] at h
              cases h
              obtain ⟨d⟩ := Grammar.program_sound (Grammar.parse_eq_ok_iff.mp hparse)
              cases d with
              | program d => exact ⟨_, ⟨d⟩, rfl⟩
        · intro h
          obtain ⟨statements, ⟨d⟩, rfl⟩ := h
          have d' : Grammar.Derivation (.program mark.offset) named.1
              (.block ⟨0, mark.offset⟩ statements) [] := .program d
          have hparse : (TokenList.mk named.1 mark).parse named.2 =
              .ok (.block ⟨0, mark.offset⟩ statements) := Grammar.parse_eq_ok_iff.mpr d'.accepts
          rw [hparse]
  · have hlex : lex text interner = (.error .sourceTooLarge, interner) :=
      if_pos (Nat.not_le.mp hsize)
    rw [parse, hlex]
    exact ⟨nofun, fun h => absurd h.1 hsize⟩

theorem wellFormed_of_parse {name text : String} {interner : Interner} {source : Source}
    (h : (parse name text interner).1 = .ok source) : source.WellFormed := by
  obtain ⟨-, mark, statements, -, ⟨d⟩, rfl⟩ := parse_eq_ok_iff.mp h
  have hfits : (Phrase.block ⟨0, mark.offset⟩ statements).Fits .body := ⟨rfl, d.fits⟩
  exact wellFormed_ofPhrase hfits name text _

end Source
end Bindery
