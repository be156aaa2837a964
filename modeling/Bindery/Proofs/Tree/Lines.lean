import Bindery.Proofs.Grammar.Lines
import Bindery.Proofs.Tree.Spelled

/-!
Programs one after the other, from their texts to their trees. A text on the lines after another one
is read as if it stood alone, further on, unless the statement before it is nothing but a name and
it starts with the definition of a structure: the bullet would then give that name a type.
-/

namespace Bindery

/-- The last of the statements is a name alone. -/
def EndInName (trees : List Tree) : Prop :=
  ∃ name span, trees.getLast? = some (.node (.reference name) span [])

namespace Grammar

variable {tokens further : Tokens} {spell : Name → String} {trees trees' : List Tree}

theorem endsInName_iff {statements : List Phrase} (h : Phrase.trees spell statements = trees) :
    EndsInName statements ↔ EndInName trees := by
  rw [← h, EndInName, Phrase.trees_eq_map, List.getLast?_map]
  constructor
  · intro hends
    obtain ⟨span, name, hlast⟩ := hends
    exact ⟨spell name, span, by rw [hlast]; rfl⟩
  · intro hends
    obtain ⟨name, span, htree⟩ := hends
    obtain ⟨p, hlast, hp⟩ := Option.map_eq_some_iff.mp htree
    cases p with
    | reference span' name' => exact ⟨span', name', hlast⟩
    | block | bind | structureDef | property | evaluate | number | text | boolean | binary | unary
    | conditional => cases hp

theorem Spells.newLine (h : Spells tokens spell trees) : Spells (onNewLine tokens) spell trees := by
  obtain ⟨statements, ⟨d⟩, htrees⟩ := h
  cases tokens with
  | nil => exact ⟨statements, ⟨d⟩, htrees⟩
  | cons token rest => exact ⟨statements, d.statements_relayout .afterBreak, htrees⟩

theorem Spells.apart (h : Spells tokens spell trees) (hminus : ¬ Next .minus (onNewLine tokens))
    (hne : onNewLine tokens ≠ []) : Apart (onNewLine tokens) := by
  obtain ⟨statements, ⟨d⟩, -⟩ := h.newLine
  cases tokens with
  | nil => exact absurd rfl hne
  | cons token rest =>
      refine .of_statements d (fun hkind => hminus ?_) rfl rfl
      obtain ⟨kind, span, layout⟩ := token
      cases hkind
      exact ⟨span, .afterBreak, rest, rfl⟩

/-- What follows on new lines joins the statements before it, or the whole is no program. -/
theorem Spells.append_iff (h : Spells tokens spell trees) (h' : Spells further spell trees')
    (hapart : further ≠ [] → Apart further) (whole : List Tree) :
    Spells (tokens ++ further) spell whole ↔
      ¬ (EndInName trees ∧ Next .bullet further) ∧ whole = trees ++ trees' := by
  obtain ⟨statements, ⟨d⟩, htrees⟩ := h
  obtain ⟨more, ⟨d'⟩, htrees'⟩ := h'
  have hwhole : Phrase.trees spell (statements ++ more) = trees ++ trees' := by
    rw [← htrees, ← htrees']
    simp only [Phrase.trees_eq_map, List.map_append]
  rw [← endsInName_iff htrees]
  constructor
  · intro hjoint
    obtain ⟨read, ⟨e⟩, rfl⟩ := hjoint
    have hname : ¬ (EndsInName statements ∧ Next .bullet further) := fun hname =>
      d.not_statements_append d' hname.1 hname.2 read e
    obtain ⟨e'⟩ := d.statements_append d' hapart hname
    obtain ⟨rfl, -⟩ := e.unique e'
    exact ⟨hname, hwhole⟩
  · intro hjoint
    obtain ⟨hname, rfl⟩ := hjoint
    exact ⟨statements ++ more, d.statements_append d' hapart hname, hwhole⟩

end Grammar

open Grammar

namespace Source

variable {name name' front back : String} {first second joint : Interner} {before after : Source}

theorem next_onNewLine_iff (interner : Interner) (distance : Nat) (text : String)
    (symbol : Symbol) :
    Next symbol (onNewLine (interner.nameTokens ((tokensOf text).map (·.shift distance))).1) ↔
      firstToken? text = some (.symbol symbol) := by
  rw [firstToken?]
  cases tokensOf text with
  | nil => exact ⟨fun h => absurd h (atHead_next symbol).1, nofun⟩
  | cons token rest =>
      obtain ⟨kind, span, layout⟩ := token
      constructor
      · intro h
        obtain ⟨_, _, _, heq⟩ := h
        cases kind <;> cases heq
        rfl
      · intro h
        cases h
        exact ⟨_, _, _, rfl⟩

/-- Of two programs of which the second does not start with a minus, the text with the second on the
lines after the first is a program as well, unless it is too large or a name alone would come to
stand before a bullet. Its statements are those of both, the later ones further on by the bytes
before them. -/
theorem parse_lines (hfirst : first.HoldsEmpty) (hsecond : second.HoldsEmpty)
    (hjoint : joint.HoldsEmpty) (hbefore : (parse name front first).1 = .ok before)
    (hafter : (parse name' back second).1 = .ok after)
    (hminus : firstToken? back ≠ some (.symbol .minus)) (label : String) :
    ((∃ whole, (parse label (front ++ "\n" ++ back) joint).1 = .ok whole) ↔
      (front ++ "\n" ++ back).utf8ByteSize ≤ maxSourceLength ∧
        ¬ (EndInName before.statementTrees ∧ firstToken? back = some (.symbol .bullet))) ∧
    ∀ whole, (parse label (front ++ "\n" ++ back) joint).1 = .ok whole →
      whole.statementTrees = before.statementTrees ++
        after.statementTrees.map (·.shift (front.utf8ByteSize + 1)) := by
  obtain ⟨-, mark, _, hmark, -, -⟩ := parse_eq_ok_iff.mp hbefore
  obtain ⟨-, mark', _, hmark', -, -⟩ := parse_eq_ok_iff.mp hafter
  -- One table names both texts, the second one from where the first has left it.
  let named := joint.nameTokens (tokensOf front)
  let named' := named.2.nameTokens ((tokensOf back).map (·.shift (front.utf8ByteSize + 1)))
  have hgrows : joint.Extends named.2 := Interner.extends_nameTokens joint (tokensOf front)
  have hgrows' : named.2.Extends named'.2 := Interner.extends_nameTokens _ _
  have hspells := spells_renamed hbefore hfirst hjoint hgrows'
  have hspells' := spells_elsewhere hafter hsecond (hjoint.of_extends hgrows)
    (front.utf8ByteSize + 1) (.refl _)
  have hapart := hspells'.apart fun hnext => hminus ((next_onNewLine_iff _ _ _ _).mp hnext)
  have hread (trees : List Tree) :
      (∃ whole, (parse label (front ++ "\n" ++ back) joint).1 = .ok whole ∧
        whole.statementTrees = trees) ↔
      (front ++ "\n" ++ back).utf8ByteSize ≤ maxSourceLength ∧
        ¬ (EndInName before.statementTrees ∧ firstToken? back = some (.symbol .bullet)) ∧
        trees = before.statementTrees ++
          after.statementTrees.map (·.shift (front.utf8ByteSize + 1)) := by
    have hjoined := hspells.append_iff hspells'.newLine hapart trees
    rw [next_onNewLine_iff] at hjoined
    rw [exists_parse_iff, Lexer.tokensOf_lines hmark, Interner.nameTokens_append,
      Interner.nameTokens_onNewLine, and_iff_right (Lexer.outcome_lines hmark hmark')]
    exact and_congr_right fun _ => hjoined
  constructor
  · constructor
    · intro h
      obtain ⟨whole, hwhole⟩ := h
      have hfacts := (hread whole.statementTrees).mp ⟨whole, hwhole, rfl⟩
      exact ⟨hfacts.1, hfacts.2.1⟩
    · intro h
      obtain ⟨whole, hwhole, -⟩ := (hread _).mpr ⟨h.1, h.2, rfl⟩
      exact ⟨whole, hwhole⟩
  · intro whole hwhole
    exact ((hread whole.statementTrees).mp ⟨whole, hwhole, rfl⟩).2.2

/-- A parenthesis on the next line is no argument list. -/
theorem parse_lines_of_parenthesis :
    ∃ before after,
      (parse "<code>" "x" .empty).1 = .ok before ∧ (parse "<code>" "(1)" .empty).1 = .ok after ∧
      ((∃ whole, (parse "<code>" ("x" ++ "\n" ++ "(1)") .empty).1 = .ok whole) ↔
        ("x" ++ "\n" ++ "(1)").utf8ByteSize ≤ maxSourceLength ∧
          ¬ (EndInName before.statementTrees ∧ firstToken? "(1)" = some (.symbol .bullet))) ∧
      ∀ whole, (parse "<code>" ("x" ++ "\n" ++ "(1)") .empty).1 = .ok whole →
        whole.statementTrees = before.statementTrees ++
          after.statementTrees.map (·.shift ("x".utf8ByteSize + 1)) := by
  obtain ⟨before, hbefore⟩ : ∃ before, (parse "<code>" "x" .empty).1 = .ok before :=
    exists_of_isOk (by decide +kernel)
  obtain ⟨after, hafter⟩ : ∃ after, (parse "<code>" "(1)" .empty).1 = .ok after :=
    exists_of_isOk (by decide +kernel)
  have hminus : firstToken? "(1)" ≠ some (.symbol .minus) := by decide +kernel
  have hempty : Interner.empty.HoldsEmpty := rfl
  exact ⟨before, after, hbefore, hafter,
    parse_lines hempty hempty hempty hbefore hafter hminus "<code>"⟩

/-- A name alone and a definition on the next line are both programs, but not together. -/
theorem not_parse_lines_of_bullet :
    ∃ before after,
      (parse "<input>" "x" .empty).1 = .ok before ∧
      (parse "<input>" "•Cat()" .empty).1 = .ok after ∧
      firstToken? "•Cat()" ≠ some (.symbol .minus) ∧
      ¬ ∃ whole, (parse "<input>" ("x" ++ "\n" ++ "•Cat()") .empty).1 = .ok whole := by
  obtain ⟨before, hbefore⟩ : ∃ before, (parse "<input>" "x" .empty).1 = .ok before :=
    exists_of_isOk (by decide +kernel)
  obtain ⟨after, hafter⟩ : ∃ after, (parse "<input>" "•Cat()" .empty).1 = .ok after :=
    exists_of_isOk (by decide +kernel)
  have hminus : firstToken? "•Cat()" ≠ some (.symbol .minus) := by decide +kernel
  refine ⟨before, after, hbefore, hafter, hminus, fun hwhole => ?_⟩
  have hrefused : (parse "<input>" ("x" ++ "\n" ++ "•Cat()") .empty).1.isOk = false := by
    decide +kernel
  obtain ⟨whole, hparse⟩ := hwhole
  rw [hparse] at hrefused
  cases hrefused

end Source
end Bindery
