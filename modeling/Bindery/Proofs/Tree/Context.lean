import Bindery.Proofs.Tree.Place

/-!
Programs with a hole. A context is a program in which one piece is missing; whatever fits the place
of the hole can be put there.
-/

namespace Bindery

namespace Phrase

/-- A program with a hole in the place of one of its pieces. -/
inductive Context where
  | hole
  | statement (span : Span) (before : List Phrase) (context : Context) (after : List Phrase)
  | value (span : Span) (name : Name) (type : Option DeclaredType) (context : Context)
  | input (span : Span) (name : Name) (before : List Phrase) (context : Context)
      (after : List Phrase) (body : Option Phrase)
  | body (span : Span) (name : Name) (inputs : List Phrase) (context : Context)
  | subject (span : Span) (context : Context) (member : Name) (memberSpan : Span)
  | callee (span : Span) (context : Context) (arguments : List Phrase)
  | argument (span : Span) (callee : Phrase) (before : List Phrase) (context : Context)
      (after : List Phrase)
  | left (span : Span) (op : BinaryOp) (context : Context) (right : Phrase)
  | right (span : Span) (op : BinaryOp) (left : Phrase) (context : Context)
  | operand (span : Span) (op : UnaryOp) (context : Context)
  | condition (span : Span) (context : Context) (yes no : Phrase)
  | yes (span : Span) (condition : Phrase) (context : Context) (no : Phrase)
  | no (span : Span) (condition yes : Phrase) (context : Context)

namespace Context

/-- The program with a piece in the hole. -/
def plug : Context → Phrase → Phrase
  | .hole, piece => piece
  | .statement span before context after, piece =>
    .block span (before ++ context.plug piece :: after)
  | .value span name type context, piece => .bind span name type (some (context.plug piece))
  | .input span name before context after rest, piece =>
    .structureDef span name (before ++ context.plug piece :: after) rest
  | .body span name inputs context, piece =>
    .structureDef span name inputs (some (context.plug piece))
  | .subject span context member memberSpan, piece =>
    .property span (context.plug piece) member memberSpan
  | .callee span context given, piece => .evaluate span (context.plug piece) given
  | .argument span called before context after, piece =>
    .evaluate span called (before ++ context.plug piece :: after)
  | .left span op context second, piece => .binary span op (context.plug piece) second
  | .right span op first context, piece => .binary span op first (context.plug piece)
  | .operand span op context, piece => .unary span op (context.plug piece)
  | .condition span context first second, piece =>
    .conditional span (context.plug piece) first second
  | .yes span test context second, piece => .conditional span test (context.plug piece) second
  | .no span test first context, piece => .conditional span test first (context.plug piece)

/-- What a piece in the hole is to its parent, `top` being what the whole is to its own. -/
def place (top : Place) : Context → Place
  | .hole => top
  | .statement _ _ context _ => context.place .statement
  | .input _ _ _ context _ _ => context.place .input
  | .body _ _ _ context => context.place .body
  | .value _ _ _ context | .subject _ context _ _ | .callee _ context _
  | .argument _ _ _ context _ | .left _ _ context _ | .right _ _ _ context
  | .operand _ _ context | .condition _ context _ _ | .yes _ _ context _
  | .no _ _ _ context => context.place .expression

end Context

theorem fitAll_append_iff {place : Place} {before after : List Phrase} :
    FitAll place (before ++ after) ↔ FitAll place before ∧ FitAll place after := by
  induction before with
  | nil => exact ⟨fun h => ⟨trivial, h⟩, And.right⟩
  | cons p rest ih => simp only [List.cons_append, FitAll, ih, and_assoc]

/-- In a program that fits, the hole can be filled with every piece that fits its place. -/
theorem Fits.of_plug {context : Context} {piece : Phrase} {top : Place}
    (h : (context.plug piece).Fits top) : piece.Fits (context.place top) ∧
      ∀ other : Phrase, other.Fits (context.place top) → (context.plug other).Fits top := by
  induction context generalizing top with
  | hole => exact ⟨h, fun _ hother => hother⟩
  | statement span before context after ih =>
      obtain ⟨htop, hall⟩ := h
      obtain ⟨hbefore, hpiece, hafter⟩ := fitAll_append_iff.mp hall
      obtain ⟨hhole, hfill⟩ := ih hpiece
      exact ⟨hhole, fun other hother =>
        ⟨htop, fitAll_append_iff.mpr ⟨hbefore, hfill other hother, hafter⟩⟩⟩
  | input span name before context after body ih =>
      obtain ⟨htop, hall, hbody⟩ := h
      obtain ⟨hbefore, hpiece, hafter⟩ := fitAll_append_iff.mp hall
      obtain ⟨hhole, hfill⟩ := ih hpiece
      exact ⟨hhole, fun other hother =>
        ⟨htop, fitAll_append_iff.mpr ⟨hbefore, hfill other hother, hafter⟩, hbody⟩⟩
  | argument span callee before context after ih =>
      obtain ⟨htop, hcallee, hall⟩ := h
      obtain ⟨hbefore, hpiece, hafter⟩ := fitAll_append_iff.mp hall
      obtain ⟨hhole, hfill⟩ := ih hpiece
      exact ⟨hhole, fun other hother =>
        ⟨htop, hcallee, fitAll_append_iff.mpr ⟨hbefore, hfill other hother, hafter⟩⟩⟩
  | body span name inputs context ih =>
      obtain ⟨htop, hinputs, hpiece⟩ := h
      obtain ⟨hhole, hfill⟩ := ih hpiece
      exact ⟨hhole, fun other hother => ⟨htop, hinputs, hfill other hother⟩⟩
  | value | subject | operand =>
      rename_i ih
      obtain ⟨htop, hpiece⟩ := h
      obtain ⟨hhole, hfill⟩ := ih hpiece
      exact ⟨hhole, fun other hother => ⟨htop, hfill other hother⟩⟩
  | callee | left | condition =>
      rename_i ih
      obtain ⟨htop, hpiece, hrest⟩ := h
      obtain ⟨hhole, hfill⟩ := ih hpiece
      exact ⟨hhole, fun other hother => ⟨htop, hfill other hother, hrest⟩⟩
  | right span op left context ih =>
      obtain ⟨htop, hleft, hpiece⟩ := h
      obtain ⟨hhole, hfill⟩ := ih hpiece
      exact ⟨hhole, fun other hother => ⟨htop, hleft, hfill other hother⟩⟩
  | yes span condition context no ih =>
      obtain ⟨htop, hcondition, hpiece, hno⟩ := h
      obtain ⟨hhole, hfill⟩ := ih hpiece
      exact ⟨hhole, fun other hother => ⟨htop, hcondition, hfill other hother, hno⟩⟩
  | no span condition yes context ih =>
      obtain ⟨htop, hcondition, hyes, hpiece⟩ := h
      obtain ⟨hhole, hfill⟩ := ih hpiece
      exact ⟨hhole, fun other hother => ⟨htop, hcondition, hyes, hfill other hother⟩⟩

/-- An expression in parentheses may stand where a single one may. -/
theorem fits_block {piece : Phrase} {place : Place} (h : piece.Fits .expression)
    (hplace : place.admits .plain = true) (span : Span) :
    (Phrase.block span [piece]).Fits place := by
  refine ⟨?_, h.statement, trivial⟩
  cases place with
  | statement | expression => rfl
  | input | body | member => cases hplace

end Phrase

end Bindery
