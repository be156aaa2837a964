import Bindery.Proofs.Eval.Likeness
import Bindery.Proofs.Scope.Nearest

/-!
What layout can do. Two texts may set off the same tokens differently, with other gaps and other
comments between them. As long as parentheses that open are set off alike, in that they touch the
token before them and in that they start a line, both are read as one program, or both fail to be
read for the same reason. Nothing but places tells the two programs apart.
-/

namespace Bindery

/-- The tokens say the same. How a token is set off counts if it is a parenthesis that opens. -/
structure Token.Agrees (token token' : Token Name) : Prop where
  kind : token.kind = token'.kind
  layout : token.kind = .symbol .leftParen →
    token.layout.adjacent = token'.layout.adjacent ∧
    token.layout.newlineBefore = token'.layout.newlineBefore

instance : DecidableRel Token.Agrees := fun token token' =>
  decidable_of_iff (token.kind = token'.kind ∧ (token.kind = .symbol .leftParen →
    token.layout.adjacent = token'.layout.adjacent ∧
    token.layout.newlineBefore = token'.layout.newlineBefore))
    ⟨fun h => ⟨h.1, h.2⟩, fun h => ⟨h.kind, h.layout⟩⟩

/-- The same error, wherever it arose. -/
structure EvalError.SameElsewhere (error error' : EvalError) : Prop where
  fault : error.fault = error'.fault
  span : error.span.isSome = error'.span.isSome
  backtrace : error.backtrace.map (List.map (·.name)) = error'.backtrace.map (List.map (·.name))

/-- The same value, or the same error. -/
inductive Value.SameElsewhere : Value → Value → Prop
  | value {value} : Value.SameElsewhere value value
  | error {error error'} : error.SameElsewhere error' →
      Value.SameElsewhere (.error error) (.error error')

/-- What two sources answer, and how each of them shows it. -/
structure Source.AnswersAlike (source source' : Source) (value value' : Value) : Prop where
  same : value.SameElsewhere value'
  display : value.display source.interner = value'.display source'.interner
  typeName : value.typeName source.interner = value'.typeName source'.interner

/-- The sources are one program. Their trees differ in nothing but places, the same definitions are
visible at every node, and however a context was used, every node evaluated in it comes to the
same. -/
structure Source.SameElsewhere (source source' : Source) : Prop where
  root : source.root = source'.root
  size : source.arena.size = source'.arena.size
  lists : source.arena.lists = source'.arena.lists
  kind : ∀ id, source.kind id = source'.kind id
  nodes : source.nodes = source'.nodes
  parents : source.parents = source'.parents
  names : source.interner.Extends source'.interner
  levels : ∀ id, source.levels id = source'.levels id
  definitionNamed? : ∀ id s, source.definitionNamed? id s = source'.definitionNamed? id s
  answers : ∀ limits owner history id, source.AnswersAlike source'
    (source.evaluate id (source.used history (.fresh limits owner))).1
    (source'.evaluate id (source'.used history (.fresh limits owner))).1

/-- Two texts are read as one program, or both fail to be read for the same reason. -/
inductive Source.ReadAlike : Except ParseError Source → Except ParseError Source → Prop
  | ok {source source'} : source.SameElsewhere source' → ReadAlike (.ok source) (.ok source')
  | unexpectedToken {expected found span span'} :
      ReadAlike (.error (.unexpectedToken expected found span))
        (.error (.unexpectedToken expected found span'))
  | unvaluedBind {name span span'} :
      ReadAlike (.error (.unvaluedBind name span)) (.error (.unvaluedBind name span'))

namespace Likeness

variable {interner later : Interner}

theorem legible_namedIn (h : interner.Extends later) :
    (namedIn interner).Legible interner later where
  lookup hname := by
    obtain ⟨rfl, s, hget⟩ := hname
    rw [Interner.lookup_of_get? hget, Interner.lookup_of_get? (h.get? hget)]
  eq_iff hname hother := by rw [hname.1, hother.1]

theorem alikeTokens_of_agrees {first : Interner} {tokens : List (Token String)}
    {named tokens' : List (Token Name)} (hnamed : first.nameTokens tokens = (named, interner))
    (h : List.Forall₂ Token.Agrees named tokens') :
    (namedIn interner).AlikeTokens named tokens' := by
  have hnames := Interner.namedAs_nameTokens tokens
    (Interner.Extends.refl (first.nameTokens tokens).2)
  rw [hnamed] at hnames
  clear hnamed
  induction h generalizing tokens with
  | nil => exact .nil
  | cons hagrees _ ih =>
      cases hnames with
      | cons hkind hrest =>
          refine .cons ⟨?_, ⟨trivial, trivial⟩, hagrees.layout⟩ (ih hrest)
          rw [← hagrees.kind]
          exact alikeKind_namedIn hkind.2.2

theorem AlikeKind.eq_of_namedIn {kind kind' : TokenKind Name}
    (h : (namedIn interner).AlikeKind kind kind') : kind = kind' := by
  cases h with
  | identifier hname | text hname => rw [hname.1]
  | number | symbol => rfl

mutual

theorem AlikeValue.eq_of_namedIn : {value value' : Value} →
    (namedIn interner).AlikeValue value value' → value = value'
  | _, _, .none | _, _, .text | _, _, .number | _, _, .boolean => rfl
  | _, _, .structureRef hname => by rw [hname.1]
  | _, _, .inst hname hproperties => by rw [hname.1, hproperties.eq_of_namedIn]

theorem AlikeProperties.eq_of_namedIn : {properties properties' : List (Name × Value)} →
    (namedIn interner).AlikeProperties properties properties' → properties = properties'
  | _, _, .nil => rfl
  | _, _, .cons hname hvalue hrest => by rw [hname.1, hvalue.eq_of_namedIn, hrest.eq_of_namedIn]

end

theorem AlikeType.eq_of_namedIn {type type' : Option DeclaredType}
    (h : Option.Rel (namedIn interner).AlikeType type type') : type = type' := by
  cases h with
  | none => rfl
  | some htype =>
      cases htype with
      | text | number | boolean => rfl
      | named hname => rw [hname.1]

theorem AlikeNodeKind.eq_of_namedIn {kind kind' : NodeKind}
    (h : (namedIn interner).AlikeNodeKind kind kind') : kind = kind' := by
  cases h with
  | bind hname htype => rw [hname.1, AlikeType.eq_of_namedIn htype]
  | structureDef hname | memberName hname | reference hname | text hname => rw [hname.1]
  | block | property | evaluate | number | boolean | binary | unary | conditional => rfl

theorem AlikeError.sameElsewhere {like : Likeness} {error error' : EvalError}
    (h : like.AlikeError error error') : error.SameElsewhere error' := by
  refine ⟨h.fault, ?_, ?_⟩
  · have hspan := h.span
    generalize error.span = span, error'.span = span' at hspan
    cases hspan <;> rfl
  · have htrace := h.backtrace
    generalize error.backtrace = trace, error'.backtrace = trace' at htrace
    cases htrace with
    | none => rfl
    | some hframes =>
        refine congrArg some (List.forall₂_eq_eq_eq ▸ ?_)
        exact List.rel_map (fun _ _ hframe => hframe.name) hframes

theorem AlikeAnswer.sameElsewhere {value value' : Value}
    (h : (namedIn interner).AlikeAnswer value value') : value.SameElsewhere value' := by
  cases h with
  | value h => rw [h.eq_of_namedIn]; exact .value
  | error h => exact .error h.sameElsewhere

namespace AlikeSource

variable {source source' : Source} (h : (namedIn source.interner).AlikeSource source source')
include h

/-- No node defines a name of which the first table does not tell. -/
theorem definedName?_ne (hextends : source.interner.Extends source'.interner) {s : String}
    (hnone : source.interner.get? s = none) {name : Name}
    (hname : source'.interner.get? s = some name) (id : NodeId) :
    source'.definedName? id ≠ some name := by
  intro heq
  have hdefined := h.definedName? id
  rw [heq] at hdefined
  generalize source.definedName? id = found at hdefined
  cases hdefined with
  | some hfound =>
      obtain ⟨rfl, other, hget⟩ := hfound
      have hsame : other = s := by
        rw [← Interner.lookup_of_get? (hextends.get? hget), Interner.lookup_of_get? hname]
      rw [hsame, hnone] at hget
      cases hget

theorem definitionNamed?_eq (hextends : source.interner.Extends source'.interner) (id : NodeId)
    (s : String) : source.definitionNamed? id s = source'.definitionNamed? id s := by
  rw [Source.definitionNamed?, Source.definitionNamed?]
  cases hname : source.interner.get? s with
  | some name =>
      rw [hextends.get? hname]
      exact h.definitionOf?_eq id ⟨rfl, s, hname⟩
  | none =>
      cases hlater : source'.interner.get? s with
      | none => rfl
      | some name =>
          have hnone : source'.definitionOf? id name = none :=
            List.findSome?_eq_none_iff.mpr fun level _ => List.find?_eq_none.mpr
              fun definition _ heq =>
                h.definedName?_ne hextends hname hlater definition.node (eq_of_beq heq)
          exact hnone.symm

theorem sameElsewhere (hextends : source.interner.Extends source'.interner) :
    source.SameElsewhere source' where
  root := h.root
  size := h.arena.size_eq
  lists := h.arena.lists
  kind id := (h.nodeKind id).eq_of_namedIn
  nodes := h.nodes
  parents := h.parents
  names := hextends
  levels := h.levels_eq
  definitionNamed? := h.definitionNamed?_eq hextends
  answers limits owner history id := by
    have hused := h.used history (AlikeContext.fresh limits owner)
    have hanswer := (h.evaluate id hused).1
    exact ⟨hanswer.sameElsewhere, hanswer.display_eq h.legible, hanswer.typeName_eq h.legible⟩

end AlikeSource

end Likeness

namespace Source
open Likeness

variable {name name' text text' : String} {first second third fourth : Interner}
  {list list' : TokenList Name}

theorem parse_of_lex (h : lex text first = (.ok list, second)) :
    (parse name text first).1 = (list.parse second).map (ofPhrase name text · second) := by
  rw [parse, h]

theorem readAlike_of_failures {failure failure' : Failure} {mark mark' : EndMark}
    (hextends : second.Extends fourth)
    (hcomplaint : (namedIn second).AlikeComplaint failure.complaint failure'.complaint)
    (hrest : (namedIn second).AlikeTokens failure.rest failure'.rest) :
    ReadAlike (.error (failure.toParseError mark second))
      (.error (failure'.toParseError mark' fourth)) := by
  obtain ⟨complaint, rest⟩ := failure
  obtain ⟨complaint', rest'⟩ := failure'
  cases hcomplaint with
  | unvalued hname _ =>
      simp only [Failure.toParseError, (legible_namedIn hextends).lookup hname]
      exact .unvaluedBind
  | expected =>
      cases hrest with
      | nil => exact .unexpectedToken
      | cons htoken _ =>
          simp only [Failure.toParseError, htoken.kind.eq_of_namedIn]
          exact .unexpectedToken

/-- Texts with the same tokens, in which parentheses are set off alike, are read alike. -/
theorem parse_relaid (h : lex text first = (.ok list, second))
    (h' : lex text' third = (.ok list', fourth)) (hshared : second.Extends third)
    (hagree : List.Forall₂ Token.Agrees list.tokens list'.tokens) :
    ReadAlike (parse name text first).1 (parse name' text' third).1 := by
  have hgrown := third.extends_nameTokens (tokensOf text')
  rw [(scan_of_lex h').2] at hgrown
  have hextends : second.Extends fourth := hshared.trans hgrown
  have hread : (namedIn second).AlikeRead (Parser.program list.tokens list.endMark.offset)
      (Parser.program list'.tokens list'.endMark.offset) :=
    (alikeTokens_of_agrees (scan_of_lex h).2 hagree).program trivial trivial
  rw [parse_of_lex h, parse_of_lex h', TokenList.parse, TokenList.parse]
  generalize Parser.program list.tokens list.endMark.offset = read,
    Parser.program list'.tokens list'.endMark.offset = read' at hread
  cases hread with
  | ok hphrase =>
      have hsource := hphrase.source (legible_namedIn hextends) trivial name name' text text'
      exact .ok (hsource.sameElsewhere hextends)
  | error hcomplaint hrest => exact readAlike_of_failures hextends hcomplaint hrest

def tightText : String := "•P(a) (b: a)\nP(1).b"

/-- The parenthesis of the inputs touches the name before it, that of the body does not and stands
on its line. With other gaps and a comment both stay so. -/
def looseText : String := "•\nP(a // input\n)\t(b :a) P(1)\n. b"

theorem parse_relaid_looseText :
    ∃ source list second list' fourth,
      (parse "<code>" tightText .empty).1 = .ok source ∧
      lex tightText .empty = (.ok list, second) ∧
      lex looseText second = (.ok list', fourth) ∧
      list.tokens ≠ list'.tokens ∧ List.Forall₂ Token.Agrees list.tokens list'.tokens ∧
      ReadAlike (.ok source) (parse "<code>" looseText second).1 := by
  obtain ⟨source, hsource⟩ : ∃ source, (parse "<code>" tightText .empty).1 = .ok source :=
    exists_of_isOk (by decide +kernel)
  have hfacts : (lex tightText .empty).1.toOption.bind (fun list =>
      (lex looseText (lex tightText .empty).2).1.toOption.bind fun list' =>
        some (decide (list.tokens ≠ list'.tokens ∧
          List.Forall₂ Token.Agrees list.tokens list'.tokens))) = some true := by
    decide +kernel
  obtain ⟨list, hlist, hfacts⟩ := exists_of_toOption_bind hfacts
  obtain ⟨list', hlist', hfacts⟩ := exists_of_toOption_bind hfacts
  obtain ⟨hne, hagree⟩ := of_decide_eq_true (Option.some.inj hfacts)
  have h : lex tightText .empty = (.ok list, _) := Prod.ext hlist rfl
  have h' : lex looseText _ = (.ok list', _) := Prod.ext hlist' rfl
  have hread : ReadAlike (parse "<code>" tightText .empty).1 (parse "<code>" looseText _).1 :=
    parse_relaid h h' (.refl _) hagree
  rw [hsource] at hread
  exact ⟨source, list, _, list', _, hsource, h, h', hne, hagree, hread⟩

end Source
end Bindery
