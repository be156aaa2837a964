import Bindery.Proofs.Eval.Relayout

/-!
Programs that share a table of names. Whatever has been named in a table before, and whatever is
named in it later, a text is read with it as with a new one: with the same error, or as the same
tree under other names, and no answer about the program tells which table it was.
-/

namespace Bindery

namespace Interner

/-- What a table may have become since: strings were named in it and texts were read with it, some
of them in vain. -/
inductive Becomes (table : Interner) : Interner → Prop
  | same : table.Becomes table
  | interned {later} (s : String) : table.Becomes later → table.Becomes (later.intern s).2
  | tried {later last s name} : table.Becomes later → later.tryIntern s = .ok (name, last) →
      table.Becomes last
  | read {later} (name text : String) : table.Becomes later →
      table.Becomes (Source.parse name text later).2

variable {first second first' second' later interner : Interner}

theorem extends_lex (interner : Interner) (text : String) :
    interner.Extends (lex text interner).2 := by
  rw [lex]
  split
  · exact .refl interner
  · exact extends_nameTokens interner _

theorem extends_parse (interner : Interner) (name text : String) :
    interner.Extends (Source.parse name text interner).2 := by
  have hlex := extends_lex interner text
  rw [Source.parse]
  generalize lex text interner = result at hlex
  obtain ⟨outcome, later⟩ := result
  cases outcome <;> exact hlex

theorem extends_of_tryIntern {s : String} {name : Name}
    (h : interner.tryIntern s = .ok (name, later)) : interner.Extends later := by
  rw [tryIntern] at h
  split at h
  · cases h
    exact .refl _
  · split at h
    · have hgrown := extends_intern interner s
      rw [Except.ok.inj h] at hgrown
      exact hgrown
    · cases h

theorem Becomes.extends (h : interner.Becomes later) : interner.Extends later := by
  induction h with
  | same => exact .refl interner
  | interned s _ ih => exact ih.trans (extends_intern _ s)
  | tried _ hname ih => exact ih.trans (extends_of_tryIntern hname)
  | read name text _ ih => exact ih.trans (extends_parse _ name text)

theorem holdsEmpty_empty : empty.HoldsEmpty := rfl

theorem index_lt_of_get? {s : String} {name : Name} (h : interner.get? s = some name) :
    name.index < interner.size := by
  obtain ⟨index, hindex, rfl⟩ := Option.map_eq_some_iff.mp h
  exact (Array.findIdx?_eq_some_iff_getElem.mp hindex).choose

/-- A name of the first table becomes the name of the same string in the second one, and a name that
it does not have becomes one that the second does not have. -/
def translate (first second : Interner) (name : Name) : Name :=
  if first.get? (first.lookup name) = some name then
    (second.get? (first.lookup name)).getD ⟨second.size + name.index⟩
  else ⟨second.size + name.index⟩

theorem translate_eq {s : String} {name name' : Name} (h : first.get? s = some name)
    (h' : second.get? s = some name') : translate first second name = name' := by
  rw [translate, lookup_of_get? h, if_pos h, h', Option.getD_some]

/-- A name is renamed to the name of its string or to one behind the second table. -/
theorem translate_cases (first second : Interner) (name : Name) :
    (∃ s, first.get? s = some name ∧ second.get? s = some (translate first second name)) ∨
      translate first second name = ⟨second.size + name.index⟩ := by
  rw [translate]
  split
  · rename_i hfirst
    cases hsecond : second.get? (first.lookup name) with
    | some name' => exact .inl ⟨_, hfirst, hsecond⟩
    | none => exact .inr rfl
  · exact .inr rfl

theorem translate_injective {name other : Name}
    (h : translate first second name = translate first second other) : name = other := by
  rcases translate_cases first second name with ⟨s, hfirst, hsecond⟩ | hname
  · rcases translate_cases first second other with ⟨s', hfirst', hsecond'⟩ | hother
    · rw [h] at hsecond
      have hs : s = s' := by rw [← lookup_of_get? hsecond, lookup_of_get? hsecond']
      rw [hs, hfirst'] at hfirst
      exact (Option.some.inj hfirst).symm
    · have hlt := index_lt_of_get? hsecond
      rw [h, hother] at hlt
      exact absurd hlt (Nat.not_lt.mpr (Nat.le_add_right _ _))
  · rcases translate_cases first second other with ⟨s, hfirst, hsecond⟩ | hother
    · have hlt := index_lt_of_get? hsecond
      rw [← h, hname] at hlt
      exact absurd hlt (Nat.not_lt.mpr (Nat.le_add_right _ _))
    · rw [hname, hother, Name.mk.injEq] at h
      exact congrArg Name.mk (Nat.add_left_cancel h)

theorem translate_empty (h : first.HoldsEmpty) (h' : second.HoldsEmpty) :
    translate first second .empty = .empty :=
  translate_eq h.get?_empty h'.get?_empty

/-- Every string of the first table has a name in the second one, too. -/
def Covered (first second : Interner) : Prop :=
  ∀ s n, first.get? s = some n → ∃ n', second.get? s = some n'

theorem covered_empty (h : interner.HoldsEmpty) : empty.Covered interner := by
  intro s n hname
  have hs : s = "" := by
    rw [← lookup_of_get? hname, lookup]
    cases n.index <;> rfl
  rw [hs]
  exact ⟨_, h.get?_empty⟩

/-- The strings of a table after one has been named in it are those from before and this one. -/
theorem eq_or_get?_of_intern {s t : String} {name : Name}
    (h : (interner.intern s).2.get? t = some name) : t = s ∨ interner.get? t = some name := by
  by_cases heq : t = s
  · exact .inl heq
  · refine .inr ?_
    rw [intern] at h
    split at h
    · exact h
    · rw [get?, Array.findIdx?_push, if_neg (by simpa using fun hst => heq hst.symm),
        Option.or_none] at h
      exact h

theorem Covered.intern (h : first.Covered second) (s : String) :
    (first.intern s).2.Covered (second.intern s).2 := by
  intro t n hname
  rcases eq_or_get?_of_intern hname with rfl | hold
  · exact ⟨_, get?_intern second t⟩
  · obtain ⟨n', hn'⟩ := h t n hold
    exact ⟨n', (extends_intern second s).get? hn'⟩

theorem Covered.nameTokens (h : first.Covered second) (tokens : List (Token String)) :
    (first.nameTokens tokens).2.Covered (second.nameTokens tokens).2 := by
  induction tokens generalizing first second with
  | nil => exact h
  | cons token rest ih =>
      obtain ⟨kind, span, layout⟩ := token
      cases kind with
      | identifier spelling => exact ih (h.intern spelling)
      | text content => exact ih (h.intern content)
      | number | symbol => exact ih h

/-- A name that a table has given out keeps its string. -/
theorem Becomes.lookup_eq (h : interner.Becomes later) {name : Name}
    (hname : name.index < interner.size) : later.lookup name = interner.lookup name := by
  rw [lookup, lookup, h.extends.getElem? hname]

end Interner

def DeclaredType.renamed (rename : Name → Name) : DeclaredType → DeclaredType
  | .named name => .named (rename name)
  | .text => .text
  | .number => .number
  | .boolean => .boolean

/-- The same node with other names. -/
def NodeKind.renamed (rename : Name → Name) : NodeKind → NodeKind
  | .bind ⟨name, type, value⟩ => .bind ⟨rename name, type.map (.renamed rename), value⟩
  | .structureDef ⟨name, inputs, body⟩ => .structureDef ⟨rename name, inputs, body⟩
  | .memberName name => .memberName (rename name)
  | .reference name => .reference (rename name)
  | .text content => .text (rename content)
  | .block statements => .block statements
  | .property subject member => .property subject member
  | .evaluate callee arguments => .evaluate callee arguments
  | .number bits => .number bits
  | .boolean value => .boolean value
  | .binary op left right => .binary op left right
  | .unary op operand => .unary op operand
  | .conditional condition yes no => .conditional condition yes no

def Arena.renamed (rename : Name → Name) (arena : Arena) : Arena :=
  { arena with nodes := arena.nodes.map fun node => { node with kind := node.kind.renamed rename } }

namespace Source

/-- The second source is the first one under other names: no two names become one, the empty name
stays, and every name becomes the one that the second table has for its string. -/
structure RenamedTo (source source' : Source) (rename : Name → Name) : Prop where
  injective : ∀ n n', rename n = rename n' → n = n'
  empty : rename .empty = .empty
  names : ∀ s n, source.interner.get? s = some n → source'.interner.get? s = some (rename n)
  tree : source' =
    { source with arena := source.arena.renamed rename, interner := source'.interner }

/-- The context after nodes have been evaluated in it one after the other, each at a time when the
table of names had become the one that is given with it. -/
def usedAmid (source : Source) (history : List (Interner × NodeId)) (context : Context) :
    Context :=
  history.foldl (fun context use => ((source.withNames use.1).evaluate use.2 context).2) context

/-- What is to be seen of two values, each in its own program, is the same. -/
structure ShowsSame (source source' : Source) (value value' : Value) : Prop where
  display : value.display source.interner = value'.display source'.interner
  typeName : value.typeName source.interner = value'.typeName source'.interner
  error : value.asError? = value'.asError?

/-- The second source answers as the first one does, whatever its table becomes meanwhile. -/
structure AnswersAs (source' source : Source) : Prop where
  levels : ∀ later, source'.interner.Becomes later → ∀ id,
    (source'.withNames later).levels id = source.levels id
  definitionsInScope : ∀ later, source'.interner.Becomes later → ∀ id,
    (source'.withNames later).definitionsInScope id = source.definitionsInScope id
  definitionNamed? : ∀ later, source'.interner.Becomes later → ∀ id s,
    (source'.withNames later).definitionNamed? id s = source.definitionNamed? id s
  values : ∀ limits owner history, (∀ use ∈ history, source'.interner.Becomes use.1) →
    ∀ later, source'.interner.Becomes later → ∀ id,
      source.ShowsSame (source'.withNames later)
        (source.evaluate id (source.used (history.map (·.2)) (.fresh limits owner))).1
        ((source'.withNames later).evaluate id (source'.usedAmid history (.fresh limits owner))).1

/-- A text is refused for the same reason, or read as the same program. -/
inductive ReadSame : Except ParseError Source → Except ParseError Source → Prop
  | error {error} : ReadSame (.error error) (.error error)
  | ok {source source' rename} : source.RenamedTo source' rename → source'.AnswersAs source →
      ReadSame (.ok source) (.ok source')

end Source

namespace Likeness

theorem empty_iff_of_get? {first second : Interner} (h : first.HoldsEmpty)
    (h' : second.HoldsEmpty) {n n' : Name}
    (hname : ∃ s, first.get? s = some n ∧ second.get? s = some n') :
    n = .empty ↔ n' = .empty := by
  obtain ⟨s, hn, hn'⟩ := hname
  constructor
  · rintro rfl
    have hs : s = "" := by rw [← Interner.lookup_of_get? hn, h.lookup_empty]
    rw [hs, h'.get?_empty] at hn'
    exact (Option.some.inj hn').symm
  · rintro rfl
    have hs : s = "" := by rw [← Interner.lookup_of_get? hn', h'.lookup_empty]
    rw [hs, h.get?_empty] at hn
    exact (Option.some.inj hn).symm

/-- Names that two tables give to one string, and the same places. -/
def common {first second : Interner} (h : first.HoldsEmpty) (h' : second.HoldsEmpty) :
    Likeness where
  name n n' := ∃ s, first.get? s = some n ∧ second.get? s = some n'
  offset := Eq
  empty_iff := empty_iff_of_get? h h'
  min ha hb := by rw [ha, hb]
  max ha hb := by rw [ha, hb]

section Common

variable {first second later : Interner} {h : first.HoldsEmpty} {h' : second.HoldsEmpty}

theorem legible_common (hlater : second.Extends later) : (common h h').Legible first later where
  lookup := by
    rintro n n' ⟨s, hn, hn'⟩
    rw [Interner.lookup_of_get? hn, Interner.lookup_of_get? (hlater.get? hn')]
  eq_iff := by
    rintro n n' m m' ⟨s, hn, hn'⟩ ⟨t, hm, hm'⟩
    constructor
    · rintro rfl
      have hst : s = t := by rw [← Interner.lookup_of_get? hn, Interner.lookup_of_get? hm]
      rw [hst, hm'] at hn'
      exact (Option.some.inj hn').symm
    · rintro rfl
      have hst : s = t := by rw [← Interner.lookup_of_get? hn', Interner.lookup_of_get? hm']
      rw [hst, hm] at hn
      exact (Option.some.inj hn).symm

theorem alikeKind_common {kind : TokenKind String} {named named' : TokenKind Name}
    (hnamed : first.NamedAs kind named) (hnamed' : second.NamedAs kind named') :
    (common h h').AlikeKind named named' := by
  cases hnamed with
  | identifier hget =>
      cases hnamed' with
      | identifier hget' => exact .identifier ⟨_, hget, hget'⟩
  | text hget =>
      cases hnamed' with
      | text hget' => exact .text ⟨_, hget, hget'⟩
  | number =>
      cases hnamed'
      exact .number
  | symbol =>
      cases hnamed'
      exact .symbol

/-- Two tables name the same tokens alike. -/
theorem alikeTokens_common {tokens : List (Token String)} {named named' : List (Token Name)}
    (hnamed : List.Forall₂ (fun token token' => token'.span = token.span ∧
      token'.layout = token.layout ∧ first.NamedAs token.kind token'.kind) tokens named)
    (hnamed' : List.Forall₂ (fun token token' => token'.span = token.span ∧
      token'.layout = token.layout ∧ second.NamedAs token.kind token'.kind) tokens named') :
    (common h h').AlikeTokens named named' := by
  induction hnamed generalizing named' with
  | nil =>
      cases hnamed'
      exact .nil
  | cons htoken _ ih =>
      cases hnamed' with
      | cons htoken' hrest' =>
          obtain ⟨hspan, hlayout, hkind⟩ := htoken
          obtain ⟨hspan', hlayout', hkind'⟩ := htoken'
          refine .cons ⟨alikeKind_common hkind hkind', ?_, fun _ => ?_⟩ (ih hrest')
          · rw [AlikeSpan, hspan, hspan']
            exact ⟨rfl, rfl⟩
          · rw [hlayout, hlayout']
            exact ⟨rfl, rfl⟩

theorem AlikeKind.describe_eq {like : Likeness} {kind kind' : TokenKind Name}
    (hkind : like.AlikeKind kind kind') : kind.describe = kind'.describe := by
  cases hkind <;> rfl

theorem AlikeSpan.eq_of_common {span span' : Span} (hspan : (common h h').AlikeSpan span span') :
    span = span' := by
  cases span
  cases span'
  exact (Span.mk.injEq ..).mpr hspan

theorem AlikeType.renamed_of_common {type type' : Option DeclaredType}
    (htype : Option.Rel (common h h').AlikeType type type') :
    type' = type.map (.renamed (first.translate second)) := by
  cases htype with
  | none => rfl
  | some htype =>
      cases htype with
      | text | number | boolean => rfl
      | named hname =>
          obtain ⟨s, hn, hn'⟩ := hname
          rw [Option.map_some, DeclaredType.renamed, Interner.translate_eq hn hn']

theorem AlikeNodeKind.renamed_of_common {kind kind' : NodeKind}
    (hkind : (common h h').AlikeNodeKind kind kind') :
    kind' = kind.renamed (first.translate second) := by
  cases hkind with
  | bind hname htype =>
      obtain ⟨s, hn, hn'⟩ := hname
      rw [NodeKind.renamed, AlikeType.renamed_of_common htype, Interner.translate_eq hn hn']
  | structureDef hname | memberName hname | reference hname | text hname =>
      obtain ⟨s, hn, hn'⟩ := hname
      rw [NodeKind.renamed, Interner.translate_eq hn hn']
  | block | property | evaluate | number | boolean | binary | unary | conditional => rfl

theorem AlikeArena.renamed_of_common {arena arena' : Arena}
    (harena : (common h h').AlikeArena arena arena') :
    arena' = arena.renamed (first.translate second) := by
  obtain ⟨nodes, lists⟩ := arena
  obtain ⟨nodes', lists'⟩ := arena'
  obtain ⟨hnodes, rfl⟩ := harena
  have hlist {nodes nodes' : List Node}
      (hnodes : List.Forall₂ (common h h').AlikeNode nodes nodes') :
      nodes' = nodes.map fun node =>
        { node with kind := node.kind.renamed (first.translate second) } := by
    induction hnodes with
    | nil => rfl
    | @cons node node' rest rest' hnode _ ih =>
        obtain ⟨kind, span⟩ := node
        obtain ⟨kind', span'⟩ := node'
        rw [List.map_cons, ← ih, ← hnode.kind.renamed_of_common]
        exact congrArg (⟨kind', ·⟩ :: rest') hnode.span.eq_of_common.symm
  have hnodes := hlist hnodes
  rw [← Array.toList_map, Array.toList_inj] at hnodes
  exact congrArg (Arena.mk · lists) hnodes

theorem AlikeError.eq_of_common {error error' : EvalError}
    (herror : (common h h').AlikeError error error') : error = error' := by
  obtain ⟨fault, span, backtrace⟩ := error
  obtain ⟨fault', span', backtrace'⟩ := error'
  have hspans {span span' : Option Span} (hspan : Option.Rel (common h h').AlikeSpan span span') :
      span = span' := by
    cases hspan with
    | none => rfl
    | some hspan => exact congrArg some hspan.eq_of_common
  obtain ⟨rfl, hspan, hbacktrace⟩ := herror
  obtain rfl := hspans hspan
  cases hbacktrace with
  | none => rfl
  | @some frames frames' hframes =>
      have heq : frames = frames' := by
        refine List.forall₂_eq_eq_eq ▸ hframes.imp fun frame frame' hframe => ?_
        obtain ⟨name, span⟩ := frame
        obtain ⟨name', span'⟩ := frame'
        obtain ⟨rfl, hspan⟩ := hframe
        exact congrArg (BacktraceFrame.mk name) (hspans hspan)
      rw [heq]

theorem AlikeAnswer.asError?_eq {value value' : Value}
    (hanswer : (common h h').AlikeAnswer value value') : value.asError? = value'.asError? := by
  cases hanswer with
  | value hvalue => cases hvalue <;> rfl
  | error herror => rw [herror.eq_of_common]

end Common

section Sources

variable {source source' : Source} {h : source.interner.HoldsEmpty}
  {h' : source'.interner.HoldsEmpty} {later : Interner}

theorem AlikeSource.renamedTo (hsource : (common h h').AlikeSource source source')
    (hcovered : source.interner.Covered source'.interner) (hname : source.name = source'.name)
    (htext : source.text = source'.text) :
    source.RenamedTo source' (source.interner.translate source'.interner) where
  injective _ _ := Interner.translate_injective
  empty := Interner.translate_empty h h'
  names s n hname := by
    obtain ⟨n', hn'⟩ := hcovered s n hname
    rw [hn', Interner.translate_eq hname hn']
  tree := by
    rw [← hsource.arena.renamed_of_common, hname, htext, hsource.root, hsource.nodes,
      hsource.parents]

theorem AlikeSource.withNames (hsource : (common h h').AlikeSource source source')
    (hlater : source'.interner.Extends later) :
    (common h h').AlikeSource source (source'.withNames later) where
  arena := hsource.arena
  root := hsource.root
  nodes := hsource.nodes
  parents := hsource.parents
  legible := legible_common hlater
  start := rfl

/-- A string that is named in the later table only is defined nowhere. -/
theorem AlikeSource.definitionNamed?_withNames (hsource : (common h h').AlikeSource source source')
    (hcovered : source.interner.Covered source'.interner)
    (hlater : source'.interner.Extends later) (id : NodeId) (s : String) :
    (source'.withNames later).definitionNamed? id s = source.definitionNamed? id s := by
  have halike := hsource.withNames hlater
  rw [Source.definitionNamed?_withNames, Source.definitionNamed?]
  cases hname : source.interner.get? s with
  | some n =>
      obtain ⟨n', hn'⟩ := hcovered s n hname
      rw [hlater.get? hn']
      exact (hsource.definitionOf?_eq id ⟨s, hname, hn'⟩).symm
  | none =>
      cases hget : later.get? s with
      | none => rfl
      | some n' =>
          refine List.findSome?_eq_none_iff.mpr fun level _ => List.find?_eq_none.mpr
            fun definition _ heq => ?_
          have hdefined := hsource.definedName? definition.node
          rw [eq_of_beq heq] at hdefined
          generalize source.definedName? definition.node = found at hdefined
          cases hdefined with
          | some hfound =>
              obtain ⟨t, ht, ht'⟩ := hfound
              have hts : t = s := by
                rw [← Interner.lookup_of_get? (hlater.get? ht'), Interner.lookup_of_get? hget]
              rw [hts, hname] at ht
              cases ht

theorem AlikeSource.usedAmid (hsource : (common h h').AlikeSource source source')
    (history : List (Interner × NodeId))
    (hhistory : ∀ use ∈ history, source'.interner.Becomes use.1)
    {context context' : Context} (hcontext : (common h h').AlikeContext context context') :
    (common h h').AlikeContext (source.used (history.map (·.2)) context)
      (source'.usedAmid history context') := by
  induction history generalizing context context' with
  | nil => exact hcontext
  | cons use history ih =>
      obtain ⟨huse, hrest⟩ := List.forall_mem_cons.mp hhistory
      exact ih hrest ((hsource.withNames huse.extends).evaluate use.2 hcontext).2

theorem AlikeSource.answersAs (hsource : (common h h').AlikeSource source source')
    (hcovered : source.interner.Covered source'.interner) : source'.AnswersAs source where
  levels _ _ id := by rw [Source.levels_withNames, hsource.levels_eq]
  definitionsInScope _ _ id := by
    rw [Source.definitionsInScope_withNames, Source.definitionsInScope, Source.definitionsInScope,
      hsource.levels_eq]
  definitionNamed? _ hlater := hsource.definitionNamed?_withNames hcovered hlater.extends
  values limits owner history hhistory later hlater id := by
    have hnow := hsource.withNames hlater.extends
    have hused := hsource.usedAmid history hhistory (.fresh limits owner)
    have hanswer := (hnow.evaluate id hused).1
    exact ⟨hanswer.display_eq hnow.legible, hanswer.typeName_eq hnow.legible, hanswer.asError?_eq⟩

end Sources

end Likeness

namespace Source
open Likeness

variable {interner : Interner}

/-- Tokens under the names of two tables are read alike. -/
theorem readSame_of_named {first second : Interner} (h : first.HoldsEmpty) (h' : second.HoldsEmpty)
    (hcovered : first.Covered second) {tokens tokens' : List (Token Name)}
    (htokens : (common h h').AlikeTokens tokens tokens') (name text : String) (mark : EndMark) :
    ReadSame (((TokenList.mk tokens mark).parse first).map (ofPhrase name text · first))
      (((TokenList.mk tokens' mark).parse second).map (ofPhrase name text · second)) := by
  have hread := htokens.program rfl (rfl : mark.offset = mark.offset)
  rw [TokenList.parse, TokenList.parse]
  generalize Parser.program tokens mark.offset = read,
    Parser.program tokens' mark.offset = read' at hread
  cases hread with
  | ok hphrase =>
      have hsource := hphrase.source (legible_common (.refl second)) rfl name name text text
      exact .ok (hsource.renamedTo hcovered rfl rfl) (hsource.answersAs hcovered)
  | @error complaint complaint' rest rest' hcomplaint hrest =>
      have heq : Failure.toParseError ⟨complaint, rest⟩ mark first =
          Failure.toParseError ⟨complaint', rest'⟩ mark second := by
        cases hcomplaint with
        | unvalued hname hspan =>
            simp only [Failure.toParseError, (legible_common (.refl second)).lookup hname,
              hspan.eq_of_common]
        | expected =>
            cases hrest with
            | nil => rfl
            | cons htoken _ =>
                simp only [Failure.toParseError, htoken.span.eq_of_common, htoken.kind.describe_eq]
      simp only [Except.mapError, Except.map, heq]
      exact .error

/-- A text is read with a table that has a history as with a new one, and names that were handed
out before keep their strings. -/
theorem parse_shared (h : Interner.empty.Becomes interner) (name text : String) :
    ReadSame (parse name text .empty).1 (parse name text interner).1 ∧
      ∀ later, interner.Becomes later → ∀ earlier : Name, earlier.index < interner.size →
        later.lookup earlier = interner.lookup earlier := by
  refine ⟨?_, fun later hlater earlier => hlater.lookup_eq⟩
  have hempty := Interner.holdsEmpty_empty.of_extends h.extends
  by_cases hsize : text.utf8ByteSize ≤ maxSourceLength
  · rw [parse, parse, lex_eq _ hsize, lex_eq _ hsize]
    generalize Lexer.scan 0 true text.toList = scanned
    obtain ⟨tokens, outcome⟩ := scanned
    cases outcome with
    | error error => exact .error
    | ok mark =>
        have hfirst := Interner.extends_nameTokens .empty tokens
        have hsecond := Interner.extends_nameTokens interner tokens
        exact readSame_of_named (Interner.holdsEmpty_empty.of_extends hfirst)
          (hempty.of_extends hsecond) ((Interner.covered_empty hempty).nameTokens tokens)
          (alikeTokens_common (Interner.namedAs_nameTokens tokens (.refl _))
            (Interner.namedAs_nameTokens tokens (.refl _))) name text mark
  · rw [parse, parse, lex, lex, if_pos (Nat.not_le.mp hsize), if_pos (Nat.not_le.mp hsize)]
    exact .error

/-- A table in which a program was read before, and another text in vain. -/
theorem parse_shared_after_failure :
    ∃ interner, interner = (parse "b" "c: (" (parse "a" "x: 'y'\ny: x" .empty).2).2 ∧
      Interner.empty.Becomes interner ∧
      ReadSame (parse "<code>" "y: 'x'\ny" .empty).1 (parse "<code>" "y: 'x'\ny" interner).1 := by
  have hbecomes : Interner.empty.Becomes
      (parse "b" "c: (" (parse "a" "x: 'y'\ny: x" .empty).2).2 :=
    .read "b" "c: (" (.read "a" "x: 'y'\ny: x" .same)
  exact ⟨_, rfl, hbecomes, (parse_shared hbecomes "<code>" "y: 'x'\ny").1⟩

end Source
end Bindery
