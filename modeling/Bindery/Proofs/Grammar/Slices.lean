import Bindery.Proofs.Grammar.Lines

/-!
Slices of programs. A phrase covers the tokens that it was read from, from the first of them to
the last, and these tokens alone are a program: the phrase and nothing more. For no part of the
grammar needs what comes after it to be what it is; what comes after can only take it further.
Inputs without a value are the exception, since no statement has their form.
-/

namespace Bindery

/-- The phrases right inside a phrase, from left to right. -/
def Phrase.pieces : Phrase → List Phrase
  | .block _ statements => statements
  | .bind _ _ _ value => value.toList
  | .structureDef _ _ inputs body => inputs ++ body.toList
  | .property _ subject _ _ => [subject]
  | .evaluate _ callee arguments => callee :: arguments
  | .binary _ _ left right => [left, right]
  | .unary _ _ operand => [operand]
  | .conditional _ condition yes no => [condition, yes, no]
  | .reference .. | .number .. | .text .. | .boolean .. => []

namespace Grammar

theorem OpensBind.append {tokens : Tokens} (h : OpensBind tokens) (further : Tokens) :
    OpensBind (tokens ++ further) := by
  obtain ⟨name, span, layout, rest, rfl, hnext⟩ := h
  exact ⟨name, span, layout, rest ++ further, rfl,
    hnext.imp (atHead_next .colon).append (atHead_next .bullet).append⟩

/-- The parts of the grammar that only a parenthesis ends. -/
def Category.EndsAtParenthesis : Category → Prop
  | .inputs | .arguments => True
  | _ => False

/-- A part of the grammar takes the same tokens if the tokens after these break off, be it at
once. -/
def Category.Cuts (c : Category) (tokens : Tokens) (reading : c.Reading) (rest : Tokens) : Prop :=
  ∃ used, tokens = used ++ rest ∧ ∀ kept dropped, rest = kept ++ dropped →
    (c.EndsAtParenthesis → kept ≠ []) → Nonempty (Derivation c (used ++ kept) reading kept)

theorem Derivation.cut {c : Category} {tokens rest : Tokens} {reading : c.Reading}
    (d : Derivation c tokens reading rest) : c.Cuts tokens reading rest := by
  have hallows := d.allows
  obtain ⟨used, rfl, hrefit⟩ := d.refit
  refine ⟨used, rfl, fun kept dropped heq hkept => ?_⟩
  subst heq
  refine hrefit kept (.of_atHead fun _ hproperty h => hproperty.append h) ?_
  cases c with
  | program => exact (List.append_eq_nil_iff.mp hallows).1
  | statements =>
      by_cases hnil : kept = []
      · exact .inl hnil
      · have hnext := hallows.resolve_left fun h => hnil (List.append_eq_nil_iff.mp h).1
        exact .inr ((atHead_next _).of_append hnext hnil)
  | inputs | arguments => exact (atHead_next _).of_append hallows (hkept trivial)
  | input => exact (atHead_next _).append
  | statement => exact fun hopens => List.append_assoc .. ▸ hopens.append dropped
  | structureDef | bind | body | expression | tier | operand | chain | unary | selection
  | selections | primary | block => trivial

/-- What a part of the grammar reads it reads from the tokens that it takes alone. -/
theorem Derivation.alone {c : Category} {tokens rest : Tokens} {reading : c.Reading}
    (d : Derivation c tokens reading rest) (hc : ¬ c.EndsAtParenthesis) :
    ∃ piece, piece <+: tokens ∧ Nonempty (Derivation c piece reading []) := by
  obtain ⟨used, heq, hcut⟩ := d.cut
  have hused := hcut [] rest rfl fun hends => absurd hends hc
  rw [List.append_nil] at hused
  exact ⟨used, ⟨rest, heq.symm⟩, hused⟩

section Spans

/-- Tokens start and stop in the order in which they stand. -/
def Ordered (tokens : Tokens) : Prop :=
  tokens.Pairwise fun token later =>
    token.span.start ≤ later.span.start ∧ token.span.stop ≤ later.span.stop

/-- The span goes from the first of the tokens to the last one before the rest. -/
def Spans (tokens rest : Tokens) (span : Span) : Prop :=
  ∃ used, tokens = used ++ rest ∧ used.head?.map (·.span.start) = some span.start ∧
    used.getLast?.map (·.span.stop) = some span.stop

variable {tokens middle between rest : Tokens} {a b : Span}

theorem Ordered.suffix (h : Ordered tokens) (hrest : rest <:+ tokens) : Ordered rest :=
  h.sublist hrest.sublist

theorem spans_token (token : Token Name) (rest : Tokens) :
    Spans (token :: rest) rest token.span :=
  ⟨[token], rfl, rfl, rfl⟩

theorem Spans.join (h : Spans tokens middle a) (hbetween : between <:+ middle)
    (h' : Spans between rest b) : Spans tokens rest ⟨a.start, b.stop⟩ := by
  obtain ⟨used, rfl, hfirst, -⟩ := h
  obtain ⟨link, rfl⟩ := hbetween
  obtain ⟨used', rfl, -, hlast⟩ := h'
  refine ⟨used ++ (link ++ used'), by simp only [List.append_assoc], ?_, ?_⟩
  · rw [List.head?_append, Option.map_or, hfirst]
    rfl
  · rw [List.getLast?_append, List.getLast?_append, Option.map_or, Option.map_or, hlast]
    rfl

/-- Two of the tokens that a span covers are at its ends. -/
theorem Spans.ends (h : Spans tokens rest a) :
    ∃ used, tokens = used ++ rest ∧ (∃ first ∈ used, first.span.start = a.start) ∧
      ∃ last ∈ used, last.span.stop = a.stop := by
  obtain ⟨used, heq, hfirst, hlast⟩ := h
  obtain ⟨first, hhead, hstart⟩ := Option.map_eq_some_iff.mp hfirst
  obtain ⟨last, hend, hstop⟩ := Option.map_eq_some_iff.mp hlast
  exact ⟨used, heq, ⟨first, List.mem_of_mem_head? hhead, hstart⟩,
    ⟨last, List.mem_of_mem_getLast? hend, hstop⟩⟩

theorem Spans.merge (h : Spans tokens middle a) (hbetween : between <:+ middle)
    (h' : Spans between rest b) (hordered : Ordered tokens) : Spans tokens rest (a.merge b) := by
  have hmerge : a.merge b = ⟨a.start, b.stop⟩ := by
    obtain ⟨used, rfl, ⟨first, hfirst, hstart⟩, ⟨last, hlast, hstop⟩⟩ := h.ends
    obtain ⟨used', rfl, ⟨first', hfirst', hstart'⟩, ⟨last', hlast', hstop'⟩⟩ := h'.ends
    have hlater {token : Token Name} (htoken : token ∈ used') : token ∈ middle :=
      hbetween.mem (List.mem_append_left _ htoken)
    have hbefore := (List.pairwise_append.mp hordered).2.2
    have hle := (hbefore first hfirst first' (hlater hfirst')).1
    have hle' := (hbefore last hlast last' (hlater hlast')).2
    rw [Span.merge, ← hstart, ← hstart', ← hstop, ← hstop', Nat.min_eq_left hle,
      Nat.max_eq_right hle']
  rw [hmerge]
  exact h.join hbetween h'

/-- What a part of the grammar reads covers the tokens that it takes. -/
def Category.Spanned : (c : Category) → Tokens → c.Reading → Tokens → Prop
  | .body, tokens, none, rest => tokens = rest
  | .body, tokens, some p, rest => Spans tokens rest p.span
  | .chain _ left, tokens, p, rest | .selections left, tokens, p, rest =>
    ∀ whole, Ordered whole → Spans whole tokens left.span → Spans whole rest p.span
  | .statement, tokens, p, rest | .structureDef, tokens, p, rest | .input, tokens, p, rest
  | .bind, tokens, p, rest | .expression, tokens, p, rest | .tier _, tokens, p, rest
  | .operand _, tokens, p, rest | .unary, tokens, p, rest | .selection, tokens, p, rest
  | .primary, tokens, p, rest | .block, tokens, p, rest => Spans tokens rest p.span
  | .program _, _, _, _ | .statements, _, _, _ | .inputs, _, _, _ | .arguments, _, _, _ => True

theorem Derivation.spanned {c : Category} {reading : c.Reading}
    (d : Derivation c tokens reading rest) : Ordered tokens → c.Spanned tokens reading rest := by
  induction d with
  | program | noStatement | moreStatements | noInput | moreInputs | noArgument | moreArguments =>
      exact fun _ => trivial
  | ofStructureDef _ ih | ofBind _ ih | ofExpression _ _ ih | ofBlock _ _ ih | valued _ ih
  | ofTier _ ih | ofTighter _ _ ih | ofUnary _ _ ih | ofSelection _ ih | ofPrimaryBlock _ ih =>
      exact ih
  | noBody _ => exact fun _ => rfl
  | @structureDef _ _ _ _ _ _ _ _ _ _ _ _ body _ d d' _ ih =>
      intro hordered
      have hafter := (List.suffix_cons _ _).trans d.suffix
      have hbody := ih (((hordered.suffix (List.suffix_cons _ _)).suffix
        (List.suffix_cons _ _)).suffix ((hafter.trans (List.suffix_cons _ _))))
      cases body with
      | none =>
          cases hbody
          exact (spans_token _ _).join
            (d.suffix.trans ((List.suffix_cons _ _).trans (List.suffix_cons _ _))) (spans_token _ _)
      | some p =>
          exact (spans_token _ _).join
            (hafter.trans ((List.suffix_cons _ _).trans (List.suffix_cons _ _))) hbody
  | bind declares d ih =>
      intro hordered
      have hvalue := (List.suffix_cons _ _).trans declares.suffix
      exact (spans_token _ _).join hvalue
        (ih (hordered.suffix (hvalue.trans (List.suffix_cons _ _))))
  | unvalued declares _ =>
      intro _
      cases declares with
      | untyped _ => exact spans_token _ _
      | typed _ => exact (spans_token _ _).join (List.suffix_cons _ _) (spans_token _ _)
  | conditional d d' _ _ _ ih =>
      intro hordered
      have hno := (List.suffix_cons _ _).trans
        (d'.suffix.trans ((List.suffix_cons _ _).trans d.suffix))
      exact (spans_token _ _).merge hno
        (ih (hordered.suffix (hno.trans (List.suffix_cons _ _)))) hordered
  | joined d _ first more =>
      intro hordered
      exact more (hordered.suffix d.suffix) _ hordered (first hordered)
  | chainEnd _ => exact fun _ _ _ hleft => hleft
  | chainStep _ d _ right more =>
      intro hordered whole hwhole hleft
      have hright := hordered.suffix (List.suffix_cons _ _)
      exact more (hright.suffix d.suffix) whole hwhole
        (hleft.merge (List.suffix_cons _ _) (right hright) hwhole)
  | prefixed _ _ ih =>
      intro hordered
      exact (spans_token _ _).merge (List.suffix_refl _)
        (ih (hordered.suffix (List.suffix_cons _ _))) hordered
  | selection d _ first more =>
      intro hordered
      exact more (hordered.suffix d.suffix) _ hordered (first hordered)
  | selected _ _ => exact fun _ _ _ hsubject => hsubject
  | property _ ih =>
      intro hordered whole hwhole hsubject
      exact ih (hordered.suffix ((List.suffix_cons _ _).trans (List.suffix_cons _ _))) whole hwhole
        (hsubject.merge (List.suffix_cons _ _) (spans_token _ _) hwhole)
  | evaluate _ d _ _ more =>
      intro hordered whole hwhole hsubject
      have hbetween := (List.suffix_cons _ _).trans d.suffix
      exact more (hordered.suffix (hbetween.trans (List.suffix_cons _ _))) whole hwhole
        (hsubject.join (d.suffix.trans (List.suffix_cons _ _)) (spans_token _ _))
  | number | text | trueWord | falseWord | reference => exact fun _ => spans_token _ _
  | block d _ =>
      intro hordered
      exact (spans_token _ _).merge d.suffix (spans_token _ _) hordered

end Spans

section Sliced

variable {tokens between rest piece whole : Tokens} {p left : Phrase}

/-- What opens a bind is no expression, for that would be a name alone and end after the name. -/
theorem Derivation.not_opensBind (d : Derivation .expression tokens p []) :
    ¬ OpensBind tokens := by
  intro hopens
  obtain ⟨name, span, layout, rest, rfl, hnext⟩ := hopens
  have hsymbol {symbol : Symbol} (h : Next symbol rest) : symbol = .colon ∨ symbol = .bullet :=
    hnext.imp h.unique h.unique
  have hdot : ¬ Next .dot rest := fun h => by cases hsymbol h <;> contradiction
  have harguments : ¬ OpensArguments rest := by
    intro h
    obtain ⟨span, layout, further, heq, -⟩ := h
    cases hsymbol ⟨span, layout, further, heq⟩ <;> contradiction
  have hoperator (tier : Tier) : ¬ NextOperator tier rest := by
    intro h
    obtain ⟨symbol, hsome, h⟩ := h
    rcases hsymbol h with rfl | rfl <;> cases tier <;> cases hsome
  have hreference : Derivation .primary (⟨.identifier name, span, layout⟩ :: rest)
    (.reference span name) rest := .reference
  obtain ⟨e⟩ := expression_of_unary
    (.ofSelection (.selection hreference (.selected hdot harguments))) hoperator
  obtain ⟨-, rfl, -⟩ := d.unique e
  exact hnext.elim (atHead_next .colon).1 (atHead_next .bullet).1

/-- Some tokens in a row are a program of this statement alone, and it covers just these. -/
def Isolates (tokens : Tokens) (p : Phrase) : Prop :=
  ∃ piece, piece <:+: tokens ∧ Nonempty (Derivation .statements piece [p] []) ∧
    Spans piece [] p.span

namespace Isolates

theorem mono (h : Isolates tokens p) (htokens : tokens <:+: whole) : Isolates whole p := by
  obtain ⟨piece, hpiece, hread⟩ := h
  exact ⟨piece, hpiece.trans htokens, hread⟩

theorem of_front (hordered : Ordered tokens) (hpiece : piece <+: tokens)
    (h : Ordered piece → Isolates piece p) : Isolates tokens p :=
  (h (hordered.sublist hpiece.sublist)).mono hpiece.isInfix

theorem of_statement (d : Derivation .statement tokens p rest) (hordered : Ordered tokens) :
    Isolates tokens p := by
  obtain ⟨piece, hpiece, ⟨e⟩⟩ := d.alone id
  exact ⟨piece, hpiece.isInfix, ⟨.moreStatements e (.noStatement (.inl rfl))⟩,
    e.spanned (hordered.sublist hpiece.sublist)⟩

theorem of_expression (d : Derivation .expression tokens p rest) (hordered : Ordered tokens) :
    Isolates tokens p := by
  obtain ⟨piece, hpiece, ⟨e⟩⟩ := d.alone id
  exact of_front hordered hpiece (of_statement (.ofExpression e.not_opensBind e))

theorem of_unary (d : Derivation .unary tokens p rest) (hordered : Ordered tokens) :
    Isolates tokens p := by
  obtain ⟨piece, hpiece, ⟨e⟩⟩ := d.alone id
  obtain ⟨e'⟩ := e.expression_of_unary fun tier => (atHead_nextOperator tier).1
  exact of_front hordered hpiece (of_expression e')

theorem of_primary (d : Derivation .primary tokens p rest) (hordered : Ordered tokens) :
    Isolates tokens p := by
  obtain ⟨piece, hpiece, ⟨e⟩⟩ := d.alone id
  have hselected : Derivation (.selections p) [] p [] :=
    .selected (atHead_next .dot).1 atHead_opensArguments.1
  exact of_front hordered hpiece (of_unary (.ofSelection (.selection e hselected)))

end Isolates

/-- The phrase is isolated, and so is every phrase inside it, binds without a value aside. -/
inductive Sliced (tokens : Tokens) : Phrase → Prop
  | intro {p : Phrase} : (∃ span name type, p = .bind span name type none) ∨ Isolates tokens p →
      (∀ q ∈ p.pieces, Sliced tokens q) → Sliced tokens p

theorem Sliced.mono (h : Sliced tokens p) (htokens : tokens <:+: whole) : Sliced whole p := by
  induction h with
  | intro hp _ ih => exact .intro (hp.imp_right (·.mono htokens)) ih

theorem Sliced.within (hordered : Ordered whole) (htokens : tokens <:+ whole)
    (h : Ordered tokens → Sliced tokens p) : Sliced whole p :=
  (h (hordered.suffix htokens)).mono htokens.isInfix

/-- Before the tokens stand others that any way to go on makes an expression of. -/
def Leads (whole tokens : Tokens) (goesOn : Tokens → Phrase → Prop) : Prop :=
  ∃ front, whole = front ++ tokens ∧ ∀ kept dropped p, tokens = kept ++ dropped → goesOn kept p →
    Nonempty (Derivation .expression (front ++ kept) p [])

def Chained (tier : Tier) (left : Phrase) (tokens : Tokens) (p : Phrase) : Prop :=
  Nonempty (Derivation (.chain tier left) tokens p [])

def Selected (subject : Phrase) (tokens : Tokens) (p : Phrase) : Prop :=
  Nonempty (Derivation (.selections subject) tokens p [])

namespace Leads

variable {goesOn goesOn' : Tokens → Phrase → Prop}

theorem of_operand {tier : Tier} (d : Derivation (.operand tier) tokens left between) :
    Leads tokens between (Chained tier left) := by
  obtain ⟨used, heq, hcut⟩ := d.cut
  refine ⟨used, heq, fun kept dropped p hbetween hgoes => ?_⟩
  obtain ⟨e⟩ := hcut kept dropped hbetween False.elim
  obtain ⟨e'⟩ := hgoes
  exact (Derivation.joined e e').expression_of_tier fun tier => (atHead_nextOperator tier).1

theorem of_primary (d : Derivation .primary tokens left between) :
    Leads tokens between (Selected left) := by
  obtain ⟨used, heq, hcut⟩ := d.cut
  refine ⟨used, heq, fun kept dropped p hbetween hgoes => ?_⟩
  obtain ⟨e⟩ := hcut kept dropped hbetween False.elim
  obtain ⟨e'⟩ := hgoes
  exact (Derivation.ofSelection (.selection e e')).expression_of_unary fun tier =>
    (atHead_nextOperator tier).1

theorem suffix (h : Leads whole tokens goesOn) : tokens <:+ whole := by
  obtain ⟨front, heq, -⟩ := h
  exact ⟨front, heq.symm⟩

/-- A way to go on, taken some tokens further. -/
theorem further (h : Leads whole tokens goesOn) (used : Tokens) (heq : tokens = used ++ between)
    (hstep : ∀ kept dropped p, between = kept ++ dropped → goesOn' kept p →
      goesOn (used ++ kept) p) : Leads whole between goesOn' := by
  obtain ⟨front, rfl, hgoes⟩ := h
  subst heq
  refine ⟨front ++ used, (List.append_assoc _ _ _).symm, fun kept dropped p hbetween hp => ?_⟩
  rw [List.append_assoc]
  refine hgoes (used ++ kept) dropped p ?_ (hstep kept dropped p hbetween hp)
  rw [hbetween, List.append_assoc]

theorem isolates (h : Leads whole tokens goesOn) (hleft : goesOn [] left)
    (hordered : Ordered whole) : Isolates whole left := by
  obtain ⟨front, rfl, hgoes⟩ := h
  obtain ⟨e⟩ := hgoes [] tokens left rfl hleft
  rw [List.append_nil] at e
  exact .of_front hordered (List.prefix_append front tokens) (.of_expression e)

end Leads

/-- What a part of the grammar reads is isolated in its tokens, or in those before them too where it
goes on with a phrase. -/
def Category.Sliced : (c : Category) → Tokens → c.Reading → Prop
  | .statements, tokens, ps | .inputs, tokens, ps | .arguments, tokens, ps =>
    ∀ p ∈ ps, Grammar.Sliced tokens p
  | .body, tokens, p? => ∀ p ∈ p?, Grammar.Sliced tokens p
  | .chain level left, tokens, p =>
    ∀ whole, Ordered whole → Leads whole tokens (Chained level left) → Grammar.Sliced whole left →
      Grammar.Sliced whole p
  | .selections subject, tokens, p =>
    ∀ whole, Ordered whole → Leads whole tokens (Selected subject) →
      Grammar.Sliced whole subject → Grammar.Sliced whole p
  | .statement, tokens, p | .structureDef, tokens, p | .bind, tokens, p | .input, tokens, p
  | .expression, tokens, p | .tier _, tokens, p | .operand _, tokens, p | .unary, tokens, p
  | .selection, tokens, p | .primary, tokens, p | .block, tokens, p => Grammar.Sliced tokens p
  | .program _, _, _ => True

theorem Derivation.sliced {c : Category} {reading : c.Reading}
    (d : Derivation c tokens reading rest) : Ordered tokens → c.Sliced tokens reading := by
  induction d with
  | program _ _ => exact fun _ => trivial
  | noStatement _ | noInput _ | noArgument _ | noBody _ => exact fun _ => nofun
  | moreStatements d _ first more =>
      intro hordered p hp
      rcases List.mem_cons.mp hp with rfl | hp
      · exact first hordered
      · exact .within hordered d.suffix fun h => more h p hp
  | ofStructureDef _ ih | ofBind _ ih | ofExpression _ _ ih | valued _ ih | ofTier _ ih
  | ofTighter _ _ ih | ofUnary _ _ ih | ofSelection _ ih | ofPrimaryBlock _ ih => exact ih
  | structureDef d d' inputs body =>
      intro hordered
      have hafter := (List.suffix_cons _ _).trans d.suffix
      refine .intro (.inr (.of_statement (.ofStructureDef (.structureDef d d')) hordered))
        fun q hq => ?_
      rcases List.mem_append.mp hq with hq | hq
      · exact .within hordered ⟨[_, _, _], rfl⟩ fun h => inputs h q hq
      · exact .within hordered (hafter.trans ⟨[_, _, _], rfl⟩) fun h =>
          body h q (Option.mem_toList.mp hq)
  | moreInputs d sep _ first more | moreArguments d sep _ first more =>
      intro hordered p hp
      rcases List.mem_cons.mp hp with rfl | hp
      · exact first hordered
      · exact .within hordered (sep.suffix.trans d.suffix) fun h => more h p hp
  | ofBlock _ _ ih =>
      intro hordered p hp
      cases hp
      exact ih hordered
  | bind declares d ih =>
      intro hordered
      have hvalue := (List.suffix_cons _ _).trans declares.suffix
      refine .intro (.inr (.of_statement (.ofBind (.bind declares d)) hordered)) fun q hq => ?_
      cases List.mem_singleton.mp hq
      exact .within hordered (hvalue.trans (List.suffix_cons _ _)) ih
  | unvalued _ _ => exact fun _ => .intro (.inl ⟨_, _, _, rfl⟩) nofun
  | conditional d d' d'' condition yes no =>
      intro hordered
      have hyes := (List.suffix_cons _ _).trans d.suffix
      have hno := ((List.suffix_cons _ _).trans d'.suffix).trans hyes
      refine .intro (.inr (.of_expression (.conditional d d' d'') hordered)) fun q hq => ?_
      simp only [Phrase.pieces, List.mem_cons, List.not_mem_nil, or_false] at hq
      rcases hq with rfl | rfl | rfl
      · exact .within hordered (List.suffix_cons _ _) condition
      · exact .within hordered (hyes.trans (List.suffix_cons _ _)) yes
      · exact .within hordered (hno.trans (List.suffix_cons _ _)) no
  | joined d _ first more =>
      intro hordered
      exact more (hordered.suffix d.suffix) _ hordered (.of_operand d) (first hordered)
  | selection d _ first more =>
      intro hordered
      exact more (hordered.suffix d.suffix) _ hordered (.of_primary d) (first hordered)
  | chainEnd _ | selected _ _ => exact fun _ _ _ _ hleft => hleft
  | @chainStep tier left symbol op span layout tokens right between p rest hop d d' ihright more =>
      intro hordered whole hwhole hleads hleft
      have htokens := hordered.suffix (List.suffix_cons _ _)
      obtain ⟨used, heq, hcut⟩ := d.cut
      have hnext : Leads whole between
          (Chained tier (.binary (left.span.merge right.span) op left right)) := by
        refine hleads.further (_ :: used) (congrArg (_ :: ·) heq)
          fun kept dropped p hbetween hgoes => ?_
        obtain ⟨e⟩ := hcut kept dropped hbetween False.elim
        obtain ⟨e'⟩ := hgoes
        exact ⟨.chainStep hop e e'⟩
      have hisolates := hnext.isolates ⟨.chainEnd (atHead_nextOperator tier).1⟩ hwhole
      refine more (htokens.suffix d.suffix) whole hwhole hnext
        (.intro (.inr hisolates) fun q hq => ?_)
      simp only [Phrase.pieces, List.mem_cons, List.not_mem_nil, or_false] at hq
      rcases hq with rfl | rfl
      · exact hleft
      · exact .within hwhole ((List.suffix_cons _ _).trans hleads.suffix) ihright
  | prefixed hop d ih =>
      intro hordered
      refine .intro (.inr (.of_unary (.prefixed hop d) hordered)) fun q hq => ?_
      cases List.mem_singleton.mp hq
      exact .within hordered (List.suffix_cons _ _) ih
  | @property subject _ _ member memberSpan _ tokens p rest d ih =>
      intro hordered whole hwhole hleads hsubject
      have hnext : Leads whole tokens (Selected
          (.property (subject.span.merge memberSpan) subject member memberSpan)) := by
        refine hleads.further [_, _] rfl fun kept dropped p _ hgoes => ?_
        obtain ⟨e⟩ := hgoes
        exact ⟨.property e⟩
      have hisolates := hnext.isolates
        ⟨.selected (atHead_next .dot).1 atHead_opensArguments.1⟩ hwhole
      refine ih (hordered.suffix ⟨[_, _], rfl⟩) whole hwhole hnext
        (.intro (.inr hisolates) fun q hq => ?_)
      cases List.mem_singleton.mp hq
      exact hsubject
  | @evaluate subject _ _ close closeLayout tokens arguments between _ _ hadjacent d _ ih more =>
      intro hordered whole hwhole hleads hsubject
      have hbetween := (List.suffix_cons _ _).trans d.suffix
      obtain ⟨used, heq, hcut⟩ := d.cut
      have hnext : Leads whole between
          (Selected (.evaluate ⟨subject.span.start, close.stop⟩ subject arguments)) := by
        have htaken : tokens = used ++ [⟨.symbol .rightParen, close, closeLayout⟩] ++ between := by
          rw [heq, List.append_assoc]
          rfl
        refine hleads.further (_ :: (used ++ [_])) (congrArg (_ :: ·) htaken)
          fun kept dropped p hbetween hgoes => ?_
        obtain ⟨e⟩ := hcut (_ :: kept) dropped (congrArg (_ :: ·) hbetween)
          fun _ => List.cons_ne_nil _ _
        obtain ⟨e'⟩ := hgoes
        rw [List.cons_append, List.append_assoc]
        exact ⟨.evaluate hadjacent e e'⟩
      have hisolates := hnext.isolates
        ⟨.selected (atHead_next .dot).1 atHead_opensArguments.1⟩ hwhole
      refine more (hordered.suffix (hbetween.trans (List.suffix_cons _ _))) whole hwhole hnext
        (.intro (.inr hisolates) fun q hq => ?_)
      rcases List.mem_cons.mp hq with rfl | hq
      · exact hsubject
      · exact .within hwhole ((List.suffix_cons _ _).trans hleads.suffix) fun h => ih h q hq
  | number => exact fun hordered => .intro (.inr (.of_primary .number hordered)) nofun
  | text => exact fun hordered => .intro (.inr (.of_primary .text hordered)) nofun
  | trueWord => exact fun hordered => .intro (.inr (.of_primary .trueWord hordered)) nofun
  | falseWord => exact fun hordered => .intro (.inr (.of_primary .falseWord hordered)) nofun
  | reference => exact fun hordered => .intro (.inr (.of_primary .reference hordered)) nofun
  | block d ih =>
      intro hordered
      refine .intro (.inr (.of_primary (.ofPrimaryBlock (.block d)) hordered)) fun q hq => ?_
      exact .within hordered (List.suffix_cons _ _) fun h => ih h q hq

end Sliced

end Grammar
end Bindery
