import Bindery.Proofs.Grammar.Slices

/-!
Phrases in a row. The tokens of a text stand one after the other. Reading keeps it so: what is read
takes the place of the tokens that it is read from, and it stands between what is before these and
what is left over.
-/

namespace Bindery

/-- The spans right inside a phrase, from left to right. The name in a property access is no phrase,
but it has a span. -/
def Phrase.extents : Phrase → List Span
  | .property _ subject _ memberSpan => [subject.span, memberSpan]
  | p => p.pieces.map (·.span)

namespace Grammar

/-- The span starts where one of the tokens starts, and stops where one of them stops. -/
def Bounds (tokens : Tokens) (span : Span) : Prop :=
  (∃ first ∈ tokens, first.span.start = span.start) ∧ ∃ last ∈ tokens, last.span.stop = span.stop

/-- `Row tokens low spans high`: the spans stand one after the other between two offsets, maybe with
gaps. Each has tokens at its ends, and none is empty. -/
inductive Row (tokens : Tokens) : Nat → List Span → Nat → Prop
  | nil {low high} : low ≤ high → Row tokens low [] high
  | cons {low span spans high} : low ≤ span.start → span.start < span.stop → Bounds tokens span →
      Row tokens span.stop spans high → Row tokens low (span :: spans) high

variable {whole tokens rest : Tokens} {low high : Nat}

namespace Row

variable {spans later : List Span} {a b : Span}

theorem le (h : Row whole low spans high) : low ≤ high := by
  induction h with
  | nil hle => exact hle
  | cons hlow hlt _ _ ih => omega

theorem lower {low' : Nat} (h : Row whole low spans high) (hle : low' ≤ low) :
    Row whole low' spans high := by
  cases h with
  | nil hhigh => exact .nil (Nat.le_trans hle hhigh)
  | cons hlow hlt hbounds hlater => exact .cons (Nat.le_trans hle hlow) hlt hbounds hlater

theorem within (h : Row whole low spans high) : ∀ span ∈ spans,
    low ≤ span.start ∧ span.start < span.stop ∧ span.stop ≤ high ∧ Bounds whole span := by
  induction h with
  | nil _ => exact nofun
  | cons hlow hlt hbounds hlater ih =>
      intro span hspan
      rcases List.mem_cons.mp hspan with rfl | hspan
      · exact ⟨hlow, hlt, hlater.le, hbounds⟩
      · obtain ⟨hstart, hinside⟩ := ih span hspan
        exact ⟨by omega, hinside⟩

theorem pairwise (h : Row whole low spans high) :
    spans.Pairwise fun span later => span.stop ≤ later.start := by
  induction h with
  | nil _ => exact .nil
  | cons _ _ _ hlater ih => exact .cons (fun span hspan => (hlater.within span hspan).1) ih

theorem sublist (h : Row whole low spans high) (hsub : later.Sublist spans) :
    Row whole low later high := by
  induction hsub generalizing low with
  | slnil => exact h
  | cons _ _ ih =>
      cases h with
      | cons hlow hlt _ hlater => exact (ih hlater).lower (by omega)
  | cons_cons _ _ ih =>
      cases h with
      | cons hlow hlt hbounds hlater => exact .cons hlow hlt hbounds (ih hlater)

/-- The back of a row is replaced, wherever it begins. -/
theorem onward (front : List Span) {back back' : List Span} {further : Prop}
    (h : Row whole low (front ++ back) high)
    (step : ∀ {middle}, Row whole middle back high → Row whole middle back' high ∧ further) :
    Row whole low (front ++ back') high ∧ further := by
  induction front generalizing low with
  | nil => exact step h
  | cons span front ih =>
      cases h with
      | cons hlow hlt hbounds hlater =>
          obtain ⟨hback, hfurther⟩ := ih hlater
          exact ⟨.cons hlow hlt hbounds hback, hfurther⟩

/-- The front of a row is one span with the rest, and inside this span it is a row. -/
theorem gather {front : List Span} (h : Row whole low (front ++ later) high)
    (hfirst : front.head? = some a) (hlast : front.getLast? = some b) :
    Row whole low (⟨a.start, b.stop⟩ :: later) high ∧ Row whole a.start front b.stop := by
  induction front generalizing low a with
  | nil => cases hfirst
  | cons first more ih =>
      cases hfirst
      cases h with
      | cons hlow hlt hbounds hmore =>
          cases more with
          | nil =>
              cases hlast
              exact ⟨.cons hlow hlt hbounds hmore,
                .cons (Nat.le_refl _) hlt hbounds (.nil (Nat.le_refl _))⟩
          | cons second more =>
              obtain ⟨hone, hinside⟩ := ih hmore rfl (List.getLast?_cons_cons ▸ hlast)
              cases hone with
              | cons hnext hlt' hbounds' hlater =>
                  refine ⟨.cons hlow ?_ ⟨hbounds.1, hbounds'.2⟩ hlater,
                    .cons (Nat.le_refl _) hlt hbounds (hinside.lower hnext)⟩
                  dsimp only at hnext hlt' ⊢
                  omega

/-- Two ways to write the span from the first of a row to the last. -/
theorem merge_eq {front : List Span} (h : Row whole low (front ++ later) high)
    (hfirst : front.head? = some a) (hlast : front.getLast? = some b) :
    a.merge b = ⟨a.start, b.stop⟩ := by
  obtain ⟨-, hinside⟩ := h.gather hfirst hlast
  obtain ⟨-, hlt, hstop, -⟩ := hinside.within a (List.mem_of_mem_head? hfirst)
  obtain ⟨hstart, hlt', -, -⟩ := hinside.within b (List.mem_of_mem_getLast? hlast)
  rw [Span.merge, Nat.min_eq_left hstart, Nat.max_eq_right hstop]

end Row

/-- What is right inside the phrase is a row within its span, and so it is further inside. -/
inductive Laid (whole : Tokens) : Phrase → Prop
  | intro {p : Phrase} : Row whole p.span.start p.extents p.span.stop →
      (∀ q ∈ p.pieces, Laid whole q) → Laid whole p

/-- A phrase takes the place of the row that it covers. -/
theorem Row.laid (row : List Span) {p : Phrase} {first last : Span} {later : List Span}
    (h : Row whole low (row ++ later) high) (hfirst : row.head? = some first)
    (hlast : row.getLast? = some last)
    (hspan : p.span = ⟨first.start, last.stop⟩ ∨ p.span = first.merge last)
    (hextents : p.extents.Sublist row) (hpieces : ∀ q ∈ p.pieces, Laid whole q) :
    Row whole low ([p].map (·.span) ++ later) high ∧ ∀ q ∈ [p], Laid whole q := by
  rw [h.merge_eq hfirst hlast, or_self] at hspan
  obtain ⟨hphrase, hinside⟩ := h.gather hfirst hlast
  refine ⟨?_, fun q hq => ?_⟩
  · rw [List.map_singleton, hspan]
    exact hphrase
  · cases List.mem_singleton.mp hq
    refine .intro ?_ hpieces
    rw [hspan]
    exact hinside.sublist hextents

/-- The phrase that a part of the grammar goes on with. -/
def Category.before : Category → List Phrase
  | .chain _ left => [left]
  | .selections subject => [subject]
  | _ => []

/-- The phrases that a part of the grammar reads, from left to right. -/
def Category.phrases : (c : Category) → c.Reading → List Phrase
  | .statements, ps | .inputs, ps | .arguments, ps => ps
  | .body, p? => p?.toList
  | .program _, p => p.pieces
  | .statement, p | .structureDef, p | .bind, p | .input, p | .expression, p | .tier _, p
  | .operand _, p | .chain .., p | .unary, p | .selection, p | .selections _, p | .primary, p
  | .block, p => [p]

/-- A part that has to take a token reads one phrase, and this covers the tokens that it takes. -/
theorem Derivation.spans_of_consumes {c : Category} {reading : c.Reading}
    (d : Derivation c tokens reading rest) (hconsumes : c.Consumes) (hordered : Ordered tokens) :
    ∀ p ∈ c.phrases reading, Spans tokens rest p.span := by
  have hspanned := d.spanned hordered
  cases c with
  | program | statements | inputs | body | chain | selections | arguments => exact hconsumes.elim
  | statement | structureDef | input | bind | expression | tier | operand | unary | selection
  | primary | block => exact List.forall_mem_singleton.mpr hspanned

theorem Separated.sublist {tokens rest : Tokens} (h : Separated tokens rest) :
    rest.Sublist tokens :=
  h.suffix.sublist

/-- Reading keeps the row. Where a part goes on with a phrase, this stands at the head of the row in
place of its tokens. -/
theorem Derivation.laid {c : Category} {reading : c.Reading}
    (d : Derivation c tokens reading rest) :
    ∀ {low}, Row whole low (c.before.map (·.span) ++ tokens.map (·.span)) high →
      (∀ p ∈ c.before, Laid whole p) →
      Row whole low ((c.phrases reading).map (·.span) ++ rest.map (·.span)) high ∧
        ∀ p ∈ c.phrases reading, Laid whole p := by
  have none : ∀ p ∈ ([] : List Phrase), Laid whole p := List.forall_mem_nil _
  induction d with
  | program d ih => exact fun hrow hbefore => ih hrow hbefore
  | ofStructureDef _ ih | ofBind _ ih | ofExpression _ _ ih | valued _ ih | ofTier _ ih
  | ofTighter _ _ ih | ofUnary _ _ ih | ofSelection _ ih | ofPrimaryBlock _ ih => exact ih
  | noStatement _ | noInput _ | noArgument _ | noBody _ => exact fun hrow _ => ⟨hrow, none⟩
  | chainEnd _ | selected _ _ => exact fun hrow hbefore => ⟨hrow, hbefore⟩
  | ofBlock _ _ ih => exact ih
  | @moreStatements _ p _ _ _ _ _ first more =>
      intro low hrow _
      obtain ⟨hfirst, hp⟩ := first hrow none
      obtain ⟨hmore, hps⟩ := hfirst.onward [p.span] fun hback => more hback none
      exact ⟨hmore, List.forall_mem_cons.mpr ⟨hp p List.mem_cons_self, hps⟩⟩
  | @moreInputs _ p _ _ _ _ _ sep _ first more | @moreArguments _ p _ _ _ _ _ sep _ first more =>
      intro low hrow _
      obtain ⟨hfirst, hp⟩ := first hrow none
      obtain ⟨hmore, hps⟩ := hfirst.onward [p.span] fun hback =>
        more (hback.sublist (sep.sublist.map _)) none
      exact ⟨hmore, List.forall_mem_cons.mpr ⟨hp p List.mem_cons_self, hps⟩⟩
  | joined _ _ first more | selection _ _ first more =>
      intro low hrow _
      obtain ⟨hfirst, hp⟩ := first hrow none
      exact more hfirst hp
  | @structureDef start _ _ nameSpan _ openSpan _ close _ _ inputs _ body rest _ _ ihinputs
      ihbody =>
      intro low hrow _
      obtain ⟨hinputs, hlaid⟩ := Row.onward [start, nameSpan, openSpan] hrow
        fun hback => ihinputs hback none
      obtain ⟨hbody, hlaid'⟩ := Row.onward
        ([start, nameSpan, openSpan] ++ (inputs.map (·.span) ++ [close]))
        (by simpa [Category.phrases, Category.before] using hinputs) fun hback => ihbody hback none
      have hrow' : Row whole low (([start, nameSpan, openSpan] ++ inputs.map (·.span)) ++
          (close :: body.toList.map (·.span)) ++ rest.map (·.span)) high := by
        simpa [Category.phrases] using hbody
      have hlast : (close :: body.toList.map (·.span)).getLast? =
          some (body.elim close (·.span)) := by
        cases body <;> rfl
      refine hrow'.laid _ rfl (by rw [List.getLast?_append, hlast, Option.some_or]) (.inl ?_) ?_
        fun q hq => (List.mem_append.mp hq).elim (hlaid q) (hlaid' q)
      · cases body <;> rfl
      · rw [show Phrase.extents _ = (inputs ++ body.toList).map (·.span) from rfl, List.map_append]
        exact (List.sublist_append_right _ _).append (List.sublist_cons_self ..)
  | @bind _ nameSpan _ tokens _ colon _ _ value rest declares d ih =>
      intro low hrow _
      obtain ⟨used, rfl, -⟩ := declares.refit
      obtain ⟨hvalue, hlaid⟩ := Row.onward (nameSpan :: used.map (·.span) ++ [colon])
        (by simpa [Category.before] using hrow) fun hback => ih hback none
      rw [← List.append_assoc] at hvalue
      exact hvalue.laid _ rfl List.getLast?_concat (.inl rfl) (List.sublist_append_right _ _) hlaid
  | @unvalued _ nameSpan _ tokens _ rest declares hcolon =>
      intro low hrow _
      cases declares with
      | untyped _ => exact Row.laid [nameSpan] hrow rfl rfl (.inl rfl) (List.nil_sublist _) none
      | @typed bullet _ token _ _ _ =>
          exact Row.laid [nameSpan, bullet, token.span] hrow rfl rfl (.inl rfl)
            (List.nil_sublist _) none
  | @conditional start _ thenSpan _ elseSpan _ _ condition _ yes _ no rest _ _ _ ihcondition ihyes
      ihno =>
      intro low hrow _
      obtain ⟨hcondition, hlaid⟩ := Row.onward [start] hrow fun hback => ihcondition hback none
      obtain ⟨hyes, hlaid'⟩ := Row.onward [start, condition.span, thenSpan] hcondition
        fun hback => ihyes hback none
      obtain ⟨hno, hlaid''⟩ := Row.onward
        [start, condition.span, thenSpan, yes.span, elseSpan] hyes fun hback => ihno hback none
      refine Row.laid [start, condition.span, thenSpan, yes.span, elseSpan, no.span] hno
        rfl rfl (.inr rfl) ?_ fun q hq => ?_
      · exact .cons _ (.cons_cons _ (.cons _ (.cons_cons _ (.cons _ (.refl _)))))
      · simp only [Phrase.pieces, List.mem_cons, List.not_mem_nil, or_false] at hq
        rcases hq with rfl | rfl | rfl
        · exact hlaid _ List.mem_cons_self
        · exact hlaid' _ List.mem_cons_self
        · exact hlaid'' _ List.mem_cons_self
  | @chainStep _ left _ op operator _ _ right _ _ _ _ _ _ ihright more =>
      intro low hrow hleft
      obtain ⟨hright, hlaid⟩ := Row.onward [left.span, operator] hrow fun hback =>
        ihright hback none
      obtain ⟨hbinary, hlaid'⟩ := Row.laid [left.span, operator, right.span]
        (p := .binary _ op left right) hright rfl rfl (.inr rfl)
        (.cons_cons _ (.cons _ (.refl _)))
        (List.forall_mem_cons.mpr ⟨hleft _ List.mem_cons_self, hlaid⟩)
      exact more hbinary hlaid'
  | @prefixed _ _ operator _ _ operand _ _ _ ih =>
      intro low hrow _
      obtain ⟨hoperand, hlaid⟩ := Row.onward [operator] hrow fun hback => ih hback none
      exact Row.laid [operator, operand.span] hoperand rfl rfl (.inr rfl) (.cons _ (.refl _)) hlaid
  | @property subject dot _ member memberSpan _ _ _ _ _ ih =>
      intro low hrow hsubject
      obtain ⟨hproperty, hlaid⟩ := Row.laid [subject.span, dot, memberSpan]
        (p := .property _ subject member memberSpan) hrow rfl rfl (.inr rfl)
        (.cons_cons _ (.cons _ (.refl _))) hsubject
      exact ih hproperty hlaid
  | @evaluate subject openSpan _ close _ _ arguments between _ _ _ _ _ ih more =>
      intro low hrow hsubject
      obtain ⟨harguments, hlaid⟩ := Row.onward [subject.span, openSpan] hrow fun hback =>
        ih hback none
      have hrow' : Row whole low ((subject.span :: openSpan :: arguments.map (·.span) ++ [close]) ++
          between.map (·.span)) high := by
        simpa [Category.phrases] using harguments
      obtain ⟨hevaluate, hlaid'⟩ := Row.laid _ (p := .evaluate _ subject arguments) hrow' rfl
        List.getLast?_concat (.inl rfl) (.cons_cons _ (.cons _ (List.sublist_append_left _ _)))
        (List.forall_mem_cons.mpr ⟨hsubject _ List.mem_cons_self, hlaid⟩)
      exact more hevaluate hlaid'
  | @number _ span _ _ | @text _ span _ _ | @trueWord span _ _ | @falseWord span _ _
  | @reference _ span _ _ =>
      exact fun hrow _ => Row.laid [span] hrow rfl rfl (.inl rfl) (List.nil_sublist _) none
  | @block openSpan _ close _ _ statements rest _ ih =>
      intro low hrow _
      obtain ⟨hstatements, hlaid⟩ := Row.onward [openSpan] hrow fun hback => ih hback none
      have hrow' : Row whole low ((openSpan :: statements.map (·.span) ++ [close]) ++
          rest.map (·.span)) high := by
        simpa [Category.phrases] using hstatements
      exact hrow'.laid _ rfl List.getLast?_concat (.inr rfl)
        (.cons _ (List.sublist_append_left _ _)) hlaid

end Grammar
end Bindery
