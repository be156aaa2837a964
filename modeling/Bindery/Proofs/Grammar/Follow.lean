import Bindery.Proofs.Grammar.Program

/-!
What may follow. A part of the grammar takes the same tokens, whatever comes after these, as long as
that goes on with nothing that the grammar would have taken further: a repetition ends where it
cannot go on, and what comes after it tells so by its first token. Only a bind is told from an
expression by two tokens.
-/

namespace Bindery.Grammar

/-- A property of tokens that is seen at the first of them. -/
def AtHead (property : Tokens → Prop) : Prop :=
  ¬ property [] ∧ ∀ token further further',
    property (token :: further) → property (token :: further')

section AtHead

theorem atHead_next (symbol : Symbol) : AtHead (Next symbol) := by
  refine ⟨nofun, fun token further further' h => ?_⟩
  obtain ⟨span, layout, rest, heq⟩ := h
  cases heq
  exact ⟨span, layout, further', rfl⟩

theorem atHead_nextOperator (tier : Tier) : AtHead (NextOperator tier) := by
  refine ⟨nofun, fun token further further' h => ?_⟩
  obtain ⟨symbol, hoperator, hnext⟩ := h
  exact ⟨symbol, hoperator, (atHead_next symbol).2 token further further' hnext⟩

theorem atHead_opensArguments : AtHead OpensArguments := by
  refine ⟨nofun, fun token further further' h => ?_⟩
  obtain ⟨span, layout, rest, heq, hadjacent⟩ := h
  cases heq
  exact ⟨span, layout, further', rfl, hadjacent⟩

theorem atHead_opensBody : AtHead OpensBody := by
  refine ⟨nofun, fun token further further' h => ?_⟩
  obtain ⟨span, layout, rest, heq, hline⟩ := h
  cases heq
  exact ⟨span, layout, further', rfl, hline⟩

variable {property : Tokens → Prop} {tokens rest rest' further used : Tokens}

theorem AtHead.append (hproperty : AtHead property) (h : property tokens) :
    property (tokens ++ further) := by
  cases tokens with
  | nil => exact absurd h hproperty.1
  | cons token rest => exact hproperty.2 token rest _ h

theorem AtHead.of_append {kept dropped : Tokens} (hproperty : AtHead property)
    (h : property (kept ++ dropped)) (hkept : kept ≠ []) : property kept := by
  cases kept with
  | nil => exact absurd rfl hkept
  | cons token kept => exact hproperty.2 token _ kept h

theorem AtHead.of_head? (hproperty : AtHead property) (hhead : rest'.head? = rest.head?)
    (h : property rest') : property rest := by
  cases rest' with
  | nil => exact absurd h hproperty.1
  | cons token further =>
      cases rest with
      | nil => cases hhead
      | cons token' further' =>
          cases hhead
          exact hproperty.2 token further further' h

theorem AtHead.imp_append (hproperty : AtHead property) (himp : property rest' → property rest)
    (h : property (used ++ rest')) : property (used ++ rest) := by
  cases used with
  | nil => exact himp h
  | cons token used => exact hproperty.2 token _ _ h

end AtHead

theorem Next.unique {tokens : Tokens} {symbol symbol' : Symbol} (h : Next symbol tokens)
    (h' : Next symbol' tokens) : symbol = symbol' := by
  obtain ⟨span, layout, rest, rfl⟩ := h
  obtain ⟨span', layout', rest', heq⟩ := h'
  cases heq
  rfl

theorem Closed.not_next {tokens : Tokens} {symbol : Symbol} (h : Closed tokens)
    (hsymbol : symbol ≠ .rightParen) : ¬ Next symbol tokens := by
  intro hnext
  rcases h with rfl | h
  · exact (atHead_next symbol).1 hnext
  · exact hsymbol (hnext.unique h)

theorem ne_nil_of_length_lt {used rest : Tokens} (h : rest.length < (used ++ rest).length) :
    used ≠ [] := by
  rintro rfl
  exact Nat.lt_irrefl _ h

/-- A bind is told by two tokens, so further ones do not matter. -/
theorem OpensBind.imp_append {used rest rest' : Tokens} (hused : used ≠ [])
    (hcolon : Next .colon rest' → Next .colon rest)
    (hbullet : Next .bullet rest' → Next .bullet rest) (h : OpensBind (used ++ rest')) :
    OpensBind (used ++ rest) := by
  obtain ⟨name, span, layout, after, heq, hnext⟩ := h
  cases used with
  | nil => exact absurd rfl hused
  | cons token used =>
      cases heq
      exact ⟨name, span, layout, used ++ rest, rfl, hnext.imp
        ((atHead_next .colon).imp_append hcolon) ((atHead_next .bullet).imp_append hbullet)⟩

/-- The tokens go on with nothing that others do not go on with. -/
structure NoFurther (rest rest' : Tokens) : Prop where
  comma : Next .comma rest' → Next .comma rest
  colon : Next .colon rest' → Next .colon rest
  dot : Next .dot rest' → Next .dot rest
  operator (tier : Tier) : NextOperator tier rest' → NextOperator tier rest
  arguments : OpensArguments rest' → OpensArguments rest
  body : OpensBody rest' → OpensBody rest

namespace NoFurther

variable {rest rest' : Tokens}

theorem of_atHead (h : ∀ property, AtHead property → property rest' → property rest) :
    NoFurther rest rest' :=
  ⟨h _ (atHead_next _), h _ (atHead_next _), h _ (atHead_next _),
    fun tier => h _ (atHead_nextOperator tier), h _ atHead_opensArguments, h _ atHead_opensBody⟩

theorem of_head? (hhead : rest'.head? = rest.head?) : NoFurther rest rest' :=
  .of_atHead fun _ hproperty => hproperty.of_head? hhead

theorem append (h : NoFurther rest rest') (used : Tokens) :
    NoFurther (used ++ rest) (used ++ rest') where
  comma := (atHead_next _).imp_append h.comma
  colon := (atHead_next _).imp_append h.colon
  dot := (atHead_next _).imp_append h.dot
  operator tier := (atHead_nextOperator tier).imp_append (h.operator tier)
  arguments := atHead_opensArguments.imp_append h.arguments
  body := atHead_opensBody.imp_append h.body

end NoFurther

/-- What may come after a part of the grammar instead of what did: a list is ended by it, and
nothing becomes a bind that was none, nor is given a type. -/
def Category.Allows (c : Category) (tokens rest tokens' rest' : Tokens) : Prop :=
  match c with
  | .program _ => rest' = []
  | .statements => Closed rest'
  | .inputs | .arguments => Next .rightParen rest'
  | .statement => OpensBind tokens' → OpensBind tokens
  | .input => Next .bullet rest' → Next .bullet rest
  | _ => True

/-- What comes after a part of the grammar may come after it. -/
theorem Derivation.allows {c : Category} {tokens rest : Tokens} {reading : c.Reading}
    (d : Derivation c tokens reading rest) : c.Allows tokens rest tokens rest := by
  induction d with
  | program => exact rfl
  | noStatement hclosed => exact hclosed
  | noInput hnext | noArgument hnext => exact hnext
  | moreStatements _ _ _ more | moreInputs _ _ _ _ more | moreArguments _ _ _ _ more => exact more
  | ofStructureDef | ofBind | ofExpression | valued | unvalued => exact id
  | structureDef | noBody | ofBlock | bind | conditional | ofTier | joined | ofTighter | ofUnary
  | chainEnd | chainStep | prefixed | ofSelection | selection | selected | property | evaluate
  | number | text | trueWord | falseWord | reference | ofPrimaryBlock | block => trivial

/-- A part of the grammar takes the same tokens before whatever may come after them. -/
def Category.Refits (c : Category) (tokens : Tokens) (reading : c.Reading) (rest : Tokens) : Prop :=
  ∃ used, tokens = used ++ rest ∧ ∀ rest', NoFurther rest rest' →
    c.Allows tokens rest (used ++ rest') rest' →
      Nonempty (Derivation c (used ++ rest') reading rest')

/-- The same of what stands between two parts. -/
def LinkRefits (link : Tokens → Tokens → Prop) (tokens rest : Tokens) : Prop :=
  ∃ used, tokens = used ++ rest ∧ ∀ rest', NoFurther rest rest' → link (used ++ rest') rest'

theorem linkRefits_eq (tokens : Tokens) : LinkRefits Eq tokens tokens :=
  ⟨[], rfl, fun _ _ => rfl⟩

theorem linkRefits_token (token : Token Name) (rest : Tokens) :
    LinkRefits (fun tokens rest => tokens = token :: rest) (token :: rest) rest :=
  ⟨[token], rfl, fun _ _ => rfl⟩

theorem Separated.refit {tokens rest : Tokens} (h : Separated tokens rest) :
    LinkRefits Separated tokens rest := by
  cases h with
  | comma => exact ⟨[_], rfl, fun _ _ => .comma⟩
  | bare hcomma => exact ⟨[], rfl, fun _ hno => .bare fun h => hcomma (hno.comma h)⟩

theorem Separated.suffix {tokens rest : Tokens} (h : Separated tokens rest) : rest <:+ tokens := by
  obtain ⟨used, heq, -⟩ := h.refit
  exact ⟨used, heq.symm⟩

theorem Declares.refit {tokens rest : Tokens} {declared : Option (DeclaredType × Nat)}
    (h : Declares tokens declared rest) :
    ∃ used, tokens = used ++ rest ∧ ∀ rest', (Next .bullet rest' → Next .bullet rest) →
      Declares (used ++ rest') declared rest' := by
  cases h with
  | untyped hbullet => exact ⟨[], rfl, fun _ hno => .untyped fun h => hbullet (hno h)⟩
  | typed hwritten => exact ⟨[_, _], rfl, fun _ _ => .typed hwritten⟩

theorem Declares.suffix {tokens rest : Tokens} {declared : Option (DeclaredType × Nat)}
    (h : Declares tokens declared rest) : rest <:+ tokens := by
  obtain ⟨used, heq, -⟩ := h.refit
  exact ⟨used, heq.symm⟩

namespace Category.Refits

variable {c c' c'' : Category} {tokens middle between rest : Tokens} {reading : c.Reading}
  {reading' : c'.Reading} {reading'' : c''.Reading}

/-- A step that takes some tokens before what another part takes. -/
theorem pass (h : c.Refits tokens reading rest) (front : Tokens)
    (hallows : ∀ tokens' rest', c'.Allows (front ++ tokens) rest (front ++ tokens') rest' →
      c.Allows tokens rest tokens' rest')
    (step : ∀ {tokens rest}, Derivation c tokens reading rest →
      Derivation c' (front ++ tokens) reading' rest) :
    c'.Refits (front ++ tokens) reading' rest := by
  obtain ⟨used, rfl, hrefit⟩ := h
  refine ⟨front ++ used, (List.append_assoc _ _ _).symm, fun rest' hno hallows' => ?_⟩
  rw [List.append_assoc] at hallows' ⊢
  obtain ⟨d⟩ := hrefit rest' hno (hallows _ _ hallows')
  exact ⟨step d⟩

/-- A step that takes two parts with a link between them. -/
theorem join {link : Tokens → Tokens → Prop} (h : c.Refits tokens reading middle)
    (hlink : LinkRefits link middle between) (h' : c'.Refits between reading' rest) (front : Tokens)
    (hallows : ∀ tokens' middle' between', link middle' between' →
      c.Allows tokens middle tokens' middle')
    (hallows' : ∀ tokens' between' rest', c''.Allows (front ++ tokens) rest tokens' rest' →
      c'.Allows between rest between' rest')
    (step : ∀ {tokens middle between rest}, Derivation c tokens reading middle →
      link middle between → Derivation c' between reading' rest →
      Derivation c'' (front ++ tokens) reading'' rest) :
    c''.Refits (front ++ tokens) reading'' rest := by
  obtain ⟨used, rfl, hrefit⟩ := h
  obtain ⟨linked, rfl, hlinked⟩ := hlink
  obtain ⟨used', rfl, hrefit'⟩ := h'
  refine ⟨front ++ (used ++ (linked ++ used')), by simp only [List.append_assoc],
    fun rest' hno hends => ?_⟩
  have hbetween := hno.append used'
  have hfurther := hlinked (used' ++ rest') hbetween
  obtain ⟨d⟩ := hrefit _ (hbetween.append linked) (hallows _ _ _ hfurther)
  obtain ⟨d'⟩ := hrefit' rest' hno (hallows' _ _ _ hends)
  simp only [List.append_assoc]
  exact ⟨step d hfurther d'⟩

end Category.Refits

theorem Derivation.refit {c : Category} {tokens rest : Tokens} {reading : c.Reading}
    (d : Derivation c tokens reading rest) : c.Refits tokens reading rest := by
  induction d with
  | program d _ =>
      refine ⟨_, (List.append_nil _).symm, fun rest' _ hnil => ?_⟩
      subst hnil
      rw [List.append_nil]
      exact ⟨.program d⟩
  | noStatement _ => exact ⟨[], rfl, fun _ _ hclosed => ⟨.noStatement hclosed⟩⟩
  | moreStatements d _ first more =>
      have hlt := d.length_lt trivial
      obtain ⟨used, rfl, hfirst⟩ := first
      obtain ⟨used', rfl, hmore⟩ := more
      refine ⟨used ++ used', (List.append_assoc _ _ _).symm, fun rest' hno hclosed => ?_⟩
      obtain ⟨e⟩ := hfirst (used' ++ rest') (hno.append used') <|
        OpensBind.imp_append (ne_nil_of_length_lt hlt) (hno.append used').colon <|
          (atHead_next .bullet).imp_append fun h => absurd h (hclosed.not_next nofun)
      obtain ⟨e'⟩ := hmore rest' hno hclosed
      rw [List.append_assoc]
      exact ⟨.moreStatements e e'⟩
  | ofStructureDef _ ih => exact ih.pass [] (fun _ _ _ => trivial) fun d => .ofStructureDef d
  | ofBind _ ih => exact ih.pass [] (fun _ _ _ => trivial) fun d => .ofBind d
  | ofExpression hbind _ ih =>
      obtain ⟨used, rfl, hrefit⟩ := ih
      refine ⟨used, rfl, fun rest' hno hopens => ?_⟩
      obtain ⟨d⟩ := hrefit rest' hno trivial
      exact ⟨.ofExpression (fun h => hbind (hopens h)) d⟩
  | structureDef _ _ inputs body =>
      refine inputs.join (linkRefits_token _ _) body [_, _, _] (fun _ _ _ heq => ?_)
        (fun _ _ _ _ => trivial) fun d heq d' => ?_
      · subst heq
        exact ⟨_, _, _, rfl⟩
      · cases heq
        exact .structureDef d d'
  | noInput _ => exact ⟨[], rfl, fun _ _ hnext => ⟨.noInput hnext⟩⟩
  | moreInputs _ sep _ first more =>
      obtain ⟨used, rfl, hfirst⟩ := first
      obtain ⟨linked, rfl, hlinked⟩ := sep.refit
      obtain ⟨used', rfl, hmore⟩ := more
      refine ⟨used ++ (linked ++ used'), by simp only [List.append_assoc],
        fun rest' hno hnext => ?_⟩
      have hbetween := hno.append used'
      obtain ⟨d⟩ := hfirst (linked ++ (used' ++ rest')) (hbetween.append linked) <|
        (atHead_next .bullet).imp_append <| (atHead_next .bullet).imp_append fun h =>
          absurd (hnext.unique h) nofun
      obtain ⟨d'⟩ := hmore rest' hno hnext
      simp only [List.append_assoc]
      exact ⟨.moreInputs d (hlinked _ hbetween) d'⟩
  | noBody hbody => exact ⟨[], rfl, fun _ hno _ => ⟨.noBody fun h => hbody (hno.body h)⟩⟩
  | ofBlock hbody d ih =>
      have hlt := d.length_lt trivial
      obtain ⟨used, rfl, hrefit⟩ := ih
      refine ⟨used, rfl, fun rest' hno _ => ?_⟩
      obtain ⟨e⟩ := hrefit rest' hno trivial
      have hused := atHead_opensBody.of_append hbody (ne_nil_of_length_lt hlt)
      exact ⟨.ofBlock (atHead_opensBody.append hused) e⟩
  | bind declares _ ih =>
      obtain ⟨used, rfl, hdeclares⟩ := declares.refit
      obtain ⟨used', rfl, hrefit⟩ := ih
      refine ⟨_ :: (used ++ _ :: used'),
        congrArg (_ :: ·) (List.append_assoc used (_ :: used') _).symm, fun rest' hno _ => ?_⟩
      obtain ⟨d⟩ := hrefit rest' hno trivial
      rw [List.cons_append, List.append_assoc]
      exact ⟨.bind (hdeclares _ ((atHead_next .bullet).of_head? rfl)) d⟩
  | valued _ ih => exact ih.pass [] (fun _ _ _ => trivial) fun d => .valued d
  | unvalued declares hcolon =>
      obtain ⟨used, rfl, hdeclares⟩ := declares.refit
      exact ⟨_ :: used, rfl, fun rest' hno hbullet =>
        ⟨.unvalued (hdeclares rest' hbullet) fun h => hcolon (hno.colon h)⟩⟩
  | conditional _ _ _ condition yes no =>
      obtain ⟨used, rfl, hcondition⟩ := condition
      obtain ⟨used', rfl, hyes⟩ := yes
      obtain ⟨used'', rfl, hno'⟩ := no
      refine ⟨_ :: (used ++ _ :: (used' ++ _ :: used'')), congrArg (_ :: ·)
        ((congrArg (used ++ _ :: ·) (List.append_assoc used' (_ :: used'') _).symm).trans
          (List.append_assoc used (_ :: (used' ++ _ :: used'')) _).symm), fun rest' hno _ => ?_⟩
      obtain ⟨d''⟩ := hno' rest' hno trivial
      obtain ⟨d'⟩ := hyes (_ :: (used'' ++ rest')) (.of_head? rfl) trivial
      obtain ⟨d⟩ := hcondition (_ :: (used' ++ _ :: (used'' ++ rest'))) (.of_head? rfl) trivial
      simp only [List.append_assoc, List.cons_append]
      exact ⟨.conditional d d' d''⟩
  | ofTier _ ih => exact ih.pass [] (fun _ _ _ => trivial) fun d => .ofTier d
  | joined _ _ first more =>
      refine first.join (linkRefits_eq _) more [] (fun _ _ _ _ => trivial) (fun _ _ _ _ => trivial)
        fun d heq d' => ?_
      cases heq
      exact .joined d d'
  | ofTighter htier _ ih => exact ih.pass [] (fun _ _ _ => trivial) fun d => .ofTighter htier d
  | ofUnary htier _ ih => exact ih.pass [] (fun _ _ _ => trivial) fun d => .ofUnary htier d
  | chainEnd hend =>
      exact ⟨[], rfl, fun _ hno _ => ⟨.chainEnd fun h => hend (hno.operator _ h)⟩⟩
  | chainStep hop _ _ first more =>
      refine first.join (linkRefits_eq _) more [_] (fun _ _ _ _ => trivial)
        (fun _ _ _ _ => trivial) fun d heq d' => ?_
      cases heq
      exact .chainStep hop d d'
  | prefixed hop _ ih => exact ih.pass [_] (fun _ _ _ => trivial) fun d => .prefixed hop d
  | ofSelection _ ih => exact ih.pass [] (fun _ _ _ => trivial) fun d => .ofSelection d
  | selection _ _ first more =>
      refine first.join (linkRefits_eq _) more [] (fun _ _ _ _ => trivial) (fun _ _ _ _ => trivial)
        fun d heq d' => ?_
      cases heq
      exact .selection d d'
  | selected hdot hopen =>
      exact ⟨[], rfl, fun _ hno _ =>
        ⟨.selected (fun h => hdot (hno.dot h)) fun h => hopen (hno.arguments h)⟩⟩
  | property _ ih => exact ih.pass [_, _] (fun _ _ _ => trivial) fun d => .property d
  | evaluate hadjacent _ _ first more =>
      refine first.join (linkRefits_token _ _) more [_] (fun _ _ _ heq => ?_)
        (fun _ _ _ _ => trivial) fun d heq d' => ?_
      · subst heq
        exact ⟨_, _, _, rfl⟩
      · cases heq
        exact .evaluate hadjacent d d'
  | noArgument _ => exact ⟨[], rfl, fun _ _ hnext => ⟨.noArgument hnext⟩⟩
  | moreArguments _ sep _ first more =>
      exact first.join sep.refit more [] (fun _ _ _ _ => trivial) (fun _ _ _ h => h)
        fun d sep d' => .moreArguments d sep d'
  | number => exact ⟨[_], rfl, fun _ _ _ => ⟨.number⟩⟩
  | text => exact ⟨[_], rfl, fun _ _ _ => ⟨.text⟩⟩
  | trueWord => exact ⟨[_], rfl, fun _ _ _ => ⟨.trueWord⟩⟩
  | falseWord => exact ⟨[_], rfl, fun _ _ _ => ⟨.falseWord⟩⟩
  | reference => exact ⟨[_], rfl, fun _ _ _ => ⟨.reference⟩⟩
  | ofPrimaryBlock _ ih => exact ih.pass [] (fun _ _ _ => trivial) fun d => .ofPrimaryBlock d
  | block _ ih =>
      obtain ⟨used, rfl, hrefit⟩ := ih
      refine ⟨_ :: (used ++ [_]), congrArg (_ :: ·) (List.append_assoc used [_] _).symm,
        fun rest' _ _ => ?_⟩
      obtain ⟨d⟩ := hrefit (_ :: rest') (.of_head? rfl) (.inr ⟨_, _, _, rfl⟩)
      rw [List.cons_append, List.append_assoc]
      exact ⟨.block d⟩

theorem Derivation.suffix {c : Category} {tokens rest : Tokens} {reading : c.Reading}
    (d : Derivation c tokens reading rest) : rest <:+ tokens := by
  obtain ⟨used, heq, -⟩ := d.refit
  exact ⟨used, heq.symm⟩

/-- Names, and what ends a part of the grammar, go on with nothing that stands before them. -/
def haltsAt : TokenKind Name → Bool
  | .identifier _ | .symbol .rightParen | .symbol .thenWord | .symbol .elseWord => true
  | _ => false

/-- The tokens go on with nothing. -/
def Halts (tokens : Tokens) : Prop :=
  ∀ token rest, tokens = token :: rest → haltsAt token.kind = true

namespace Halts

variable {tokens : Tokens}

theorem nil : Halts [] := nofun

theorem cons {token : Token Name} (h : haltsAt token.kind = true) (rest : Tokens) :
    Halts (token :: rest) := fun _ _ heq => (List.cons.inj heq).1 ▸ h

theorem of_next {symbol : Symbol} (h : Next symbol tokens)
    (hsymbol : haltsAt (.symbol symbol) = true) : Halts tokens := by
  obtain ⟨span, layout, rest, rfl⟩ := h
  exact .cons hsymbol rest

theorem of_closed (h : Closed tokens) : Halts tokens := by
  rcases h with rfl | h
  · exact .nil
  · exact .of_next h rfl

theorem not_next (h : Halts tokens) {symbol : Symbol} (hsymbol : haltsAt (.symbol symbol) = false) :
    ¬ Next symbol tokens := by
  rintro ⟨span, layout, rest, rfl⟩
  have htrue := h _ _ rfl
  rw [hsymbol] at htrue
  cases htrue

theorem not_nextOperator (h : Halts tokens) (tier : Tier) : ¬ NextOperator tier tokens := by
  rintro ⟨symbol, hoperator, hnext⟩
  refine h.not_next ?_ hnext
  cases symbol <;> first | rfl | (cases tier <;> cases hoperator)

theorem not_opensArguments (h : Halts tokens) : ¬ OpensArguments tokens :=
  fun ⟨_, _, _, heq, _⟩ => h.not_next rfl ⟨_, _, _, heq⟩

theorem not_opensBody (h : Halts tokens) : ¬ OpensBody tokens :=
  fun ⟨_, _, _, heq, _⟩ => h.not_next rfl ⟨_, _, _, heq⟩

theorem noFurther (h : Halts tokens) (rest : Tokens) : NoFurther rest tokens :=
  ⟨fun hnext => absurd hnext (h.not_next rfl), fun hnext => absurd hnext (h.not_next rfl),
    fun hnext => absurd hnext (h.not_next rfl),
    fun tier hnext => absurd hnext (h.not_nextOperator tier),
    fun hopens => absurd hopens h.not_opensArguments, fun hopens => absurd hopens h.not_opensBody⟩

end Halts

/-- What ends a part of the grammar, whatever it reads. -/
def Category.Closes : Category → Tokens → Prop
  | .program _, tokens => tokens = []
  | .statements, tokens => Closed tokens
  | .inputs, tokens | .arguments, tokens => Next .rightParen tokens
  | _, tokens => Halts tokens

theorem Category.Closes.halts {c : Category} {tokens : Tokens} (h : c.Closes tokens) :
    Halts tokens := by
  cases c with
  | program => exact h ▸ .nil
  | statements => exact .of_closed h
  | inputs | arguments => exact .of_next h rfl
  | statement | structureDef | input | bind | body | expression | tier | operand | chain | unary
  | selection | selections | primary | block => exact h

/-- A part of the grammar takes the same tokens if these are the last, or if what comes after them
starts as before. -/
theorem Derivation.resume {c : Category} {tokens rest : Tokens} {reading : c.Reading}
    (d : Derivation c tokens reading rest) : ∃ used, tokens = used ++ rest ∧
      ∀ rest', rest'.head? = rest.head? ∨ c.Closes rest' →
        Nonempty (Derivation c (used ++ rest') reading rest') := by
  have hallows := d.allows
  have hlt := d.length_lt
  obtain ⟨used, rfl, hrefit⟩ := d.refit
  refine ⟨used, rfl, fun rest' h => hrefit rest' ?_ ?_⟩
  · exact h.elim .of_head? fun hcloses => hcloses.halts.noFurther rest
  have himp {symbol : Symbol} (hsymbol : haltsAt (.symbol symbol) = false) :
      Next symbol rest' → Next symbol rest :=
    h.elim (atHead_next symbol).of_head? fun hcloses hnext =>
      absurd hnext (hcloses.halts.not_next hsymbol)
  cases c with
  | program =>
      obtain rfl : rest = [] := hallows
      exact h.elim List.head?_eq_none_iff.mp id
  | statements =>
      refine h.elim (fun hhead => ?_) id
      rcases hallows with rfl | hnext
      · exact .inl (List.head?_eq_none_iff.mp hhead)
      · exact .inr ((atHead_next _).of_head? hhead.symm hnext)
  | inputs | arguments => exact h.elim (fun hhead => (atHead_next _).of_head? hhead.symm hallows) id
  | input => exact himp rfl
  | statement =>
      exact OpensBind.imp_append (ne_nil_of_length_lt (hlt trivial)) (himp rfl) (himp rfl)
  | structureDef | bind | body | expression | tier | operand | chain | unary | selection
  | selections | primary | block => trivial

end Bindery.Grammar
