import Bindery.Proofs.Grammar.Refusal
import Bindery.Proofs.Token.Lines

/-!
Completions. Where a part of the grammar is refused, the tokens before the one that does not fit can
be gone on with so that the part is read after all. On the way from the refused token outwards each
part is finished with the fewest tokens: a name is an expression, and a parenthesis ends what was
opened.
-/

namespace Bindery.Grammar

/-- What a part is finished with: any name, or a symbol. -/
inductive Filler where
  | name
  | symbol (symbol : Symbol)

/-- The kind of token that a filler is, given what it says as a name. -/
def Filler.kind {α : Type} (name : α) : Filler → TokenKind α
  | .name => .identifier name
  | .symbol s => .symbol s

/-- The fillers as tokens on lines of their own, wherever these stand. -/
def fill (name : Name) (fillers : List Filler) : Tokens :=
  fillers.map fun filler => ⟨filler.kind name, .nowhere, .afterBreak⟩

/-- With some tokens after those that a part of the grammar used, the part is read, whatever ends
it. -/
structure Completes (name : Name) (c : Category) (used : Tokens) (further : List Filler) :
    Prop where
  derives : ∀ after, c.Closes after →
    ∃ reading, Nonempty (Derivation c (used ++ (fill name further ++ after)) reading after)
  halts : used = [] → ∀ after, c.Closes after → Halts (fill name further ++ after)

section Fill

variable (name : Name) (symbol : Symbol) (fillers : List Filler) (after : Tokens)

theorem fill_append (fillers' : List Filler) :
    fill name (fillers ++ fillers') = fill name fillers ++ fill name fillers' :=
  List.map_append

theorem next_fill : Next symbol (fill name (.symbol symbol :: fillers) ++ after) := ⟨_, _, _, rfl⟩

theorem halts_fill : Halts (fill name (.name :: fillers) ++ after) := .cons rfl _

end Fill

section Names

variable {name : Name} {span : Span} {layout : Layout} {after : Tokens}

theorem Derivation.selected_of_halts (h : Halts after) (subject : Phrase) :
    Nonempty (Derivation (.selections subject) after subject after) :=
  ⟨.selected (h.not_next rfl) h.not_opensArguments⟩

/-- A name alone is an expression. -/
theorem Derivation.expression_of_name (h : Halts after) :
    ∃ p, Nonempty (Derivation .expression (⟨.identifier name, span, layout⟩ :: after) p after) := by
  obtain ⟨d⟩ := selected_of_halts h (.reference span name)
  exact ⟨_, expression_of_unary (.ofSelection (.selection .reference d)) h.not_nextOperator⟩

theorem Derivation.statement_of_name (h : Halts after) :
    ∃ p, Nonempty (Derivation .statement (⟨.identifier name, span, layout⟩ :: after) p after) := by
  obtain ⟨p, ⟨d⟩⟩ := expression_of_name h
  refine ⟨p, ⟨.ofExpression (fun hopens => ?_) d⟩⟩
  obtain ⟨_, _, _, _, heq, hnext⟩ := hopens
  cases heq
  exact hnext.elim (h.not_next rfl) (h.not_next rfl)

end Names

namespace Completes

variable {name : Name} {c c' : Category} {used rest after : Tokens} {further : List Filler}

/-- What a completion goes on with goes on as before, or with nothing. -/
theorem resumes (h : Completes name c used further) (rest : Tokens) (hafter : c.Closes after) :
    (used ++ (fill name further ++ after)).head? = (used ++ rest).head? ∨
      Halts (used ++ (fill name further ++ after)) := by
  cases used with
  | nil => exact .inr (h.halts rfl after hafter)
  | cons token used => exact .inl rfl

/-- A part is completed by completing the last part that it is made of, and closing it. -/
theorem pass (h : Completes name c' used further) (front : Tokens) (closing : List Filler)
    (hcloses : ∀ after, c.Closes after → c'.Closes (fill name closing ++ after))
    (step : ∀ after reading, c.Closes after →
      Derivation c' (used ++ (fill name further ++ (fill name closing ++ after))) reading
        (fill name closing ++ after) →
      ∃ reading', Nonempty (Derivation c
        (front ++ (used ++ (fill name further ++ (fill name closing ++ after)))) reading' after)) :
    Completes name c (front ++ used) (further ++ closing) where
  derives after hafter := by
    obtain ⟨reading, ⟨d⟩⟩ := h.derives _ (hcloses after hafter)
    simp only [fill_append, List.append_assoc]
    exact step after reading hafter d
  halts hnil after hafter := by
    rw [fill_append, List.append_assoc]
    exact h.halts (List.append_eq_nil_iff.mp hnil).2 _ (hcloses after hafter)

/-- A part that some tokens complete that it has not read any of. -/
theorem of_cons {token : Token Name}
    (h : ∀ after, c.Closes after → ∃ reading,
      Nonempty (Derivation c (token :: (used ++ (fill name further ++ after))) reading after)) :
    Completes name c (token :: used) further :=
  ⟨h, nofun⟩

end Completes

/-- What was read before a token that does not fit can be gone on with by what was expected, and
what has to come after that. -/
theorem Misfit.completes {c : Category} {tokens rest : Tokens} {complaint : Complaint}
    (h : Misfit c tokens complaint rest) (name : Name) :
    ∃ used further, tokens = used ++ rest ∧ Completes name c used further := by
  cases h with
  | program d hnext =>
      obtain ⟨used, rfl, hd⟩ := d.resume
      refine ⟨used, [], rfl, fun after hafter => ?_, fun _ _ => Category.Closes.halts⟩
      obtain rfl : after = [] := hafter
      obtain ⟨e⟩ := hd [] (.inr (.inl rfl))
      exact ⟨_, ⟨.program e⟩⟩
  | structureName hname =>
      refine ⟨[_], [.name, .symbol .leftParen, .symbol .rightParen], rfl,
        .of_cons fun after hafter => ⟨_, ⟨.structureDef (.noInput ?_) (.noBody ?_)⟩⟩⟩
      · exact ⟨_, _, _, rfl⟩
      · exact Halts.not_opensBody hafter
  | structureOpening hopen =>
      refine ⟨[_, _], [.symbol .leftParen, .symbol .rightParen], rfl,
        .of_cons fun after hafter => ⟨_, ⟨.structureDef (.noInput ?_) (.noBody ?_)⟩⟩⟩
      · exact ⟨_, _, _, rfl⟩
      · exact Halts.not_opensBody hafter
  | inputName hname =>
      refine ⟨[], [.name], rfl, fun after hafter => ?_, fun _ after _ => halts_fill name [] after⟩
      exact ⟨_, ⟨.unvalued (.untyped (Halts.not_next hafter rfl)) (Halts.not_next hafter rfl)⟩⟩
  | type hc htype =>
      refine ⟨[_, _], [.symbol .hash, .symbol .colon, .name], rfl,
        .of_cons fun after hafter => ?_⟩
      rcases hc with rfl | rfl <;> obtain ⟨p, ⟨e⟩⟩ := Derivation.expression_of_name hafter
      · exact ⟨_, ⟨.bind (.typed rfl) e⟩⟩
      · exact ⟨_, ⟨.valued (.bind (.typed rfl) e)⟩⟩
  | unvalued hdeclared hcolon =>
      obtain ⟨used, rfl, hdeclares⟩ := hdeclared.refit
      refine ⟨_ :: used, [.symbol .colon, .name], rfl, .of_cons fun after hafter => ?_⟩
      obtain ⟨p, ⟨e⟩⟩ := Derivation.expression_of_name hafter
      refine ⟨_, ⟨.bind (hdeclares _ fun hbullet => ?_) e⟩⟩
      cases hbullet.unique (next_fill name .colon _ _)
  | thenWord d hthen =>
      obtain ⟨used, rfl, hd⟩ := d.resume
      refine ⟨_ :: used, [.symbol .thenWord, .name, .symbol .elseWord, .name], rfl,
        .of_cons fun after hafter => ?_⟩
      obtain ⟨p, ⟨e''⟩⟩ := Derivation.expression_of_name hafter
      obtain ⟨p', ⟨e'⟩⟩ := Derivation.expression_of_name
        (.of_next (next_fill name .elseWord [.name] after) rfl)
      obtain ⟨e⟩ := hd _ (.inr (.of_next (next_fill name .thenWord _ _) rfl))
      exact ⟨_, ⟨.conditional e e' e''⟩⟩
  | @elseWord _ _ thenSpan thenLayout _ _ _ _ _ d d' helse =>
      obtain ⟨used, rfl, hd⟩ := d.resume
      obtain ⟨used', rfl, hd'⟩ := d'.resume
      refine ⟨_ :: (used ++ _ :: used'), [.symbol .elseWord, .name],
        by simp only [List.cons_append, List.append_assoc]; rfl, .of_cons fun after hafter => ?_⟩
      obtain ⟨p, ⟨e''⟩⟩ := Derivation.expression_of_name hafter
      obtain ⟨e'⟩ := hd' _ (.inr (.of_next (next_fill name .elseWord _ _) rfl))
      obtain ⟨e⟩ := hd (⟨.symbol .thenWord, thenSpan, thenLayout⟩ ::
        (used' ++ (fill name [.symbol .elseWord, .name] ++ after))) (.inl rfl)
      simp only [List.cons_append, List.append_assoc]
      exact ⟨_, ⟨.conditional e e' e''⟩⟩
  | primary hprimary =>
      exact ⟨[], [.name], rfl, fun after _ => ⟨_, ⟨.reference⟩⟩,
        fun _ after _ => halts_fill name [] after⟩
  | member hmember =>
      refine ⟨[_], [.name], rfl, .of_cons fun after hafter => ?_⟩
      obtain ⟨e⟩ := Derivation.selected_of_halts hafter _
      exact ⟨_, ⟨.property e⟩⟩
  | @closing openSpan openLayout tokens statements d =>
      obtain ⟨used, hused, hd⟩ := d.resume
      rw [List.append_nil] at hused
      subst hused
      refine ⟨_ :: tokens, [.symbol .rightParen], (List.append_nil _).symm,
        .of_cons fun after hafter => ?_⟩
      obtain ⟨e⟩ := hd _ (.inr (.inr (next_fill name .rightParen _ _)))
      exact ⟨_, ⟨.block e⟩⟩

/-- A statement that is read as an expression is completed like the expression, but a name of which
nothing further is read is one already. -/
theorem Completes.statement {name : Name} {used rest : Tokens} {further : List Filler}
    (h : Completes name .expression used further) (hopens : ¬ OpensBind (used ++ rest)) :
    ∃ further', Completes name .statement used further' := by
  cases used with
  | nil =>
      exact ⟨[.name], fun after hafter => Derivation.statement_of_name hafter,
        fun _ after _ => halts_fill name [] after⟩
  | cons token used =>
      have hexpression
          (hno : ∀ after, Halts after →
            ¬ OpensBind (token :: used ++ (fill name further ++ after))) :
          Completes name .statement (token :: used) further := by
        refine .of_cons fun after hafter => ?_
        obtain ⟨p, ⟨d⟩⟩ := h.derives after hafter
        exact ⟨p, ⟨.ofExpression (hno after hafter) d⟩⟩
      cases used with
      | cons token' used =>
          refine ⟨further, hexpression fun after _ h => hopens ?_⟩
          obtain ⟨_, span, layout, _, heq, hnext⟩ := h
          cases heq
          exact ⟨_, span, layout, _, rfl,
            hnext.imp ((atHead_next _).2 _ _ _) ((atHead_next _).2 _ _ _)⟩
      | nil =>
          obtain ⟨kind, span, layout⟩ := token
          cases kind with
          | identifier =>
              exact ⟨[], .of_cons fun after hafter => Derivation.statement_of_name hafter⟩
          | text | number | symbol =>
              refine ⟨further, hexpression fun after _ hopens' => ?_⟩
              obtain ⟨_, _, _, _, heq, _⟩ := hopens'
              cases heq

theorem resumes_append {linked tokens tokens' : Tokens}
    (h : tokens'.head? = tokens.head? ∨ Halts tokens') :
    (linked ++ tokens').head? = (linked ++ tokens).head? ∨ Halts (linked ++ tokens') := by
  cases linked with
  | nil => exact h
  | cons token linked => exact .inl rfl

/-- A part of the grammar is completed by completing the part that it has to go on with. -/
theorem Seeks.completes {name : Name} {c c' : Category} {tokens used rest : Tokens}
    {further : List Filler} (h : Seeks c tokens c' (used ++ rest))
    (hcompletes : Completes name c' used further)
    (htakes : c'.Takes (used ++ rest) → used ≠ []) :
    ∃ front further', tokens = front ++ (used ++ rest) ∧
      Completes name c (front ++ used) further' := by
  cases h with
  | program =>
      refine ⟨[], _, rfl, hcompletes.pass [] [] (fun after hafter => .inl hafter)
        fun after reading hafter d => ?_⟩
      obtain rfl : after = [] := hafter
      exact ⟨_, ⟨.program d⟩⟩
  | firstStatement =>
      exact ⟨[], _, rfl, hcompletes.pass [] [] (fun _ => Category.Closes.halts)
        fun _ _ hafter d => ⟨_, ⟨.moreStatements d (.noStatement hafter)⟩⟩⟩
  | moreStatements d =>
      obtain ⟨front, heq, hd⟩ := d.resume
      refine ⟨front, _, heq, hcompletes.pass front [] (fun _ => id) fun after _ hafter d' => ?_⟩
      obtain ⟨e⟩ := hd _ (hcompletes.resumes _ hafter)
      exact ⟨_, ⟨.moreStatements e d'⟩⟩
  | ofStructureDef =>
      exact ⟨[], _, rfl, hcompletes.pass [] [] (fun _ => id) fun _ _ _ d =>
        ⟨_, ⟨.ofStructureDef d⟩⟩⟩
  | ofBind =>
      exact ⟨[], _, rfl, hcompletes.pass [] [] (fun _ => id) fun _ _ _ d => ⟨_, ⟨.ofBind d⟩⟩⟩
  | ofExpression _ hopens =>
      obtain ⟨further', hstatement⟩ := hcompletes.statement hopens
      exact ⟨[], further', rfl, hstatement⟩
  | structureInputs =>
      exact ⟨[_, _, _], _, rfl, hcompletes.pass [_, _, _] [.symbol .rightParen]
        (fun after _ => next_fill ..) fun _ _ hafter d =>
          ⟨_, ⟨.structureDef d (.noBody (Halts.not_opensBody hafter))⟩⟩⟩
  | structureBody d =>
      obtain ⟨front, rfl, hd⟩ := d.resume
      refine ⟨_ :: _ :: _ :: (front ++ [_]), _,
        by simp only [List.cons_append, List.append_assoc]; rfl,
        hcompletes.pass (_ :: _ :: _ :: (front ++ [_])) [] (fun _ => id) fun after _ _ d' => ?_⟩
      obtain ⟨e⟩ := hd (_ :: (used ++ (fill name further ++ after))) (.inl rfl)
      simp only [List.cons_append, List.append_assoc]
      exact ⟨_, ⟨.structureDef e d'⟩⟩
  | firstInput =>
      exact ⟨[], _, rfl, hcompletes.pass [] [] (fun _ => Category.Closes.halts)
        fun _ _ hafter d => ⟨_, ⟨.moreInputs d
          (.bare (Halts.not_next (Category.Closes.halts (c := .inputs) hafter) rfl))
          (.noInput hafter)⟩⟩⟩
  | moreInputs d sep =>
      obtain ⟨front, rfl, hd⟩ := d.resume
      obtain ⟨linked, rfl, hsep⟩ := sep.refit
      refine ⟨front ++ linked, _, (List.append_assoc ..).symm,
        hcompletes.pass (front ++ linked) [] (fun _ => id) fun after _ hafter d' => ?_⟩
      have hresumes := hcompletes.resumes rest hafter
      obtain ⟨e⟩ := hd (linked ++ (used ++ (fill name further ++ after))) (resumes_append hresumes)
      rw [List.append_assoc]
      exact ⟨_, ⟨.moreInputs e (hsep _ (hresumes.elim .of_head? (·.noFurther _))) d'⟩⟩
  | body hopens =>
      have hused : used ≠ [] := by
        obtain ⟨_, _, _, heq, -⟩ := hopens
        exact htakes ⟨_, _, heq, rfl⟩
      have hbody := atHead_opensBody.of_append hopens hused
      exact ⟨[], _, rfl, hcompletes.pass [] [] (fun _ => id) fun _ _ _ d =>
        ⟨_, ⟨.ofBlock (show OpensBody (used ++ _) from atHead_opensBody.append hbody) d⟩⟩⟩
  | value hc hdeclared =>
      obtain ⟨front, rfl, hdeclares⟩ := hdeclared.refit
      refine ⟨_ :: (front ++ [_]), _, by simp only [List.cons_append, List.append_assoc]; rfl,
        hcompletes.pass (_ :: (front ++ [_])) []
          (fun _ hafter => by rcases hc with rfl | rfl <;> exact hafter) fun after _ _ d => ?_⟩
      have hdeclared' := hdeclares (_ :: (used ++ (fill name further ++ after)))
        ((atHead_next .bullet).of_head? rfl)
      simp only [List.cons_append, List.append_assoc]
      rcases hc with rfl | rfl
      · exact ⟨_, ⟨.bind hdeclared' d⟩⟩
      · exact ⟨_, ⟨.valued (.bind hdeclared' d)⟩⟩
  | condition =>
      refine ⟨[_], _, rfl, hcompletes.pass [_]
        [.symbol .thenWord, .name, .symbol .elseWord, .name]
        (fun after _ => .of_next (next_fill name .thenWord _ _) rfl) fun after _ hafter d => ?_⟩
      obtain ⟨p, ⟨e''⟩⟩ := Derivation.expression_of_name hafter
      obtain ⟨p', ⟨e'⟩⟩ := Derivation.expression_of_name
        (.of_next (next_fill name .elseWord [.name] after) rfl)
      exact ⟨_, ⟨.conditional d e' e''⟩⟩
  | yes d =>
      obtain ⟨front, rfl, hd⟩ := d.resume
      refine ⟨_ :: (front ++ [_]), _, by simp only [List.cons_append, List.append_assoc]; rfl,
        hcompletes.pass (_ :: (front ++ [_])) [.symbol .elseWord, .name]
          (fun after _ => .of_next (next_fill name .elseWord _ _) rfl) fun after _ hafter d' => ?_⟩
      obtain ⟨p, ⟨e''⟩⟩ := Derivation.expression_of_name hafter
      obtain ⟨e⟩ := hd (_ :: (used ++ (fill name further ++ _))) (.inl rfl)
      simp only [List.cons_append, List.append_assoc]
      exact ⟨_, ⟨.conditional e d' e''⟩⟩
  | no d d' =>
      obtain ⟨front, rfl, hd⟩ := d.resume
      obtain ⟨front', rfl, hd'⟩ := d'.resume
      refine ⟨_ :: (front ++ _ :: (front' ++ [_])), _,
        by simp only [List.cons_append, List.append_assoc]; rfl,
        hcompletes.pass (_ :: (front ++ _ :: (front' ++ [_]))) [] (fun _ => id)
          fun after _ _ d'' => ?_⟩
      obtain ⟨e'⟩ := hd' (_ :: (used ++ (fill name further ++ after))) (.inl rfl)
      obtain ⟨e⟩ := hd (_ :: (front' ++ _ :: (used ++ (fill name further ++ after)))) (.inl rfl)
      simp only [List.cons_append, List.append_assoc]
      exact ⟨_, ⟨.conditional e e' d''⟩⟩
  | ofTier =>
      exact ⟨[], _, rfl, hcompletes.pass [] [] (fun _ => id) fun _ _ _ d => ⟨_, ⟨.ofTier d⟩⟩⟩
  | firstOperand =>
      exact ⟨[], _, rfl, hcompletes.pass [] [] (fun _ => id) fun _ _ hafter d =>
        ⟨_, ⟨.joined d (.chainEnd (Halts.not_nextOperator hafter _))⟩⟩⟩
  | joined d =>
      obtain ⟨front, heq, hd⟩ := d.resume
      refine ⟨front, _, heq, hcompletes.pass front [] (fun _ => id) fun after _ hafter d' => ?_⟩
      obtain ⟨e⟩ := hd _ (hcompletes.resumes _ hafter)
      exact ⟨_, ⟨.joined e d'⟩⟩
  | ofTighter htier =>
      exact ⟨[], _, rfl, hcompletes.pass [] [] (fun _ => id) fun _ _ _ d =>
        ⟨_, ⟨.ofTighter htier d⟩⟩⟩
  | ofUnary htier =>
      exact ⟨[], _, rfl, hcompletes.pass [] [] (fun _ => id) fun _ _ _ d => ⟨_, ⟨.ofUnary htier d⟩⟩⟩
  | nextOperand hop =>
      exact ⟨[_], _, rfl, hcompletes.pass [_] [] (fun _ => id) fun _ _ hafter d =>
        ⟨_, ⟨.chainStep hop d (.chainEnd (Halts.not_nextOperator hafter _))⟩⟩⟩
  | chainStep hop d =>
      obtain ⟨front, rfl, hd⟩ := d.resume
      refine ⟨_ :: front, _, rfl,
        hcompletes.pass (_ :: front) [] (fun _ => id) fun after _ hafter d' => ?_⟩
      obtain ⟨e⟩ := hd _ (hcompletes.resumes _ hafter)
      exact ⟨_, ⟨.chainStep hop e d'⟩⟩
  | prefixed hop =>
      exact ⟨[_], _, rfl, hcompletes.pass [_] [] (fun _ => id) fun _ _ _ d =>
        ⟨_, ⟨.prefixed hop d⟩⟩⟩
  | ofSelection =>
      exact ⟨[], _, rfl, hcompletes.pass [] [] (fun _ => id) fun _ _ _ d => ⟨_, ⟨.ofSelection d⟩⟩⟩
  | subject =>
      refine ⟨[], _, rfl, hcompletes.pass [] [] (fun _ => id) fun after subject hafter d => ?_⟩
      obtain ⟨e⟩ := Derivation.selected_of_halts hafter subject
      exact ⟨_, ⟨.selection d e⟩⟩
  | selection d =>
      obtain ⟨front, heq, hd⟩ := d.resume
      refine ⟨front, _, heq, hcompletes.pass front [] (fun _ => id) fun after _ hafter d' => ?_⟩
      obtain ⟨e⟩ := hd _ (hcompletes.resumes _ hafter)
      exact ⟨_, ⟨.selection e d'⟩⟩
  | property =>
      exact ⟨[_, _], _, rfl, hcompletes.pass [_, _] [] (fun _ => id) fun _ _ _ d =>
        ⟨_, ⟨.property d⟩⟩⟩
  | arguments hadjacent =>
      refine ⟨[_], _, rfl, hcompletes.pass [_] [.symbol .rightParen]
        (fun after _ => next_fill ..) fun after _ hafter d => ?_⟩
      obtain ⟨e⟩ := Derivation.selected_of_halts hafter _
      exact ⟨_, ⟨.evaluate hadjacent d e⟩⟩
  | evaluate hadjacent d =>
      obtain ⟨front, rfl, hd⟩ := d.resume
      refine ⟨_ :: (front ++ [_]), _, by simp only [List.cons_append, List.append_assoc]; rfl,
        hcompletes.pass (_ :: (front ++ [_])) [] (fun _ => id) fun after _ _ d' => ?_⟩
      obtain ⟨e⟩ := hd (_ :: (used ++ (fill name further ++ after))) (.inl rfl)
      simp only [List.cons_append, List.append_assoc]
      exact ⟨_, ⟨.evaluate hadjacent e d'⟩⟩
  | firstArgument =>
      exact ⟨[], _, rfl, hcompletes.pass [] [] (fun _ => Category.Closes.halts)
        fun _ _ hafter d => ⟨_, ⟨.moreArguments d
          (.bare (Halts.not_next (Category.Closes.halts (c := .arguments) hafter) rfl))
          (.noArgument hafter)⟩⟩⟩
  | moreArguments d sep =>
      obtain ⟨front, rfl, hd⟩ := d.resume
      obtain ⟨linked, rfl, hsep⟩ := sep.refit
      refine ⟨front ++ linked, _, (List.append_assoc ..).symm,
        hcompletes.pass (front ++ linked) [] (fun _ => id) fun after _ hafter d' => ?_⟩
      have hresumes := hcompletes.resumes rest hafter
      obtain ⟨e⟩ := hd (linked ++ (used ++ (fill name further ++ after))) (resumes_append hresumes)
      rw [List.append_assoc]
      exact ⟨_, ⟨.moreArguments e (hsep _ (hresumes.elim .of_head? (·.noFurther _))) d'⟩⟩
  | primary =>
      exact ⟨[], _, rfl, hcompletes.pass [] [] (fun _ => id) fun _ _ _ d =>
        ⟨_, ⟨.ofPrimaryBlock d⟩⟩⟩
  | block =>
      exact ⟨[_], _, rfl, hcompletes.pass [_] [.symbol .rightParen]
        (fun after _ => .inr (next_fill ..)) fun _ _ _ d => ⟨_, ⟨.block d⟩⟩⟩

/-- What was read before a refusal can be gone on with so that the part is read. -/
theorem Refuses.completes {c : Category} {tokens rest : Tokens} {complaint : Complaint}
    (h : Refuses c tokens complaint rest) (name : Name) :
    ∃ used further, tokens = used ++ rest ∧ Completes name c used further := by
  induction h with
  | here h => exact h.completes name
  | further h hrefuses ih =>
      obtain ⟨used, further, rfl, hcompletes⟩ := ih
      obtain ⟨front, further', rfl, hwhole⟩ := h.completes hcompletes fun htakes =>
        ne_nil_of_length_lt (hrefuses.length_lt htakes)
      exact ⟨front ++ used, further', (List.append_assoc ..).symm, hwhole⟩

end Bindery.Grammar
