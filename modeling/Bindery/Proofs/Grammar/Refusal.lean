import Bindery.Phrase.Parser
import Bindery.Proofs.Grammar.Lines

/-!
Refusals. Where tokens are no program, the grammar tells how far they could be read and what does
not fit there. A part of the grammar goes down to the parts that it is made of, one after the other,
and at last there is one that cannot take the next token.

What was read up to there can be completed, since each part on the way down can be finished with a
few tokens, whatever part it is made for. And it is the next token that does not fit: with that
token the refusal is the same whatever comes after it.
-/

namespace Bindery.Grammar

def NextIdentifier (tokens : Tokens) : Prop :=
  ∃ name span layout rest, tokens = ⟨.identifier name, span, layout⟩ :: rest

/-- A type comes next. -/
def NextType (tokens : Tokens) : Prop :=
  ∃ token rest type, tokens = token :: rest ∧ writtenType? token.kind = some type

/-- A token comes next with which a primary can start. -/
def NextPrimary (tokens : Tokens) : Prop :=
  ∃ token rest, tokens = token :: rest ∧ startsPrimary token.kind = true

/-- `Seeks c tokens c' tokens'`: to read the part `c` from `tokens`, the part `c'` has to be read
from `tokens'`. -/
inductive Seeks : (c : Category) → Tokens → (c' : Category) → Tokens → Prop
  | program {stop tokens} : Seeks (.program stop) tokens .statements tokens
  | firstStatement {tokens} : ¬ Closed tokens → Seeks .statements tokens .statement tokens
  | moreStatements {tokens p between} : Derivation .statement tokens p between →
      Seeks .statements tokens .statements between
  | ofStructureDef {tokens} : Next .bullet tokens → Seeks .statement tokens .structureDef tokens
  | ofBind {tokens} : OpensBind tokens → Seeks .statement tokens .bind tokens
  | ofExpression {tokens} : ¬ Next .bullet tokens → ¬ OpensBind tokens →
      Seeks .statement tokens .expression tokens
  | structureInputs {start startLayout name nameSpan nameLayout openSpan openLayout tokens} :
      Seeks .structureDef
        (⟨.symbol .bullet, start, startLayout⟩ :: ⟨.identifier name, nameSpan, nameLayout⟩ ::
          ⟨.symbol .leftParen, openSpan, openLayout⟩ :: tokens) .inputs tokens
  | structureBody {start startLayout name nameSpan nameLayout openSpan openLayout close closeLayout
      tokens inputs afterInputs} :
      Derivation .inputs tokens inputs (⟨.symbol .rightParen, close, closeLayout⟩ :: afterInputs) →
      Seeks .structureDef
        (⟨.symbol .bullet, start, startLayout⟩ :: ⟨.identifier name, nameSpan, nameLayout⟩ ::
          ⟨.symbol .leftParen, openSpan, openLayout⟩ :: tokens) .body afterInputs
  | firstInput {tokens} : ¬ Next .rightParen tokens → Seeks .inputs tokens .input tokens
  | moreInputs {tokens p afterInput between} : Derivation .input tokens p afterInput →
      Separated afterInput between → Seeks .inputs tokens .inputs between
  | body {tokens} : OpensBody tokens → Seeks .body tokens .block tokens
  | value {c name nameSpan nameLayout tokens declared colon colonLayout afterColon} :
      c = .bind ∨ c = .input →
      Declares tokens declared (⟨.symbol .colon, colon, colonLayout⟩ :: afterColon) →
      Seeks c (⟨.identifier name, nameSpan, nameLayout⟩ :: tokens) .expression afterColon
  | condition {start startLayout tokens} :
      Seeks .expression (⟨.symbol .ifWord, start, startLayout⟩ :: tokens) .expression tokens
  | yes {start startLayout thenSpan thenLayout tokens condition afterThen} :
      Derivation .expression tokens condition
        (⟨.symbol .thenWord, thenSpan, thenLayout⟩ :: afterThen) →
      Seeks .expression (⟨.symbol .ifWord, start, startLayout⟩ :: tokens) .expression afterThen
  | no {start startLayout thenSpan thenLayout elseSpan elseLayout tokens condition afterThen yes
      afterElse} :
      Derivation .expression tokens condition
        (⟨.symbol .thenWord, thenSpan, thenLayout⟩ :: afterThen) →
      Derivation .expression afterThen yes
        (⟨.symbol .elseWord, elseSpan, elseLayout⟩ :: afterElse) →
      Seeks .expression (⟨.symbol .ifWord, start, startLayout⟩ :: tokens) .expression afterElse
  | ofTier {tokens} : ¬ Next .ifWord tokens → Seeks .expression tokens (.tier .disjunction) tokens
  | firstOperand {tier tokens} : Seeks (.tier tier) tokens (.operand tier) tokens
  | joined {tier tokens left between} : Derivation (.operand tier) tokens left between →
      Seeks (.tier tier) tokens (.chain tier left) between
  | ofTighter {tier tighter tokens} : tier.tighter? = some tighter →
      Seeks (.operand tier) tokens (.tier tighter) tokens
  | ofUnary {tier tokens} : tier.tighter? = none → Seeks (.operand tier) tokens .unary tokens
  | nextOperand {tier left symbol op span layout tokens} : tier.operator? symbol = some op →
      Seeks (.chain tier left) (⟨.symbol symbol, span, layout⟩ :: tokens) (.operand tier) tokens
  | chainStep {tier left symbol op span layout tokens right between} :
      tier.operator? symbol = some op → Derivation (.operand tier) tokens right between →
      Seeks (.chain tier left) (⟨.symbol symbol, span, layout⟩ :: tokens)
        (.chain tier (.binary (left.span.merge right.span) op left right)) between
  | prefixed {symbol op span layout tokens} : unaryOperator? symbol = some op →
      Seeks .unary (⟨.symbol symbol, span, layout⟩ :: tokens) .unary tokens
  | ofSelection {tokens} : ¬ NextUnary tokens → Seeks .unary tokens .selection tokens
  | subject {tokens} : Seeks .selection tokens .primary tokens
  | selection {tokens subject between} : Derivation .primary tokens subject between →
      Seeks .selection tokens (.selections subject) between
  | property {subject dot dotLayout member memberSpan memberLayout tokens} :
      Seeks (.selections subject)
        (⟨.symbol .dot, dot, dotLayout⟩ :: ⟨.identifier member, memberSpan, memberLayout⟩ :: tokens)
        (.selections (.property (subject.span.merge memberSpan) subject member memberSpan)) tokens
  | arguments {subject openSpan openLayout tokens} : openLayout.adjacent = true →
      Seeks (.selections subject) (⟨.symbol .leftParen, openSpan, openLayout⟩ :: tokens) .arguments
        tokens
  | evaluate {subject openSpan openLayout close closeLayout tokens arguments between} :
      openLayout.adjacent = true →
      Derivation .arguments tokens arguments
        (⟨.symbol .rightParen, close, closeLayout⟩ :: between) →
      Seeks (.selections subject) (⟨.symbol .leftParen, openSpan, openLayout⟩ :: tokens)
        (.selections (.evaluate ⟨subject.span.start, close.stop⟩ subject arguments)) between
  | firstArgument {tokens} : ¬ Next .rightParen tokens → Seeks .arguments tokens .expression tokens
  | moreArguments {tokens p afterArgument between} :
      Derivation .expression tokens p afterArgument → Separated afterArgument between →
      Seeks .arguments tokens .arguments between
  | primary {tokens} : Next .leftParen tokens → Seeks .primary tokens .block tokens
  | block {openSpan openLayout tokens} :
      Seeks .block (⟨.symbol .leftParen, openSpan, openLayout⟩ :: tokens) .statements tokens

/-- `Misfit c tokens complaint rest`: the part `c` of the grammar is read from `tokens` up to
`rest`, where it has to go on but cannot. -/
inductive Misfit : (c : Category) → Tokens → Complaint → Tokens → Prop
  /-- Only a block ends at a parenthesis. -/
  | program {stop tokens statements rest} : Derivation .statements tokens statements rest →
      Next .rightParen rest → Misfit (.program stop) tokens (.expected .expression) rest
  | structureName {start startLayout rest} : ¬ NextIdentifier rest →
      Misfit .structureDef (⟨.symbol .bullet, start, startLayout⟩ :: rest) (.expected .identifier)
        rest
  | structureOpening {start startLayout name nameSpan nameLayout rest} : ¬ Next .leftParen rest →
      Misfit .structureDef
        (⟨.symbol .bullet, start, startLayout⟩ :: ⟨.identifier name, nameSpan, nameLayout⟩ :: rest)
        (.expected (.symbol .leftParen)) rest
  | inputName {rest} : ¬ NextIdentifier rest → Misfit .input rest (.expected .identifier) rest
  | type {c name nameSpan nameLayout bullet bulletLayout rest} : c = .bind ∨ c = .input →
      ¬ NextType rest →
      Misfit c
        (⟨.identifier name, nameSpan, nameLayout⟩ ::
          ⟨.symbol .bullet, bullet, bulletLayout⟩ :: rest)
        (.expected .type) rest
  | unvalued {name nameSpan nameLayout tokens declared rest} : Declares tokens declared rest →
      ¬ Next .colon rest →
      Misfit .bind (⟨.identifier name, nameSpan, nameLayout⟩ :: tokens) (.unvalued name nameSpan)
        rest
  | thenWord {start startLayout tokens condition rest} :
      Derivation .expression tokens condition rest → ¬ Next .thenWord rest →
      Misfit .expression (⟨.symbol .ifWord, start, startLayout⟩ :: tokens)
        (.expected (.symbol .thenWord)) rest
  | elseWord {start startLayout thenSpan thenLayout tokens condition afterThen yes rest} :
      Derivation .expression tokens condition
        (⟨.symbol .thenWord, thenSpan, thenLayout⟩ :: afterThen) →
      Derivation .expression afterThen yes rest → ¬ Next .elseWord rest →
      Misfit .expression (⟨.symbol .ifWord, start, startLayout⟩ :: tokens)
        (.expected (.symbol .elseWord)) rest
  | primary {rest} : ¬ NextPrimary rest → Misfit .primary rest (.expected .expression) rest
  | member {subject dot dotLayout rest} : ¬ NextIdentifier rest →
      Misfit (.selections subject) (⟨.symbol .dot, dot, dotLayout⟩ :: rest) (.expected .identifier)
        rest
  | closing {openSpan openLayout tokens statements} : Derivation .statements tokens statements [] →
      Misfit .block (⟨.symbol .leftParen, openSpan, openLayout⟩ :: tokens)
        (.expected (.symbol .rightParen)) []

/-- `Refuses c tokens complaint rest`: the part `c` of the grammar cannot be read from `tokens`, and
what is wrong is found in front of `rest`. -/
inductive Refuses : (c : Category) → Tokens → Complaint → Tokens → Prop
  | here {c tokens complaint rest} : Misfit c tokens complaint rest →
      Refuses c tokens complaint rest
  | further {c tokens c' tokens' complaint rest} : Seeks c tokens c' tokens' →
      Refuses c' tokens' complaint rest → Refuses c tokens complaint rest

section Refit

variable {c c' : Category} {tokens tokens' between rest : Tokens} {complaint : Complaint}
  {reading : c.Reading}

theorem head?_append_eq {used rest rest' : Tokens} (hhead : rest'.head? = rest.head?) :
    (used ++ rest').head? = (used ++ rest).head? := by
  rw [List.head?_append, List.head?_append, hhead]

/-- Whatever comes after a token in front of which a part was read, it is read there. -/
theorem Derivation.rehead (d : Derivation c tokens reading between) : ∃ used,
    tokens = used ++ between ∧ ∀ between', between'.head? = between.head? →
      Nonempty (Derivation c (used ++ between') reading between') := by
  obtain ⟨used, heq, hresume⟩ := d.resume
  exact ⟨used, heq, fun between' hhead => hresume between' (.inl hhead)⟩

/-- A part is sought as well if the tokens in front of which it is go on otherwise. Only binds are
told by a second token. -/
theorem Seeks.refit (h : Seeks c tokens c' tokens') : ∃ front, tokens = front ++ tokens' ∧
    ∀ tokens'', tokens''.head? = tokens'.head? →
      (c = .statement → (OpensBind tokens'' ↔ OpensBind tokens')) →
      Seeks c (front ++ tokens'') c' tokens'' := by
  have hnot {property : Tokens → Prop} (hproperty : AtHead property) {tokens tokens' : Tokens}
      (hhead : tokens'.head? = tokens.head?) (h : ¬ property tokens) : ¬ property tokens' :=
    fun h' => h (hproperty.of_head? hhead h')
  cases h with
  | program => exact ⟨[], rfl, fun _ _ _ => .program⟩
  | firstStatement hclosed =>
      refine ⟨[], rfl, fun _ hhead _ => .firstStatement fun hclosed' => hclosed ?_⟩
      rcases hclosed' with rfl | hnext
      · exact .inl (List.head?_eq_none_iff.mp hhead.symm)
      · exact .inr ((atHead_next _).of_head? hhead hnext)
  | moreStatements d =>
      obtain ⟨used, rfl, hd⟩ := d.rehead
      refine ⟨used, rfl, fun _ hhead _ => ?_⟩
      obtain ⟨e⟩ := hd _ hhead
      exact .moreStatements e
  | ofStructureDef hbullet =>
      exact ⟨[], rfl, fun _ hhead _ =>
        .ofStructureDef ((atHead_next _).of_head? hhead.symm hbullet)⟩
  | ofBind hopens => exact ⟨[], rfl, fun _ _ hsame => .ofBind ((hsame rfl).mpr hopens)⟩
  | ofExpression hbullet hopens =>
      exact ⟨[], rfl, fun _ hhead hsame => .ofExpression (hnot (atHead_next _) hhead hbullet)
        fun hopens' => hopens ((hsame rfl).mp hopens')⟩
  | structureInputs => exact ⟨[_, _, _], rfl, fun _ _ _ => .structureInputs⟩
  | structureBody d =>
      obtain ⟨used, rfl, hd⟩ := d.rehead
      refine ⟨_ :: _ :: _ :: (used ++ [_]), by simp only [List.cons_append, List.append_assoc]; rfl,
        fun tokens'' _ _ => ?_⟩
      obtain ⟨e⟩ := hd (_ :: tokens'') rfl
      simp only [List.cons_append, List.append_assoc]
      exact .structureBody e
  | firstInput hclose =>
      exact ⟨[], rfl, fun _ hhead _ => .firstInput (hnot (atHead_next _) hhead hclose)⟩
  | moreInputs d sep =>
      obtain ⟨used, rfl, hd⟩ := d.rehead
      obtain ⟨linked, rfl, hsep⟩ := sep.refit
      refine ⟨used ++ linked, (List.append_assoc ..).symm, fun tokens'' hhead _ => ?_⟩
      obtain ⟨e⟩ := hd (linked ++ tokens'') (head?_append_eq hhead)
      rw [List.append_assoc]
      exact .moreInputs e (hsep _ (.of_head? hhead))
  | body hopens =>
      exact ⟨[], rfl, fun _ hhead _ => .body (atHead_opensBody.of_head? hhead.symm hopens)⟩
  | value hc hdeclared =>
      obtain ⟨used, rfl, hdeclares⟩ := hdeclared.refit
      refine ⟨_ :: (used ++ [_]), by simp only [List.cons_append, List.append_assoc]; rfl,
        fun tokens'' _ _ => ?_⟩
      simp only [List.cons_append, List.append_assoc]
      exact .value hc (hdeclares (_ :: tokens'') ((atHead_next _).of_head? rfl))
  | condition => exact ⟨[_], rfl, fun _ _ _ => .condition⟩
  | yes d =>
      obtain ⟨used, rfl, hd⟩ := d.rehead
      refine ⟨_ :: (used ++ [_]), by simp only [List.cons_append, List.append_assoc]; rfl,
        fun tokens'' _ _ => ?_⟩
      obtain ⟨e⟩ := hd (_ :: tokens'') rfl
      simp only [List.cons_append, List.append_assoc]
      exact .yes e
  | no d d' =>
      obtain ⟨used, rfl, hd⟩ := d.rehead
      obtain ⟨used', rfl, hd'⟩ := d'.rehead
      refine ⟨_ :: (used ++ _ :: (used' ++ [_])),
        by simp only [List.cons_append, List.append_assoc]; rfl, fun tokens'' _ _ => ?_⟩
      obtain ⟨e'⟩ := hd' (_ :: tokens'') rfl
      obtain ⟨e⟩ := hd (_ :: (used' ++ _ :: tokens'')) rfl
      simp only [List.cons_append, List.append_assoc]
      exact .no e e'
  | ofTier hif =>
      exact ⟨[], rfl, fun _ hhead _ => .ofTier (hnot (atHead_next _) hhead hif)⟩
  | firstOperand => exact ⟨[], rfl, fun _ _ _ => .firstOperand⟩
  | joined d =>
      obtain ⟨used, rfl, hd⟩ := d.rehead
      refine ⟨used, rfl, fun _ hhead _ => ?_⟩
      obtain ⟨e⟩ := hd _ hhead
      exact .joined e
  | ofTighter htier => exact ⟨[], rfl, fun _ _ _ => .ofTighter htier⟩
  | ofUnary htier => exact ⟨[], rfl, fun _ _ _ => .ofUnary htier⟩
  | nextOperand hop => exact ⟨[_], rfl, fun _ _ _ => .nextOperand hop⟩
  | chainStep hop d =>
      obtain ⟨used, rfl, hd⟩ := d.rehead
      refine ⟨_ :: used, rfl, fun _ hhead _ => ?_⟩
      obtain ⟨e⟩ := hd _ hhead
      exact .chainStep hop e
  | prefixed hop => exact ⟨[_], rfl, fun _ _ _ => .prefixed hop⟩
  | ofSelection hprefix =>
      refine ⟨[], rfl, fun _ hhead _ => .ofSelection fun hprefix' => hprefix ?_⟩
      obtain ⟨symbol, hs, hnext⟩ := hprefix'
      exact ⟨symbol, hs, (atHead_next _).of_head? hhead hnext⟩
  | subject => exact ⟨[], rfl, fun _ _ _ => .subject⟩
  | selection d =>
      obtain ⟨used, rfl, hd⟩ := d.rehead
      refine ⟨used, rfl, fun _ hhead _ => ?_⟩
      obtain ⟨e⟩ := hd _ hhead
      exact .selection e
  | property => exact ⟨[_, _], rfl, fun _ _ _ => .property⟩
  | arguments hadjacent => exact ⟨[_], rfl, fun _ _ _ => .arguments hadjacent⟩
  | evaluate hadjacent d =>
      obtain ⟨used, rfl, hd⟩ := d.rehead
      refine ⟨_ :: (used ++ [_]), by simp only [List.cons_append, List.append_assoc]; rfl,
        fun tokens'' _ _ => ?_⟩
      obtain ⟨e⟩ := hd (_ :: tokens'') rfl
      simp only [List.cons_append, List.append_assoc]
      exact .evaluate hadjacent e
  | firstArgument hclose =>
      exact ⟨[], rfl, fun _ hhead _ => .firstArgument (hnot (atHead_next _) hhead hclose)⟩
  | moreArguments d sep =>
      obtain ⟨used, rfl, hd⟩ := d.rehead
      obtain ⟨linked, rfl, hsep⟩ := sep.refit
      refine ⟨used ++ linked, (List.append_assoc ..).symm, fun tokens'' hhead _ => ?_⟩
      obtain ⟨e⟩ := hd (linked ++ tokens'') (head?_append_eq hhead)
      rw [List.append_assoc]
      exact .moreArguments e (hsep _ (.of_head? hhead))
  | primary hparen =>
      exact ⟨[], rfl, fun _ hhead _ => .primary ((atHead_next _).of_head? hhead.symm hparen)⟩
  | block => exact ⟨[_], rfl, fun _ _ _ => .block⟩

theorem atHead_nextIdentifier : AtHead NextIdentifier := by
  refine ⟨nofun, fun token further further' h => ?_⟩
  obtain ⟨name, span, layout, rest, heq⟩ := h
  cases heq
  exact ⟨name, span, layout, further', rfl⟩

theorem atHead_nextType : AtHead NextType := by
  refine ⟨nofun, fun token further further' h => ?_⟩
  obtain ⟨token, rest, type, heq, hwritten⟩ := h
  cases heq
  exact ⟨token, further', type, rfl, hwritten⟩

theorem atHead_nextPrimary : AtHead NextPrimary := by
  refine ⟨nofun, fun token further further' h => ?_⟩
  obtain ⟨token, rest, heq, hstarts⟩ := h
  cases heq
  exact ⟨token, further', rfl, hstarts⟩

/-- A token does not fit whatever comes after it. -/
theorem Misfit.refit (h : Misfit c tokens complaint rest) : ∃ used, tokens = used ++ rest ∧
    ∀ rest', rest'.head? = rest.head? → Misfit c (used ++ rest') complaint rest' := by
  have hnot {property : Tokens → Prop} (hproperty : AtHead property) {rest' : Tokens}
      (hhead : rest'.head? = rest.head?) (h : ¬ property rest) : ¬ property rest' :=
    fun h' => h (hproperty.of_head? hhead h')
  cases h with
  | program d hnext =>
      obtain ⟨used, rfl, hd⟩ := d.rehead
      refine ⟨used, rfl, fun _ hhead => ?_⟩
      obtain ⟨e⟩ := hd _ hhead
      exact .program e ((atHead_next _).of_head? hhead.symm hnext)
  | structureName hname =>
      exact ⟨[_], rfl, fun _ hhead => .structureName (hnot atHead_nextIdentifier hhead hname)⟩
  | structureOpening hopen =>
      exact ⟨[_, _], rfl, fun _ hhead => .structureOpening (hnot (atHead_next _) hhead hopen)⟩
  | inputName hname =>
      exact ⟨[], rfl, fun _ hhead => .inputName (hnot atHead_nextIdentifier hhead hname)⟩
  | type hc htype =>
      exact ⟨[_, _], rfl, fun _ hhead => .type hc (hnot atHead_nextType hhead htype)⟩
  | unvalued hdeclared hcolon =>
      obtain ⟨used, rfl, hdeclares⟩ := hdeclared.refit
      exact ⟨_ :: used, rfl, fun _ hhead =>
        .unvalued (hdeclares _ ((atHead_next _).of_head? hhead))
          (hnot (atHead_next _) hhead hcolon)⟩
  | thenWord d hthen =>
      obtain ⟨used, rfl, hd⟩ := d.rehead
      refine ⟨_ :: used, rfl, fun _ hhead => ?_⟩
      obtain ⟨e⟩ := hd _ hhead
      exact .thenWord e (hnot (atHead_next _) hhead hthen)
  | elseWord d d' helse =>
      obtain ⟨used, rfl, hd⟩ := d.rehead
      obtain ⟨used', rfl, hd'⟩ := d'.rehead
      refine ⟨_ :: (used ++ _ :: used'), by simp only [List.cons_append, List.append_assoc]; rfl,
        fun rest' hhead => ?_⟩
      obtain ⟨e'⟩ := hd' _ hhead
      obtain ⟨e⟩ := hd (_ :: (used' ++ rest')) rfl
      simp only [List.cons_append, List.append_assoc]
      exact .elseWord e e' (hnot (atHead_next _) hhead helse)
  | primary hprimary =>
      exact ⟨[], rfl, fun _ hhead => .primary (hnot atHead_nextPrimary hhead hprimary)⟩
  | member hmember =>
      exact ⟨[_], rfl, fun _ hhead => .member (hnot atHead_nextIdentifier hhead hmember)⟩
  | closing d =>
      refine ⟨_ :: _, congrArg (_ :: ·) (List.append_nil _).symm, fun rest' hhead => ?_⟩
      obtain rfl := List.head?_eq_none_iff.mp hhead
      rw [List.append_nil]
      exact .closing d

theorem Seeks.length_le (h : Seeks c tokens c' tokens') : tokens'.length ≤ tokens.length := by
  obtain ⟨front, rfl, -⟩ := h.refit
  simp only [List.length_append]
  omega

theorem Refuses.length_le (h : Refuses c tokens complaint rest) : rest.length ≤ tokens.length := by
  induction h with
  | here h =>
      obtain ⟨used, rfl, -⟩ := h.refit
      simp only [List.length_append]
      omega
  | further h _ ih => exact Nat.le_trans ih h.length_le

end Refit

/-- The part of the grammar takes the first of the tokens before it can be refused. -/
def Category.Takes : Category → Tokens → Prop
  | .chain .., _ | .selections _, _ => True
  | c, tokens => ∃ token rest, tokens = token :: rest ∧ c.starts token.kind = true

section Takes

variable {c c' : Category} {tokens tokens' rest : Tokens} {complaint : Complaint}

theorem Seeks.takes (h : Seeks c tokens c' tokens') (htakes : c.Takes tokens) :
    tokens'.length < tokens.length ∨ tokens' = tokens ∧ c'.Takes tokens' := by
  cases h with
  | program | firstStatement | moreStatements | firstInput | moreInputs | body | firstArgument
  | moreArguments =>
      obtain ⟨_, _, -, hstarts⟩ := htakes
      cases hstarts
  | ofStructureDef hbullet =>
      obtain ⟨span, layout, rest, rfl⟩ := hbullet
      exact .inr ⟨rfl, _, _, rfl, rfl⟩
  | ofBind hopens =>
      obtain ⟨name, span, layout, rest, rfl, -⟩ := hopens
      exact .inr ⟨rfl, _, _, rfl, rfl⟩
  | ofExpression hbullet _ =>
      obtain ⟨⟨kind, span, layout⟩, rest, rfl, hstarts⟩ := htakes
      refine .inr ⟨rfl, _, _, rfl, ((Bool.or_eq_true _ _).mp hstarts).resolve_left fun hkind => ?_⟩
      obtain rfl : kind = .symbol .bullet := eq_of_beq hkind
      exact hbullet ⟨span, layout, rest, rfl⟩
  | structureInputs | condition | nextOperand | prefixed | property | arguments | block =>
      exact .inl (by simp only [List.length_cons]; omega)
  | structureBody d | yes d | chainStep _ d | evaluate _ d =>
      have hle := d.length_le
      exact .inl (by simp only [List.length_cons] at *; omega)
  | value _ hdeclared =>
      have hle := hdeclared.length_le
      exact .inl (by simp only [List.length_cons] at *; omega)
  | no d d' =>
      have hle := d.length_le
      have hle' := d'.length_le
      exact .inl (by simp only [List.length_cons] at *; omega)
  | ofTier hif =>
      obtain ⟨⟨kind, span, layout⟩, rest, rfl, hstarts⟩ := htakes
      refine .inr ⟨rfl, _, _, rfl, ?_⟩
      simp only [Category.starts, startsExpression] at hstarts ⊢
      split at hstarts
      · exact absurd ⟨span, layout, rest, rfl⟩ hif
      · exact hstarts
  | firstOperand | ofTighter | ofUnary | subject => exact .inr ⟨rfl, htakes⟩
  | joined d | selection d => exact .inl (d.length_lt trivial)
  | ofSelection hprefix =>
      obtain ⟨⟨kind, span, layout⟩, rest, rfl, hstarts⟩ := htakes
      refine .inr ⟨rfl, _, _, rfl, ?_⟩
      simp only [Category.starts, startsUnary] at hstarts ⊢
      split at hstarts
      · exact absurd ⟨_, rfl, span, layout, rest, rfl⟩ hprefix
      · exact absurd ⟨_, rfl, span, layout, rest, rfl⟩ hprefix
      · exact hstarts
  | primary hparen =>
      obtain ⟨span, layout, rest, rfl⟩ := hparen
      exact .inr ⟨rfl, _, _, rfl, rfl⟩

theorem Misfit.length_lt (h : Misfit c tokens complaint rest) (htakes : c.Takes tokens) :
    rest.length < tokens.length := by
  cases h with
  | program =>
      obtain ⟨_, _, -, hstarts⟩ := htakes
      cases hstarts
  | inputName hname =>
      obtain ⟨⟨kind, span, layout⟩, rest, rfl, hstarts⟩ := htakes
      cases kind with
      | identifier name => exact absurd ⟨name, span, layout, rest, rfl⟩ hname
      | text | number | symbol => cases hstarts
  | primary hprimary =>
      obtain ⟨token, rest, rfl, hstarts⟩ := htakes
      exact absurd ⟨token, rest, rfl, hstarts⟩ hprimary
  | structureName | structureOpening | type | member | closing =>
      simp only [List.length_cons, List.length_nil]; omega
  | unvalued hdeclared =>
      have hle := hdeclared.length_le
      simp only [List.length_cons]
      omega
  | thenWord d =>
      have hle := d.length_le
      simp only [List.length_cons]
      omega
  | elseWord d d' =>
      have hle := d.length_le
      have hle' := d'.length_le
      simp only [List.length_cons] at *
      omega

theorem Refuses.length_lt (h : Refuses c tokens complaint rest) (htakes : c.Takes tokens) :
    rest.length < tokens.length := by
  induction h with
  | here h => exact h.length_lt htakes
  | further h hrefuses ih =>
      rcases h.takes htakes with hlt | ⟨rfl, htakes'⟩
      · exact Nat.lt_of_le_of_lt hrefuses.length_le hlt
      · exact ih htakes'

end Takes

/-- Where a statement is refused at its first token, this is no name, so no bind is announced. -/
theorem Refuses.not_opensBind {tokens rest : Tokens} {complaint : Complaint}
    (h : Refuses .statement tokens complaint tokens) (hhead : rest.head? = tokens.head?) :
    ¬ OpensBind rest := by
  rintro ⟨name, span, layout, further, rfl, -⟩
  obtain ⟨tail, rfl⟩ := List.head?_eq_some_iff.mp hhead.symm
  exact Nat.lt_irrefl _ (h.length_lt ⟨_, _, rfl, rfl⟩)

/-- A refusal does not depend on what comes after the token that does not fit. -/
theorem Refuses.refit {c : Category} {tokens rest : Tokens} {complaint : Complaint}
    (h : Refuses c tokens complaint rest) : ∃ used, tokens = used ++ rest ∧
      ∀ rest', rest'.head? = rest.head? → Refuses c (used ++ rest') complaint rest' := by
  induction h with
  | here h =>
      obtain ⟨used, heq, hrefit⟩ := h.refit
      exact ⟨used, heq, fun rest' hhead => .here (hrefit rest' hhead)⟩
  | @further c tokens c' tokens' complaint rest h hrefuses ih =>
      have hwhole := Refuses.further h hrefuses
      obtain ⟨used, rfl, hused⟩ := ih
      have hstatement : c = .statement → tokens = used ++ rest := by
        rintro rfl
        cases h with
        | ofStructureDef | ofBind | ofExpression => rfl
        | value hc => cases hc <;> contradiction
      obtain ⟨front, rfl, hfront⟩ := h.refit
      refine ⟨front ++ used, (List.append_assoc ..).symm, fun rest' hhead => ?_⟩
      rw [List.append_assoc]
      refine .further (hfront _ (head?_append_eq hhead) fun hc => ?_) (hused rest' hhead)
      by_cases hne : used = []
      · subst hne hc
        rw [hstatement rfl] at hwhole
        exact iff_of_false (hwhole.not_opensBind hhead) (hwhole.not_opensBind rfl)
      · exact ⟨OpensBind.imp_append hne (atHead_next _ |>.of_head? hhead)
            (atHead_next _ |>.of_head? hhead),
          OpensBind.imp_append hne (atHead_next _ |>.of_head? hhead.symm)
            (atHead_next _ |>.of_head? hhead.symm)⟩

end Bindery.Grammar
