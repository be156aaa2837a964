import Bindery.Proofs.Token.Names
import Bindery.Proofs.Tree.Parsed

/-!
Trees as a reader sees them, without numbers: names are given by their strings, and children stand
where they belong. What a source holds under its numbers is the tree of the phrase that was read,
and alike phrases have the same tree up to their places in the text.
-/

namespace Bindery

inductive SpelledType where
  | text | number | boolean
  | named (name : String)
  deriving DecidableEq

/-- What a node says, its place and its children aside. -/
inductive Label where
  | block
  | bind (name : String) (type : Option SpelledType)
  | structureDef (name : String) (hasBody : Bool)
  | property
  | memberName (name : String)
  | reference (name : String)
  | evaluate
  | number (bits : UInt64)
  | text (content : String)
  | boolean (value : Bool)
  | binary (op : BinaryOp)
  | unary (op : UnaryOp)
  | conditional
  deriving DecidableEq

inductive Tree where
  | node (label : Label) (span : Span) (children : List Tree)

mutual

/-- The same tree, so many bytes further on in a text. -/
def Tree.shift (distance : Nat) : Tree → Tree
  | .node label span children => .node label (span.shift distance) (Tree.shiftAll distance children)

def Tree.shiftAll (distance : Nat) : List Tree → List Tree
  | [] => []
  | tree :: rest => tree.shift distance :: Tree.shiftAll distance rest

end

theorem Tree.shiftAll_eq_map (distance : Nat) (trees : List Tree) :
    Tree.shiftAll distance trees = trees.map (·.shift distance) := by
  induction trees with
  | nil => rfl
  | cons tree rest ih => rw [Tree.shiftAll, ih, List.map_cons]

theorem Tree.shiftAll_append (distance : Nat) (trees trees' : List Tree) :
    Tree.shiftAll distance (trees ++ trees') =
      Tree.shiftAll distance trees ++ Tree.shiftAll distance trees' := by
  simp only [Tree.shiftAll_eq_map, List.map_append]

mutual

theorem Tree.shift_zero : (tree : Tree) → tree.shift 0 = tree
  | .node label span children => by
      rw [Tree.shift, Tree.shiftAll_zero children]
      rfl

theorem Tree.shiftAll_zero : (trees : List Tree) → Tree.shiftAll 0 trees = trees
  | [] => rfl
  | tree :: rest => by rw [Tree.shiftAll, Tree.shift_zero tree, Tree.shiftAll_zero rest]

end

def DeclaredType.spelled (spell : Name → String) : DeclaredType → SpelledType
  | .text => .text
  | .number => .number
  | .boolean => .boolean
  | .named name => .named (spell name)

def NodeKind.label (spell : Name → String) : NodeKind → Label
  | .block _ => .block
  | .bind declared => .bind (spell declared.name) (declared.type.map (·.spelled spell))
  | .structureDef definition => .structureDef (spell definition.name) definition.body.isSome
  | .property _ _ => .property
  | .memberName name => .memberName (spell name)
  | .reference name => .reference (spell name)
  | .evaluate _ _ => .evaluate
  | .number bits => .number bits
  | .text content => .text (spell content)
  | .boolean value => .boolean value
  | .binary op _ _ => .binary op
  | .unary op _ => .unary op
  | .conditional _ _ _ => .conditional

def Arena.treeUpTo (arena : Arena) (spell : Name → String) : (depth : Nat) → NodeId → Tree
  | 0, id => .node ((arena.kind id).label spell) (arena.node id).span []
  | depth + 1, id =>
    .node ((arena.kind id).label spell) (arena.node id).span
      ((arena.children id).map (arena.treeUpTo spell depth))

/-- The tree under a node. No tree is deeper than the arena has nodes. -/
def Source.tree (source : Source) (id : NodeId) : Tree :=
  source.arena.treeUpTo source.interner.lookup source.arena.size id

def Source.statementTrees (source : Source) : List Tree :=
  (source.children source.root).map source.tree

mutual

def Phrase.tree (spell : Name → String) : Phrase → Tree
  | .block span statements => .node .block span (Phrase.trees spell statements)
  | .bind span name type value =>
    .node (.bind (spell name) (type.map (·.spelled spell))) span (Phrase.tree? spell value)
  | .structureDef span name inputs body =>
    .node (.structureDef (spell name) body.isSome) span
      (Phrase.trees spell inputs ++ Phrase.tree? spell body)
  | .property span subject member memberSpan =>
    .node .property span [subject.tree spell, .node (.memberName (spell member)) memberSpan []]
  | .reference span name => .node (.reference (spell name)) span []
  | .evaluate span callee arguments =>
    .node .evaluate span (callee.tree spell :: Phrase.trees spell arguments)
  | .number span bits => .node (.number bits) span []
  | .text span content => .node (.text (spell content)) span []
  | .boolean span value => .node (.boolean value) span []
  | .binary span op left right => .node (.binary op) span [left.tree spell, right.tree spell]
  | .unary span op operand => .node (.unary op) span [operand.tree spell]
  | .conditional span condition yes no =>
    .node .conditional span [condition.tree spell, yes.tree spell, no.tree spell]

def Phrase.tree? (spell : Name → String) : Option Phrase → List Tree
  | none => []
  | some p => [p.tree spell]

def Phrase.trees (spell : Name → String) : List Phrase → List Tree
  | [] => []
  | p :: rest => p.tree spell :: Phrase.trees spell rest

end

theorem Phrase.trees_eq_map (spell : Name → String) (ps : List Phrase) :
    Phrase.trees spell ps = ps.map (·.tree spell) := by
  induction ps with
  | nil => rfl
  | cons p ps ih => rw [Phrase.trees, ih, List.map_cons]

namespace Arena

variable {spell : Name → String} {before after later : Arena}

/-- Under some nodes stand the given trees, and in every larger arena too. -/
def Shows (spell : Name → String) (arena : Arena) (placed : List (Place × NodeId))
    (trees : List Tree) : Prop :=
  ∀ later, arena.Extends later → ∀ depth, arena.size ≤ depth + 1 →
    placed.map (fun child => later.treeUpTo spell depth child.2) = trees

namespace Shows

variable {placed placed' : List (Place × NodeId)} {trees trees' : List Tree}

theorem nil (arena : Arena) : arena.Shows spell [] [] := fun _ _ _ _ => rfl

theorem extend (h : before.Shows spell placed trees) (hextends : before.Extends after) :
    after.Shows spell placed trees := by
  intro later hlater depth hdepth
  have hsize := hextends.size_le
  exact h later (hextends.trans hlater) depth (by omega)

theorem append (h : before.Shows spell placed trees) (hextends : before.Extends after)
    (h' : after.Shows spell placed' trees') :
    after.Shows spell (placed ++ placed') (trees ++ trees') := by
  intro later hlater depth hdepth
  rw [List.map_append, h.extend hextends later hlater depth hdepth, h' later hlater depth hdepth]

/-- The tree of a node that is added above the trees of its children. -/
theorem add {start : Arena} (h : before.Shows spell placed trees)
    (hgrows : start.Grows placed before) {kind : NodeKind} (span : Span)
    (hrange : ∀ range, kind.range? = some range → range.stop ≤ before.lists.size)
    (hplaced : before.placements kind = placed) {place : Place} :
    (before.add ⟨kind, span⟩).2.Shows spell [(place, (before.add ⟨kind, span⟩).1)]
      [.node (kind.label spell) span trees] := by
  intro later hlater depth hdepth
  have hsize := Grows.size_add before ⟨kind, span⟩
  have hlt := Grows.index_lt_size_add before ⟨kind, span⟩
  have hnode : later.node (before.add ⟨kind, span⟩).1 = ⟨kind, span⟩ := by
    rw [hlater.node_eq hlt, Grows.node_add]
  have hkind : later.kind (before.add ⟨kind, span⟩).1 = kind := by rw [Arena.kind, hnode]
  have hextends := (Grows.extends_add before ⟨kind, span⟩).trans hlater
  have hchildren : later.placements kind = placed := by
    rw [hextends.placements_eq hrange, hplaced]
  rw [List.map_cons, List.map_nil]
  refine congrArg (fun tree => [tree]) ?_
  cases depth with
  | zero =>
      -- No node fits below the first depth, so there are no children.
      have hnone : placed = [] := by
        refine List.eq_nil_iff_forall_not_mem.mpr fun child hchild => ?_
        have := hgrows.index_lt hchild
        omega
      have hempty := h later hextends 0 (by omega)
      rw [hnone] at hempty
      rw [treeUpTo, hkind, hnode, ← hempty]
      rfl
  | succ depth =>
      rw [treeUpTo, children_eq_map_placements, hkind, hnode, hchildren, List.map_map]
      exact congrArg _ (h later hextends depth (by omega))

end Shows
end Arena

namespace Numbering
open Arena Arena.Grows

variable {spell : Name → String}

mutual

theorem phrase_shows {place : Place} : (p : Phrase) → p.Fits place → {arena : Arena} →
    arena.Sound → (phrase p arena).2.Shows spell [(place, (phrase p arena).1)] [p.tree spell]
  | .block span statements, hfits, arena, hsound => by
      have hgrows := phrases_grows statements hfits.2 hsound
      have hshows := phrases_shows statements hfits.2 hsound
      have hlist := list_addList (phrases statements arena).2 (phrases statements arena).1
      refine (hshows.extend (extends_addList _ _)).add (hgrows.addList _) span
        (inBounds_of_some rfl (stop_addList _ _)) ?_
      exact congrArg (List.map (Place.statement, ·)) hlist
  | .bind span name type none, hfits, arena, hsound =>
      (Shows.nil arena).add (Grows.refl hsound) span (inBounds_of_none rfl) rfl
  | .bind span name type (some value), hfits, arena, hsound => by
      have hgrows := phrase_grows value hfits.2 hsound
      have hshows := phrase_shows value hfits.2 hsound
      exact hshows.add hgrows span (inBounds_of_none rfl) rfl
  | .structureDef span name inputs body, hfits, arena, hsound => by
      have hinputs := phrases_grows inputs hfits.2.1 hsound
      have hlist := list_addList (phrases inputs arena).2 (phrases inputs arena).1
      have hstop := stop_addList (phrases inputs arena).2 (phrases inputs arena).1
      have hadded := hinputs.addList (phrases inputs arena).1
      have hbody := phrase?_grows body hfits.2.2 hadded.sound
      have hlists := hbody.extend.lists.length_le
      have hshows := ((phrases_shows inputs hfits.2.1 hsound).extend
        (extends_addList _ _)).append hbody.extend (phrase?_shows body hfits.2.2 hadded.sound)
      have hkept := (hbody.extend.list_eq hstop).trans hlist
      have hlabel : body.isSome =
          (phrase? body
            ((phrases inputs arena).2.addList (phrases inputs arena).1).2).1.isSome := by
        cases body <;> rfl
      rw [Phrase.tree, hlabel]
      exact hshows.add (hadded.trans hbody) span
        (inBounds_of_some rfl (Nat.le_trans hstop hlists))
        (congrArg (List.map (Place.input, ·) · ++ _) hkept)
  | .property span subject member memberSpan, hfits, arena, hsound => by
      have hsubject := phrase_grows subject hfits.2 hsound
      have hmember : Grows _ [(.member, (add (.memberName member) memberSpan _).1)]
          (add (.memberName member) memberSpan _).2 :=
        (Grows.refl hsubject.sound).add memberSpan (inBounds_of_none rfl) rfl rfl
      have hname : Shows spell _ [(.member, (add (.memberName member) memberSpan _).1)] _ :=
        (Shows.nil _).add (Grows.refl hsubject.sound) memberSpan (inBounds_of_none rfl) rfl
      exact ((phrase_shows subject hfits.2 hsound).append hmember.extend hname).add
        (hsubject.trans hmember) span (inBounds_of_none rfl) rfl
  | .reference span name, hfits, arena, hsound
  | .number span bits, hfits, arena, hsound
  | .text span content, hfits, arena, hsound
  | .boolean span value, hfits, arena, hsound =>
      (Shows.nil arena).add (Grows.refl hsound) span (inBounds_of_none rfl) rfl
  | .evaluate span callee arguments, hfits, arena, hsound => by
      have hcallee := phrase_grows callee hfits.2.1 hsound
      have harguments := phrases_grows arguments hfits.2.2 hcallee.sound
      have hlist := list_addList (phrases arguments (phrase callee arena).2).2
        (phrases arguments (phrase callee arena).2).1
      have hshows := (phrase_shows callee hfits.2.1 hsound).append harguments.extend
        (phrases_shows arguments hfits.2.2 hcallee.sound)
      refine (hshows.extend (extends_addList _ _)).add ((hcallee.trans harguments).addList _) span
        (inBounds_of_some rfl (stop_addList _ _)) ?_
      exact congrArg (fun ids => _ :: List.map (Place.expression, ·) ids) hlist
  | .binary span op left right, hfits, arena, hsound => by
      have hleft := phrase_grows left hfits.2.1 hsound
      have hright := phrase_grows right hfits.2.2 hleft.sound
      exact ((phrase_shows left hfits.2.1 hsound).append hright.extend
        (phrase_shows right hfits.2.2 hleft.sound)).add (hleft.trans hright) span
          (inBounds_of_none rfl) rfl
  | .unary span op operand, hfits, arena, hsound => by
      have hoperand := phrase_grows operand hfits.2 hsound
      exact (phrase_shows operand hfits.2 hsound).add hoperand span (inBounds_of_none rfl) rfl
  | .conditional span condition yes no, hfits, arena, hsound => by
      have hcondition := phrase_grows condition hfits.2.1 hsound
      have hyes := phrase_grows yes hfits.2.2.1 hcondition.sound
      have hno := phrase_grows no hfits.2.2.2 hyes.sound
      have hshows := ((phrase_shows condition hfits.2.1 hsound).append hyes.extend
        (phrase_shows yes hfits.2.2.1 hcondition.sound)).append hno.extend
          (phrase_shows no hfits.2.2.2 hyes.sound)
      exact hshows.add ((hcondition.trans hyes).trans hno) span (inBounds_of_none rfl) rfl

theorem phrase?_shows {place : Place} : (p? : Option Phrase) → Phrase.FitsIfAny place p? →
    {arena : Arena} → arena.Sound →
    (phrase? p? arena).2.Shows spell ((phrase? p? arena).1.toList.map (place, ·))
      (Phrase.tree? spell p?)
  | none, _, arena, _ => .nil arena
  | some p, hfits, _, hsound => phrase_shows p hfits hsound

theorem phrases_shows {place : Place} : (ps : List Phrase) → Phrase.FitAll place ps →
    {arena : Arena} → arena.Sound →
    (phrases ps arena).2.Shows spell ((phrases ps arena).1.map (place, ·)) (Phrase.trees spell ps)
  | [], _, arena, _ => .nil arena
  | p :: rest, hfits, _, hsound =>
      have hfirst := phrase_grows p hfits.1 hsound
      have hrest := phrases_grows rest hfits.2 hfirst.sound
      (phrase_shows p hfits.1 hsound).append hrest.extend (phrases_shows rest hfits.2 hfirst.sound)

end

end Numbering

/-- The tree under a node, names being spelled in a given way. -/
def Source.treeAs (source : Source) (spell : Name → String) (id : NodeId) : Tree :=
  source.arena.treeUpTo spell source.arena.size id

theorem Source.treeUpTo_ofPhrase {span : Span} {statements : List Phrase}
    (h : (Phrase.block span statements).Fits .body) (name text : String) (interner : Interner)
    (spell : Name → String) {depth : Nat}
    (hdepth : (ofPhrase name text (.block span statements) interner).arena.size ≤ depth + 1) :
    (ofPhrase name text (.block span statements) interner).arena.treeUpTo spell depth
        (ofPhrase name text (.block span statements) interner).root =
      (Phrase.block span statements).tree spell := by
  let source := ofPhrase name text (.block span statements) interner
  have hshows : Arena.Shows spell source.arena [(.body, source.root)]
      [(Phrase.block span statements).tree spell] :=
    Numbering.phrase_shows _ h Arena.sound_empty
  have hroot := hshows source.arena (.refl _) depth hdepth
  exact (List.cons.inj hroot).1

theorem Source.treesAs_ofPhrase {span : Span} {statements : List Phrase}
    (h : (Phrase.block span statements).Fits .body) (name text : String) (interner : Interner)
    (spell : Name → String) :
    ((ofPhrase name text (.block span statements) interner).children
        (ofPhrase name text (.block span statements) interner).root).map
      ((ofPhrase name text (.block span statements) interner).treeAs spell) =
      Phrase.trees spell statements := by
  -- The root is one level above the statements, so its tree goes one level deeper.
  let source := ofPhrase name text (.block span statements) interner
  have hdepth : source.arena.size ≤ source.arena.size + 1 + 1 := by omega
  have hroot := treeUpTo_ofPhrase h name text interner spell hdepth
  rw [Arena.treeUpTo, Phrase.tree] at hroot
  exact (Tree.node.inj hroot).2.2

theorem Source.statementTrees_ofPhrase {span : Span} {statements : List Phrase}
    (h : (Phrase.block span statements).Fits .body) (name text : String) (interner : Interner) :
    (ofPhrase name text (.block span statements) interner).statementTrees =
      Phrase.trees interner.lookup statements :=
  treesAs_ofPhrase h name text interner interner.lookup

namespace Likeness

/-- Alike names are spelled the same, and alike offsets are the same so many bytes further on. -/
structure Meets (like : Likeness) (spell spell' : Name → String) (distance distance' : Nat) :
    Prop where
  name : ∀ {n n'}, like.name n n' → spell n = spell' n'
  offset : ∀ {a a'}, like.offset a a' → a + distance = a' + distance'

section Meets

variable {like : Likeness} {spell spell' : Name → String} {distance distance' : Nat}

theorem Meets.span (hlike : like.Meets spell spell' distance distance') {span span' : Span}
    (h : like.AlikeSpan span span') : span.shift distance = span'.shift distance' := by
  rw [Span.shift, Span.shift, hlike.offset h.1, hlike.offset h.2]

theorem Meets.type (hlike : like.Meets spell spell' distance distance')
    {type type' : Option DeclaredType} (h : Option.Rel like.AlikeType type type') :
    type.map (·.spelled spell) = type'.map (·.spelled spell') := by
  cases h with
  | none => rfl
  | some htype =>
      cases htype with
      | text | number | boolean => rfl
      | named h => simp only [Option.map_some, DeclaredType.spelled, hlike.name h]

mutual

/-- Alike phrases have the same tree once they are moved. -/
theorem Meets.tree (hlike : like.Meets spell spell' distance distance') :
    (p p' : Phrase) → like.AlikePhrase p p' →
    (p.tree spell).shift distance = (p'.tree spell').shift distance'
  | .block span statements, .block span' statements', h => by
      simp only [Phrase.tree, Tree.shift, hlike.span h.1, hlike.trees _ _ h.2]
  | .bind span name type value, .bind span' name' type' value', h => by
      simp only [Phrase.tree, Tree.shift, hlike.span h.1, hlike.name h.2.1, hlike.type h.2.2.1,
        hlike.tree? _ _ h.2.2.2]
  | .structureDef span name inputs body, .structureDef span' name' inputs' body', h => by
      have hbody : body.isSome = body'.isSome := by
        have hbody := h.2.2.2
        cases body <;> cases body' <;> first | rfl | exact hbody.elim
      simp only [Phrase.tree, Tree.shift, hlike.span h.1, hlike.name h.2.1,
        hlike.trees _ _ h.2.2.1, hlike.tree? _ _ h.2.2.2, hbody, Tree.shiftAll_append]
  | .property span subject member memberSpan, .property span' subject' member' memberSpan', h => by
      simp only [Phrase.tree, Tree.shift, Tree.shiftAll, hlike.span h.1,
        hlike.tree _ _ h.2.1, hlike.name h.2.2.1, hlike.span h.2.2.2]
  | .reference span name, .reference span' name', h
  | .text span name, .text span' name', h => by
      simp only [Phrase.tree, Tree.shift, Tree.shiftAll, hlike.span h.1, hlike.name h.2]
  | .evaluate span callee arguments, .evaluate span' callee' arguments', h => by
      simp only [Phrase.tree, Tree.shift, Tree.shiftAll, hlike.span h.1,
        hlike.tree _ _ h.2.1, hlike.trees _ _ h.2.2]
  | .number span value, .number span' value', h
  | .boolean span value, .boolean span' value', h => by
      simp only [Phrase.tree, Tree.shift, Tree.shiftAll, hlike.span h.1, h.2]
  | .binary span op left right, .binary span' op' left' right', h => by
      simp only [Phrase.tree, Tree.shift, Tree.shiftAll, hlike.span h.1, h.2.1,
        hlike.tree _ _ h.2.2.1, hlike.tree _ _ h.2.2.2]
  | .unary span op operand, .unary span' op' operand', h => by
      simp only [Phrase.tree, Tree.shift, Tree.shiftAll, hlike.span h.1, h.2.1,
        hlike.tree _ _ h.2.2]
  | .conditional span condition yes no, .conditional span' condition' yes' no', h => by
      simp only [Phrase.tree, Tree.shift, Tree.shiftAll, hlike.span h.1,
        hlike.tree _ _ h.2.1, hlike.tree _ _ h.2.2.1, hlike.tree _ _ h.2.2.2]

theorem Meets.tree? (hlike : like.Meets spell spell' distance distance') :
    (p p' : Option Phrase) → like.AlikePhrase? p p' →
    Tree.shiftAll distance (Phrase.tree? spell p) = Tree.shiftAll distance' (Phrase.tree? spell' p')
  | none, none, _ => rfl
  | some p, some p', h => congrArg (fun tree => [tree]) (hlike.tree p p' h)

theorem Meets.trees (hlike : like.Meets spell spell' distance distance') :
    (ps ps' : List Phrase) → like.AlikePhrases ps ps' →
    Tree.shiftAll distance (Phrase.trees spell ps) =
      Tree.shiftAll distance' (Phrase.trees spell' ps')
  | [], [], _ => rfl
  | p :: rest, p' :: rest', h => by
      simp only [Phrase.trees, Tree.shiftAll, hlike.tree p p' h.1, hlike.trees rest rest' h.2]

end

end Meets

variable {first second : Interner} {distance : Nat}

theorem lookup_eq_of_name {n n' : Name} (h : (spelled first second distance).name n n') :
    first.lookup n = second.lookup n' := by
  obtain ⟨s, hfirst, hsecond⟩ := h
  rw [hfirst.lookup, hsecond.lookup]

/-- The same program has the same trees under other names and further on in a text. -/
theorem trees_eq_shift {ps ps' : List Phrase}
    (h : (spelled first second distance).AlikePhrases ps ps') :
    Phrase.trees second.lookup ps' = Tree.shiftAll distance (Phrase.trees first.lookup ps) := by
  have hlike : (spelled first second distance).Meets first.lookup second.lookup distance 0 :=
    ⟨lookup_eq_of_name, Eq.symm⟩
  rw [hlike.trees ps ps' h, Tree.shiftAll_zero]

end Likeness

namespace Grammar

/-- Alike tokens derive alike statements. -/
theorem Derivation.statements_alike {like : Likeness} {tokens tokens' : Tokens}
    {statements : List Phrase} (d : Derivation .statements tokens statements [])
    (h : like.AlikeTokens tokens tokens') :
    ∃ statements', Nonempty (Derivation .statements tokens' statements' []) ∧
      like.AlikePhrases statements statements' := by
  have hlength := h.length_eq
  have hread : Parser.statements (tokens.length + 1) tokens = .ok (statements, []) :=
    d.accepts List.isEmpty _ _ (fun _ he => .inl (List.isEmpty_iff.mp he)) rfl
      (Nat.lt_succ_self _) (Nat.lt_succ_self _)
  have hresult := Likeness.AlikeReader.statements (tokens.length + 1) tokens tokens' h
  rw [hread] at hresult
  generalize hread' : Parser.statements (tokens.length + 1) tokens' = outcome at hresult
  cases hresult with
  | @ok _ statements' _ rest' hstatements hrest =>
      rw [hlength] at hread'
      have hprogram : Parser.program tokens' 0 = .ok (.block ⟨0, 0⟩ statements') :=
        Parser.program_eq_ok.mpr ⟨statements', rest', hread', rfl⟩
      obtain ⟨e⟩ := program_sound hprogram
      cases e with
      | program e => exact ⟨statements', ⟨e⟩, Likeness.alikePhrases_of_forall₂ hstatements⟩

/-- Tokens derive statements with the given trees. -/
def Spells (tokens : Tokens) (spell : Name → String) (trees : List Tree) : Prop :=
  ∃ statements, Nonempty (Derivation .statements tokens statements []) ∧
    Phrase.trees spell statements = trees

end Grammar

namespace Source

variable {name text : String} {interner first second later : Interner} {source : Source}

/-- A text is read as a program with the given statements if its tokens derive them. -/
theorem exists_parse_iff {trees : List Tree} :
    (∃ source, (parse name text interner).1 = .ok source ∧ source.statementTrees = trees) ↔
      text.utf8ByteSize ≤ maxSourceLength ∧
        (∃ mark, (Lexer.scan 0 true text.toList).outcome = .ok mark) ∧
        Grammar.Spells (interner.nameTokens (tokensOf text)).1
          (interner.nameTokens (tokensOf text)).2.lookup trees := by
  have htrees {statements : List Phrase} {mark : EndMark}
      (d : Grammar.Derivation .statements (interner.nameTokens (tokensOf text)).1 statements []) :
      (ofPhrase name text (.block ⟨0, mark.offset⟩ statements)
        (interner.nameTokens (tokensOf text)).2).statementTrees =
        Phrase.trees (interner.nameTokens (tokensOf text)).2.lookup statements := by
    have hfits : (Phrase.block ⟨0, mark.offset⟩ statements).Fits .body := ⟨rfl, d.fits⟩
    exact statementTrees_ofPhrase hfits name text _
  constructor
  · intro h
    obtain ⟨source, hparse, rfl⟩ := h
    obtain ⟨hsize, mark, statements, hmark, ⟨d⟩, rfl⟩ := parse_eq_ok_iff.mp hparse
    exact ⟨hsize, ⟨mark, hmark⟩, statements, ⟨d⟩, (htrees d).symm⟩
  · intro h
    obtain ⟨hsize, ⟨mark, hmark⟩, statements, ⟨d⟩, rfl⟩ := h
    exact ⟨_, parse_eq_ok_iff.mpr ⟨hsize, mark, statements, hmark, ⟨d⟩, rfl⟩, htrees d⟩

/-- The statements of a text are the same wherever it stands and whatever its names are. -/
theorem spells_elsewhere (h : (parse name text first).1 = .ok source) (hfirst : first.HoldsEmpty)
    (hsecond : second.HoldsEmpty) (distance : Nat)
    (hlater : (second.nameTokens ((tokensOf text).map (·.shift distance))).2.Extends later) :
    Grammar.Spells (second.nameTokens ((tokensOf text).map (·.shift distance))).1 later.lookup
      (source.statementTrees.map (·.shift distance)) := by
  obtain ⟨-, -, statements, ⟨d⟩, htrees⟩ := exists_parse_iff.mp ⟨source, h, rfl⟩
  have halike : (Likeness.spelled _ later distance).AlikeTokens _ _ :=
    Likeness.alikeTokens_nameTokens hfirst hsecond (tokensOf text) (.refl _) hlater
  obtain ⟨statements', d', hstatements⟩ := d.statements_alike halike
  refine ⟨statements', d', ?_⟩
  rw [Likeness.trees_eq_shift hstatements, htrees, Tree.shiftAll_eq_map]

theorem spells_renamed (h : (parse name text first).1 = .ok source) (hfirst : first.HoldsEmpty)
    (hsecond : second.HoldsEmpty) (hlater : (second.nameTokens (tokensOf text)).2.Extends later) :
    Grammar.Spells (second.nameTokens (tokensOf text)).1 later.lookup source.statementTrees := by
  have hmap : (tokensOf text).map (·.shift 0) = tokensOf text := List.map_id _
  rw [← hmap] at hlater
  have hspells := spells_elsewhere h hfirst hsecond 0 hlater
  rw [hmap, ← Tree.shiftAll_eq_map, Tree.shiftAll_zero] at hspells
  exact hspells

end Source
end Bindery
