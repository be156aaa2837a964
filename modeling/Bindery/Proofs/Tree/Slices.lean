import Bindery.Proofs.Grammar.Slices
import Bindery.Proofs.Scope.Visible
import Bindery.Proofs.Token.Slices
import Bindery.Proofs.Tree.Spelled

/-!
Nodes as programs. The text that the span of a node cuts out is read as a program of one statement,
with the same tree as the node has. This holds of all nodes but three kinds: the root, for it is no
statement; the name in a property access; and the inputs of structures that have no value, for there
are no such binds elsewhere.
-/

namespace Bindery

/-- The span cuts the slice out of the text. -/
def Span.Cuts (span : Span) (text slice : String) : Prop :=
  ∃ front back, text = front ++ slice ++ back ∧ front.utf8ByteSize = span.start ∧
    (front ++ slice).utf8ByteSize = span.stop

namespace Likeness

/-- Names are alike if they are the same, and offsets if the second is so many bytes before the
first. -/
def movedBack (distance : Nat) : Likeness where
  name n n' := n = n'
  offset a a' := a = a' + distance
  empty_iff h := by rw [h]
  min := by omega
  max := by omega

theorem alikeTokens_shift (distance : Nat) (tokens : List (Token Name)) :
    (movedBack distance).AlikeTokens (tokens.map (·.shift distance)) tokens := by
  refine List.forall₂_map_left_iff.mpr (List.forall₂_same.mpr fun token _ => ?_)
  refine ⟨?_, ⟨rfl, rfl⟩, fun _ => ⟨rfl, rfl⟩⟩
  obtain ⟨kind, span, layout⟩ := token
  cases kind with
  | identifier name => exact .identifier rfl
  | text content => exact .text rfl
  | number => exact .number
  | symbol => exact .symbol

theorem movedBack_meets (spell : Name → String) (distance : Nat) :
    (movedBack distance).Meets spell spell 0 distance :=
  ⟨fun h => congrArg spell h, id⟩

end Likeness

section Holds

def Tree.label : Tree → Label
  | .node label _ _ => label

def Tree.span : Tree → Span
  | .node _ span _ => span

def Tree.children : Tree → List Tree
  | .node _ _ children => children

/-- The name in a property access, as a tree. -/
def Phrase.memberTrees (spell : Name → String) : Phrase → List Tree
  | .property _ _ member memberSpan => [.node (.memberName (spell member)) memberSpan []]
  | _ => []

theorem Phrase.span_tree (spell : Name → String) (p : Phrase) : (p.tree spell).span = p.span := by
  cases p <;> rfl

theorem Phrase.children_tree (spell : Name → String) (p : Phrase) :
    (p.tree spell).children = p.pieces.map (·.tree spell) ++ p.memberTrees spell := by
  have htree? (p? : Option Phrase) : Phrase.tree? spell p? = p?.toList.map (·.tree spell) := by
    cases p? <;> rfl
  cases p with
  | property => rfl
  | block | bind | structureDef | reference | evaluate | number | text | boolean | binary | unary
  | conditional =>
      simp only [Phrase.tree, Tree.children, pieces, memberTrees, Phrase.trees_eq_map, htree?,
        List.map_append, List.map_cons, List.map_nil, List.append_nil]

theorem Arena.label_treeUpTo (arena : Arena) (spell : Name → String) (depth : Nat) (id : NodeId) :
    (arena.treeUpTo spell depth id).label = (arena.kind id).label spell := by
  cases depth <;> rfl

theorem Arena.span_treeUpTo (arena : Arena) (spell : Name → String) (depth : Nat) (id : NodeId) :
    (arena.treeUpTo spell depth id).span = (arena.node id).span := by
  cases depth <;> rfl

namespace Source

/-- The tree under the node is that of the phrase, however names are spelled. -/
def Holds (source : Source) (id : NodeId) (p : Phrase) : Prop :=
  ∀ spell depth, source.arena.size ≤ depth + 1 →
    source.arena.treeUpTo spell depth id = p.tree spell

namespace Holds

variable {source : Source} {id parent : NodeId} {p : Phrase}

theorem span_eq (h : source.Holds id p) : source.span id = p.span := by
  rw [← p.span_tree source.interner.lookup, ← h _ _ (Nat.le_succ _), Arena.span_treeUpTo]
  rfl

theorem map_children (h : source.Holds parent p) (spell : Name → String) {depth : Nat}
    (hdepth : source.arena.size ≤ depth + 1) :
    (source.children parent).map (source.arena.treeUpTo spell depth) =
      p.pieces.map (·.tree spell) ++ p.memberTrees spell := by
  rw [← p.children_tree, ← h spell (depth + 1) (Nat.le_succ_of_le hdepth)]
  rfl

/-- Under a node stand the pieces of its phrase and, if that is a property access, the name. -/
theorem child (h : source.Holds parent p) (hid : id ∈ source.children parent) :
    (∃ member, source.kind id = .memberName member) ∨ ∃ q ∈ p.pieces, source.Holds id q := by
  obtain ⟨index, hindex⟩ := List.mem_iff_getElem?.mp hid
  have hentry (spell : Name → String) {depth : Nat} (hdepth : source.arena.size ≤ depth + 1) :
      (p.pieces.map (·.tree spell) ++ p.memberTrees spell)[index]? =
        some (source.arena.treeUpTo spell depth id) := by
    rw [← h.map_children spell hdepth, List.getElem?_map, hindex]
    rfl
  by_cases hlt : index < p.pieces.length
  · refine .inr ⟨p.pieces[index], List.getElem_mem hlt, fun spell depth hdepth => ?_⟩
    have hpiece := hentry spell hdepth
    rw [List.getElem?_append_left (by rwa [List.length_map]), List.getElem?_map,
      List.getElem?_eq_getElem hlt] at hpiece
    exact (Option.some.inj hpiece).symm
  · have hmember := hentry source.interner.lookup (Nat.le_succ _)
    rw [List.getElem?_append_right (by rw [List.length_map]; omega)] at hmember
    have hmem := List.mem_of_getElem? hmember
    cases p with
    | property span subject member memberSpan =>
        have hlabel := congrArg Tree.label (List.mem_singleton.mp hmem)
        rw [Arena.label_treeUpTo] at hlabel
        cases hkind : source.kind id with
        | memberName member' => exact .inl ⟨member', rfl⟩
        | block | bind | structureDef | property | reference | evaluate | number | text | boolean
        | binary | unary | conditional =>
            rw [show source.arena.kind id = _ from hkind] at hlabel
            cases hlabel
    | block | bind | structureDef | reference | evaluate | number | text | boolean | binary | unary
    | conditional => exact absurd hmem List.not_mem_nil

/-- The node of a bind without a value has no value. -/
theorem kind_of_unvalued {span : Span} {name : Name} {type : Option DeclaredType}
    (h : source.Holds id (.bind span name type none)) :
    ∃ bind, source.kind id = .bind bind ∧ bind.value = none := by
  have hlabel := congrArg Tree.label (h source.interner.lookup _ (Nat.le_succ _))
  rw [Arena.label_treeUpTo] at hlabel
  have hchildren := h.map_children source.interner.lookup (Nat.le_succ _)
  cases hkind : source.kind id with
  | bind bind =>
      refine ⟨bind, rfl, ?_⟩
      have hnone : bind.value.toList = [] := by
        have hlist : source.children id = bind.value.toList := by
          simp only [Source.children, Arena.children,
            show (source.arena.node id).kind = _ from hkind]
        rw [← hlist]
        exact List.map_eq_nil_iff.mp hchildren
      exact Option.toList_eq_nil_iff.mp hnone
  | block | structureDef | property | memberName | reference | evaluate | number | text | boolean
  | binary | unary | conditional =>
      rw [show source.arena.kind id = _ from hkind] at hlabel
      cases hlabel

end Holds

/-- What passes from phrases to their pieces, and holds of the pieces of the root, holds of the
phrases of all nodes under the root. The names in property accesses have no phrases. -/
theorem WellFormed.exists_held {source : Source} (hsource : source.WellFormed)
    {property : Phrase → Prop} (hinner : ∀ q, property q → ∀ r ∈ q.pieces, property r) {p : Phrase}
    (hroot : source.Holds source.root p) (hpieces : ∀ q ∈ p.pieces, property q) {id : NodeId}
    (hid : id ∈ source.nodes) :
    id = source.root ∨ (∃ member, source.kind id = .memberName member) ∨
      ∃ q, property q ∧ source.Holds id q := by
  have hunder {parent id : NodeId} {p : Phrase} (hid : id ∈ source.children parent)
      (hparent : source.Holds parent p) (hpieces : ∀ q ∈ p.pieces, property q) :
      (∃ member, source.kind id = .memberName member) ∨ ∃ q, property q ∧ source.Holds id q :=
    (hparent.child hid).imp_right fun ⟨q, hq, hholds⟩ => ⟨q, hpieces q hq, hholds⟩
  have hall : ∀ id : NodeId, 0 ≤ id.index → id.index < source.arena.size → id = source.root ∨
      (∃ member, source.kind id = .memberName member) ∨
        ∃ q, property q ∧ source.Holds id q := by
    refine hsource.interval.top_down (fun id hid => .inl (List.mem_singleton.mp hid))
      fun parent id hid hparent => .inr ?_
    rcases hparent with rfl | ⟨member, hmember⟩ | ⟨q, hq, hholds⟩
    · exact hunder hid hroot hpieces
    · simp only [Arena.children, show (source.arena.node parent).kind = _ from hmember,
        List.not_mem_nil] at hid
    · exact hunder hid hholds (hinner q hq)
  exact hall id (Nat.zero_le _) (hsource.mem_nodes_iff.mp hid)

/-- Under a root whose pieces are sliced, every node is, the names in property accesses aside. -/
theorem WellFormed.exists_sliced {source : Source} (hsource : source.WellFormed) {p : Phrase}
    {tokens : Grammar.Tokens} (hroot : source.Holds source.root p)
    (hpieces : ∀ q ∈ p.pieces, Grammar.Sliced tokens q) {id : NodeId} (hid : id ∈ source.nodes) :
    id = source.root ∨ (∃ member, source.kind id = .memberName member) ∨
      ∃ q, Grammar.Sliced tokens q ∧ source.Holds id q := by
  refine hsource.exists_held (fun q hq => ?_) hroot hpieces hid
  cases hq with
  | intro _ hinner => exact hinner

/-- At the root of the source of a text stands the block of all that is derived. -/
theorem holds_root_of_parse {source : Source} {name text : String} {interner : Interner}
    (hparse : (parse name text interner).1 = .ok source) :
    ∃ mark statements, (Lexer.scan 0 true text.toList).outcome = .ok mark ∧
      Nonempty (Grammar.Derivation .statements (interner.nameTokens (tokensOf text)).1
        statements []) ∧
      source.Holds source.root (.block ⟨0, mark.offset⟩ statements) := by
  obtain ⟨-, mark, statements, hmark, ⟨d⟩, rfl⟩ := parse_eq_ok_iff.mp hparse
  exact ⟨mark, statements, hmark, ⟨d⟩, fun spell depth hdepth =>
    treeUpTo_ofPhrase ⟨rfl, d.fits⟩ name text _ spell hdepth⟩

end Source

end Holds

namespace Grammar

theorem ordered_nameTokens (interner : Interner) (text : String) :
    Ordered (interner.nameTokens (tokensOf text)).1 := by
  let InOrder (span later : Span) : Prop := span.start ≤ later.start ∧ span.stop ≤ later.stop
  have hspans : ((tokensOf text).map (·.span)).Pairwise InOrder :=
    List.pairwise_map.mpr (Lexer.pairwise_scan 0 true text.toList)
  rw [← Interner.map_span_nameTokens interner] at hspans
  exact List.pairwise_map.mp hspans

/-- The slice of a text that a span cuts out has the tokens that the span covers. -/
theorem exists_named_slice {text : String} {interner later : Interner} {piece : Tokens}
    {span : Span} (hpiece : piece <:+: (interner.nameTokens (tokensOf text)).1)
    (hspan : Spans piece [] span)
    (hlater : (interner.nameTokens (tokensOf text)).2.Extends later) :
    ∃ slice, span.Cuts text slice ∧ (∃ mark, (Lexer.scan 0 true slice.toList).outcome = .ok mark) ∧
      (later.nameTokens (tokensOf slice)).2 = later ∧
      (later.nameTokens (tokensOf slice)).1.map (·.shift span.start) = atStart piece := by
  obtain ⟨before, written, after, htext, hnamed⟩ := Interner.exists_named_infix hpiece hlater
  have hspans : piece.map (·.span) = written.map (·.span) := by
    rw [← Interner.map_span_nameTokens later, hnamed]
  obtain ⟨used, heq, hfirst, hlast⟩ := hspan
  rw [List.append_nil] at heq
  subst heq
  have hstart : written.head?.map (·.span.start) = some span.start := by
    have hhead := congrArg (·.head?.map Span.start) hspans
    simp only [List.head?_map, Option.map_map] at hhead
    exact hhead.symm.trans hfirst
  have hstop : written.getLast?.map (·.span.stop) = some span.stop := by
    have hend := congrArg (·.getLast?.map Span.stop) hspans
    simp only [List.getLast?_map, Option.map_map] at hend
    exact hend.symm.trans hlast
  obtain ⟨front, slice, back, hsplit, hfront, hslice, hmark, htokens⟩ :=
    Lexer.exists_slice htext hstart hstop
  have hmoved := later.nameTokens_shift span.start (tokensOf slice)
  rw [htokens, Interner.nameTokens_atStart, hnamed] at hmoved
  exact ⟨slice, ⟨front, back, hsplit, hfront, hslice⟩, hmark, (congrArg Prod.snd hmoved).symm,
    (congrArg Prod.fst hmoved).symm⟩

/-- A statement that stands at the start of a text has the same tree further on. -/
theorem Derivation.moved_back {tokens piece : Tokens} {p : Phrase} {distance : Nat}
    (d : Derivation .statements piece [p] [])
    (htokens : tokens.map (·.shift distance) = atStart piece) :
    ∃ statements, Nonempty (Derivation .statements tokens statements []) ∧
      ∀ spell, (Phrase.trees spell statements).map (·.shift distance) = [p.tree spell] := by
  have hstart : Nonempty (Derivation .statements (atStart piece) [p] []) := by
    cases piece with
    | nil => exact ⟨d⟩
    | cons token rest => exact d.statements_relayout .atStart
  obtain ⟨d'⟩ := hstart
  have halike := Likeness.alikeTokens_shift distance tokens
  rw [htokens] at halike
  obtain ⟨statements, hread, hstatements⟩ := d'.statements_alike halike
  refine ⟨statements, hread, fun spell => ?_⟩
  have htrees := (Likeness.movedBack_meets spell distance).trees _ _ hstatements
  rw [Tree.shiftAll_zero, Tree.shiftAll_eq_map] at htrees
  exact htrees.symm

end Grammar

namespace Source

variable {name text : String} {interner later : Interner}

theorem parse_of_isolates {p : Phrase} (hsize : text.utf8ByteSize ≤ maxSourceLength)
    (h : Grammar.Isolates (interner.nameTokens (tokensOf text)).1 p)
    (hlater : (interner.nameTokens (tokensOf text)).2.Extends later) (label : String) :
    ∃ slice, p.span.Cuts text slice ∧
      ∃ again statements statement, parse label slice later = (.ok again, later) ∧
        again.kind again.root = .block statements ∧ again.list statements = [statement] ∧
        ∀ spell, (again.treeAs spell statement).shift p.span.start = p.tree spell := by
  obtain ⟨piece, hpiece, ⟨d⟩, hspan⟩ := h
  obtain ⟨slice, hcuts, ⟨mark, hmark⟩, hkept, htokens⟩ :=
    Grammar.exists_named_slice hpiece hspan hlater
  obtain ⟨statements, ⟨e⟩, htrees⟩ := d.moved_back htokens
  have hslice : slice.utf8ByteSize ≤ maxSourceLength := by
    obtain ⟨front, back, htext, -⟩ := hcuts
    rw [htext, String.utf8ByteSize_append, String.utf8ByteSize_append] at hsize
    omega
  obtain ⟨again, hagain⟩ : ∃ again, again = ofPhrase label slice
      (.block ⟨0, mark.offset⟩ statements) (later.nameTokens (tokensOf slice)).2 := ⟨_, rfl⟩
  have hparse : (parse label slice later).1 = .ok again :=
    parse_eq_ok_iff.mpr ⟨hslice, mark, statements, hmark, ⟨e⟩, hagain⟩
  obtain ⟨range, hblock⟩ := (wellFormed_of_parse hparse).root_kind
  have hfits : (Phrase.block ⟨0, mark.offset⟩ statements).Fits .body := ⟨rfl, e.fits⟩
  have hchildren (spell : Name → String) :
      (again.list range).map (fun id => (again.treeAs spell id).shift p.span.start) =
        [p.tree spell] := by
    rw [← htrees spell, hagain, ← treesAs_ofPhrase hfits, List.map_map, ← hagain,
      WellFormed.children_of_block hblock]
    rfl
  obtain ⟨statement, hstatement, -⟩ := List.map_eq_singleton_iff.mp (hchildren later.lookup)
  refine ⟨slice, hcuts, again, range, statement, ?_, hblock, hstatement, fun spell => ?_⟩
  · have hsnd : (parse label slice later).2 = later := (snd_parse hslice).trans hkept
    rw [← Prod.eta (parse label slice later), hparse, hsnd]
  · have hspell := hchildren spell
    rw [hstatement] at hspell
    exact (List.cons.inj hspell).1

/-- The slice of a text under the span of a node is a program of one statement, and this has the
tree of the node, so many bytes further back: the same kinds, payloads and, since spellings are
arbitrary, the same names. The table of names is that of the text, or has grown from it, and stays
as it is. The nodes left out are the root, the names in property accesses and the inputs without a
value. -/
theorem parse_slice {source : Source} {id : NodeId}
    (hparse : (parse name text interner).1 = .ok source) (hlater : source.interner.Extends later)
    (hid : id ∈ source.nodes) (hroot : id ≠ source.root)
    (hmember : ∀ member, source.kind id ≠ .memberName member)
    (hvalue : ∀ bind, source.kind id = .bind bind → bind.value.isSome = true) (label : String) :
    ∃ slice, (source.span id).Cuts text slice ∧
      ∃ again statements statement, parse label slice later = (.ok again, later) ∧
        again.kind again.root = .block statements ∧ again.list statements = [statement] ∧
        ∀ spell, (again.treeAs spell statement).shift (source.span id).start =
          source.treeAs spell id := by
  have hsource := wellFormed_of_parse hparse
  obtain ⟨hsize, mark, statements, hmark, ⟨d⟩, hofPhrase⟩ := parse_eq_ok_iff.mp hparse
  have hfits : (Phrase.block ⟨0, mark.offset⟩ statements).Fits .body := ⟨rfl, d.fits⟩
  have htop : source.Holds source.root (.block ⟨0, mark.offset⟩ statements) := by
    rw [hofPhrase]
    exact fun spell depth hdepth => treeUpTo_ofPhrase hfits name text _ spell hdepth
  have hsliced := d.sliced (Grammar.ordered_nameTokens interner text)
  have hnode := hsource.exists_sliced htop hsliced hid
  obtain ⟨p, hp, hholds⟩ := (hnode.resolve_left hroot).resolve_left fun ⟨member, h⟩ =>
    hmember member h
  have hisolates : Grammar.Isolates (interner.nameTokens (tokensOf text)).1 p := by
    cases hp with
    | intro hp _ =>
        refine hp.resolve_left fun hunvalued => ?_
        obtain ⟨span, name, type, rfl⟩ := hunvalued
        obtain ⟨bind, hbind, hnone⟩ := hholds.kind_of_unvalued
        have hsome := hvalue bind hbind
        rw [hnone] at hsome
        cases hsome
  have hinterner : source.interner = (interner.nameTokens (tokensOf text)).2 := by
    rw [hofPhrase]
    rfl
  rw [hinterner] at hlater
  have hslice := parse_of_isolates hsize hisolates hlater label
  simp only [← hholds _ _ (Nat.le_succ _), ← hholds.span_eq] at hslice
  exact hslice

/-- The text of a property access, read again with the table of the text that it is from. -/
theorem parse_slice_of_property :
    ∃ source, (parse "<code>" "boomy: Cat('boomy').name" .empty).1 = .ok source ∧
      source.kind ⟨4⟩ = .property ⟨2⟩ ⟨3⟩ ∧
      ∃ slice, (source.span ⟨4⟩).Cuts "boomy: Cat('boomy').name" slice ∧
        ∃ again statements statement,
          parse "<slice>" slice source.interner = (.ok again, source.interner) ∧
          again.kind again.root = .block statements ∧ again.list statements = [statement] ∧
          ∀ spell, (again.treeAs spell statement).shift (source.span ⟨4⟩).start =
            source.treeAs spell ⟨4⟩ := by
  have hfacts : (parse "<code>" "boomy: Cat('boomy').name" .empty).1.toOption.bind
      (fun source => some (source.kind ⟨4⟩, source.root, source.nodes.contains ⟨4⟩)) =
      some (.property ⟨2⟩ ⟨3⟩, ⟨6⟩, true) := by decide +kernel
  obtain ⟨source, hparse, hread⟩ := exists_of_toOption_bind hfacts
  obtain ⟨hkind, hread⟩ := Prod.mk.inj (Option.some.inj hread)
  obtain ⟨hroot, hmem⟩ := Prod.mk.inj hread
  refine ⟨source, hparse, hkind, ?_⟩
  refine parse_slice hparse (.refl _) (List.contains_iff_mem.mp hmem) ?_ (fun member h => ?_)
    (fun bind h => ?_) "<slice>"
  · rw [hroot]
    decide
  · rw [hkind] at h
    cases h
  · rw [hkind] at h
    cases h

end Source

end Bindery
