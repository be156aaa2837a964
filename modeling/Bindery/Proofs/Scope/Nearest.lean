import Bindery.Proofs.Tree.Spans

/-!
The nearest declaration. What is visible at a node has a smaller number and ends before the node
starts, and of two visible definitions the one with the smaller number starts earlier. So the walk
from level to level, the innermost first and each from its end, finds the last visible declaration
of a name in the text.
-/

namespace Bindery

namespace Likeness

/-- Names are alike if they are the same and stand for some string of the table. -/
def namedIn (table : Interner) : Likeness where
  name n n' := n = n' ∧ ∃ s, table.get? s = some n
  offset _ _ := True
  empty_iff h := by rw [h.1]
  min _ _ := trivial
  max _ _ := trivial

variable {like : Likeness} {table : Interner}

theorem alikeKind_namedIn {kind : TokenKind String} {kind' : TokenKind Name}
    (h : table.NamedAs kind kind') : (namedIn table).AlikeKind kind' kind' := by
  cases h with
  | identifier hget => exact .identifier ⟨rfl, _, hget⟩
  | text hget => exact .text ⟨rfl, _, hget⟩
  | number => exact .number
  | symbol => exact .symbol

theorem alikeTokens_namedIn {interner : Interner} (tokens : List (Token String))
    (htable : (interner.nameTokens tokens).2.Extends table) :
    (namedIn table).AlikeTokens (interner.nameTokens tokens).1 (interner.nameTokens tokens).1 := by
  refine List.forall₂_same.mpr fun token htoken => ⟨?_, ⟨trivial, trivial⟩, fun _ => ⟨rfl, rfl⟩⟩
  obtain ⟨_, -, -, -, hnamed⟩ :=
    exists_of_mem_right (Interner.namedAs_nameTokens tokens htable) token htoken
  exact alikeKind_namedIn hnamed

theorem AlikePhrases.of_mem {ps : List Phrase} (h : like.AlikePhrases ps ps) :
    ∀ p ∈ ps, like.AlikePhrase p p := by
  induction ps with
  | nil => exact nofun
  | cons p ps ih => exact List.forall_mem_cons.mpr ⟨h.1, ih h.2⟩

theorem AlikePhrase?.of_mem {p? : Option Phrase} (h : like.AlikePhrase? p? p?) :
    ∀ p ∈ p?.toList, like.AlikePhrase p p := by
  cases p? with
  | none => exact nofun
  | some p => exact List.forall_mem_singleton.mpr h

/-- A phrase that is like itself consists of such phrases. -/
theorem AlikePhrase.pieces {p : Phrase} (h : like.AlikePhrase p p) :
    ∀ q ∈ p.pieces, like.AlikePhrase q q := by
  cases p with
  | block span statements => exact AlikePhrases.of_mem h.2
  | bind span name type value => exact AlikePhrase?.of_mem h.2.2.2
  | structureDef span name inputs body =>
      obtain ⟨-, -, hinputs, hbody⟩ := h
      exact List.forall_mem_append.mpr ⟨AlikePhrases.of_mem hinputs, AlikePhrase?.of_mem hbody⟩
  | property span subject member memberSpan => exact List.forall_mem_singleton.mpr h.2.1
  | evaluate span callee arguments =>
      exact List.forall_mem_cons.mpr ⟨h.2.1, AlikePhrases.of_mem h.2.2⟩
  | binary span op left right =>
      exact List.forall_mem_cons.mpr ⟨h.2.2.1, List.forall_mem_singleton.mpr h.2.2.2⟩
  | unary span op operand => exact List.forall_mem_singleton.mpr h.2.2
  | conditional span condition yes no =>
      obtain ⟨-, hcondition, hyes, hno⟩ := h
      exact List.forall_mem_cons.mpr ⟨hcondition, List.forall_mem_cons.mpr
        ⟨hyes, List.forall_mem_singleton.mpr hno⟩⟩
  | reference | number | text | boolean => exact nofun

end Likeness

/-- The name that a phrase defines. -/
def Phrase.definedName? : Phrase → Option Name
  | .bind _ name _ _ | .structureDef _ name _ _ => some name
  | _ => none

/-- The spelling of the name that a node defines. -/
def Label.defined? : Label → Option String
  | .bind name _ | .structureDef name _ => some name
  | _ => none

theorem Phrase.defined?_tree (spell : Name → String) (p : Phrase) :
    (p.tree spell).label.defined? = p.definedName?.map spell := by
  cases p <;> rfl

/-- A list that ascends is searched from its end: what is found is the greatest that passes. -/
theorem find?_reverse_eq_some_iff {α : Type} {list : List α} {measure : α → Nat} {test : α → Bool}
    (h : list.Pairwise fun a b => measure a < measure b) {a : α} :
    list.reverse.find? test = some a ↔
      a ∈ list ∧ test a = true ∧ ∀ b ∈ list, test b = true → measure b ≤ measure a := by
  have hfound {a : α} (ha : list.reverse.find? test = some a) :
      a ∈ list ∧ test a = true ∧ ∀ b ∈ list, test b = true → measure b ≤ measure a := by
    obtain ⟨htest, before, after, hlist, hbefore⟩ := List.find?_eq_some_iff_append.mp ha
    have hlist : list = after.reverse ++ a :: before.reverse := by
      rw [← list.reverse_reverse, hlist]
      simp only [List.reverse_append, List.reverse_cons, List.append_assoc, List.singleton_append]
    subst hlist
    refine ⟨List.mem_append_right _ List.mem_cons_self, htest, fun b hb hb' => ?_⟩
    rcases List.mem_append.mp hb with hb | hb
    · exact Nat.le_of_lt ((List.pairwise_append.mp h).2.2 b hb a List.mem_cons_self)
    · rcases List.mem_cons.mp hb with rfl | hb
      · exact Nat.le_refl _
      · have hnot := hbefore b (List.mem_reverse.mp hb)
        rw [hb'] at hnot
        cases hnot
  refine ⟨hfound, fun ⟨hmem, htest, hgreatest⟩ => ?_⟩
  have hsome : (list.reverse.find? test).isSome = true :=
    List.find?_isSome.mpr ⟨a, List.mem_reverse.mpr hmem, htest⟩
  obtain ⟨b, hb⟩ := Option.isSome_iff_exists.mp hsome
  obtain ⟨hmem', htest', hgreatest'⟩ := hfound hb
  have hle := hgreatest b hmem' htest'
  have hle' := hgreatest' a hmem htest
  obtain ⟨i, hi, rfl⟩ := List.mem_iff_getElem.mp hmem
  obtain ⟨j, hj, rfl⟩ := List.mem_iff_getElem.mp hmem'
  have hascends := List.pairwise_iff_getElem.mp h
  rcases Nat.lt_trichotomy i j with hlt | rfl | hlt
  · exact absurd (hascends i j hi hj hlt) (Nat.not_lt.mpr hle)
  · exact hb
  · exact absurd (hascends j i hj hi hlt) (Nat.not_lt.mpr hle')

namespace Source

variable {source : Source} {id : NodeId}

theorem defined?_label (spell : Name → String) (id : NodeId) :
    ((source.kind id).label spell).defined? = (source.definedName? id).map spell := by
  rw [definedName?]
  cases source.kind id <;> rfl

theorem Holds.definedName?_eq {p : Phrase} (h : source.Holds id p) :
    source.definedName? id = p.definedName? := by
  -- Spelled so, no two names look the same.
  let spell (name : Name) : String := .ofList (.replicate name.index 'a')
  have hspell {name name' : Name} (hsame : spell name = spell name') : name = name' := by
    have hlength := congrArg (·.toList.length) hsame
    simp only [spell, String.toList_ofList, List.length_replicate] at hlength
    cases name
    cases name'
    exact congrArg Name.mk hlength
  have hmap : (source.definedName? id).map spell = p.definedName?.map spell := by
    rw [← defined?_label, ← p.defined?_tree, ← h spell _ (Nat.le_succ _), Arena.label_treeUpTo]
    rfl
  cases hdefined : source.definedName? id with
  | none =>
      rw [hdefined] at hmap
      exact (Option.map_eq_none_iff.mp hmap.symm).symm
  | some name =>
      rw [hdefined] at hmap
      obtain ⟨name', hname', hsame⟩ := Option.map_eq_some_iff.mp hmap.symm
      rw [hname', hspell hsame]

section Parsed

variable {name text : String} {interner : Interner}

theorem interner_of_parse (hparse : (parse name text interner).1 = .ok source) :
    source.interner = (interner.nameTokens (tokensOf text)).2 := by
  obtain ⟨-, mark, statements, -, -, rfl⟩ := parse_eq_ok_iff.mp hparse
  rfl

/-- What is defined in a text has a name that the table gives to a string. -/
theorem exists_get?_of_definedName? (hparse : (parse name text interner).1 = .ok source)
    {defined : Name} (hdefined : source.definedName? id = some defined) :
    ∃ s, source.interner.get? s = some defined := by
  have hsource := wellFormed_of_parse hparse
  obtain ⟨mark, statements, -, ⟨d⟩, hroot⟩ := holds_root_of_parse hparse
  have htokens := Likeness.alikeTokens_namedIn (tokensOf text)
    (Interner.Extends.refl (interner.nameTokens (tokensOf text)).2)
  rw [← interner_of_parse hparse] at htokens
  obtain ⟨statements', ⟨d'⟩, halike⟩ := d.statements_alike htokens
  obtain ⟨rfl, -⟩ := d.unique d'
  have hid : id ∈ source.nodes := by
    refine hsource.mem_nodes_iff.mpr (Nat.lt_of_not_le fun hle => ?_)
    rw [definedName?, show source.kind id = _ from Arena.kind_of_le hle] at hdefined
    cases hdefined
  rcases hsource.exists_held (fun q hq => hq.pieces) hroot halike.of_mem hid with
    rfl | ⟨member, hmember⟩ | ⟨q, hq, hholds⟩
  · rw [hroot.definedName?_eq] at hdefined
    cases hdefined
  · rw [definedName?, hmember] at hdefined
    cases hdefined
  · rw [hholds.definedName?_eq] at hdefined
    cases q with
    | bind | structureDef =>
        cases hdefined
        exact hq.2.1.2
    | block | property | reference | evaluate | number | text | boolean | binary | unary
    | conditional => cases hdefined

end Parsed

namespace WellFormed

variable {tokens : Grammar.Tokens} {definition further : Definition}

theorem stop_le_start_of_visible (h : source.WellFormed) (hrows : source.InRows tokens)
    (hvisible : definition ∈ source.visible id) :
    (source.span definition.node).stop ≤ (source.span id).start := by
  have hapart := h.apart_of_mem_definitionsInScope (mem_definitionsInScope_iff.mpr hvisible)
  have hsize : id.index < source.arena.size := by
    obtain ⟨-, outer, hmem, hlt⟩ := h.visible_before id definition hvisible
    exact Nat.lt_trans hlt (lt_size_of_mem_children hmem)
  have hbefore := hrows.apart h h.interval (List.pairwise_singleton _ _) (Nat.zero_le _)
    (h.index_lt_of_visible hvisible) hsize
  exact hbefore.resolve_left hapart.2.2

/-- Visible definitions are listed in the order of their numbers, those from further out first. -/
theorem visible_ascending (h : source.WellFormed) :
    ∀ id, (source.visible id).Pairwise fun definition further =>
      definition.node.index < further.node.index := by
  refine h.top_down (fun id hparent => ?_) fun parent id hid ih => ?_
  · rw [visible_of_parent?_eq_none hparent]
    exact .nil
  · have hshown {shown : List NodeId} (hvisibility : source.visibility parent id = .collect shown ∨
        source.visibility parent id = .stop shown) :
        (shown.filterMap source.definition?).Pairwise fun definition further =>
          definition.node.index < further.node.index := by
      obtain ⟨after, hchildren⟩ := children_eq_append hid hvisibility
      have hascending := h.ascending parent
      rw [hchildren] at hascending
      refine List.pairwise_filterMap.mpr ((List.pairwise_append.mp hascending).1.imp ?_)
      intro child child' hlt definition hdefinition further hfurther
      rw [node_of_definition? hdefinition, node_of_definition? hfurther]
      exact hlt
    cases hvisibility : source.visibility parent id with
    | collect shown =>
        rw [h.visible_of_collect hid hvisibility]
        refine List.pairwise_append.mpr ⟨ih, hshown (.inl hvisibility), ?_⟩
        intro definition hvisible further hfurther
        -- What is seen from further out stands before everything under the parent.
        obtain ⟨⟨first, hinterval, hlt⟩, -⟩ := h.visible_before parent definition hvisible
        obtain ⟨after, hchildren⟩ := children_eq_append hid (.inl hvisibility)
        have hsibling : further.node ∈ source.children parent := by
          rw [hchildren]
          exact List.mem_append_left _ (node_mem_of_mem_filterMap hfurther)
        exact Nat.lt_of_lt_of_le hlt (hinterval.bounds hsibling).1
    | proceed =>
        rw [h.visible_of_proceed hid hvisibility]
        exact ih
    | stop shown =>
        rw [h.visible_of_stop hid hvisibility]
        exact hshown (.inr hvisibility)
    | hidden =>
        rw [h.visible_of_hidden hid hvisibility]
        exact .nil

/-- Of two visible definitions none is inside the other. -/
theorem not_under_of_visible (h : source.WellFormed) (hvisible : definition ∈ source.visible id)
    (hvisible' : further ∈ source.visible id) :
    ¬ source.Under further.node definition.node := by
  intro hunder
  obtain ⟨-, outer, hmem, hlt⟩ := h.visible_before id definition hvisible
  have hlt' := h.index_lt_of_visible hvisible'
  rcases (h.under_iff_of_mem_children hmem).mp hunder with heq | hunder
  · rw [heq] at hlt'
    exact Nat.lt_asymm hlt hlt'
  · have := h.index_lt_of_under hunder
    omega

/-- Visible definitions with smaller numbers start earlier. -/
theorem index_le_iff_of_visible (h : source.WellFormed) (hrows : source.InRows tokens)
    (hvisible : definition ∈ source.visible id) (hvisible' : further ∈ source.visible id) :
    definition.node.index ≤ further.node.index ↔
      (source.span definition.node).start ≤ (source.span further.node).start := by
  have hstart {definition further : Definition} (hvisible : definition ∈ source.visible id)
      (hvisible' : further ∈ source.visible id)
      (hlt : definition.node.index < further.node.index) :
      (source.span definition.node).start < (source.span further.node).start := by
    have hbefore := hrows.apart h h.interval (List.pairwise_singleton _ _) (Nat.zero_le _) hlt
      (h.lt_size_of_visible hvisible')
    have hstop := hbefore.resolve_left (h.not_under_of_visible hvisible hvisible')
    obtain ⟨-, outer, hmem, -⟩ := h.visible_before id definition hvisible
    exact Nat.lt_of_lt_of_le (hrows.child hmem).2.1 hstop
  refine ⟨fun hle => ?_, fun hle => Nat.le_of_not_lt fun hlt => ?_⟩
  · rcases Nat.eq_or_lt_of_le hle with heq | hlt
    · exact Nat.le_of_eq (congrArg (fun node => (source.span node).start) (NodeId.ext heq))
    · exact Nat.le_of_lt (hstart hvisible hvisible' hlt)
  · exact absurd (hstart hvisible' hvisible hlt) (Nat.not_lt.mpr hle)

end WellFormed

section Named

/-- The source once its table of names, which it shares with others, has grown. -/
def withNames (source : Source) (later : Interner) : Source := { source with interner := later }

/-- The definition is in scope at the position, and the text is that of its name. -/
def DeclaredAs (source : Source) (position : NodeId) (s : String) (definition : Definition) :
    Prop :=
  definition ∈ source.definitionsInScope position ∧
    ∃ name, source.definedName? definition.node = some name ∧ source.nameText name = s

variable {later : Interner} {position : NodeId} {s : String} {definition : Definition}

theorem ancestors_withNames (id : NodeId) :
    (source.withNames later).ancestors id = source.ancestors id := by
  have hupTo (budget : Nat) (id : NodeId) :
      (source.withNames later).ancestorsUpTo budget id = source.ancestorsUpTo budget id := by
    induction budget generalizing id with
    | zero => rfl
    | succ budget ih => simp only [ancestorsUpTo, ih]; rfl
  exact hupTo _ id

theorem levels_withNames (id : NodeId) :
    (source.withNames later).levels id = source.levels id := by
  have halong (child : NodeId) (path : List NodeId) :
      (source.withNames later).levelsAlong child path = source.levelsAlong child path := by
    induction path generalizing child with
    | nil => rfl
    | cons ancestor further ih => simp only [levelsAlong, ih]; rfl
  rw [levels, levels, ancestors_withNames, halong]

theorem definitionsInScope_withNames (id : NodeId) :
    (source.withNames later).definitionsInScope id = source.definitionsInScope id := by
  rw [definitionsInScope, definitionsInScope, levels_withNames]

theorem definitionOf?_withNames (id : NodeId) (name : Name) :
    (source.withNames later).definitionOf? id name = source.definitionOf? id name := by
  rw [definitionOf?, definitionOf?, levels_withNames]
  rfl

/-- Every name that the source defines is the name that the table gives to some string. -/
def NamedIn (source : Source) (table : Interner) : Prop :=
  ∀ id defined, source.definedName? id = some defined → ∃ s, table.get? s = some defined

theorem NamedIn.get?_eq (h : source.NamedIn later) {defined : Name}
    (hdefined : source.definedName? id = some defined) (hlookup : later.lookup defined = s) :
    later.get? s = some defined := by
  obtain ⟨s', hget⟩ := h id defined hdefined
  rw [← hlookup, Interner.lookup_of_get? hget]
  exact hget

/-- A string finds the definitions whose names the table gives to it. -/
theorem declaredAs_iff (h : source.NamedIn later) :
    (source.withNames later).DeclaredAs position s definition ↔
      definition ∈ source.visible position ∧
        ∃ name, later.get? s = some name ∧ source.definedName? definition.node = some name := by
  rw [DeclaredAs, definitionsInScope_withNames, mem_definitionsInScope_iff]
  refine and_congr_right fun _ => exists_congr fun name => ?_
  constructor
  · rintro ⟨hdefined, hlookup⟩
    exact ⟨h.get?_eq hdefined hlookup, hdefined⟩
  · rintro ⟨hget, hdefined⟩
    exact ⟨hdefined, Interner.lookup_of_get? hget⟩

theorem definitionNamed?_withNames :
    (source.withNames later).definitionNamed? position s =
      (later.get? s).bind (source.definitionOf? position) := by
  rw [definitionNamed?, show (source.withNames later).interner = later from rfl]
  cases later.get? s with
  | none => rfl
  | some name => exact definitionOf?_withNames position name

theorem definitionNamed?_eq_some_iff (hsource : source.WellFormed) (h : source.NamedIn later) :
    (source.withNames later).definitionNamed? position s = some definition ↔
      (source.withNames later).DeclaredAs position s definition ∧
        ∀ further, (source.withNames later).DeclaredAs position s further →
          further.node.index ≤ definition.node.index := by
  simp only [declaredAs_iff h, definitionNamed?_withNames]
  cases later.get? s with
  | none => simp
  | some name =>
      simp only [Option.bind_some, definitionOf?_eq, Option.some.injEq, exists_eq_left',
        find?_reverse_eq_some_iff (hsource.visible_ascending position), beq_iff_eq, and_assoc,
        and_imp]

theorem definitionNamed?_eq_none_iff (h : source.NamedIn later) :
    (source.withNames later).definitionNamed? position s = none ↔
      ∀ definition, ¬ (source.withNames later).DeclaredAs position s definition := by
  simp only [declaredAs_iff h, definitionNamed?_withNames]
  cases later.get? s with
  | none => simp
  | some name => simp [definitionOf?_eq]

/-- A name that is new to the table defines nothing. -/
theorem definitionOf?_intern (h : source.NamedIn later) (hnone : later.get? s = none) :
    source.definitionOf? position (later.intern s).1 = none := by
  have hnew : (later.intern s).1 = ⟨later.strings.size⟩ := by rw [Interner.intern, hnone]
  rw [definitionOf?_eq, List.find?_eq_none]
  intro definition _ hdefined
  obtain ⟨s', hget⟩ := h definition.node _ (eq_of_beq hdefined)
  have hlt := Interner.index_intern_lt later s'
  rw [Interner.intern, hget, hnew] at hlt
  exact Nat.lt_irrefl _ hlt

end Named

/-- How a string is resolved at a position of a source. -/
structure FindsNearest (source : Source) (position : NodeId) (s : String) : Prop where
  none_iff : source.definitionNamed? position s = none ↔
    ∀ definition, ¬ source.DeclaredAs position s definition
  some_iff : ∀ definition, source.definitionNamed? position s = some definition ↔
    source.DeclaredAs position s definition ∧
      ∀ further, source.DeclaredAs position s further →
        further.node.index ≤ definition.node.index
  /-- The greatest number is that of the last one in the text. -/
  last_iff : ∀ definition, source.definitionNamed? position s = some definition ↔
    source.DeclaredAs position s definition ∧
      ∀ further, source.DeclaredAs position s further →
        (source.span further.node).start ≤ (source.span definition.node).start
  before : ∀ definition, source.definitionNamed? position s = some definition →
    definition.node.index < position.index ∧
      (source.span definition.node).stop ≤ (source.span position).start
  /-- The string is resolved as its name is, be the name given to it only then. -/
  interned : source.definitionNamed? position s =
    source.definitionOf? position (source.interner.intern s).1
  unnamed : source.interner.get? s = none → source.definitionNamed? position s = none

variable {name text : String} {interner later : Interner}

/-- Every definition in scope at a node of the source of a text has a smaller number than the node,
and it ends before the node starts. -/
theorem definitionsInScope_before (hparse : (parse name text interner).1 = .ok source)
    (position : NodeId) : ∀ definition ∈ source.definitionsInScope position,
      definition.node.index < position.index ∧
        (source.span definition.node).stop ≤ (source.span position).start := by
  intro definition hmem
  have hsource := wellFormed_of_parse hparse
  obtain ⟨-, hrows⟩ := inRows_of_parse hparse
  have hvisible := mem_definitionsInScope_iff.mp hmem
  exact ⟨hsource.index_lt_of_visible hvisible, hsource.stop_le_start_of_visible hrows hvisible⟩

/-- Definitions around and inside the default and the body of a structure. -/
theorem definitionsInScope_before_of_structure :
    ∃ source, (parse "<code>" "a: 1\n•P(x y: (b: x\nb)) (z: y\nz)\nP(a).z" .empty).1 = .ok source ∧
      ∀ position, ∀ definition ∈ source.definitionsInScope position,
        definition.node.index < position.index ∧
          (source.span definition.node).stop ≤ (source.span position).start := by
  obtain ⟨source, h⟩ : ∃ source,
      (parse "<code>" "a: 1\n•P(x y: (b: x\nb)) (z: y\nz)\nP(a).z" .empty).1 = .ok source :=
    exists_of_isOk (by decide +kernel)
  exact ⟨source, h, definitionsInScope_before h⟩

/-- A string is resolved to the last definition before the position that is in scope there under
this string. The table of names may have grown since the text was read. -/
theorem definitionNamed?_nearest (hparse : (parse name text interner).1 = .ok source)
    (hlater : source.interner.Extends later) (position : NodeId) (s : String) :
    (source.withNames later).FindsNearest position s := by
  have hsource := wellFormed_of_parse hparse
  obtain ⟨-, hrows⟩ := inRows_of_parse hparse
  have hnamed : source.NamedIn later := fun id defined hdefined => by
    obtain ⟨s, hget⟩ := exists_get?_of_definedName? hparse hdefined
    exact ⟨s, hlater.get? hget⟩
  have hvisible {definition : Definition}
      (h : (source.withNames later).DeclaredAs position s definition) :
      definition ∈ source.visible position := ((declaredAs_iff hnamed).mp h).1
  refine ⟨definitionNamed?_eq_none_iff hnamed,
    fun definition => definitionNamed?_eq_some_iff hsource hnamed, fun definition => ?_,
    fun definition hfound => ?_, ?_, fun hnone => ?_⟩
  · rw [definitionNamed?_eq_some_iff hsource hnamed]
    refine and_congr_right fun hdeclared => forall_congr' fun further => ?_
    exact imp_congr_right fun hfurther =>
      hsource.index_le_iff_of_visible hrows (hvisible hfurther) (hvisible hdeclared)
  · have hdeclared := ((definitionNamed?_eq_some_iff hsource hnamed).mp hfound).1
    exact ⟨hsource.index_lt_of_visible (hvisible hdeclared),
      hsource.stop_le_start_of_visible hrows (hvisible hdeclared)⟩
  · rw [definitionNamed?_withNames, definitionOf?_withNames,
      show (source.withNames later).interner = later from rfl]
    cases hget : later.get? s with
    | none => exact (definitionOf?_intern hnamed hget).symm
    | some name =>
        rw [Interner.intern, hget]
        rfl
  · rw [definitionNamed?_withNames, show later.get? s = none from hnone]
    rfl

/-- A name that is declared twice, with a table that has grown since. -/
theorem definitionNamed?_nearest_of_shadowing :
    ∃ source, (parse "<code>" "x: 1\ny: (x: 2\nx)\nx: y\nx" .empty).1 = .ok source ∧
      source.interner.Extends (source.interner.intern "z").2 ∧
      ∀ position, (source.withNames (source.interner.intern "z").2).FindsNearest position "x" := by
  obtain ⟨source, h⟩ : ∃ source,
      (parse "<code>" "x: 1\ny: (x: 2\nx)\nx: y\nx" .empty).1 = .ok source :=
    exists_of_isOk (by decide +kernel)
  have hgrown := Interner.extends_intern source.interner "z"
  exact ⟨source, h, hgrown, fun position => definitionNamed?_nearest h hgrown position "x"⟩

end Source
end Bindery
