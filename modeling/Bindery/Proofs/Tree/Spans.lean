import Bindery.Proofs.Grammar.Rows
import Bindery.Proofs.Token.Munch
import Bindery.Proofs.Tree.Layout
import Bindery.Proofs.Tree.Slices

/-!
Where nodes stand in the text. The children of a node stand one after the other within the span of
the node, and the root spans the whole text. So of two nodes, the one is under the other, or it ends
before the other starts.
-/

namespace Bindery

/-- Of two fronts of a text, the shorter one is a front of the longer one. -/
theorem exists_eq_append_of_le {front rest front' rest' : String}
    (h : front ++ rest = front' ++ rest') (hle : front.utf8ByteSize ≤ front'.utf8ByteSize) :
    ∃ slice, front' = front ++ slice := by
  have hlists := congrArg String.toList h
  rw [String.toList_append, String.toList_append] at hlists
  rcases List.append_eq_append_iff.mp hlists with ⟨further, hfront, -⟩ | ⟨further, hfront, -⟩
  · refine ⟨.ofList further, ?_⟩
    rw [← String.toList_inj, String.toList_append, hfront, String.toList_ofList]
  · have heq : front = front' ++ .ofList further := by
      rw [← String.toList_inj, String.toList_append, hfront, String.toList_ofList]
    rw [heq, String.utf8ByteSize_append] at hle
    have hnone : String.ofList further = "" := String.utf8ByteSize_eq_zero_iff.mp (by omega)
    exact ⟨"", by rw [heq, hnone, String.append_empty, String.append_empty]⟩

theorem Lexer.Reads.row {offset : Nat} {first : Bool} {text : List Char}
    {tokens : List (Token String)} {mark : EndMark} (h : Reads offset first text tokens mark)
    {whole : Grammar.Tokens} (hwhole : ∀ token ∈ tokens, Grammar.Bounds whole token.span) :
    Grammar.Row whole offset (tokens.map (·.span)) mark.offset := by
  induction h with
  | done => exact .nil (Nat.le_add_right _ _)
  | @token offset first gap word kind back layout tokens mark _ _ hlongest _ ih =>
      obtain ⟨hbounds, hlater⟩ := List.forall_mem_cons.mp hwhole
      exact .cons (Nat.le_add_right _ _) (Nat.lt_add_of_pos_right hlongest.1.utf8Length_pos) hbounds
        (ih hlater)

namespace Grammar

/-- The tokens of a text bound themselves, under whatever names. -/
theorem row_nameTokens {text : String} {mark : EndMark} (interner : Interner)
    (hmark : (Lexer.scan 0 true text.toList).outcome = .ok mark) :
    Row (interner.nameTokens (tokensOf text)).1 0
      ((interner.nameTokens (tokensOf text)).1.map (·.span)) mark.offset := by
  have hspans := Interner.map_span_nameTokens interner (tokensOf text)
  rw [hspans]
  refine (Lexer.reads_of_scan hmark).row fun token htoken => ?_
  have hmem : token.span ∈ (interner.nameTokens (tokensOf text)).1.map (·.span) := by
    rw [hspans]
    exact List.mem_map_of_mem htoken
  obtain ⟨named, hnamed, hspan⟩ := List.mem_map.mp hmem
  exact ⟨⟨named, hnamed, congrArg Span.start hspan⟩, ⟨named, hnamed, congrArg Span.stop hspan⟩⟩

theorem exists_cut_of_mem {text : String} {mark : EndMark} {interner : Interner}
    {token : Token Name} (hmark : (Lexer.scan 0 true text.toList).outcome = .ok mark)
    (htoken : token ∈ (interner.nameTokens (tokensOf text)).1) :
    ∃ word, token.span.Cuts text word := by
  have hspan := List.mem_map_of_mem (f := (·.span)) htoken
  rw [Interner.map_span_nameTokens] at hspan
  obtain ⟨written, hwritten, hspan⟩ := List.mem_map.mp hspan
  obtain ⟨front, word, back, htext, hstart, hstop, -⟩ :=
    (Lexer.reads_of_scan hmark).exists_piece written hwritten
  rw [Nat.zero_add, hspan] at hstart hstop
  refine ⟨.ofList word, .ofList front, .ofList back, ?_, ?_, ?_⟩
  · rw [← String.toList_inj, htext]
    simp only [String.toList_append, String.toList_ofList, List.append_assoc]
  · rw [utf8ByteSize_ofList, hstart]
  · rw [String.utf8ByteSize_append, utf8ByteSize_ofList, utf8ByteSize_ofList, hstop]

/-- Where tokens bound a span, boundaries of characters do. -/
theorem Bounds.exists_cut {text : String} {mark : EndMark} {interner : Interner} {span : Span}
    (hmark : (Lexer.scan 0 true text.toList).outcome = .ok mark)
    (h : Bounds (interner.nameTokens (tokensOf text)).1 span) (hlt : span.start < span.stop) :
    ∃ slice, slice ≠ "" ∧ span.Cuts text slice := by
  obtain ⟨⟨first, hfirst, hstart⟩, last, hlast, hstop⟩ := h
  obtain ⟨word, front, back, htext, hfront, -⟩ := exists_cut_of_mem hmark hfirst
  obtain ⟨word', front', back', htext', -, hword'⟩ := exists_cut_of_mem hmark hlast
  rw [hstart] at hfront
  rw [hstop] at hword'
  rw [String.append_assoc] at htext
  obtain ⟨slice, hslice⟩ := exists_eq_append_of_le (htext.symm.trans htext') (by omega)
  rw [hslice] at htext' hword'
  refine ⟨slice, fun hempty => ?_, front, back', htext', hfront, hword'⟩
  rw [hempty, String.append_empty] at hword'
  omega

end Grammar

namespace Source

variable {source : Source} {parent id : NodeId}

theorem Holds.map_span_children {p : Phrase} (h : source.Holds parent p) :
    (source.children parent).map source.span = p.extents := by
  have htrees := congrArg (List.map Tree.span)
    (h.map_children source.interner.lookup (Nat.le_succ _))
  have hspan (depth : Nat) : Tree.span ∘ source.arena.treeUpTo source.interner.lookup depth =
      source.span := funext fun id => source.arena.span_treeUpTo _ depth id
  have hspan' : Tree.span ∘ Phrase.tree source.interner.lookup = Phrase.span :=
    funext fun p => p.span_tree _
  rw [List.map_map, hspan, List.map_append, List.map_map, hspan'] at htrees
  rw [htrees]
  cases p <;> simp [Phrase.extents, Phrase.pieces, Phrase.memberTrees, Tree.span]

/-- The children of a node stand in a row within the span of the node, the ends of their spans being
ends of tokens. -/
def InRows (source : Source) (tokens : Grammar.Tokens) : Prop :=
  ∀ parent id, id ∈ source.children parent → Grammar.Row tokens (source.span parent).start
    ((source.children parent).map source.span) (source.span parent).stop

namespace InRows

variable {tokens : Grammar.Tokens}

theorem child (h : source.InRows tokens) (hid : id ∈ source.children parent) :
    (source.span parent).start ≤ (source.span id).start ∧
      (source.span id).start < (source.span id).stop ∧
      (source.span id).stop ≤ (source.span parent).stop ∧ Grammar.Bounds tokens (source.span id) :=
  (h parent id hid).within _ (List.mem_map_of_mem hid)

theorem pairwise (h : source.InRows tokens) (parent : NodeId) :
    ((source.children parent).map source.span).Pairwise fun span later =>
      span.stop ≤ later.start := by
  cases hchildren : source.children parent with
  | nil => exact .nil
  | cons id others =>
      rw [← hchildren]
      exact (h parent id (hchildren ▸ List.mem_cons_self)).pairwise

theorem under (h : source.InRows tokens) (hunder : source.Under parent id) :
    (source.span parent).start ≤ (source.span id).start ∧
      (source.span id).stop ≤ (source.span parent).stop := by
  obtain ⟨child, between, hchild, hleads⟩ := hunder
  induction hleads generalizing parent with
  | here =>
      obtain ⟨hstart, -, hstop, -⟩ := h.child hchild
      exact ⟨hstart, hstop⟩
  | down hmem _ ih =>
      obtain ⟨hstart, -, hstop, -⟩ := h.child hchild
      obtain ⟨hstart', hstop'⟩ := ih hmem
      exact ⟨Nat.le_trans hstart hstart', Nat.le_trans hstop' hstop⟩

/-- Of two nodes under roots in a row, the earlier one is under the later one, or it ends before the
later one starts. -/
theorem apart (h : source.InRows tokens) (hsource : source.WellFormed) {low high : Nat}
    {roots : List NodeId} (hinterval : source.arena.Interval low roots high)
    (hroots : (roots.map source.span).Pairwise fun span later => span.stop ≤ later.start)
    {id later : NodeId} (hlow : low ≤ id.index) (hlt : id.index < later.index)
    (hhigh : later.index < high) :
    source.Under later id ∨ (source.span id).stop ≤ (source.span later).start := by
  induction hinterval with
  | nil => omega
  | @cons low root roots high below beside ihbelow ihbeside =>
      obtain ⟨hroot, hroots⟩ := List.pairwise_cons.mp hroots
      have hunder {node : NodeId} : source.Under root node ↔
          low ≤ node.index ∧ node.index < root.index := hsource.under_iff_of_interval below
      rcases Nat.lt_trichotomy later.index root.index with hbelow | hlast | hbeside
      · exact ihbelow (h.pairwise root) hlow hbelow
      · cases NodeId.ext hlast
        exact .inl (hunder.mpr ⟨hlow, hlt⟩)
      · by_cases hid : id.index ≤ root.index
        · refine .inr ?_
          -- The root stands around the one node, and one of the later roots around the other.
          have hstop : (source.span id).stop ≤ (source.span root).stop := by
            rcases Nat.eq_or_lt_of_le hid with heq | hbelow
            · exact Nat.le_of_eq (congrArg (fun node => (source.span node).stop) (NodeId.ext heq))
            · exact (h.under (hunder.mpr ⟨hlow, hbelow⟩)).2
          have hstart : (source.span root).stop ≤ (source.span later).start := by
            refine beside.top_down (motive := fun node =>
              (source.span root).stop ≤ (source.span node).start)
              (fun other hother => hroot _ (List.mem_map_of_mem hother))
              (fun parent child hchild hparent => ?_) later hbeside hhigh
            exact Nat.le_trans hparent (h.child hchild).1
          exact Nat.le_trans hstop hstart
        · exact ihbeside hroots (by omega) hhigh

end InRows

variable {name text : String} {interner : Interner}

/-- The root of the source of a text spans the text, and its nodes stand in rows. -/
theorem inRows_of_parse (hparse : (parse name text interner).1 = .ok source) :
    source.span source.root = ⟨0, text.utf8ByteSize⟩ ∧
      source.InRows (interner.nameTokens (tokensOf text)).1 := by
  have hsource := wellFormed_of_parse hparse
  obtain ⟨mark, statements, hmark, ⟨d⟩, hroot⟩ := holds_root_of_parse hparse
  obtain ⟨hrow, hlaid⟩ := d.laid (Grammar.row_nameTokens interner hmark) nofun
  have hoffset := Lexer.offset_of_scan hmark
  rw [Nat.zero_add, utf8Length_toList] at hoffset
  refine ⟨by rw [hroot.span_eq, ← hoffset]; rfl, fun parent id hid => ?_⟩
  have hlaid' : Grammar.Laid (interner.nameTokens (tokensOf text)).1
      (.block ⟨0, mark.offset⟩ statements) :=
    .intro (hrow.sublist (List.sublist_append_left _ _)) hlaid
  have hheld : ∃ q, Grammar.Laid (interner.nameTokens (tokensOf text)).1 q ∧
      source.Holds parent q := by
    have hparent := hsource.mem_nodes_iff.mpr (WellFormed.lt_size_of_mem_children hid)
    have hinner : ∀ q, Grammar.Laid (interner.nameTokens (tokensOf text)).1 q →
        ∀ r ∈ q.pieces, Grammar.Laid (interner.nameTokens (tokensOf text)).1 r := by
      intro q hq
      cases hq with
      | intro _ hpieces => exact hpieces
    rcases hsource.exists_held hinner hroot hlaid hparent with rfl | ⟨member, hmember⟩ | hheld
    · exact ⟨_, hlaid', hroot⟩
    · exact absurd (by rw [hmember]; rfl) (WellFormed.shape_of_mem_children hid)
    · exact hheld
  obtain ⟨q, hq, hholds⟩ := hheld
  rw [hholds.map_span_children, hholds.span_eq]
  cases hq with
  | intro hrow _ => exact hrow

/-- How the nodes of a source stand in its text. -/
structure Spanned (source : Source) (text : String) (tokens : List (Token Name)) : Prop where
  root : source.span source.root = ⟨0, text.utf8ByteSize⟩
  bounds : ∀ id ∈ source.nodes,
    (source.span id).start ≤ (source.span id).stop ∧ (source.span id).stop ≤ text.utf8ByteSize
  start : ∀ id ∈ source.nodes, id ≠ source.root →
    ∃ token ∈ tokens, token.span.start = (source.span id).start
  stop : ∀ id ∈ source.nodes, id ≠ source.root →
    ∃ token ∈ tokens, token.span.stop = (source.span id).stop
  /-- Both ends are boundaries of characters, with some characters between them. -/
  cut : ∀ id ∈ source.nodes, id ≠ source.root →
    ∃ slice, slice ≠ "" ∧ (source.span id).Cuts text slice
  within : ∀ parent, ∀ child ∈ source.children parent,
    (source.span parent).start ≤ (source.span child).start ∧
      (source.span child).stop ≤ (source.span parent).stop
  ordered : ∀ parent, (source.children parent).Pairwise fun child later =>
    (source.span child).start < (source.span later).start ∧
      (source.span child).stop ≤ (source.span later).start
  /-- Spans of two nodes overlap only where the one node is under the other. -/
  laminar : ∀ id ∈ source.nodes, ∀ later ∈ source.nodes, id.index < later.index →
    source.Under later id ∨ (source.span id).stop ≤ (source.span later).start

/-- The spans of the source of a text are laminar: the root spans the whole text, the children of a
node stand in their order within its span, and each node but the root goes from the start of a token
to the end of one. -/
theorem spanned_of_parse (hparse : (parse name text interner).1 = .ok source) :
    ∃ list, (lex text interner).1 = .ok list ∧ source.Spanned text list.tokens := by
  have hsource := wellFormed_of_parse hparse
  obtain ⟨hspan, hrows⟩ := inRows_of_parse hparse
  obtain ⟨hsize, mark, -, hmark, -, -⟩ := parse_eq_ok_iff.mp hparse
  refine ⟨⟨(interner.nameTokens (tokensOf text)).1, mark⟩, ?_, ?_⟩
  · rw [lex_eq interner hsize, hmark]
    rfl
  have hbelow {id : NodeId} (hid : id ∈ source.nodes) (hne : id ≠ source.root) :
      source.Under source.root id :=
    ((hsource.numbered.reachable id).mp (hsource.mem_nodes_iff.mp hid)).resolve_left hne
  have hplaced {id : NodeId} (hid : id ∈ source.nodes) (hne : id ≠ source.root) :
      (source.span id).start < (source.span id).stop ∧
        Grammar.Bounds (interner.nameTokens (tokensOf text)).1 (source.span id) := by
    obtain ⟨parent, hparent⟩ := hsource.exists_unique_parent (hsource.mem_nodes_iff.mp hid) hne
    obtain ⟨-, hlt, -, hbounds⟩ := hrows.child ((hparent parent).mpr rfl)
    exact ⟨hlt, hbounds⟩
  exact {
    root := hspan
    bounds := fun id hid => by
      by_cases hroot : id = source.root
      · rw [hroot, hspan]
        exact ⟨Nat.zero_le _, Nat.le_refl _⟩
      · obtain ⟨-, hstop⟩ := hrows.under (hbelow hid hroot)
        rw [hspan] at hstop
        exact ⟨Nat.le_of_lt (hplaced hid hroot).1, hstop⟩
    start := fun id hid hne => (hplaced hid hne).2.1
    stop := fun id hid hne => (hplaced hid hne).2.2
    cut := fun id hid hne => (hplaced hid hne).2.exists_cut hmark (hplaced hid hne).1
    within := fun parent child hchild => by
      obtain ⟨hstart, -, hstop, -⟩ := hrows.child hchild
      exact ⟨hstart, hstop⟩
    ordered := fun parent => by
      refine (List.pairwise_map.mp (hrows.pairwise parent)).imp_of_mem fun hchild _ hle => ?_
      exact ⟨Nat.lt_of_lt_of_le (hrows.child hchild).2.1 hle, hle⟩
    laminar := fun id _ later hlater hlt => by
      refine hrows.apart hsource hsource.interval ?_ (Nat.zero_le _) hlt
        (hsource.mem_nodes_iff.mp hlater)
      exact List.pairwise_singleton _ _ }

/-- Spans of a structure with a default, a body and a property access, in a text with a character of
two bytes. -/
theorem spanned_of_parse_of_structure :
    ∃ source,
      (parse "<code>" "•Cup(tea: 'thé') (tea)\nCup().tea" .empty).1 = .ok source ∧
      ∃ list, (lex "•Cup(tea: 'thé') (tea)\nCup().tea" .empty).1 = .ok list ∧
        source.Spanned "•Cup(tea: 'thé') (tea)\nCup().tea" list.tokens := by
  obtain ⟨source, h⟩ : ∃ source,
      (parse "<code>" "•Cup(tea: 'thé') (tea)\nCup().tea" .empty).1 = .ok source :=
    exists_of_isOk (by decide +kernel)
  exact ⟨source, h, spanned_of_parse h⟩

end Source
end Bindery
