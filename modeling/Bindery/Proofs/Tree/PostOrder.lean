import Bindery.Proofs.Tree.Place
import Bindery.Proofs.Tree.Traversal

/-!
Numbering puts a tree into an arena in post-order. Whatever is numbered leaves alone what the arena
holds already and takes the next numbers, a tree its own stretch of them that ends with its root.
-/

namespace Bindery
namespace Arena

variable {arena : Arena}

/-- `arena.Interval low ids high`: the nodes of the trees under `ids` are numbered in post-order,
from `low` up to, and without, `high`. -/
inductive Interval (arena : Arena) : Nat → List NodeId → Nat → Prop
  | nil {low} : arena.Interval low [] low
  | cons {low id ids high} : arena.Interval low (arena.children id) id.index →
      arena.Interval (id.index + 1) ids high → arena.Interval low (id :: ids) high

namespace Interval

variable {low middle high : Nat} {ids ids' : List NodeId}

theorem le (h : arena.Interval low ids high) : low ≤ high := by
  induction h with
  | nil => exact Nat.le_refl _
  | cons _ _ below beside => omega

theorem append (h : arena.Interval low ids middle) (h' : arena.Interval middle ids' high) :
    arena.Interval low (ids ++ ids') high := by
  induction h with
  | nil => exact h'
  | cons below _ _ ih => exact .cons below (ih h')

theorem split (h : arena.Interval low (ids ++ ids') high) :
    ∃ middle, arena.Interval low ids middle ∧ arena.Interval middle ids' high := by
  induction ids generalizing low with
  | nil => exact ⟨low, .nil, h⟩
  | cons id ids ih =>
      cases h with
      | cons below beside =>
          obtain ⟨middle, hids, hids'⟩ := ih beside
          exact ⟨middle, .cons below hids, hids'⟩

theorem bounds (h : arena.Interval low ids high) {id : NodeId} (hid : id ∈ ids) :
    low ≤ id.index ∧ id.index < high := by
  induction h with
  | nil => cases hid
  | cons below beside _ ih =>
      have := below.le
      have := beside.le
      rcases List.mem_cons.mp hid with rfl | hid
      · omega
      · have := ih hid
        omega

/-- Every node of an interval ends an interval of its own, which holds what is under it. -/
theorem children (h : arena.Interval low ids high) {id : NodeId} (hlow : low ≤ id.index)
    (hhigh : id.index < high) :
    ∃ first, low ≤ first ∧ arena.Interval first (arena.children id) id.index := by
  induction h with
  | nil => omega
  | @cons low root ids high below beside ihbelow ihbeside =>
      by_cases hroot : id = root
      · subst hroot
        exact ⟨low, Nat.le_refl _, below⟩
      · have hne : id.index ≠ root.index := fun heq => hroot (NodeId.ext heq)
        by_cases hlt : id.index < root.index
        · exact ihbelow hlow hlt
        · obtain ⟨first, hfirst, hchildren⟩ := ihbeside (by omega) hhigh
          have := below.le
          exact ⟨first, by omega, hchildren⟩

/-- What holds at the roots, and at a child whenever at its parent, holds at all nodes of an
interval. -/
theorem top_down (h : arena.Interval low ids high) {motive : NodeId → Prop}
    (top : ∀ id ∈ ids, motive id)
    (down : ∀ parent, ∀ id ∈ arena.children parent, motive parent → motive id) :
    ∀ id : NodeId, low ≤ id.index → id.index < high → motive id := by
  induction h with
  | nil => omega
  | @cons low root ids high below beside ihbelow ihbeside =>
      intro id hlow hhigh
      have hroot := top root (List.mem_cons_self ..)
      by_cases heq : id = root
      · exact heq ▸ hroot
      · have hne : id.index ≠ root.index := fun h => heq (NodeId.ext h)
        by_cases hlt : id.index < root.index
        · exact ihbelow (fun child hchild => down root child hchild hroot) id hlow hlt
        · exact ihbeside (fun other hother => top other (List.mem_cons_of_mem _ hother)) id
            (by omega) hhigh

theorem traversal (h : arena.Interval low ids high) :
    ∃ nodes, arena.Traversal ids nodes ∧ nodes.Nodup ∧
      ∀ id, id ∈ nodes ↔ low ≤ id.index ∧ id.index < high := by
  induction h with
  | nil =>
      refine ⟨[], .nil, List.nodup_nil, fun id => ⟨fun hid => absurd hid List.not_mem_nil, ?_⟩⟩
      omega
  | @cons low root ids high below beside ihbelow ihbeside =>
      obtain ⟨under, hunder, hnodup, hmem⟩ := ihbelow
      obtain ⟨others, hothers, hnodup', hmem'⟩ := ihbeside
      have := below.le
      have := beside.le
      refine ⟨root :: (under ++ others), .cons hunder hothers, ?_, fun id => ?_⟩
      · refine List.nodup_cons.mpr ⟨fun hroot => ?_, List.nodup_append.mpr
          ⟨hnodup, hnodup', fun id hid id' hid' heq => ?_⟩⟩
        · rcases List.mem_append.mp hroot with hroot | hroot
          · have := (hmem root).mp hroot
            omega
          · have := (hmem' root).mp hroot
            omega
        · have := (hmem id).mp hid
          have := (hmem' id').mp hid'
          rw [heq] at *
          omega
      · rw [List.mem_cons, List.mem_append, hmem, hmem', NodeId.ext_iff]
        omega

end Interval

/-- The later arena holds what the earlier one holds, under the same numbers. -/
structure Extends (before after : Arena) : Prop where
  nodes : before.nodes.toList <+: after.nodes.toList
  lists : before.lists.toList <+: after.lists.toList

namespace Extends

variable {before middle after : Arena}

theorem refl (arena : Arena) : arena.Extends arena := ⟨List.prefix_refl _, List.prefix_refl _⟩

theorem trans (h : before.Extends middle) (h' : middle.Extends after) : before.Extends after :=
  ⟨h.nodes.trans h'.nodes, h.lists.trans h'.lists⟩

theorem size_le (h : before.Extends after) : before.size ≤ after.size := h.nodes.length_le

theorem node_eq (h : before.Extends after) {id : NodeId} (hid : id.index < before.size) :
    after.node id = before.node id := by
  obtain ⟨added, hadded⟩ := h.nodes
  have hlt : id.index < before.nodes.toList.length := hid
  simp only [node]
  rw [← Array.getElem?_toList, ← Array.getElem?_toList, ← hadded,
    List.getElem?_append_left hlt]

theorem kind_eq (h : before.Extends after) {id : NodeId} (hid : id.index < before.size) :
    after.kind id = before.kind id := by
  rw [kind, kind, h.node_eq hid]

theorem list_eq (h : before.Extends after) {range : NodeRange}
    (hrange : range.stop ≤ before.lists.size) : after.list range = before.list range := by
  obtain ⟨added, hadded⟩ := h.lists
  have hstop : range.stop ≤ before.lists.toList.length := hrange
  simp only [list, Array.toList_extract, ← hadded, List.extract_eq_take_drop]
  simp only [NodeRange.stop] at *
  rw [List.drop_append_of_le_length (by omega), List.take_append_of_le_length]
  rw [List.length_drop]
  omega

end Extends

end Arena

def NodeKind.range? : NodeKind → Option NodeRange
  | .block statements => some statements
  | .structureDef definition => some definition.inputs
  | .evaluate _ arguments => some arguments
  | _ => none

namespace Arena

theorem Extends.placements_eq {before after : Arena} (h : before.Extends after) {kind : NodeKind}
    (hkind : ∀ range, kind.range? = some range → range.stop ≤ before.lists.size) :
    after.placements kind = before.placements kind := by
  cases kind with
  | block statements => simp only [placements, h.list_eq (hkind statements rfl)]
  | structureDef definition => simp only [placements, h.list_eq (hkind definition.inputs rfl)]
  | evaluate callee arguments => simp only [placements, h.list_eq (hkind arguments rfl)]
  | bind | property | memberName | reference | number | text | boolean | binary | unary
  | conditional => rfl

/-- The window of a node is within the flat list, and its children are nodes of the arena that fit
their places. -/
structure SoundAt (arena : Arena) (id : NodeId) : Prop where
  inBounds : ∀ range, (arena.kind id).range? = some range → range.stop ≤ arena.lists.size
  below : ∀ child ∈ arena.placements (arena.kind id), child.2.index < arena.size
  fits : arena.NodeFits id

def Sound (arena : Arena) : Prop := ∀ id, arena.SoundAt id

theorem kind_of_le {arena : Arena} {id : NodeId} (hid : arena.size ≤ id.index) :
    arena.kind id = .block .empty := by
  rw [kind, node, Array.getElem?_eq_none hid]
  rfl

theorem soundAt_of_le {arena : Arena} {id : NodeId} (hid : arena.size ≤ id.index) :
    arena.SoundAt id := by
  have hkind : arena.kind id = .block .empty := kind_of_le hid
  have hnone : arena.placements (arena.kind id) = [] := by
    rw [hkind]
    simp [placements, list, NodeRange.empty, NodeRange.stop]
  refine ⟨fun range hrange => ?_, ?_, ?_⟩
  · rw [hkind] at hrange
    cases hrange
    exact Nat.zero_le _
  · rw [hnone]
    exact fun child hchild => absurd hchild List.not_mem_nil
  · rw [NodeFits, hnone]
    exact fun child hchild => absurd hchild List.not_mem_nil

theorem sound_empty : Arena.empty.Sound := fun _ => soundAt_of_le (Nat.zero_le _)

/-- Only the added nodes of an extension can be unsound. -/
theorem Extends.sound {before after : Arena} (h : before.Extends after) (hsound : before.Sound)
    (hadded : ∀ id : NodeId, before.size ≤ id.index → id.index < after.size → after.SoundAt id) :
    after.Sound := by
  intro id
  by_cases hold : id.index < before.size
  · have hkind := h.kind_eq hold
    have hplacements := h.placements_eq (hsound id).inBounds
    have hsize := h.size_le
    refine ⟨fun range hrange => ?_, fun child hchild => ?_, fun child hchild => ?_⟩
    · rw [hkind] at hrange
      have hle := (hsound id).inBounds range hrange
      have := h.lists.length_le
      simp only [Array.length_toList] at this
      omega
    · rw [hkind, hplacements] at hchild
      have := (hsound id).below child hchild
      omega
    · rw [hkind, hplacements] at hchild
      rw [h.kind_eq ((hsound id).below child hchild)]
      exact (hsound id).fits child hchild
  · by_cases hnew : id.index < after.size
    · exact hadded id (Nat.le_of_not_lt hold) hnew
    · exact soundAt_of_le (Nat.le_of_not_lt hnew)

theorem Extends.children_eq {before after : Arena} (h : before.Extends after)
    (hsound : before.Sound) {id : NodeId} (hid : id.index < before.size) :
    after.children id = before.children id := by
  rw [children_eq_map_placements, children_eq_map_placements, h.kind_eq hid,
    h.placements_eq (hsound id).inBounds]

theorem Interval.extend {before after : Arena} (h : before.Extends after) (hsound : before.Sound)
    {low high : Nat} {ids : List NodeId} (hids : before.Interval low ids high)
    (hhigh : high ≤ before.size) : after.Interval low ids high := by
  induction hids with
  | nil => exact .nil
  | @cons low id ids high below beside ihbelow ihbeside =>
      have := beside.le
      refine .cons ?_ (ihbeside hhigh)
      rw [h.children_eq hsound (by omega)]
      exact ihbelow (by omega)

/-- What a step of numbering does: the arena keeps what it holds, and the numbers that it gains are
those of the trees under some nodes, which fit their places. -/
structure Grows (before : Arena) (placed : List (Place × NodeId)) (after : Arena) : Prop where
  extend : before.Extends after
  sound : after.Sound
  interval : after.Interval before.size (placed.map Prod.snd) after.size
  admits : ∀ child ∈ placed, child.1.admits (after.kind child.2).shape = true

namespace Grows

variable {before middle after : Arena} {placed placed' : List (Place × NodeId)}

theorem refl (h : before.Sound) : before.Grows [] before :=
  ⟨.refl before, h, .nil, fun _ hchild => absurd hchild List.not_mem_nil⟩

theorem index_lt (h : before.Grows placed after) {child : Place × NodeId}
    (hchild : child ∈ placed) : child.2.index < after.size :=
  (h.interval.bounds (List.mem_map.mpr ⟨child, hchild, rfl⟩)).2

theorem trans (h : before.Grows placed middle) (h' : middle.Grows placed' after) :
    before.Grows (placed ++ placed') after := by
  refine ⟨h.extend.trans h'.extend, h'.sound, ?_, fun child hchild => ?_⟩
  · rw [List.map_append]
    exact (h.interval.extend h'.extend h.sound (Nat.le_refl _)).append h'.interval
  · rcases List.mem_append.mp hchild with hchild | hchild
    · rw [h'.extend.kind_eq (h.index_lt hchild)]
      exact h.admits child hchild
    · exact h'.admits child hchild

theorem extends_addList (arena : Arena) (ids : List NodeId) :
    arena.Extends (arena.addList ids).2 := by
  refine ⟨List.prefix_refl _, ids, ?_⟩
  simp only [addList, Array.toList_appendList]

theorem list_addList (arena : Arena) (ids : List NodeId) :
    (arena.addList ids).2.list (arena.addList ids).1 = ids := by
  simp only [addList, list, NodeRange.stop, Array.toList_extract, List.extract_eq_take_drop,
    Array.toList_appendList]
  rw [← Array.length_toList, List.drop_left, Nat.add_sub_cancel_left, List.take_length]

theorem stop_addList (arena : Arena) (ids : List NodeId) :
    (arena.addList ids).1.stop ≤ (arena.addList ids).2.lists.size := by
  have hlength : (arena.lists ++ ids).size = arena.lists.size + ids.length := by
    rw [← Array.length_toList, Array.toList_appendList, List.length_append, Array.length_toList]
  exact Nat.le_of_eq hlength.symm

theorem addList (h : before.Grows placed after) (ids : List NodeId) :
    before.Grows placed (after.addList ids).2 := by
  have hextend := extends_addList after ids
  refine ⟨h.extend.trans hextend, hextend.sound h.sound fun id hle hlt => ?_,
    h.interval.extend hextend h.sound (Nat.le_refl _), h.admits⟩
  exact absurd hlt (Nat.not_lt_of_le hle)

theorem extends_add (arena : Arena) (node : Node) : arena.Extends (arena.add node).2 := by
  refine ⟨⟨[node], ?_⟩, List.prefix_refl _⟩
  simp only [add, Array.toList_push]

theorem node_add (arena : Arena) (node : Node) :
    (arena.add node).2.node (arena.add node).1 = node := by
  simp only [add, Arena.node, Array.getElem?_push_size, Option.getD_some]

theorem kind_add (arena : Arena) (node : Node) :
    (arena.add node).2.kind (arena.add node).1 = node.kind := by
  rw [kind, node_add]

theorem size_add (arena : Arena) (node : Node) : (arena.add node).2.size = arena.size + 1 :=
  Array.size_push _

theorem index_lt_size_add (arena : Arena) (node : Node) :
    (arena.add node).1.index < (arena.add node).2.size := by
  rw [size_add]
  exact Nat.lt_succ_self _

theorem eq_of_lt_size_add {arena : Arena} {node : Node} {id : NodeId}
    (hle : arena.size ≤ id.index) (hlt : id.index < (arena.add node).2.size) :
    id = (arena.add node).1 := by
  rw [size_add] at hlt
  exact NodeId.ext (Nat.le_antisymm (Nat.le_of_lt_succ hlt) hle)

/-- A node that is added above the trees under its children ends their interval. -/
theorem add (h : before.Grows placed after) {kind : NodeKind} (span : Span)
    (hrange : ∀ range, kind.range? = some range → range.stop ≤ after.lists.size)
    (hplaced : after.placements kind = placed) {place : Place}
    (hplace : place.admits kind.shape = true) :
    before.Grows [(place, (after.add ⟨kind, span⟩).1)] (after.add ⟨kind, span⟩).2 := by
  have hextend := extends_add after ⟨kind, span⟩
  have hkind := kind_add after ⟨kind, span⟩
  have hplacements : (after.add ⟨kind, span⟩).2.placements kind = placed := by
    rw [hextend.placements_eq hrange, hplaced]
  refine ⟨h.extend.trans hextend, hextend.sound h.sound fun id hle hlt => ?_, ?_,
    fun child hchild => ?_⟩
  · obtain rfl := eq_of_lt_size_add hle hlt
    refine ⟨?_, ?_, ?_⟩
    · rw [hkind]
      exact hrange
    · rw [hkind, hplacements]
      intro child hchild
      rw [size_add]
      exact Nat.lt_succ_of_lt (h.index_lt hchild)
    · rw [NodeFits, hkind, hplacements]
      intro child hchild
      rw [hextend.kind_eq (h.index_lt hchild)]
      exact h.admits child hchild
  · refine .cons ?_ ?_
    · rw [children_eq_map_placements, hkind, hplacements]
      exact h.interval.extend hextend h.sound (Nat.le_refl _)
    · rw [size_add]
      exact .nil
  · rw [List.mem_singleton] at hchild
    subst hchild
    rw [hkind]
    exact hplace

end Grows

end Arena

namespace Numbering
open Arena Arena.Grows

theorem inBounds_of_none {kind : NodeKind} {size : Nat} (h : kind.range? = none) :
    ∀ range, kind.range? = some range → range.stop ≤ size := by
  intro range hrange
  rw [h] at hrange
  cases hrange

theorem inBounds_of_some {kind : NodeKind} {size : Nat} {window : NodeRange}
    (h : kind.range? = some window) (hwindow : window.stop ≤ size) :
    ∀ range, kind.range? = some range → range.stop ≤ size := by
  intro range hrange
  rw [h] at hrange
  cases hrange
  exact hwindow

mutual

theorem phrase_grows {place : Place} : (p : Phrase) → p.Fits place → {arena : Arena} →
    arena.Sound → arena.Grows [(place, (phrase p arena).1)] (phrase p arena).2
  | .block span statements, hfits, arena, hsound => by
      have hstatements := phrases_grows statements hfits.2 hsound
      have hlist := list_addList (phrases statements arena).2 (phrases statements arena).1
      refine (hstatements.addList _).add span (inBounds_of_some rfl (stop_addList _ _)) ?_ hfits.1
      exact congrArg (List.map (Place.statement, ·)) hlist
  | .bind span name type none, hfits, arena, hsound =>
      (Grows.refl hsound).add span (inBounds_of_none rfl) rfl hfits.1
  | .bind span name type (some value), hfits, arena, hsound => by
      have hvalue := phrase_grows value hfits.2 hsound
      exact hvalue.add span (inBounds_of_none rfl) rfl hfits.1
  | .structureDef span name inputs body, hfits, arena, hsound => by
      have hinputs := phrases_grows inputs hfits.2.1 hsound
      have hlist := list_addList (phrases inputs arena).2 (phrases inputs arena).1
      have hstop := stop_addList (phrases inputs arena).2 (phrases inputs arena).1
      have hadded := hinputs.addList (phrases inputs arena).1
      have hbody := phrase?_grows body hfits.2.2 hadded.sound
      have hlists := hbody.extend.lists.length_le
      refine (hadded.trans hbody).add span (inBounds_of_some rfl (Nat.le_trans hstop hlists)) ?_
        hfits.1
      have hkept := (hbody.extend.list_eq hstop).trans hlist
      exact congrArg (List.map (Place.input, ·) · ++ _) hkept
  | .property span subject member memberSpan, hfits, arena, hsound => by
      have hsubject := phrase_grows subject hfits.2 hsound
      have hmember : Grows _ [(.member, (add (.memberName member) memberSpan _).1)]
          (add (.memberName member) memberSpan _).2 :=
        (Grows.refl hsubject.sound).add memberSpan (inBounds_of_none rfl) rfl rfl
      exact (hsubject.trans hmember).add span (inBounds_of_none rfl) rfl hfits.1
  | .reference span name, hfits, arena, hsound
  | .number span bits, hfits, arena, hsound
  | .text span content, hfits, arena, hsound
  | .boolean span value, hfits, arena, hsound =>
      (Grows.refl hsound).add span (inBounds_of_none rfl) rfl hfits
  | .evaluate span callee arguments, hfits, arena, hsound => by
      have hcallee := phrase_grows callee hfits.2.1 hsound
      have harguments := phrases_grows arguments hfits.2.2 hcallee.sound
      have hlist := list_addList (phrases arguments (phrase callee arena).2).2
        (phrases arguments (phrase callee arena).2).1
      refine ((hcallee.trans harguments).addList _).add span
        (inBounds_of_some rfl (stop_addList _ _)) ?_ hfits.1
      exact congrArg (fun ids => _ :: List.map (Place.expression, ·) ids) hlist
  | .binary span op left right, hfits, arena, hsound => by
      have hleft := phrase_grows left hfits.2.1 hsound
      have hright := phrase_grows right hfits.2.2 hleft.sound
      exact (hleft.trans hright).add span (inBounds_of_none rfl) rfl hfits.1
  | .unary span op operand, hfits, arena, hsound => by
      have hoperand := phrase_grows operand hfits.2 hsound
      exact hoperand.add span (inBounds_of_none rfl) rfl hfits.1
  | .conditional span condition yes no, hfits, arena, hsound => by
      have hcondition := phrase_grows condition hfits.2.1 hsound
      have hyes := phrase_grows yes hfits.2.2.1 hcondition.sound
      have hno := phrase_grows no hfits.2.2.2 hyes.sound
      exact ((hcondition.trans hyes).trans hno).add span (inBounds_of_none rfl) rfl hfits.1

theorem phrase?_grows {place : Place} : (p? : Option Phrase) → Phrase.FitsIfAny place p? →
    {arena : Arena} → arena.Sound →
    arena.Grows ((phrase? p? arena).1.toList.map (place, ·)) (phrase? p? arena).2
  | none, _, _, hsound => .refl hsound
  | some p, hfits, _, hsound => phrase_grows p hfits hsound

theorem phrases_grows {place : Place} : (ps : List Phrase) → Phrase.FitAll place ps →
    {arena : Arena} → arena.Sound →
    arena.Grows ((phrases ps arena).1.map (place, ·)) (phrases ps arena).2
  | [], _, _, hsound => .refl hsound
  | p :: rest, hfits, _, hsound =>
      have hfirst := phrase_grows p hfits.1 hsound
      hfirst.trans (phrases_grows rest hfits.2 hfirst.sound)

end

end Numbering
end Bindery
