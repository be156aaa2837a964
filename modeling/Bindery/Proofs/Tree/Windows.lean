import Bindery.Proofs.Tree.PostOrder

/-!
The windows of an arena's flat list. A list of children joins the flat list at its end, and right
after that, or after the body of its structure, a node with that window is added. So the windows of
the nodes lie side by side, in an order of their own, and make up the whole flat list.
-/

namespace Bindery

/-- The windows lie side by side, from `low` up to, and without, `high`. -/
inductive NodeRange.SideBySide : Nat → List NodeRange → Nat → Prop
  | nil {low} : SideBySide low [] low
  | cons {low length windows high} : SideBySide (low + length) windows high →
      SideBySide low (⟨low, length⟩ :: windows) high

/-- No position is in both windows. -/
def NodeRange.Apart (range other : NodeRange) : Prop :=
  range.stop ≤ other.start ∨ other.stop ≤ range.start

theorem NodeRange.Apart.symm {range other : NodeRange} (h : range.Apart other) :
    other.Apart range :=
  Or.symm h

namespace NodeRange.SideBySide

variable {low middle high : Nat} {windows windows' : List NodeRange}

theorem le (h : SideBySide low windows high) : low ≤ high := by
  induction h with
  | nil => exact Nat.le_refl _
  | cons _ ih => omega

theorem append (h : SideBySide low windows middle) (h' : SideBySide middle windows' high) :
    SideBySide low (windows ++ windows') high := by
  induction h with
  | nil => exact h'
  | cons _ ih => exact .cons (ih h')

theorem bounds (h : SideBySide low windows high) {range : NodeRange} (hrange : range ∈ windows) :
    low ≤ range.start ∧ range.stop ≤ high := by
  induction h with
  | nil => cases hrange
  | @cons low length windows high beside ih =>
      rcases List.mem_cons.mp hrange with rfl | hrange
      · exact ⟨Nat.le_refl _, beside.le⟩
      · have := ih hrange
        omega

theorem pairwise (h : SideBySide low windows high) : windows.Pairwise NodeRange.Apart := by
  induction h with
  | nil => exact .nil
  | cons beside ih => exact .cons (fun range hrange => .inl (beside.bounds hrange).1) ih

theorem cover (h : SideBySide low windows high) {position : Nat} (hlow : low ≤ position)
    (hhigh : position < high) :
    ∃ range ∈ windows, range.start ≤ position ∧ position < range.stop := by
  induction h with
  | nil => omega
  | @cons low length windows high beside ih =>
      by_cases hin : position < low + length
      · exact ⟨⟨low, length⟩, List.mem_cons_self, hlow, hin⟩
      · obtain ⟨range, hrange, hposition⟩ := ih (by omega) hhigh
        exact ⟨range, List.mem_cons_of_mem _ hrange, hposition⟩

end NodeRange.SideBySide

namespace Arena

open NodeRange

/-- The windows of the nodes, in the order of the nodes' numbers. -/
def windows (arena : Arena) : List NodeRange := arena.nodes.toList.filterMap (·.kind.range?)

/-- Each node with a window has it to itself, and the windows are the whole flat list. -/
structure Partitioned (arena : Arena) : Prop where
  inBounds : ∀ id range, (arena.kind id).range? = some range → range.stop ≤ arena.lists.size
  apart : ∀ id id' range range', id ≠ id' → (arena.kind id).range? = some range →
    (arena.kind id').range? = some range' → range.Apart range'
  cover : ∀ position, position < arena.lists.size →
    ∃ id range, id.index < arena.size ∧ (arena.kind id).range? = some range ∧
      range.start ≤ position ∧ position < range.stop

/-- What a step of numbering does to the windows: those of the nodes that it adds, and those that no
node has yet, are what the flat list gains. -/
def Tiles (before : Arena) (pending : List NodeRange) (after : Arena) : Prop :=
  ∃ added tiling, after.windows = before.windows ++ added ∧
    SideBySide before.lists.size tiling after.lists.size ∧ tiling.Perm (added ++ pending)

namespace Tiles

variable {before middle after : Arena} {pending pending' : List NodeRange}

theorem refl (arena : Arena) : arena.Tiles [] arena :=
  ⟨[], [], (List.append_nil _).symm, .nil, .nil⟩

theorem trans (h : before.Tiles pending middle) (h' : middle.Tiles pending' after) :
    before.Tiles (pending ++ pending') after := by
  obtain ⟨added, tiling, hadded, htiling, hperm⟩ := h
  obtain ⟨added', tiling', hadded', htiling', hperm'⟩ := h'
  refine ⟨added ++ added', tiling ++ tiling', ?_, htiling.append htiling', ?_⟩
  · rw [hadded', hadded, List.append_assoc]
  · calc (tiling ++ tiling').Perm ((added ++ pending) ++ (added' ++ pending')) :=
          hperm.append hperm'
      _ = added ++ ((pending ++ added') ++ pending') := by simp only [List.append_assoc]
      List.Perm _ (added ++ ((added' ++ pending) ++ pending')) :=
          (List.perm_append_comm.append_right _).append_left _
      _ = (added ++ added') ++ (pending ++ pending') := by simp only [List.append_assoc]

theorem addList (arena : Arena) (ids : List NodeId) :
    arena.Tiles [(arena.addList ids).1] (arena.addList ids).2 := by
  refine ⟨[], [(arena.addList ids).1], (List.append_nil _).symm, ?_, .rfl⟩
  have hsize : (arena.addList ids).2.lists.size = arena.lists.size + ids.length := by
    rw [Arena.addList, ← Array.length_toList, Array.toList_appendList, List.length_append,
      Array.length_toList]
  rw [hsize]
  exact .cons .nil

theorem windows_add (arena : Arena) (node : Node) :
    (arena.add node).2.windows = arena.windows ++ node.kind.range?.toList := by
  simp only [windows, add, Array.toList_push, List.filterMap_append, List.filterMap_cons,
    List.filterMap_nil]
  cases node.kind.range? <;> rfl

/-- The node that is added takes the pending window, if there is one. -/
theorem add {kind : NodeKind} (h : before.Tiles kind.range?.toList after) (span : Span) :
    before.Tiles [] (after.add ⟨kind, span⟩).2 := by
  obtain ⟨added, tiling, hadded, htiling, hperm⟩ := h
  refine ⟨added ++ kind.range?.toList, tiling, ?_, htiling, ?_⟩
  · rw [windows_add, hadded, List.append_assoc]
  · rw [List.append_nil]
    exact hperm

theorem perm_windows (h : Arena.empty.Tiles [] after) :
    ∃ tiling, SideBySide 0 tiling after.lists.size ∧ tiling.Perm after.windows := by
  obtain ⟨added, tiling, hadded, htiling, hperm⟩ := h
  have hwindows : after.windows = added ++ [] := by
    rw [hadded, List.append_nil]
    rfl
  exact ⟨tiling, htiling, hwindows ▸ hperm⟩

end Tiles

theorem mem_windows_iff {arena : Arena} {range : NodeRange} :
    range ∈ arena.windows ↔
      ∃ id, id.index < arena.size ∧ (arena.kind id).range? = some range := by
  simp only [windows, List.mem_filterMap, Array.mem_toList_iff, Array.mem_iff_getElem]
  constructor
  · rintro ⟨node, ⟨index, hindex, hnode⟩, hrange⟩
    refine ⟨⟨index⟩, hindex, ?_⟩
    rw [kind, Arena.node, Array.getElem?_eq_getElem hindex, Option.getD_some, hnode, hrange]
  · rintro ⟨id, hid, hrange⟩
    rw [kind, Arena.node, Array.getElem?_eq_getElem hid, Option.getD_some] at hrange
    exact ⟨_, ⟨id.index, hid, rfl⟩, hrange⟩

theorem apart_of_pairwise_windows {arena : Arena} (h : arena.windows.Pairwise NodeRange.Apart)
    {id id' : NodeId} (hid : id.index < arena.size) (hid' : id'.index < arena.size)
    {range range' : NodeRange} (hne : id ≠ id') (hrange : (arena.kind id).range? = some range)
    (hrange' : (arena.kind id').range? = some range') : range.Apart range' := by
  have ordered {id id' : NodeId} {range range' : NodeRange} (hid' : id'.index < arena.size)
      (hlt : id.index < id'.index) (hrange : (arena.kind id).range? = some range)
      (hrange' : (arena.kind id').range? = some range') : range.Apart range' := by
    have hid := Nat.lt_trans hlt hid'
    rw [kind, Arena.node, Array.getElem?_eq_getElem hid, Option.getD_some] at hrange
    rw [kind, Arena.node, Array.getElem?_eq_getElem hid', Option.getD_some] at hrange'
    have hnodes := List.pairwise_iff_getElem.mp (List.pairwise_filterMap.mp h)
    exact hnodes id.index id'.index hid hid' hlt range hrange range' hrange'
  rcases Nat.lt_or_gt_of_ne fun heq => hne (NodeId.ext heq) with hlt | hlt
  · exact ordered hid' hlt hrange hrange'
  · exact (ordered hid hlt hrange' hrange).symm

theorem Tiles.partitioned {arena : Arena} (h : Arena.empty.Tiles [] arena) :
    arena.Partitioned := by
  obtain ⟨tiling, htiling, hperm⟩ := h.perm_windows
  have hpairwise : arena.windows.Pairwise NodeRange.Apart :=
    hperm.pairwise htiling.pairwise NodeRange.Apart.symm
  -- The window of a number that is not given out is empty.
  have absent {id : NodeId} {range : NodeRange} (hid : ¬ id.index < arena.size)
      (hrange : (arena.kind id).range? = some range) : range.stop = 0 := by
    rw [kind_of_le (Nat.le_of_not_lt hid)] at hrange
    cases hrange
    rfl
  refine ⟨fun id range hrange => ?_, fun id id' range range' hne hrange hrange' => ?_,
    fun position hposition => ?_⟩
  · by_cases hid : id.index < arena.size
    · have hmem := hperm.mem_iff.mpr (mem_windows_iff.mpr ⟨id, hid, hrange⟩)
      exact (htiling.bounds hmem).2
    · rw [absent hid hrange]
      exact Nat.zero_le _
  · by_cases hid : id.index < arena.size
    · by_cases hid' : id'.index < arena.size
      · exact apart_of_pairwise_windows hpairwise hid hid' hne hrange hrange'
      · exact .inr ((absent hid' hrange').symm ▸ Nat.zero_le _)
    · exact .inl ((absent hid hrange).symm ▸ Nat.zero_le _)
  · obtain ⟨range, hmem, hstart, hstop⟩ := htiling.cover (Nat.zero_le _) hposition
    obtain ⟨id, hid, hrange⟩ := mem_windows_iff.mp (hperm.mem_iff.mp hmem)
    exact ⟨id, range, hid, hrange, hstart, hstop⟩

end Arena

namespace Numbering
open Arena

mutual

theorem phrase_tiles : (p : Phrase) → (arena : Arena) → arena.Tiles [] (phrase p arena).2
  | .block span statements, arena => by
      have hstatements := phrases_tiles statements arena
      exact (hstatements.trans (.addList _ _)).add span
  | .bind span name type value, arena => (phrase?_tiles value arena).add span
  | .structureDef span name inputs body, arena => by
      have hinputs := phrases_tiles inputs arena
      have hbody := phrase?_tiles body (addList (phrases inputs arena).1 (phrases inputs arena).2).2
      exact ((hinputs.trans (.addList _ _)).trans hbody).add span
  | .property span subject member memberSpan, arena => by
      have hsubject := phrase_tiles subject arena
      exact (hsubject.add memberSpan).add span
  | .reference span name, arena
  | .number span bits, arena
  | .text span content, arena
  | .boolean span value, arena => (Tiles.refl arena).add span
  | .evaluate span callee arguments, arena => by
      have hcallee := phrase_tiles callee arena
      have harguments := phrases_tiles arguments (phrase callee arena).2
      exact ((hcallee.trans harguments).trans (.addList _ _)).add span
  | .binary span op left right, arena => by
      have hleft := phrase_tiles left arena
      exact (hleft.trans (phrase_tiles right _)).add span
  | .unary span op operand, arena => (phrase_tiles operand arena).add span
  | .conditional span condition yes no, arena => by
      have hcondition := phrase_tiles condition arena
      have hyes := phrase_tiles yes (phrase condition arena).2
      exact ((hcondition.trans hyes).trans (phrase_tiles no _)).add span

theorem phrase?_tiles :
    (p? : Option Phrase) → (arena : Arena) → arena.Tiles [] (phrase? p? arena).2
  | none, arena => .refl arena
  | some p, arena => phrase_tiles p arena

theorem phrases_tiles :
    (ps : List Phrase) → (arena : Arena) → arena.Tiles [] (phrases ps arena).2
  | [], arena => .refl arena
  | p :: rest, arena => (phrase_tiles p arena).trans (phrases_tiles rest _)

end

end Numbering

theorem Phrase.partitioned_numbered (p : Phrase) : p.numbered.2.Partitioned :=
  (Numbering.phrase_tiles p .empty).partitioned

end Bindery
