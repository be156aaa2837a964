/-!
Positions of keys. In a list that grows only at its end, an entry is found without a search if its
key is kept together with the position at which it stands.
-/

namespace Bindery

/-- Keys and the positions at which they stand. -/
abbrev Positions (α : Type) := List (α × Nat)

/-- The distinct keys of a list are those before its last one, and the last one if it is new. -/
theorem eraseDups_concat {α : Type} [DecidableEq α] (keys : List α) (key : α) :
    (keys ++ [key]).eraseDups =
      if key ∈ keys then keys.eraseDups else keys.eraseDups ++ [key] := by
  rw [List.eraseDups_append]
  split
  · rename_i hmem
    simp [List.removeAll, hmem]
  · rename_i hnot
    simp [List.removeAll, hnot, List.eraseDups_cons]

namespace Positions

variable {α : Type} [DecidableEq α] {positions : Positions α} {keys : List α} {key : α}
  {position : Nat}

/-- Each of the keys is known by the position at which it stands, and nothing else is known. -/
def Locates (positions : Positions α) (keys : List α) : Prop :=
  ∀ key position, positions.lookup key = some position ↔ keys[position]? = some key

theorem locates_nil : Locates ([] : Positions α) [] := by
  intro key position
  simp

namespace Locates

theorem lt_length (h : positions.Locates keys) (hlookup : positions.lookup key = some position) :
    position < keys.length :=
  (List.getElem?_eq_some_iff.mp ((h key position).mp hlookup)).1

theorem lookup_eq_none_iff (h : positions.Locates keys) :
    positions.lookup key = none ↔ key ∉ keys := by
  rw [Option.eq_none_iff_forall_ne_some, List.mem_iff_getElem?]
  simp only [ne_eq, h key, not_exists]

/-- No key stands at two positions. -/
theorem nodup (h : positions.Locates keys) : keys.Nodup := by
  refine List.pairwise_iff_getElem.mpr fun i j hi hj hlt heq => ?_
  have hfirst := (h keys[i] i).mpr (List.getElem?_eq_getElem hi)
  have hsecond := (h keys[i] j).mpr (heq ▸ List.getElem?_eq_getElem hj)
  rw [hfirst] at hsecond
  exact Nat.ne_of_lt hlt (Option.some.inj hsecond)

/-- A new key stands at the end. -/
theorem concat (h : positions.Locates keys) (hnew : positions.lookup key = none) :
    Locates ((key, keys.length) :: positions) (keys ++ [key]) := by
  have hnot := h.lookup_eq_none_iff.mp hnew
  intro other position
  rw [List.lookup_cons, List.getElem?_append]
  by_cases heq : other = key
  · subst heq
    have hbefore : keys[position]? ≠ some other := fun hat => hnot (List.mem_of_getElem? hat)
    simp only [beq_self_eq_true, Option.some.injEq]
    split
    · exact iff_of_false (by omega) hbefore
    · rw [List.getElem?_singleton]
      grind
  · simp only [beq_false_of_ne heq, h other]
    split
    · rfl
    · rw [List.getElem?_eq_none (by omega), List.getElem?_singleton]
      grind

/-- A search for the key comes to the same position. -/
theorem lookup_eq_findIdx? (h : positions.Locates keys) :
    positions.lookup key = keys.findIdx? (· == key) := by
  cases hlookup : positions.lookup key with
  | none =>
      have hnot := h.lookup_eq_none_iff.mp hlookup
      refine (List.findIdx?_eq_none_iff.mpr fun other hother => ?_).symm
      exact beq_false_of_ne fun heq => hnot (heq ▸ hother)
  | some position =>
      obtain ⟨hlt, hat⟩ := List.getElem?_eq_some_iff.mp ((h key position).mp hlookup)
      refine (List.findIdx?_eq_some_iff_getElem.mpr ⟨hlt, ?_, fun i hi => ?_⟩).symm
      · rw [hat, beq_self_eq_true]
      · rw [beq_iff_eq]
        intro heq
        exact List.pairwise_iff_getElem.mp h.nodup i position (by omega) hlt hi (heq.trans hat.symm)

end Locates
end Positions
end Bindery
