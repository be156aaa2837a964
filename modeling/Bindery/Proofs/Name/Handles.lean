import Bindery.Proofs.Name.Table

/-!
Name tables behind handles. A handle keeps standing for its table, a clone of it stands for the same
one, and a table has come to be by what was asked of it through the handles that stand for it.
-/

namespace Bindery
namespace NameTables

variable {shelf later : NameTables} {request : Request} {reply : Reply}
  {transcript : List (Request × Reply)}

/-- What an entry of a transcript asked of the table at a position. -/
def askedOf? (handles : Array Nat) (position : Nat) :
    Request × Reply → Option (NameTable.Call × NameTable.Answer)
  | (.call handle call, .answer answer) =>
    if handles[handle]? = some position then some (call, answer) else none
  | _ => none

/-- What was asked of the table at a position, through whatever handle, and what it answered. -/
def asked (handles : Array Nat) (position : Nat) (transcript : List (Request × Reply)) :
    List (NameTable.Call × NameTable.Answer) :=
  transcript.filterMap (askedOf? handles position)

/-- What the requests of a transcript have made of the tables and the handles. -/
structure Follows (shelf : NameTables) (transcript : List (Request × Reply)) : Prop where
  /-- Every handle stands for a table. -/
  inBounds : ∀ (handle position : Nat), shelf.handles[handle]? = some position →
    position < shelf.tables.size
  /-- Calls went through handles only. -/
  known : ∀ handle call reply, (.call handle call, reply) ∈ transcript →
    handle < shelf.handles.size
  /-- A clone stands for the same table. -/
  clones : ∀ handle clone : Nat, (.clone handle, .handle clone) ∈ transcript →
    ∃ position, shelf.handles[handle]? = some position ∧ shelf.handles[clone]? = some position
  /-- A table has come to be by what was asked of it, and by nothing else. -/
  tables : ∀ (position : Nat) table, shelf.tables[position]? = some table →
    ∃ calls, transcript? NameTable.answer? .empty calls =
      some (asked shelf.handles position transcript, table)

/-- A handle that is made stands for no table that an earlier handle does not stand for, or for a
new one. -/
theorem reply?_cases (h : shelf.reply? request = some (reply, later)) :
    (∃ handle call position table answer table', request = .call handle call ∧
      reply = .answer answer ∧ shelf.handles[handle]? = some position ∧
      shelf.tables[position]? = some table ∧ table.answer? call = some (answer, table') ∧
      later = { shelf with tables := shelf.tables.setIfInBounds position table' }) ∨
    (∃ handle position, request = .clone handle ∧ reply = .handle shelf.handles.size ∧
      shelf.handles[handle]? = some position ∧
      later = { shelf with handles := shelf.handles.push position }) ∨
    (request = .new ∧ reply = .handle shelf.handles.size ∧
      later = { tables := shelf.tables.push .empty
                handles := shelf.handles.push shelf.tables.size }) := by
  cases request with
  | call handle call =>
      simp only [reply?, Option.bind_eq_bind, Option.bind_eq_some_iff, Option.pure_def,
        Option.some.injEq, Prod.mk.injEq, Prod.exists] at h
      obtain ⟨position, hposition, table, htable, answer, table', hanswer, rfl, rfl⟩ := h
      exact .inl ⟨handle, call, position, table, answer, table', rfl, rfl, hposition, htable,
        hanswer, rfl⟩
  | clone handle =>
      simp only [reply?, Option.bind_eq_bind, Option.bind_eq_some_iff, Option.pure_def,
        Option.some.injEq, Prod.mk.injEq] at h
      obtain ⟨position, hposition, rfl, rfl⟩ := h
      exact .inr (.inl ⟨handle, position, rfl, rfl, hposition, rfl⟩)
  | new =>
      cases h
      exact .inr (.inr ⟨rfl, rfl, rfl⟩)

theorem follows_start : start.Follows [] where
  inBounds handle position h := by
    obtain ⟨hlt, heq⟩ := Array.getElem?_eq_some_iff.mp h
    obtain rfl : handle = 0 := Nat.lt_one_iff.mp hlt
    cases heq
    exact Nat.one_pos
  known _ _ _ hentry := absurd hentry List.not_mem_nil
  clones _ _ hentry := absurd hentry List.not_mem_nil
  tables position table h := by
    obtain ⟨hlt, heq⟩ := Array.getElem?_eq_some_iff.mp h
    obtain rfl : position = 0 := Nat.lt_one_iff.mp hlt
    cases heq
    exact ⟨[], rfl⟩

/-- Handles that are made later change nothing about what was asked so far. -/
theorem Follows.asked_push (h : shelf.Follows transcript) (added position : Nat) :
    asked (shelf.handles.push added) position transcript =
      asked shelf.handles position transcript := by
  refine List.filterMap_congr fun entry hentry => ?_
  obtain ⟨request, reply⟩ := entry
  cases request with
  | clone | new => rfl
  | call handle call =>
      have hlt := h.known handle call reply hentry
      cases reply with
      | handle => rfl
      | answer answer =>
          rw [askedOf?, askedOf?, Array.getElem?_push_lt hlt, Array.getElem?_eq_getElem hlt]

theorem asked_concat (handles : Array Nat) (position : Nat) (entry : Request × Reply) :
    asked handles position (transcript ++ [entry]) =
      asked handles position transcript ++ (askedOf? handles position entry).toList := by
  rw [asked, List.filterMap_append]
  cases h : askedOf? handles position entry <;> simp [asked, h]

/-- A handle that stands for a table keeps standing for it. -/
theorem getElem?_push_of_some {handles : Array Nat} {handle position : Nat} (added : Nat)
    (h : handles[handle]? = some position) : (handles.push added)[handle]? = some position := by
  obtain ⟨hlt, heq⟩ := Array.getElem?_eq_some_iff.mp h
  rw [Array.getElem?_push_lt hlt, heq]

theorem Follows.call {handle position : Nat} {call : NameTable.Call} {answer : NameTable.Answer}
    {table table' : NameTable} (h : shelf.Follows transcript)
    (hhandle : shelf.handles[handle]? = some position)
    (htable : shelf.tables[position]? = some table)
    (hanswer : table.answer? call = some (answer, table')) :
    Follows { shelf with tables := shelf.tables.setIfInBounds position table' }
      (transcript ++ [(.call handle call, .answer answer)]) where
  inBounds handle position hposition := by
    rw [Array.size_setIfInBounds]
    exact h.inBounds handle position hposition
  known handle' call' reply hentry := by
    rw [List.mem_append, List.mem_singleton] at hentry
    rcases hentry with hbefore | heq
    · exact h.known handle' call' reply hbefore
    · cases heq
      exact (Array.getElem?_eq_some_iff.mp hhandle).1
  clones handle' clone hentry := by
    rw [List.mem_append, List.mem_singleton] at hentry
    rcases hentry with hbefore | heq
    · exact h.clones handle' clone hbefore
    · cases heq
  tables position' last hat := by
    rw [asked_concat, askedOf?]
    by_cases heq : position = position'
    · subst heq
      rw [Array.getElem?_setIfInBounds_self_of_lt (h.inBounds handle position hhandle)] at hat
      cases hat
      obtain ⟨calls, hcalls⟩ := h.tables position table htable
      refine ⟨calls ++ [call], transcript?_concat_eq_some_iff.mpr
        ⟨_, table, answer, hcalls, hanswer, ?_⟩⟩
      rw [if_pos hhandle, Option.toList_some]
    · rw [Array.getElem?_setIfInBounds_ne heq] at hat
      have hother : shelf.handles[handle]? ≠ some position' := by
        rw [hhandle]
        exact fun h => heq (Option.some.inj h)
      rw [if_neg hother, Option.toList_none, List.append_nil]
      exact h.tables position' last hat

/-- Nothing was asked of a table that is not there. -/
theorem Follows.asked_eq_nil (h : shelf.Follows transcript) {position : Nat}
    (hposition : shelf.tables.size ≤ position) : asked shelf.handles position transcript = [] := by
  refine List.filterMap_eq_nil_iff.mpr fun entry _ => ?_
  obtain ⟨request, reply⟩ := entry
  cases request with
  | clone | new => rfl
  | call handle call =>
      cases reply with
      | handle => rfl
      | answer answer =>
          refine if_neg fun hhandle => ?_
          exact Nat.not_lt_of_le hposition (h.inBounds handle position hhandle)

/-- A handle is made, for a table that is there or for one that is started. -/
theorem Follows.handle {tables : Array NameTable} {added : Nat} (h : shelf.Follows transcript)
    (hcall : ∀ handle call, request ≠ .call handle call)
    (hclone : ∀ handle, request = .clone handle → shelf.handles[handle]? = some added)
    (hadded : added < tables.size) (hsize : shelf.tables.size ≤ tables.size)
    (htables : ∀ (position : Nat) table, tables[position]? = some table →
      shelf.tables[position]? = some table ∨ (shelf.tables.size ≤ position ∧ table = .empty)) :
    Follows { tables := tables, handles := shelf.handles.push added }
      (transcript ++ [(request, .handle shelf.handles.size)]) where
  inBounds handle position hposition := by
    rw [Array.getElem?_push] at hposition
    split at hposition
    · cases hposition
      exact hadded
    · exact Nat.lt_of_lt_of_le (h.inBounds handle position hposition) hsize
  known handle call reply hentry := by
    rw [List.mem_append, List.mem_singleton] at hentry
    rcases hentry with hbefore | heq
    · rw [Array.size_push]
      exact Nat.lt_succ_of_lt (h.known handle call reply hbefore)
    · cases heq
      exact absurd rfl (hcall handle call)
  clones handle clone hentry := by
    rw [List.mem_append, List.mem_singleton] at hentry
    rcases hentry with hbefore | heq
    · obtain ⟨position, hhandle, hclone⟩ := h.clones handle clone hbefore
      exact ⟨position, getElem?_push_of_some _ hhandle, getElem?_push_of_some _ hclone⟩
    · cases heq
      exact ⟨added, getElem?_push_of_some _ (hclone handle rfl), Array.getElem?_push_size⟩
  tables position last hat := by
    have hnone : askedOf? (shelf.handles.push added) position
        (request, .handle shelf.handles.size) = none := by
      cases request <;> rfl
    rw [asked_concat, h.asked_push, hnone, Option.toList_none, List.append_nil]
    rcases htables position last hat with hold | ⟨hnew, rfl⟩
    · exact h.tables position last hold
    · exact ⟨[], by rw [h.asked_eq_nil hnew]; rfl⟩

theorem Follows.reply? (h : shelf.Follows transcript)
    (hreply : shelf.reply? request = some (reply, later)) :
    later.Follows (transcript ++ [(request, reply)]) := by
  rcases reply?_cases hreply with
    ⟨handle, call, position, table, answer, table', rfl, rfl, hhandle, htable, hanswer, rfl⟩ |
    ⟨handle, position, rfl, rfl, hhandle, rfl⟩ | ⟨rfl, rfl, rfl⟩
  · exact h.call hhandle htable hanswer
  · refine h.handle nofun ?_ (h.inBounds handle position hhandle) (Nat.le_refl _)
      fun _ _ hat => .inl hat
    intro handle' heq
    cases heq
    exact hhandle
  · refine h.handle nofun nofun ?_ ?_ fun position table hat => ?_
    · rw [Array.size_push]
      exact Nat.lt_succ_self _
    · rw [Array.size_push]
      exact Nat.le_succ _
    · rw [Array.getElem?_push] at hat
      split at hat
      · rename_i heq
        cases hat
        exact .inr ⟨Nat.le_of_eq heq.symm, rfl⟩
      · exact .inl hat

theorem follows_of_transcript? {requests : List Request}
    (h : transcript? reply? start requests = some (transcript, shelf)) :
    shelf.Follows transcript :=
  transcript?_induction (P := fun transcript shelf => shelf.Follows transcript) follows_start
    Follows.reply? h

/-- The handle that a request goes through. -/
def Request.through? : Request → Option Nat
  | .call handle _ | .clone handle => some handle
  | .new => none

/-- A request goes through a handle that is not there, or a new string is to be named in a full
table by a holder who takes no refusal. -/
def Unanswerable (shelf : NameTables) (request : Request) : Prop :=
  (∃ handle, request.through? = some handle ∧ shelf.handles.size ≤ handle) ∨
    ∃ handle s table, request = .call handle (.intern s) ∧ shelf.table? handle = some table ∧
      table.get? s = none ∧ Interner.maxIndex < table.size

theorem Follows.exists_table? (h : shelf.Follows transcript) {handle position : Nat}
    (hhandle : shelf.handles[handle]? = some position) :
    ∃ table, shelf.tables[position]? = some table ∧ shelf.table? handle = some table := by
  have htable := Array.getElem?_eq_getElem (h.inBounds handle position hhandle)
  refine ⟨_, htable, ?_⟩
  rw [table?, hhandle]
  exact htable

theorem Follows.reply?_eq_none_iff (h : shelf.Follows transcript) :
    shelf.reply? request = none ↔ shelf.Unanswerable request := by
  cases request with
  | new => simp [NameTables.reply?, Unanswerable, Request.through?]
  | clone handle =>
      rw [NameTables.reply?, Option.bind_eq_bind, Option.bind_eq_none_iff]
      simp [Unanswerable, Request.through?, ← Option.eq_none_iff_forall_ne_some]
  | call handle call =>
      cases hhandle : shelf.handles[handle]? with
      | none =>
          have hle := Array.getElem?_eq_none_iff.mp hhandle
          exact iff_of_true (by simp [NameTables.reply?, hle]) (.inl ⟨handle, rfl, hle⟩)
      | some position =>
          have hlt := (Array.getElem?_eq_some_iff.mp hhandle).1
          obtain ⟨table, hat, htable⟩ := h.exists_table? hhandle
          have hreply : shelf.reply? (.call handle call) = none ↔ table.answer? call = none := by
            rw [NameTables.reply?, hhandle, Option.bind_eq_bind, Option.bind_some, hat,
              Option.bind_eq_bind, Option.bind_some]
            cases table.answer? call <;> simp
          rw [hreply, NameTable.answer?_eq_none_iff]
          simp [Unanswerable, Request.through?, Nat.not_le.mpr hlt, htable]

/-- Whatever is asked through handles and their clones, in whatever order, the tables only grow and
name strings one to one, and every request is answered until a handle that is not there is used or
a table is full. -/
theorem transcript_keeps (requests : List Request) :
    (∀ transcript shelf, transcript? reply? start requests = some (transcript, shelf) →
      transcript.map Prod.fst = requests ∧
      (∀ handle clone, (.clone handle, .handle clone) ∈ transcript →
        ∃ position, shelf.handles[handle]? = some position ∧
          shelf.handles[clone]? = some position) ∧
      ∀ handle position, shelf.handles[handle]? = some position →
        ∃ table, shelf.table? handle = some table ∧
          table.Keeps (asked shelf.handles position transcript)) ∧
    (transcript? reply? start requests = none ↔
      ∃ before request after transcript shelf, requests = before ++ request :: after ∧
        transcript? reply? start before = some (transcript, shelf) ∧
        shelf.Unanswerable request) := by
  constructor
  · intro transcript shelf h
    have hfollows := follows_of_transcript? h
    refine ⟨map_fst_transcript? h, hfollows.clones, fun handle position hhandle => ?_⟩
    obtain ⟨table, hat, htable⟩ := hfollows.exists_table? hhandle
    obtain ⟨calls, hcalls⟩ := hfollows.tables position table hat
    exact ⟨table, htable, NameTable.keeps_of_transcript? hcalls⟩
  · rw [transcript?_eq_none_iff]
    constructor
    · rintro ⟨before, request, after, transcript, shelf, heq, hbefore, hnone⟩
      exact ⟨before, request, after, transcript, shelf, heq, hbefore,
        (follows_of_transcript? hbefore).reply?_eq_none_iff.mp hnone⟩
    · rintro ⟨before, request, after, transcript, shelf, heq, hbefore, hno⟩
      exact ⟨before, request, after, transcript, shelf, heq, hbefore,
        (follows_of_transcript? hbefore).reply?_eq_none_iff.mpr hno⟩

end NameTables
end Bindery
