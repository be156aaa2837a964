import Mathlib.Data.List.Induction
import Bindery.Name.Table
import Bindery.Proofs.Token.Names

/-!
Name tables only grow, and they name strings one to one. A table knows each of its strings by the
position at which it stands and knows nothing else, and it stays so whatever its holders ask of it,
through whatever clones of its handle. The order of the strings is the order in which they were
first named.
-/

namespace Bindery

section Transcript

variable {State Request Reply : Type} {reply? : State → Request → Option (Reply × State)}
  {state later : State} {request : Request} {requests : List Request}
  {transcript : List (Request × Reply)}

theorem transcript?_cons_eq_some_iff :
    transcript? reply? state (request :: requests) = some (transcript, later) ↔
      ∃ reply between replies, reply? state request = some (reply, between) ∧
        transcript? reply? between requests = some (replies, later) ∧
        transcript = (request, reply) :: replies := by
  simp only [transcript?, Option.bind_eq_bind, Option.bind_eq_some_iff, Option.pure_def,
    Option.some.injEq, Prod.mk.injEq, Prod.exists]
  constructor
  · rintro ⟨reply, between, hreply, replies, _, hmore, rfl, rfl⟩
    exact ⟨reply, between, replies, hreply, hmore, rfl⟩
  · rintro ⟨reply, between, replies, hreply, hmore, rfl⟩
    exact ⟨reply, between, hreply, replies, later, hmore, rfl, rfl⟩

/-- The last request is put after all others. -/
theorem transcript?_concat_eq_some_iff :
    transcript? reply? state (requests ++ [request]) = some (transcript, later) ↔
      ∃ replies between reply, transcript? reply? state requests = some (replies, between) ∧
        reply? between request = some (reply, later) ∧
        transcript = replies ++ [(request, reply)] := by
  induction requests generalizing state transcript with
  | nil =>
      rw [List.nil_append, transcript?_cons_eq_some_iff]
      constructor
      · rintro ⟨reply, between, replies, hreply, hnone, rfl⟩
        cases hnone
        exact ⟨[], state, reply, rfl, hreply, rfl⟩
      · rintro ⟨replies, between, reply, hnone, hreply, rfl⟩
        cases hnone
        exact ⟨reply, later, [], hreply, rfl, rfl⟩
  | cons first requests ih =>
      simp only [List.cons_append, transcript?_cons_eq_some_iff, ih]
      constructor
      · rintro ⟨reply, between, _, hfirst, ⟨replies, between', reply', hmore, hlast, rfl⟩, rfl⟩
        exact ⟨(first, reply) :: replies, between', reply',
          ⟨reply, between, replies, hfirst, hmore, rfl⟩, hlast, rfl⟩
      · rintro ⟨_, between', reply', ⟨reply, between, replies, hfirst, hmore, rfl⟩, hlast, rfl⟩
        exact ⟨reply, between, replies ++ [(request, reply')], hfirst,
          ⟨replies, between', reply', hmore, hlast, rfl⟩, rfl⟩

/-- What holds at the start and is kept by each request and its reply holds at the end. -/
theorem transcript?_induction {P : List (Request × Reply) → State → Prop} (start : P [] state)
    (step : ∀ {replies between request reply later}, P replies between →
      reply? between request = some (reply, later) → P (replies ++ [(request, reply)]) later)
    (h : transcript? reply? state requests = some (transcript, later)) : P transcript later := by
  induction requests using List.reverseRecOn generalizing transcript later with
  | nil =>
      cases h
      exact start
  | append_singleton requests request ih =>
      obtain ⟨replies, between, reply, hbefore, hreply, rfl⟩ :=
        transcript?_concat_eq_some_iff.mp h
      exact step (ih hbefore) hreply

theorem map_fst_transcript? (h : transcript? reply? state requests = some (transcript, later)) :
    transcript.map Prod.fst = requests := by
  induction requests using List.reverseRecOn generalizing transcript later with
  | nil =>
      cases h
      rfl
  | append_singleton requests request ih =>
      obtain ⟨replies, between, reply, hbefore, -, rfl⟩ := transcript?_concat_eq_some_iff.mp h
      rw [List.map_append, ih hbefore]
      rfl

theorem transcript?_cons_eq_none_iff :
    transcript? reply? state (request :: requests) = none ↔
      reply? state request = none ∨
        ∃ reply between, reply? state request = some (reply, between) ∧
          transcript? reply? between requests = none := by
  rw [transcript?]
  cases reply? state request with
  | none => simp
  | some result =>
      obtain ⟨reply, between⟩ := result
      cases hmore : transcript? reply? between requests <;> simp [hmore]

/-- There is no transcript exactly if some request has no reply in its turn. -/
theorem transcript?_eq_none_iff :
    transcript? reply? state requests = none ↔
      ∃ before request after replies between, requests = before ++ request :: after ∧
        transcript? reply? state before = some (replies, between) ∧
        reply? between request = none := by
  induction requests generalizing state with
  | nil => simp [transcript?]
  | cons first requests ih =>
      rw [transcript?_cons_eq_none_iff]
      constructor
      · rintro (hfirst | ⟨reply, between, hfirst, hmore⟩)
        · exact ⟨[], first, requests, [], state, rfl, rfl, hfirst⟩
        · obtain ⟨before, request, after, replies, later, rfl, hbefore, hnone⟩ := ih.mp hmore
          exact ⟨first :: before, request, after, _, later, rfl,
            transcript?_cons_eq_some_iff.mpr ⟨reply, between, replies, hfirst, hbefore, rfl⟩,
            hnone⟩
      · rintro ⟨before, request, after, replies, later, heq, hbefore, hnone⟩
        cases before with
        | nil =>
            cases heq
            cases hbefore
            exact .inl hnone
        | cons _ before =>
            cases heq
            obtain ⟨reply, between, replies, hfirst, hmore, -⟩ :=
              transcript?_cons_eq_some_iff.mp hbefore
            exact .inr ⟨reply, between, hfirst,
              ih.mpr ⟨before, request, after, replies, later, rfl, hmore, hnone⟩⟩

end Transcript

namespace NameTable

/-- The strings come first in the order of their positions, the empty string before all others, and
the table knows where each of them stands. -/
structure Sound (table : NameTable) : Prop where
  locates : table.positions.Locates table.toList
  holdsEmpty : table.HoldsEmpty

variable {table later : NameTable} {s : String} {name : Name}

theorem sound_empty : empty.Sound := by
  have hlocates : Positions.Locates [("", 0)] [""] := Positions.locates_nil.concat rfl
  exact ⟨hlocates, rfl⟩

/-- A string is found where it stands. -/
theorem Sound.get?_eq_some_iff (h : table.Sound) :
    table.get? s = some name ↔ name.index < table.size ∧ table.lookup name = s := by
  obtain ⟨index⟩ := name
  have hget : table.get? s = some ⟨index⟩ ↔ table.positions.lookup s = some index := by
    simp [get?, Option.map_eq_some_iff]
  rw [hget, h.locates s index, Interner.toList, Array.getElem?_toList, Interner.lookup,
    Interner.size, Array.getElem?_eq_some_iff]
  constructor
  · rintro ⟨hlt, hat⟩
    exact ⟨hlt, by rw [Array.getElem?_eq_getElem hlt, Option.getD_some, hat]⟩
  · rintro ⟨hlt, hat⟩
    exact ⟨hlt, by rw [Array.getElem?_eq_getElem hlt, Option.getD_some] at hat; exact hat⟩

theorem Sound.get?_eq_none_iff (h : table.Sound) : table.get? s = none ↔ s ∉ table.toList := by
  rw [get?, Option.map_eq_none_iff, h.locates.lookup_eq_none_iff]

/-- The index finds what a search through the strings finds. -/
theorem Sound.get?_toInterner (h : table.Sound) (s : String) :
    table.toInterner.get? s = table.get? s := by
  rw [Interner.get?, get?, h.locates.lookup_eq_findIdx?, ← List.findIdx?_toArray]
  rfl

theorem Sound.add (h : table.Sound) (hnew : table.get? s = none) : (table.add s).Sound := by
  have hlookup : table.positions.lookup s = none := Option.map_eq_none_iff.mp hnew
  refine ⟨?_, h.holdsEmpty.of_extends ?_⟩
  · have hlocates := h.locates.concat hlookup
    rwa [Interner.toList, Array.length_toList, ← Array.toList_push] at hlocates
  · exact ⟨[s], (Array.toList_push ..).symm⟩

/-- What becomes of a string that is to be named: it has its name already, or it gets the next one,
or the table is full. -/
theorem tryIntern_cases (table : NameTable) (s : String) :
    (∃ name, table.get? s = some name ∧ table.tryIntern s = .ok (name, table)) ∨
    (table.get? s = none ∧ table.size ≤ Interner.maxIndex ∧
      table.tryIntern s = .ok (⟨table.size⟩, table.add s)) ∨
    (table.get? s = none ∧ Interner.maxIndex < table.size ∧
      table.tryIntern s = .error (.overflow table.size)) := by
  rw [tryIntern_eq_settle]
  simp only [settle]
  cases hget : table.get? s with
  | some name => exact .inl ⟨name, rfl, rfl⟩
  | none =>
      by_cases hroom : table.strings.size ≤ Interner.maxIndex
      · exact .inr (.inl ⟨rfl, hroom, if_pos hroom⟩)
      · exact .inr (.inr ⟨rfl, Nat.lt_of_not_le hroom, if_neg hroom⟩)

/-- The table before a name was given is the table after it, or lacks its last string. -/
theorem eq_or_eq_add_of_tryIntern (h : table.tryIntern s = .ok (name, later)) :
    (later = table ∧ table.get? s = some name) ∨
      (later = table.add s ∧ table.get? s = none ∧ name = ⟨table.size⟩ ∧
        table.size ≤ Interner.maxIndex) := by
  rcases table.tryIntern_cases s with ⟨found, hget, htry⟩ | ⟨hget, hroom, htry⟩ | ⟨-, -, htry⟩
  · rw [htry] at h
    cases h
    exact .inl ⟨rfl, hget⟩
  · rw [htry] at h
    cases h
    exact .inr ⟨rfl, hget, rfl, hroom⟩
  · rw [htry] at h
    cases h

theorem extends_add (table : NameTable) (s : String) :
    table.toInterner.Extends (table.add s).toInterner :=
  ⟨[s], (Array.toList_push ..).symm⟩

theorem get?_add (table : NameTable) (s : String) : (table.add s).get? s = some ⟨table.size⟩ := by
  simp [get?, add, Interner.size]

theorem answer?_intern_eq_some_iff {answer : Answer} :
    table.answer? (.intern s) = some (answer, later) ↔
      ∃ name, answer = .named name ∧ table.tryIntern s = .ok (name, later) := by
  rw [answer?]
  cases table.tryIntern s <;> grind

theorem answer?_tryIntern_eq_some_iff {answer : Answer} :
    table.answer? (.tryIntern s) = some (answer, later) ↔
      (∃ name, answer = .named name ∧ table.tryIntern s = .ok (name, later)) ∨
        ∃ error, answer = .refused error ∧ table.tryIntern s = .error error ∧ later = table := by
  rw [answer?]
  cases table.tryIntern s <;> grind

theorem answer?_eq_none_iff {call : Call} :
    table.answer? call = none ↔
      ∃ s, call = .intern s ∧ table.get? s = none ∧ Interner.maxIndex < table.size := by
  cases call with
  | get | lookup | size => simp [answer?]
  | tryIntern s => rw [answer?]; split <;> simp
  | intern s =>
      rw [answer?]
      rcases table.tryIntern_cases s with ⟨name, hget, htry⟩ | ⟨hget, hroom, htry⟩ |
        ⟨hget, hfull, htry⟩
      · simp [htry, hget]
      · simp [htry, Nat.not_lt.mpr hroom]
      · simp [htry, hget, hfull]

/-- The string that a call named. -/
def named? : Call × Answer → Option String
  | (.intern s, .named _) | (.tryIntern s, .named _) => some s
  | _ => none

/-- A call leaves the table as it is and names nothing, or it names a string. -/
theorem later_cases {call : Call} {answer : Answer}
    (h : table.answer? call = some (answer, later)) :
    (later = table ∧ named? (call, answer) = none) ∨
      ∃ s name, (call = .intern s ∨ call = .tryIntern s) ∧ answer = .named name ∧
        table.tryIntern s = .ok (name, later) := by
  cases call with
  | get s | lookup name | size =>
      cases h
      exact .inl ⟨rfl, rfl⟩
  | intern s =>
      obtain ⟨name, hanswer, htry⟩ := answer?_intern_eq_some_iff.mp h
      exact .inr ⟨s, name, .inl rfl, hanswer, htry⟩
  | tryIntern s =>
      rcases answer?_tryIntern_eq_some_iff.mp h with ⟨name, hanswer, htry⟩ | ⟨error, rfl, -, rfl⟩
      · exact .inr ⟨s, name, .inr rfl, hanswer, htry⟩
      · exact .inl ⟨rfl, rfl⟩

/-- A call keeps a sound table sound. -/
theorem Sound.answer? {call : Call} {answer : Answer} (h : table.Sound)
    (hanswer : table.answer? call = some (answer, later)) : later.Sound := by
  rcases later_cases hanswer with ⟨rfl, -⟩ | ⟨s, name, -, -, htry⟩
  · exact h
  · rcases eq_or_eq_add_of_tryIntern htry with ⟨rfl, -⟩ | ⟨rfl, hget, -, -⟩
    · exact h
    · exact h.add hget

theorem extends_of_tryIntern (h : table.tryIntern s = .ok (name, later)) :
    table.toInterner.Extends later.toInterner := by
  rcases eq_or_eq_add_of_tryIntern h with ⟨rfl, -⟩ | ⟨rfl, -, -, -⟩
  · exact .refl _
  · exact extends_add table s

theorem extends_of_answer? {call : Call} {answer : Answer}
    (h : table.answer? call = some (answer, later)) :
    table.toInterner.Extends later.toInterner := by
  rcases later_cases h with ⟨rfl, -⟩ | ⟨s, name, -, -, htry⟩
  · exact .refl _
  · exact extends_of_tryIntern htry

theorem get?_of_tryIntern (h : table.tryIntern s = .ok (name, later)) :
    later.get? s = some name := by
  rcases eq_or_eq_add_of_tryIntern h with ⟨rfl, hget⟩ | ⟨rfl, -, rfl, -⟩
  · exact hget
  · exact get?_add table s

theorem tryIntern_of_get? (h : table.get? s = some name) :
    table.tryIntern s = .ok (name, table) := by
  simp only [tryIntern, h]

/-- A name keeps its string. -/
theorem Sound.get?_of_extends (h : table.Sound) (hlater : later.Sound)
    (hextends : table.toInterner.Extends later.toInterner) (hget : table.get? s = some name) :
    later.get? s = some name := by
  rw [← hlater.get?_toInterner]
  exact hextends.get? ((h.get?_toInterner s).trans hget)

/-- The table answers as one that searches its strings. -/
theorem Sound.tryIntern_toInterner (h : table.Sound) (s : String) :
    (table.tryIntern s).map (Prod.map id NameTable.toInterner) = table.toInterner.tryIntern s := by
  rw [Interner.tryIntern, h.get?_toInterner]
  rcases table.tryIntern_cases s with ⟨name, hget, htry⟩ | ⟨hget, hroom, htry⟩ | ⟨hget, hfull, htry⟩
  · rw [htry, hget]
    rfl
  · simp only [htry, hget, if_pos (show table.strings.size ≤ Interner.maxIndex from hroom),
      Interner.intern, h.get?_toInterner]
    rfl
  · simp only [htry, hget, if_neg (show ¬ table.strings.size ≤ Interner.maxIndex from
      Nat.not_le.mpr hfull)]
    rfl

/-- The string and the name that an answer tells of each other. -/
def told? : Call × Answer → Option (String × Name)
  | (.intern s, .named name) | (.tryIntern s, .named name) | (.get s, .found (some name)) =>
    some (s, name)
  | (.lookup name, .spelled s) => if s = "" then none else some (s, name)
  | _ => none

/-- What holds of a table of which the calls of the transcript were asked since it was started. -/
structure Keeps (table : NameTable) (transcript : List (Call × Answer)) : Prop where
  /-- The strings are pairwise distinct. -/
  nodup : table.toList.Nodup
  first : table.toList[0]? = some ""
  /-- Every position in the table fits in 32 bits. -/
  bounded : table.size ≤ Interner.maxIndex + 1
  /-- They stand in the order in which they were first named. -/
  order : table.toList = ("" :: transcript.filterMap named?).eraseDups
  /-- Positions and strings are inverse to each other. -/
  get?_eq_some_iff : ∀ s name,
    table.get? s = some name ↔ name.index < table.size ∧ table.lookup name = s
  /-- What an answer told of a string and its name still holds, and the string has no other name. -/
  stands : ∀ entry ∈ transcript, ∀ s name, told? entry = some (s, name) →
    table.lookup name = s ∧ table.get? s = some name ∧ table.tryIntern s = .ok (name, table)
  /-- A string that is named now has its name from now on. -/
  interned : ∀ s name later, table.tryIntern s = .ok (name, later) →
    later.lookup name = s ∧ later.get? s = some name ∧ later.tryIntern s = .ok (name, later)
  /-- Only a new string can be refused. -/
  refused : ∀ s error, table.tryIntern s = .error error ↔
    table.get? s = none ∧ Interner.maxIndex < table.size ∧ error = .overflow table.size
  /-- A name that is not in the table reads as the empty string. -/
  outside : ∀ name, table.size ≤ name.index → table.lookup name = ""
  /-- Calls that name nothing leave the table as it is. -/
  reads : ∀ call answer later, table.answer? call = some (answer, later) →
    (∀ s, call ≠ .intern s) → (∀ s, call ≠ .tryIntern s) → later = table
  /-- No call takes a string away or moves it. -/
  grows : ∀ call answer later, table.answer? call = some (answer, later) →
    table.toInterner.Extends later.toInterner
  /-- The table answers as one that searches its strings. -/
  plain : ∀ s, table.get? s = table.toInterner.get? s ∧
    (table.tryIntern s).map (Prod.map id NameTable.toInterner) = table.toInterner.tryIntern s

/-- What an answer tells of a string and its name is so after the call. -/
theorem Sound.get?_of_told? {call : Call} {answer : Answer} (h : table.Sound)
    (hanswer : table.answer? call = some (answer, later))
    (htold : told? (call, answer) = some (s, name)) : later.get? s = some name := by
  cases call with
  | size =>
      cases hanswer
      cases htold
  | intern s' =>
      obtain ⟨name', rfl, htry⟩ := answer?_intern_eq_some_iff.mp hanswer
      cases htold
      exact get?_of_tryIntern htry
  | tryIntern s' =>
      rcases answer?_tryIntern_eq_some_iff.mp hanswer with ⟨name', rfl, htry⟩ | ⟨error, rfl, -, -⟩
      · cases htold
        exact get?_of_tryIntern htry
      · cases htold
  | get s' =>
      cases hanswer
      cases hget : table.get? s' with
      | none =>
          rw [hget] at htold
          cases htold
      | some name' =>
          rw [hget] at htold
          cases htold
          exact hget
  | lookup name' =>
      cases hanswer
      rw [told?, Option.ite_none_left_eq_some] at htold
      obtain ⟨hne, heq⟩ := htold
      cases heq
      refine h.get?_eq_some_iff.mpr ⟨?_, rfl⟩
      -- outside of the table the name would read as the empty string
      refine Nat.lt_of_not_le fun hle => hne ?_
      rw [Interner.lookup, Array.getElem?_eq_none hle, Option.getD_none]

/-- The order in which strings are first named is the order in which they stand. -/
theorem Sound.toList_answer? {call : Call} {answer : Answer} {named : List String}
    (h : table.Sound) (horder : table.toList = ("" :: named).eraseDups)
    (hanswer : table.answer? call = some (answer, later)) :
    later.toList = ("" :: (named ++ (named? (call, answer)).toList)).eraseDups := by
  rcases later_cases hanswer with ⟨rfl, hnone⟩ | ⟨s, name, hcall, rfl, htry⟩
  · rw [hnone, Option.toList_none, List.append_nil, horder]
  have hnamed : named? (call, .named name) = some s := by
    rcases hcall with rfl | rfl <;> rfl
  have hmem : s ∈ "" :: named ↔ table.get? s ≠ none := by
    rw [ne_eq, h.get?_eq_none_iff, not_not, horder, List.mem_eraseDups]
  rw [hnamed, Option.toList_some, ← List.cons_append, eraseDups_concat, ← horder]
  rcases eq_or_eq_add_of_tryIntern htry with ⟨rfl, hget⟩ | ⟨rfl, hget, -, -⟩
  · rw [if_pos (hmem.mpr (by simp [hget]))]
  · rw [if_neg fun hin => hmem.mp hin hget]
    exact Array.toList_push ..

/-- What the answers so far have told is so. -/
structure Follows (table : NameTable) (transcript : List (Call × Answer)) : Prop where
  sound : table.Sound
  bounded : table.size ≤ Interner.maxIndex + 1
  order : table.toList = ("" :: transcript.filterMap named?).eraseDups
  told : ∀ entry ∈ transcript, ∀ s name, told? entry = some (s, name) → table.get? s = some name

theorem Follows.keeps {transcript : List (Call × Answer)} (h : table.Follows transcript) :
    table.Keeps transcript where
  nodup := h.sound.locates.nodup
  first := by rw [Interner.toList, Array.getElem?_toList]; exact h.sound.holdsEmpty
  bounded := h.bounded
  order := h.order
  get?_eq_some_iff _ _ := h.sound.get?_eq_some_iff
  stands entry hentry s name htold := by
    have hget := h.told entry hentry s name htold
    exact ⟨(h.sound.get?_eq_some_iff.mp hget).2, hget, tryIntern_of_get? hget⟩
  interned s name later htry := by
    have hget := get?_of_tryIntern htry
    have hsound : later.Sound := h.sound.answer? (answer?_intern_eq_some_iff.mpr ⟨name, rfl, htry⟩)
    exact ⟨(hsound.get?_eq_some_iff.mp hget).2, hget, tryIntern_of_get? hget⟩
  refused s error := by
    rcases table.tryIntern_cases s with ⟨name, hget, htry⟩ | ⟨hget, hroom, htry⟩ |
      ⟨hget, hfull, htry⟩
    · simp [htry, hget]
    · simp [htry, Nat.not_lt.mpr hroom]
    · simp [htry, hget, hfull, eq_comm]
  outside name hle := by rw [Interner.lookup, Array.getElem?_eq_none hle, Option.getD_none]
  reads call answer later hanswer hintern htryIntern := by
    rcases later_cases hanswer with ⟨heq, -⟩ | ⟨s, name, hcall, -, -⟩
    · exact heq
    · exact (hcall.elim (hintern s) (htryIntern s)).elim
  grows _ _ _ := extends_of_answer?
  plain s := ⟨(h.sound.get?_toInterner s).symm, h.sound.tryIntern_toInterner s⟩

theorem follows_empty : empty.Follows [] where
  sound := sound_empty
  bounded := by decide
  order := rfl
  told _ hentry := absurd hentry List.not_mem_nil

/-- One call more. -/
theorem Follows.answer? {transcript : List (Call × Answer)} {call : Call} {answer : Answer}
    (h : table.Follows transcript) (hanswer : table.answer? call = some (answer, later)) :
    later.Follows (transcript ++ [(call, answer)]) where
  sound := h.sound.answer? hanswer
  bounded := by
    rcases later_cases hanswer with ⟨rfl, -⟩ | ⟨s, name, -, -, htry⟩
    · exact h.bounded
    · rcases eq_or_eq_add_of_tryIntern htry with ⟨rfl, -⟩ | ⟨rfl, -, -, hroom⟩
      · exact h.bounded
      · rw [Interner.size, add, Array.size_push]
        exact Nat.succ_le_succ hroom
  order := by
    rw [List.filterMap_append, h.sound.toList_answer? h.order hanswer]
    cases hname : named? (call, answer) <;> simp [hname]
  told entry hentry s name htold := by
    rw [List.mem_append, List.mem_singleton] at hentry
    rcases hentry with hbefore | rfl
    · exact h.sound.get?_of_extends (h.sound.answer? hanswer) (extends_of_answer? hanswer)
        (h.told entry hbefore s name htold)
    · exact h.sound.get?_of_told? hanswer htold

theorem keeps_of_transcript? {calls : List Call} {transcript : List (Call × Answer)}
    (h : transcript? answer? empty calls = some (transcript, table)) : table.Keeps transcript :=
  have hfollows : table.Follows transcript :=
    transcript?_induction (P := fun transcript table => table.Follows transcript) follows_empty
      Follows.answer? h
  hfollows.keeps

end NameTable

end Bindery
