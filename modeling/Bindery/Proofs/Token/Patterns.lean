import Bindery.Proofs.Token.Slices

/-!
What gaps and tokens are, said without a reader. A gap is a run of blank characters and comments,
taken as far as it goes. Each kind of token has a pattern, and the token at the front of a text is
the longest piece of it that any pattern matches. The reader finds the one and the other.
-/

namespace Bindery

/-- How a symbol may be written. -/
def Symbol.spellings : Symbol → List String
  | .trueWord => ["true", "⊤"]
  | .falseWord => ["false", "⊥"]
  | .notEqual => ["≠", "!="]
  | .lessEqual => ["≤", "<="]
  | .greaterEqual => ["≥", ">="]
  | symbol => [symbol.spelling]

namespace Lexer

/-- A run of blank characters and comments before the rest of a text. A comment reaches up to the
next line break or to the end of the text. -/
inductive Gap : (gap rest : List Char) → Prop
  | nil {rest} : Gap [] rest
  | blank {c gap rest} : c ∈ [' ', '\t', '\r', '\n', '\x0c'] → Gap gap rest → Gap (c :: gap) rest
  | comment {body gap rest} : '\n' ∉ body →
      (gap ++ rest = [] ∨ ∃ further, gap ++ rest = '\n' :: further) → Gap gap rest →
      Gap ('/' :: '/' :: body ++ gap) rest

/-- A gap that goes as far as a gap can. -/
def WholeGap (gap rest : List Char) : Prop :=
  Gap gap rest ∧
    ∀ gap' rest', gap' ++ rest' = gap ++ rest → Gap gap' rest' → gap'.length ≤ gap.length

/-- The patterns of tokens, each with what a token of the pattern says. A word that spells a symbol
is no identifier, a point belongs to a number only with digits after it, and a text has to be
closed. -/
inductive Lexeme : (word : List Char) → TokenKind String → Prop
  | symbol {symbol : Symbol} {spelling : String} : spelling ∈ symbol.spellings →
      Lexeme spelling.toList (.symbol symbol)
  | identifier {c : Char} {word : List Char} : c.isAlpha ∨ c = '_' →
      (∀ d ∈ word, d.isAlphanum ∨ d = '_') →
      (∀ symbol : Symbol, String.ofList (c :: word) ∉ symbol.spellings) →
      Lexeme (c :: word) (.identifier (.ofList (c :: word)))
  | number {whole : List Char} : whole ≠ [] → (∀ d ∈ whole, d.isDigit) →
      Lexeme whole (.number (Numeral.bits whole []))
  | fraction {whole fraction : List Char} : whole ≠ [] → (∀ d ∈ whole, d.isDigit) →
      fraction ≠ [] → (∀ d ∈ fraction, d.isDigit) →
      Lexeme (whole ++ '.' :: fraction) (.number (Numeral.bits whole fraction))
  | text {quote : Char} {content : List Char} : quote ∈ ['\x22', '\x27'] → quote ∉ content →
      Lexeme (quote :: content ++ [quote]) (.text (.ofList content))

/-- The longest piece at the front of a text that matches a pattern. -/
def Longest (word : List Char) (kind : TokenKind String) (text : List Char) : Prop :=
  Lexeme word kind ∧ word <+: text ∧
    ∀ word' kind', Lexeme word' kind' → word' <+: text → word'.length ≤ word.length

section Gap

variable {gap rest body text : List Char}

theorem isBlank_iff {c : Char} : isBlank c = true ↔ c ∈ [' ', '\t', '\r', '\n', '\x0c'] := by
  simp [isBlank, or_assoc]

theorem gapLength_comment (hbody : '\n' ∉ body)
    (hend : rest = [] ∨ ∃ further, rest = '\n' :: further) :
    gapLength true (body ++ rest) = body.length + gapLength false rest := by
  induction body with
  | nil =>
      rcases hend with rfl | ⟨further, rfl⟩
      · rfl
      · simp [gapLength, isBlank]
  | cons c body ih =>
      have hne : (c != '\n') = true := bne_iff_ne.mpr (List.ne_of_not_mem_cons hbody).symm
      rw [List.cons_append, gapLength, hne, ih (List.not_mem_of_not_mem_cons hbody),
        List.length_cons]
      omega

/-- The reader goes past every gap. -/
theorem Gap.gapLength_eq (h : Gap gap rest) :
    gapLength false (gap ++ rest) = gap.length + gapLength false rest := by
  induction h with
  | nil => exact (Nat.zero_add _).symm
  | @blank c gap rest hc _ ih =>
      rw [List.cons_append, gapLength, if_pos (isBlank_iff.mpr hc), ih, List.length_cons]
      omega
  | @comment body gap rest hbody hend _ ih =>
      have hcomment := gapLength_comment hbody hend
      have hslash : gapLength false ('/' :: '/' :: body ++ gap ++ rest) =
          gapLength true (body ++ (gap ++ rest)) + 2 := by
        simp [gapLength, isBlank]
      rw [hslash, hcomment, ih]
      simp only [List.cons_append, List.length_cons, List.length_append]
      omega

/-- What is left of a comment, and the gap after it. -/
def Commented (gap rest : List Char) : Prop :=
  ∃ body more, gap = body ++ more ∧ '\n' ∉ body ∧
    (more ++ rest = [] ∨ ∃ further, more ++ rest = '\n' :: further) ∧ Gap more rest

theorem Commented.cons {c : Char} (hc : c ≠ '\n') (h : Commented gap rest) :
    Commented (c :: gap) rest := by
  obtain ⟨body, more, rfl, hbody, hend, hmore⟩ := h
  exact ⟨c :: body, more, rfl, List.not_mem_cons_of_ne_of_not_mem hc.symm hbody, hend, hmore⟩

theorem gap_of_commented (h : Commented ('/' :: gap) rest) : Gap ('/' :: '/' :: gap) rest := by
  obtain ⟨body, more, heq, hbody, hend, hmore⟩ := h
  cases body with
  | nil =>
      rw [List.nil_append] at heq
      subst heq
      rcases hend with hend | ⟨further, hend⟩ <;> cases hend
  | cons c body =>
      obtain ⟨rfl, rfl⟩ := List.cons.inj heq
      exact .comment (List.not_mem_of_not_mem_cons hbody) hend hmore

/-- What the reader goes past is a gap, or the rest of a comment and a gap. -/
theorem gap_take (inComment : Bool) (text : List Char) :
    if inComment then
      Commented (text.take (gapLength inComment text)) (text.drop (gapLength inComment text))
    else Gap (text.take (gapLength inComment text)) (text.drop (gapLength inComment text)) := by
  fun_induction gapLength inComment text with
  | case1 inComment =>
      cases inComment with
      | true => exact ⟨[], [], rfl, List.not_mem_nil, .inl rfl, .nil⟩
      | false => exact .nil
  | case2 c rest ih =>
      rw [List.take_succ_cons, List.drop_succ_cons]
      by_cases hc : c = '\n'
      · subst hc
        exact ⟨[], _, rfl, List.not_mem_nil, .inr ⟨_, rfl⟩, .blank (by decide) ih⟩
      · have hne : (c != '\n') = true := bne_iff_ne.mpr hc
        rw [if_pos hne] at ih
        exact Commented.cons hc ih
  | case3 c rest hblank ih => exact .blank (isBlank_iff.mp hblank) ih
  | case4 c rest _ hslash ih =>
      obtain ⟨hc, hhead⟩ := Bool.and_eq_true_iff.mp hslash
      obtain ⟨further, rfl⟩ := List.head?_eq_some_iff.mp (eq_of_beq hhead)
      rw [eq_of_beq hc]
      exact gap_of_commented ih
  | case5 c rest => exact .nil

/-- The reader finds the whole gap. -/
theorem wholeGap_iff : WholeGap gap rest ↔ gapLength false (gap ++ rest) = gap.length := by
  have hfound : Gap ((gap ++ rest).take (gapLength false (gap ++ rest)))
      ((gap ++ rest).drop (gapLength false (gap ++ rest))) := gap_take false (gap ++ rest)
  constructor
  · rintro ⟨hgap, hlongest⟩
    have hle := hlongest _ _ (List.take_append_drop _ _) hfound
    rw [List.length_take_of_le (gapLength_le false _)] at hle
    have := hgap.gapLength_eq
    omega
  · intro h
    rw [h, List.take_left, List.drop_left] at hfound
    refine ⟨hfound, fun gap' rest' heq hgap' => ?_⟩
    rw [← h, ← heq, hgap'.gapLength_eq]
    exact Nat.le_add_right _ _

end Gap

section Words

variable {c : Char} {word back rest : List Char} {kind : TokenKind String}

theorem isWordStart_iff : isWordStart c = true ↔ c.isAlpha ∨ c = '_' := by
  simp [isWordStart]

theorem isWordPart_iff : isWordPart c = true ↔ c.isAlphanum ∨ c = '_' := by
  simp [isWordPart]

theorem isQuote_iff : isQuote c = true ↔ c ∈ ['\x22', '\x27'] := by
  simp [isQuote]

theorem isWordStart_of_isDigit (h : c.isDigit = true) : isWordStart c = false := by
  have hdigit := (Char.isDigit_iff_toNat.mp h).2
  rw [Bool.eq_false_iff]
  intro hstart
  have hcases : ((decide (c.val ≥ 'A'.val ∧ c.val ≤ 'Z'.val) ||
      (decide (c.val ≥ 'a'.val) && decide (c.val ≤ 'z'.val))) || c == '_') = true := hstart
  simp only [Bool.or_eq_true, Bool.and_eq_true, decide_eq_true_eq, beq_iff_eq, ge_iff_le,
    UInt32.le_iff_toNat_le] at hcases
  rcases hcases with (hletter | hletter) | rfl
  · exact absurd (Nat.le_trans hletter.1 hdigit) (by decide)
  · exact absurd (Nat.le_trans hletter.1 hdigit) (by decide)
  · exact absurd hdigit (by decide)

theorem not_word_of_isQuote (h : isQuote c = true) :
    isWordStart c = false ∧ c.isDigit = false := by
  simp only [isQuote, Bool.or_eq_true, beq_iff_eq] at h
  rcases h with rfl | rfl <;> decide

theorem munch_word (hstart : isWordStart c = true) (rest : List Char) :
    munch c rest = .ok (wordKind (.ofList (c :: rest.takeWhile isWordPart)),
      (rest.takeWhile isWordPart).length) := by
  rw [munch, if_pos hstart]

theorem munch_number (hdigit : c.isDigit = true) {whole : List Char}
    (hwhole : rest.takeWhile Char.isDigit = whole) {fraction : List Char}
    (hfraction : fractionDigits (rest.drop whole.length) = fraction) :
    munch c rest = .ok (.number (Numeral.bits (c :: whole) fraction),
      whole.length + (if fraction.isEmpty then 0 else 1) + fraction.length) := by
  subst hwhole hfraction
  rw [munch, if_neg (by rw [isWordStart_of_isDigit hdigit]; exact Bool.false_ne_true),
    if_pos hdigit]

/-- The reader takes so many further characters at least, and if it takes no more it says `kind`. -/
def Takes (found : Except Misread (TokenKind String × Nat)) (length : Nat)
    (kind : TokenKind String) : Prop :=
  ∃ kind' more, found = .ok (kind', more) ∧ length ≤ more ∧ (more ≤ length → kind' = kind)

theorem takes_word (hstart : isWordStart c = true) (hword : ∀ d ∈ word, isWordPart d = true)
    (back : List Char) :
    Takes (munch c (word ++ back)) word.length (wordKind (.ofList (c :: word))) := by
  refine ⟨_, _, munch_word hstart _, ?_, fun hle => ?_⟩
  · rw [List.takeWhile_append_of_pos hword, List.length_append]
    exact Nat.le_add_right _ _
  · rw [List.takeWhile_append_of_pos hword, List.length_append] at hle
    have hmore : back.takeWhile isWordPart = [] := List.length_eq_zero_iff.mp (by omega)
    rw [List.takeWhile_append_of_pos hword, hmore, List.append_nil]

theorem takes_number (hdigit : c.isDigit = true) (hword : ∀ d ∈ word, d.isDigit = true)
    (back : List Char) :
    Takes (munch c (word ++ back)) word.length (.number (Numeral.bits (c :: word) [])) := by
  refine ⟨_, _, munch_number hdigit (List.takeWhile_append_of_pos hword) rfl, ?_, fun hle => ?_⟩
  · rw [List.length_append]
    omega
  · rw [List.length_append] at hle
    have hmore : back.takeWhile Char.isDigit = [] := List.length_eq_zero_iff.mp (by omega)
    have hnone : fractionDigits ((word ++ back).drop
        (word ++ back.takeWhile Char.isDigit).length) = [] :=
      List.length_eq_zero_iff.mp (by rw [List.length_append]; omega)
    rw [hnone, hmore, List.append_nil]

theorem takes_fraction (hdigit : c.isDigit = true) (hword : ∀ d ∈ word, d.isDigit = true)
    {fraction : List Char} (hne : fraction ≠ []) (hfraction : ∀ d ∈ fraction, d.isDigit = true)
    (back : List Char) :
    Takes (munch c (word ++ '.' :: fraction ++ back)) (word ++ '.' :: fraction).length
      (.number (Numeral.bits (c :: word) fraction)) := by
  have hwhole : (word ++ '.' :: fraction ++ back).takeWhile Char.isDigit = word := by
    rw [List.append_assoc, List.takeWhile_append_of_pos hword, List.cons_append,
      List.takeWhile_cons_of_neg (by decide), List.append_nil]
  have hdigits : fractionDigits ((word ++ '.' :: fraction ++ back).drop word.length) =
      fraction ++ back.takeWhile Char.isDigit := by
    rw [List.append_assoc, List.drop_left]
    exact List.takeWhile_append_of_pos hfraction
  have hpoint : (fraction ++ back.takeWhile Char.isDigit).isEmpty = false :=
    List.isEmpty_eq_false_iff.mpr (List.append_ne_nil_of_left_ne_nil hne _)
  have hmunch := munch_number hdigit hwhole hdigits
  rw [hpoint, if_neg Bool.false_ne_true] at hmunch
  refine ⟨_, _, hmunch, ?_, fun hle => ?_⟩
  · rw [List.length_append, List.length_append, List.length_cons]
    omega
  · rw [List.length_append, List.length_append, List.length_cons] at hle
    have hmore : back.takeWhile Char.isDigit = [] := List.length_eq_zero_iff.mp (by omega)
    rw [hmore, List.append_nil]

theorem takes_text (hquote : isQuote c = true) (hword : c ∉ word) (back : List Char) :
    Takes (munch c (word ++ [c] ++ back)) (word ++ [c]).length (.text (.ofList word)) := by
  have hall : ∀ d ∈ word, (d != c) = true := fun d hd =>
    bne_iff_ne.mpr (ne_of_mem_of_not_mem hd hword)
  have hcontent : (word ++ [c] ++ back).takeWhile (· != c) = word := by
    rw [List.append_assoc, List.takeWhile_append_of_pos hall, List.singleton_append,
      List.takeWhile_cons_of_neg (by simp), List.append_nil]
  have hclosed : word.length < (word ++ [c] ++ back).length := by
    rw [List.length_append, List.length_append, List.length_singleton]
    omega
  obtain ⟨hstart, hdigit⟩ := not_word_of_isQuote hquote
  have hmunch : munch c (word ++ [c] ++ back) =
      .ok (.text (.ofList word), word.length + 1) := by
    simp only [munch, hstart, hdigit, hquote, hcontent, if_pos hclosed, Bool.false_eq_true,
      if_false, if_true]
  exact ⟨_, _, hmunch, Nat.le_of_eq List.length_append, fun _ => rfl⟩

/-- A character that is a symbol alone may begin a longer one. -/
theorem symbol?_of_none {symbol : Symbol} (h : symbol? c none = some (symbol, 0))
    (next : Option Char) :
    ∃ symbol' more, symbol? c next = some (symbol', more) ∧ (more ≤ 0 → symbol' = symbol) := by
  simp only [symbol?] at h ⊢
  split at h <;> cases h
  case h_23 | h_24 =>
    split
    · exact ⟨_, _, rfl, fun hle => absurd hle (by decide)⟩
    · exact ⟨_, _, rfl, fun _ => rfl⟩
  all_goals exact ⟨_, _, rfl, fun _ => rfl⟩

theorem takes_sign {symbol : Symbol} (hstart : isWordStart c = false)
    (hdigit : c.isDigit = false) (hquote : isQuote c = false)
    (hsymbol : symbol? c none = some (symbol, 0)) (back : List Char) :
    Takes (munch c back) 0 (.symbol symbol) := by
  obtain ⟨symbol', more, hfound, hsame⟩ := symbol?_of_none hsymbol back.head?
  refine ⟨.symbol symbol', more, ?_, Nat.zero_le _, fun hle => congrArg _ (hsame hle)⟩
  simp only [munch, hstart, hdigit, hquote, hfound, Bool.false_eq_true, if_false]

/-- A symbol of two characters. -/
theorem takes_signs {symbol : Symbol} {d : Char} (hstart : isWordStart c = false)
    (hdigit : c.isDigit = false) (hquote : isQuote c = false)
    (hsymbol : symbol? c (some d) = some (symbol, 1)) (back : List Char) :
    Takes (munch c ([d] ++ back)) 1 (.symbol symbol) := by
  refine ⟨.symbol symbol, 1, ?_, Nat.le_refl _, fun _ => rfl⟩
  simp only [munch, hstart, hdigit, hquote, List.singleton_append, List.head?_cons, hsymbol,
    Bool.false_eq_true, if_false]

theorem takes_symbol {symbol : Symbol} {spelling : String} (h : spelling ∈ symbol.spellings) :
    ∃ c word, spelling.toList = c :: word ∧
      ∀ back, Takes (munch c (word ++ back)) word.length (.symbol symbol) := by
  cases symbol <;>
    simp only [Symbol.spellings, Symbol.spelling, List.mem_cons, List.not_mem_nil, or_false] at h
  case ifWord | thenWord | elseWord =>
    subst h
    exact ⟨_, _, rfl, takes_word rfl (List.all_eq_true.mp rfl)⟩
  case trueWord | falseWord =>
    obtain rfl | rfl := h
    · exact ⟨_, _, rfl, takes_word rfl (List.all_eq_true.mp rfl)⟩
    · exact ⟨_, _, rfl, takes_sign rfl rfl rfl rfl⟩
  case notEqual | lessEqual | greaterEqual =>
    obtain rfl | rfl := h
    · exact ⟨_, _, rfl, takes_sign rfl rfl rfl rfl⟩
    · exact ⟨_, _, rfl, takes_signs rfl rfl rfl rfl⟩
  all_goals
    subst h
    exact ⟨_, _, rfl, takes_sign rfl rfl rfl rfl⟩

theorem wordKind_cases (s : String) :
    (∃ symbol : Symbol, s ∈ symbol.spellings ∧ wordKind s = .symbol symbol) ∨
      wordKind s = .identifier s := by
  unfold wordKind
  split
  · exact .inl ⟨.ifWord, by decide, rfl⟩
  · exact .inl ⟨.thenWord, by decide, rfl⟩
  · exact .inl ⟨.elseWord, by decide, rfl⟩
  · exact .inl ⟨.trueWord, by decide, rfl⟩
  · exact .inl ⟨.falseWord, by decide, rfl⟩
  · exact .inr rfl

/-- A symbol that is written like a word is reserved. -/
theorem wordKind_of_mem_spellings (symbol : Symbol) : ∀ spelling ∈ symbol.spellings,
    spelling.toList.head?.any isWordStart = true → wordKind spelling = .symbol symbol := by
  cases symbol <;> decide

theorem wordKind_eq_identifier {s : String} (h : ∀ symbol : Symbol, s ∉ symbol.spellings) :
    wordKind s = .identifier s := by
  rcases wordKind_cases s with ⟨symbol, hmem, -⟩ | heq
  · exact absurd hmem (h symbol)
  · exact heq

/-- A word of the form of identifiers is a token. -/
theorem lexeme_word (hstart : isWordStart c = true) (hword : ∀ d ∈ word, isWordPart d = true) :
    Lexeme (c :: word) (wordKind (.ofList (c :: word))) := by
  by_cases h : ∃ symbol : Symbol, String.ofList (c :: word) ∈ symbol.spellings
  · obtain ⟨symbol, hmem⟩ := h
    have hlexeme := Lexeme.symbol hmem
    rw [String.toList_ofList] at hlexeme
    rwa [wordKind_of_mem_spellings symbol _ hmem (by rw [String.toList_ofList]; exact hstart)]
  · have hnone := not_exists.mp h
    rw [wordKind_eq_identifier hnone]
    exact .identifier (isWordStart_iff.mp hstart) (fun d hd => isWordPart_iff.mp (hword d hd)) hnone

/-- What matches a pattern has a first character, and in whatever text it stands at the front, the
reader takes at least as much. -/
theorem Lexeme.takes (h : Lexeme word kind) :
    ∃ c more, word = c :: more ∧ ∀ back, Takes (munch c (more ++ back)) more.length kind := by
  cases h with
  | symbol hspelling => exact takes_symbol hspelling
  | @identifier c word hstart hword hnone =>
      have htakes := takes_word (isWordStart_iff.mpr hstart)
        (fun d hd => isWordPart_iff.mpr (hword d hd))
      rw [wordKind_eq_identifier hnone] at htakes
      exact ⟨c, word, rfl, htakes⟩
  | number hne hwhole =>
      obtain ⟨c, whole, rfl⟩ := List.exists_cons_of_ne_nil hne
      obtain ⟨hc, hwhole⟩ := List.forall_mem_cons.mp hwhole
      exact ⟨c, whole, rfl, takes_number hc hwhole⟩
  | fraction hne hwhole hne' hfraction =>
      obtain ⟨c, whole, rfl⟩ := List.exists_cons_of_ne_nil hne
      obtain ⟨hc, hwhole⟩ := List.forall_mem_cons.mp hwhole
      exact ⟨c, _, rfl, takes_fraction hc hwhole hne' hfraction⟩
  | text hquote hcontent => exact ⟨_, _, rfl, takes_text (isQuote_iff.mpr hquote) hcontent⟩

theorem take_length_takeWhile (test : Char → Bool) (list : List Char) :
    list.take (list.takeWhile test).length = list.takeWhile test :=
  (List.prefix_iff_eq_take.mp (List.takeWhile_prefix test)).symm

theorem lexeme_symbol {symbol : Symbol} {more : Nat}
    (h : symbol? c rest.head? = some (symbol, more)) :
    Lexeme (c :: rest.take more) (.symbol symbol) := by
  have hmem : String.ofList (c :: rest.take more) ∈ symbol.spellings := by
    simp only [symbol?] at h
    split at h
    case h_22 | h_23 | h_24 =>
      split at h
      · rename_i hnext
        obtain ⟨further, rfl⟩ := List.head?_eq_some_iff.mp (eq_of_beq hnext)
        cases h
        rw [List.take_succ_cons, List.take_zero]
        decide
      · cases h <;> (rw [List.take_zero]; decide)
    all_goals cases h <;> (rw [List.take_zero]; decide)
  have hlexeme := Lexeme.symbol hmem
  rwa [String.toList_ofList] at hlexeme

theorem all_of_takeWhile {test : Char → Bool} {list taken : List Char}
    (h : list.takeWhile test = taken) : ∀ d ∈ taken, test d = true := by
  subst h
  exact List.all_eq_true.mp List.all_takeWhile

theorem exists_of_fractionDigits_ne_nil {fraction : List Char} (hne : fraction ≠ [])
    (h : fractionDigits rest = fraction) :
    ∃ further, rest = '.' :: further ∧ further.takeWhile Char.isDigit = fraction := by
  unfold fractionDigits at h
  split at h
  · exact ⟨_, rfl, h⟩
  · exact absurd h.symm hne

theorem lexeme_number (hdigit : c.isDigit = true) {whole fraction : List Char}
    (hwhole : rest.takeWhile Char.isDigit = whole)
    (hfraction : fractionDigits (rest.drop whole.length) = fraction) :
    Lexeme (c :: rest.take (whole.length + (if fraction.isEmpty then 0 else 1) + fraction.length))
      (.number (Numeral.bits (c :: whole) fraction)) := by
  have htake : rest.take whole.length = whole := by
    rw [← hwhole, take_length_takeWhile]
  have hall : ∀ d ∈ c :: whole, d.isDigit = true :=
    List.forall_mem_cons.mpr ⟨hdigit, fun d hd => all_of_takeWhile hwhole d hd⟩
  by_cases hempty : fraction = []
  · subst hempty
    rw [List.isEmpty_nil, if_pos rfl, List.length_nil, Nat.add_zero, htake]
    exact .number (List.cons_ne_nil c whole) hall
  · obtain ⟨further, hdrop, htaken⟩ := exists_of_fractionDigits_ne_nil hempty hfraction
    have hrest : rest = whole ++ '.' :: further := by
      rw [← hdrop, ← List.take_append_drop whole.length rest, htake, List.drop_left]
    have hfurther : further.take fraction.length = fraction := by
      rw [← htaken, take_length_takeWhile]
    rw [List.isEmpty_eq_false_iff.mpr hempty, if_neg Bool.false_ne_true, hrest, Nat.add_assoc,
      List.take_length_add_append, Nat.add_comm, List.take_succ_cons, hfurther]
    exact .fraction (List.cons_ne_nil c whole) hall hempty fun d hd => all_of_takeWhile htaken d hd

theorem lexeme_text (hquote : isQuote c = true)
    (hclosed : (rest.takeWhile (· != c)).length < rest.length) :
    Lexeme (c :: rest.take ((rest.takeWhile (· != c)).length + 1))
      (.text (.ofList (rest.takeWhile (· != c)))) := by
  have hnot : c ∉ rest.takeWhile (· != c) := fun hmem =>
    absurd (all_of_takeWhile (Eq.refl (rest.takeWhile (· != c))) c hmem) (by simp)
  have hsplit := List.takeWhile_append_dropWhile (p := (· != c)) (l := rest)
  cases hdrop : rest.dropWhile (· != c) with
  | nil =>
      rw [hdrop, List.append_nil] at hsplit
      rw [hsplit] at hclosed
      exact absurd hclosed (Nat.lt_irrefl _)
  | cons d further =>
      have hd : d = c := by
        have := List.head?_dropWhile_not (· != c) rest
        rw [hdrop] at this
        simpa using this
      subst hd
      rw [hdrop] at hsplit
      have htake : rest.take ((rest.takeWhile (· != d)).length + 1) =
          rest.takeWhile (· != d) ++ [d] := by
        conv => lhs; arg 2; rw [← hsplit]
        rw [List.take_length_add_append]
        rfl
      rw [htake]
      exact .text (isQuote_iff.mp hquote) hnot

/-- What the reader takes matches a pattern. -/
theorem lexeme_of_munch {more : Nat} (h : munch c rest = .ok (kind, more)) :
    Lexeme (c :: rest.take more) kind := by
  unfold munch at h
  split at h
  · rename_i hstart
    cases h
    rw [take_length_takeWhile]
    exact lexeme_word hstart (all_of_takeWhile rfl)
  · split at h
    · rename_i hdigit
      cases h
      exact lexeme_number hdigit rfl rfl
    · split at h
      · rename_i hquote
        simp only at h
        split at h
        · rename_i hclosed
          cases h
          exact lexeme_text hquote hclosed
        · cases h
      · split at h
        · rename_i hsymbol
          cases h
          exact lexeme_symbol hsymbol
        · cases h

theorem munch_of_lexeme (h : Lexeme word kind) (hfront : word <+: c :: rest) :
    ∃ kind' more, munch c rest = .ok (kind', more) ∧ word.length ≤ more + 1 ∧
      (more + 1 ≤ word.length → kind' = kind) := by
  obtain ⟨c', more, rfl, htakes⟩ := h.takes
  obtain ⟨rfl, back, rfl⟩ := List.cons_prefix_cons.mp hfront
  obtain ⟨kind', more', hmunch, hle, hsame⟩ := htakes back
  exact ⟨kind', more', hmunch, Nat.succ_le_succ hle,
    fun hle' => hsame (Nat.le_of_succ_le_succ hle')⟩

/-- The reader finds the longest piece that matches a pattern. -/
theorem longest_iff {more : Nat} (hmore : more ≤ rest.length) :
    Longest (c :: rest.take more) kind (c :: rest) ↔ munch c rest = .ok (kind, more) := by
  have hfront (length : Nat) : c :: rest.take length <+: c :: rest :=
    List.cons_prefix_cons.mpr ⟨rfl, List.take_prefix _ _⟩
  constructor
  · rintro ⟨hlexeme, -, hlongest⟩
    obtain ⟨kind', more', hmunch, hle, hsame⟩ := munch_of_lexeme hlexeme (hfront more)
    have hmore' := (munch_append_break hmunch []).1
    have hlonger := hlongest _ _ (lexeme_of_munch hmunch) (hfront more')
    simp only [List.length_cons, List.length_take_of_le hmore, List.length_take_of_le hmore']
      at hle hsame hlonger
    obtain rfl : more' = more := by omega
    rw [hmunch, hsame (Nat.le_refl _)]
  · intro hmunch
    refine ⟨lexeme_of_munch hmunch, hfront more, fun word' kind' hlexeme' hfront' => ?_⟩
    obtain ⟨kind'', more', hmunch', hle, -⟩ := munch_of_lexeme hlexeme' hfront'
    rw [hmunch] at hmunch'
    cases hmunch'
    rw [List.length_cons, List.length_take_of_le hmore]
    exact hle

end Words
end Lexer
end Bindery
