import Bindery.Token.Lexer

/-!
Reading a text line by line. Where a text can be read as tokens, a line break after it ends its last
token and its last comment, so that what follows is read as if it stood alone, further on in the
text.
-/

namespace Bindery

/-- The same stretch, so many bytes further on. -/
def Span.shift (distance : Nat) (span : Span) : Span :=
  ⟨span.start + distance, span.stop + distance⟩

def Token.shift {α : Type} (distance : Nat) (token : Token α) : Token α :=
  { token with span := token.span.shift distance }

def LexError.shift (distance : Nat) : LexError → LexError
  | .unexpectedCharacter found span => .unexpectedCharacter found (span.shift distance)
  | .unterminatedText span => .unterminatedText (span.shift distance)
  | .sourceTooLarge => .sourceTooLarge

/-- The layout of what follows a gap with a line break. -/
def Layout.afterBreak : Layout := ⟨true, true, false⟩

/-- The same tokens with a line break before them. -/
def onNewLine {α : Type} : List (Token α) → List (Token α)
  | [] => []
  | token :: rest => { token with layout := .afterBreak } :: rest

/-- The tokens of a text, up to the first fault. -/
def tokensOf (text : String) : List (Token String) := (Lexer.scan 0 true text.toList).tokens

/-- The token with which a text starts. -/
def firstToken? (text : String) : Option (TokenKind String) := (tokensOf text).head?.map (·.kind)

theorem utf8Length_append (front back : List Char) :
    utf8Length (front ++ back) = utf8Length front + utf8Length back := by
  induction front with
  | nil => exact (Nat.zero_add _).symm
  | cons c front ih =>
      simp only [utf8Length, List.cons_append, List.foldr_cons] at ih ⊢
      omega

theorem utf8ByteSize_ofList (characters : List Char) :
    (String.ofList characters).utf8ByteSize = utf8Length characters := by
  induction characters with
  | nil => rfl
  | cons c characters ih =>
      have hcons : String.ofList (c :: characters) =
          String.singleton c ++ String.ofList characters := by
        rw [String.singleton_eq_ofList, ← String.ofList_append]
        rfl
      rw [hcons, String.utf8ByteSize_append, String.utf8ByteSize_singleton, ih]
      rfl

theorem utf8Length_toList (text : String) : utf8Length text.toList = text.utf8ByteSize := by
  rw [← utf8ByteSize_ofList, String.ofList_toList]

theorem takeWhile_append_of_not {α : Type} {test : α → Bool} {breaker : α}
    (hbreaker : test breaker = false) (front back : List α) :
    (front ++ breaker :: back).takeWhile test = front.takeWhile test := by
  induction front with
  | nil => simp only [List.nil_append, List.takeWhile_cons, hbreaker, List.takeWhile_nil,
      Bool.false_eq_true, if_false]
  | cons c front ih => simp only [List.cons_append, List.takeWhile_cons, ih]

namespace Lexer

variable {text further : List Char}

theorem head?_append_break {c : Char} (hc : c ≠ '\n') (front further : List Char) :
    ((front ++ '\n' :: further).head? == some c) = (front.head? == some c) := by
  cases front with
  | nil => simpa using hc.symm
  | cons d front => rfl

theorem gapLength_of_eq_length {inComment : Bool} (h : gapLength inComment text = text.length) :
    gapLength inComment (text ++ '\n' :: further) = text.length + 1 + gapLength false further := by
  fun_induction gapLength inComment text with
  | case1 inComment =>
      cases inComment <;> simp [gapLength, isBlank, Nat.add_comm]
  | case2 c rest ih =>
      simp only [List.cons_append, gapLength, ih (Nat.succ.inj h), List.length_cons]
      omega
  | case3 c rest hblank ih =>
      simp only [List.cons_append, gapLength, hblank, if_true, ih (Nat.succ.inj h),
        List.length_cons]
      omega
  | case4 c rest hblank hslash ih =>
      simp only [List.cons_append, gapLength, hblank, head?_append_break (by decide : '/' ≠ '\n'),
        hslash, if_true, ih (Nat.succ.inj h), List.length_cons, Bool.false_eq_true, if_false]
      omega
  | case5 c rest => simp at h

theorem gapLength_of_lt {inComment : Bool} (h : gapLength inComment text < text.length) :
    gapLength inComment (text ++ '\n' :: further) = gapLength inComment text := by
  fun_induction gapLength inComment text with
  | case1 => exact absurd h (Nat.not_lt_zero _)
  | case2 c rest ih =>
      simp only [List.cons_append, gapLength, ih (Nat.lt_of_succ_lt_succ h)]
  | case3 c rest hblank ih =>
      simp only [List.cons_append, gapLength, hblank, if_true, ih (Nat.lt_of_succ_lt_succ h)]
  | case4 c rest hblank hslash ih =>
      simp only [List.cons_append, gapLength, hblank, head?_append_break (by decide : '/' ≠ '\n'),
        hslash, if_true, ih (Nat.lt_of_succ_lt_succ h), Bool.false_eq_true, if_false]
  | case5 c rest hblank hslash =>
      simp only [List.cons_append, gapLength, hblank, head?_append_break (by decide : '/' ≠ '\n'),
        hslash, Bool.false_eq_true, if_false]

theorem fractionDigits_of_ne {c : Char} (hc : c ≠ '.') (rest : List Char) :
    fractionDigits (c :: rest) = [] := by
  unfold fractionDigits
  split
  · rename_i heq
    exact absurd (List.cons.inj heq).1 hc
  · rfl

theorem fractionDigits_append_break (front further : List Char) :
    fractionDigits (front ++ '\n' :: further) = fractionDigits front := by
  cases front with
  | nil => rfl
  | cons c front =>
      by_cases hc : c = '.'
      · subst hc
        exact takeWhile_append_of_not rfl front further
      · rw [List.cons_append, fractionDigits_of_ne hc, fractionDigits_of_ne hc]

theorem symbol?_append_break (c : Char) (front further : List Char) :
    symbol? c (front ++ '\n' :: further).head? = symbol? c front.head? := by
  simp only [symbol?, head?_append_break (by decide : '=' ≠ '\n')]

theorem symbol?_length {c : Char} {rest : List Char} {symbol : Symbol} {more : Nat}
    (h : symbol? c rest.head? = some (symbol, more)) : more ≤ rest.length := by
  cases rest with
  | nil =>
      simp only [symbol?, List.head?_nil] at h
      split at h <;> cases h <;> exact Nat.le_refl _
  | cons d rest =>
      have hle : more ≤ 1 := by
        simp only [symbol?] at h
        split at h <;> try split at h
        all_goals cases h <;> decide
      exact Nat.le_trans hle (Nat.succ_le_succ (Nat.zero_le _))

theorem takeWhile_append_of_lt {α : Type} {test : α → Bool} {front : List α} (back : List α)
    (h : (front.takeWhile test).length < front.length) :
    (front ++ back).takeWhile test = front.takeWhile test := by
  induction front with
  | nil => exact absurd h (Nat.lt_irrefl _)
  | cons c front ih =>
      simp only [List.cons_append, List.takeWhile_cons] at h ⊢
      split
      · rename_i htest
        rw [if_pos htest] at h
        rw [ih (Nat.lt_of_succ_lt_succ h)]
      · rfl

theorem length_takeWhile_le {α : Type} (test : α → Bool) (list : List α) :
    (list.takeWhile test).length ≤ list.length :=
  (List.takeWhile_prefix test).length_le

theorem fractionLength_le (text : List Char) :
    (if (fractionDigits text).isEmpty then 0 else 1) + (fractionDigits text).length ≤
      text.length := by
  cases text with
  | nil => exact Nat.le_refl _
  | cons c rest =>
      by_cases hc : c = '.'
      · subst hc
        have hle : (fractionDigits ('.' :: rest)).length ≤ rest.length :=
          length_takeWhile_le _ rest
        rw [List.length_cons]
        split <;> omega
      · rw [fractionDigits_of_ne hc]
        exact Nat.zero_le _

/-- A token ends before a line break. -/
theorem munch_append_break {c : Char} {rest : List Char} {kind : TokenKind String} {more : Nat}
    (h : munch c rest = .ok (kind, more)) (further : List Char) :
    more ≤ rest.length ∧ munch c (rest ++ '\n' :: further) = .ok (kind, more) := by
  unfold munch at h ⊢
  split at h
  · rename_i hword
    cases h
    rw [if_pos hword, takeWhile_append_of_not (by decide)]
    exact ⟨length_takeWhile_le _ _, rfl⟩
  · rename_i hword
    rw [if_neg hword]
    split at h
    · rename_i hdigit
      have hwhole := length_takeWhile_le Char.isDigit rest
      have hfraction := fractionLength_le (rest.drop (rest.takeWhile Char.isDigit).length)
      rw [List.length_drop] at hfraction
      cases h
      refine ⟨by omega, ?_⟩
      simp only [if_pos hdigit, takeWhile_append_of_not (by decide : Char.isDigit '\n' = false),
        List.drop_append_of_le_length hwhole, fractionDigits_append_break]
    · rename_i hdigit
      rw [if_neg hdigit]
      split at h
      · rename_i hquote
        simp only at h
        split at h
        · rename_i hclosed
          cases h
          have hlength : (rest ++ '\n' :: further).length = rest.length + (further.length + 1) :=
            List.length_append
          refine ⟨hclosed, ?_⟩
          simp only [if_pos hquote, takeWhile_append_of_lt _ hclosed]
          rw [if_pos (by omega)]
        · cases h
      · rename_i hquote
        rw [if_neg hquote, symbol?_append_break]
        split at h
        · rename_i symbol length hsymbol
          cases h
          exact ⟨symbol?_length hsymbol, rfl⟩
        · cases h

/-- What is read after a gap. -/
def scanFrom (start : Nat) (layout : Layout) : List Char → Scan
  | [] => ⟨[], .ok ⟨start, layout⟩⟩
  | c :: rest =>
    match munch c rest with
    | .error .unexpected => ⟨[], .error (.unexpectedCharacter c ⟨start, start + c.utf8Size⟩)⟩
    | .error .unterminated =>
      ⟨[], .error (.unterminatedText ⟨start, start + utf8Length (c :: rest)⟩)⟩
    | .ok (kind, more) =>
      let stop := start + utf8Length (c :: rest.take more)
      let later := scan stop false (rest.drop more)
      { later with tokens := ⟨kind, ⟨start, stop⟩, layout⟩ :: later.tokens }

theorem scan_eq (offset : Nat) (first : Bool) (text : List Char) :
    scan offset first text =
      scanFrom (offset + utf8Length (text.take (gapLength false text)))
        (.ofGap (text.take (gapLength false text)) first) (text.drop (gapLength false text)) := by
  rw [scan]
  cases text.drop (gapLength false text) with
  | nil => rfl
  | cons c rest => rfl

/-- What holds of all texts if it holds of those that are nothing but a gap, of those where no token
can be read after the gap, and of a text whenever it holds of what follows its first token. -/
theorem scan_induction {motive : List Char → Prop}
    (gap : ∀ text, text.drop (gapLength false text) = [] → motive text)
    (stuck : ∀ text c rest misread, text.drop (gapLength false text) = c :: rest →
      munch c rest = .error misread → motive text)
    (token : ∀ text c rest kind more, text.drop (gapLength false text) = c :: rest →
      munch c rest = .ok (kind, more) → motive (rest.drop more) → motive text) :
    ∀ text, motive text := by
  intro text
  induction h : text.length using Nat.strongRecOn generalizing text with
  | ind length ih =>
      subst h
      cases hrest : text.drop (gapLength false text) with
      | nil => exact gap text hrest
      | cons c rest =>
          have hlength := congrArg List.length hrest
          simp only [List.length_drop, List.length_cons] at hlength
          cases hmunch : munch c rest with
          | error misread => exact stuck text c rest misread hrest hmunch
          | ok found =>
              obtain ⟨kind, more⟩ := found
              -- A token has at least its first character.
              refine token text c rest kind more hrest hmunch (ih _ ?_ _ rfl)
              rw [List.length_drop]
              omega

def Scan.shift (distance : Nat) (scan : Scan) : Scan where
  tokens := scan.tokens.map (·.shift distance)
  outcome :=
    match scan.outcome with
    | .ok mark => .ok { mark with offset := mark.offset + distance }
    | .error error => .error (error.shift distance)

/-- The same tokens with a line break before the first of them, or before the end. -/
def Scan.afterBreak (scan : Scan) : Scan :=
  match scan.tokens with
  | [] => { scan with outcome := scan.outcome.map fun mark => { mark with layout := .afterBreak } }
  | token :: rest => { scan with tokens := { token with layout := .afterBreak } :: rest }

def Scan.after (tokens : List (Token String)) (scan : Scan) : Scan :=
  { scan with tokens := tokens ++ scan.tokens }

theorem scanFrom_afterBreak (start : Nat) (layout : Layout) (rest : List Char) :
    (scanFrom start layout rest).afterBreak = scanFrom start .afterBreak rest := by
  cases rest with
  | nil => rfl
  | cons c rest =>
      simp only [scanFrom]
      split <;> rfl

/-- Nothing that is read depends on how far on in the text it stands. -/
theorem scan_shift (distance offset : Nat) (first : Bool) (text : List Char) :
    scan (offset + distance) first text = (scan offset first text).shift distance := by
  induction text using scan_induction generalizing offset first with
  | gap text hrest =>
      rw [scan_eq, scan_eq, hrest, Nat.add_right_comm]
      rfl
  | stuck text c rest misread hrest hmunch =>
      rw [scan_eq, scan_eq, hrest, Nat.add_right_comm]
      simp only [scanFrom, hmunch]
      cases misread <;> simp [Scan.shift, LexError.shift, Span.shift, Nat.add_right_comm]
  | token text c rest kind more hrest hmunch ih =>
      rw [scan_eq, scan_eq, hrest, Nat.add_right_comm]
      simp only [scanFrom, hmunch, Nat.add_right_comm _ distance, ih]
      rfl

/-- A text that is read to its end is read over its whole length. -/
theorem offset_of_scan {offset : Nat} {first : Bool} {text : List Char} {mark : EndMark}
    (h : (scan offset first text).outcome = .ok mark) : mark.offset = offset + utf8Length text := by
  induction text using scan_induction generalizing offset first with
  | gap text hrest =>
      rw [scan_eq, hrest] at h
      cases h
      have htake := List.take_append_drop (gapLength false text) text
      rw [hrest, List.append_nil] at htake
      rw [htake]
  | stuck text c rest misread hrest hmunch =>
      rw [scan_eq, hrest] at h
      simp only [scanFrom, hmunch] at h
      cases misread <;> cases h
  | token text c rest kind more hrest hmunch ih =>
      rw [scan_eq, hrest] at h
      simp only [scanFrom, hmunch] at h
      have hlength := congrArg utf8Length (List.take_append_drop (gapLength false text) text)
      have hlength' := congrArg utf8Length (List.take_append_drop more rest)
      rw [hrest, utf8Length_append] at hlength
      rw [utf8Length_append] at hlength'
      rw [ih h]
      simp only [utf8Length, List.foldr_cons] at hlength hlength' ⊢
      omega

theorem ofGap_break (front further : List Char) (first : Bool) :
    Layout.ofGap (front ++ '\n' :: further) first = .afterBreak := by
  simp [Layout.ofGap, Layout.afterBreak]

/-- After a text that is read to its end, a line break sets off whatever follows. -/
theorem scan_append_break {offset : Nat} {first : Bool} {text further : List Char} {mark : EndMark}
    (h : (scan offset first text).outcome = .ok mark) :
    scan offset first (text ++ '\n' :: further) =
      (scan (mark.offset + 1) true further).afterBreak.after (scan offset first text).tokens := by
  induction text using scan_induction generalizing offset first with
  | gap text hrest =>
      -- The gap at the end of the text, the line break and the gap after it are one gap.
      have hlength : gapLength false text = text.length :=
        Nat.le_antisymm (gapLength_le _ _) (List.drop_eq_nil_iff.mp hrest)
      have htake : (text ++ '\n' :: further).take (text.length + 1 + gapLength false further) =
          text ++ '\n' :: further.take (gapLength false further) := by
        rw [Nat.add_assoc, List.take_length_add_append, Nat.add_comm 1, List.take_succ_cons]
      have hdrop : (text ++ '\n' :: further).drop (text.length + 1 + gapLength false further) =
          further.drop (gapLength false further) := by
        rw [Nat.add_assoc, List.drop_length_add_append, Nat.add_comm 1, List.drop_succ_cons]
      have htokens : (scan offset first text).tokens = [] := by
        rw [scan_eq, hrest]
        rfl
      have hstart : utf8Length (text ++ '\n' :: further.take (gapLength false further)) =
          utf8Length text + 1 + utf8Length (further.take (gapLength false further)) := by
        rw [utf8Length_append, Nat.add_assoc]
        rfl
      rw [htokens, offset_of_scan h, scan_eq, gapLength_of_eq_length hlength, htake, hdrop,
        ofGap_break, scan_eq _ true, scanFrom_afterBreak, hstart, ← Nat.add_assoc, ← Nat.add_assoc]
      rfl
  | stuck text c rest misread hrest hmunch =>
      rw [scan_eq, hrest] at h
      simp only [scanFrom, hmunch] at h
      cases misread <;> cases h
  | token text c rest kind more hrest hmunch ih =>
      have hlt : gapLength false text < text.length := by
        have hlength := congrArg List.length hrest
        rw [List.length_drop, List.length_cons] at hlength
        omega
      obtain ⟨hmore, hmunch'⟩ := munch_append_break hmunch further
      have hle := Nat.le_of_lt hlt
      rw [scan_eq, hrest] at h
      simp only [scanFrom, hmunch] at h
      rw [scan_eq, scan_eq offset first text, gapLength_of_lt hlt,
        List.take_append_of_le_length hle, List.drop_append_of_le_length hle, hrest,
        List.cons_append]
      simp only [scanFrom, hmunch, hmunch', List.take_append_of_le_length hmore,
        List.drop_append_of_le_length hmore, ih h]
      rfl

theorem Scan.tokens_afterBreak (scan : Scan) :
    scan.afterBreak.tokens = onNewLine scan.tokens := by
  unfold Scan.afterBreak
  cases scan.tokens with
  | nil => rfl
  | cons token rest => rfl

theorem scan_lines {front : String} {mark : EndMark}
    (h : (scan 0 true front.toList).outcome = .ok mark) (back : String) :
    scan 0 true (front ++ "\n" ++ back).toList =
      ((scan 0 true back.toList).shift (front.utf8ByteSize + 1)).afterBreak.after
        (tokensOf front) := by
  have htext : (front ++ "\n" ++ back).toList = front.toList ++ '\n' :: back.toList := by
    rw [String.toList_append, String.toList_append, List.append_assoc]
    rfl
  rw [htext, scan_append_break h, offset_of_scan h, utf8Length_toList, ← scan_shift]
  simp only [Nat.zero_add]
  rfl

theorem outcome_lines {front back : String} {mark mark' : EndMark}
    (h : (scan 0 true front.toList).outcome = .ok mark)
    (h' : (scan 0 true back.toList).outcome = .ok mark') :
    ∃ last, (scan 0 true (front ++ "\n" ++ back).toList).outcome = .ok last := by
  rw [scan_lines h]
  simp only [Scan.after, Scan.afterBreak, Scan.shift, h']
  split <;> exact ⟨_, rfl⟩

/-- The tokens of two texts, the second on the lines after the first. -/
theorem tokensOf_lines {front : String} {mark : EndMark}
    (h : (scan 0 true front.toList).outcome = .ok mark) (back : String) :
    tokensOf (front ++ "\n" ++ back) =
      tokensOf front ++ onNewLine ((tokensOf back).map (·.shift (front.utf8ByteSize + 1))) := by
  rw [tokensOf, scan_lines h, Scan.after, Scan.tokens_afterBreak]
  rfl

end Lexer
end Bindery
