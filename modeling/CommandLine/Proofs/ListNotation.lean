import CommandLine.Proofs.QuoteCount

/-!
# Two notations for a list of values

Values in quotes can be listed with blanks between them (`blankLine`) or
with commas, between brackets (`bracketLine`). With blanks the quotes keep
everything in a value together (`readValues_blankLine`). In brackets the
line is cut at the commas before any quote is looked at, so that an entry
never holds a comma (`comma_not_mem_of_mem_listEntries`). The two are read
alike exactly for values without commas (`notations_agree_iff`).
-/

namespace CommandLine.Config

open Text (isBlank trimChars)

/-- A value between quotes that it does not contain. -/
structure QuotedValue where
  mark : Char
  value : List Char
  isQuote_mark : isQuote mark = true
  mark_not_mem : mark ∉ value

namespace QuotedValue

/-- The value as it stands on a line. -/
def text (quoted : QuotedValue) : List Char := quoted.mark :: (quoted.value ++ [quoted.mark])

/-- Values in double quotes. -/
def double (value : List Char) (h : '"' ∉ value) : QuotedValue := ⟨'"', value, rfl, h⟩

end QuotedValue

/-- The values with blanks between them. -/
def blankLine (values : List QuotedValue) : List Char :=
  [' '].intercalate (values.map QuotedValue.text)

/-- The values in brackets, with commas between them. -/
def bracketLine (values : List QuotedValue) : List Char :=
  '[' :: ([',', ' '].intercalate (values.map QuotedValue.text) ++ [']'])

variable {quoted : QuotedValue} {values : List QuotedValue} {cs body entry : List Char}

/-! ## Blanks -/

theorem wordsFrom_text (quoted : QuotedValue) (rest : List Char) :
    wordsFrom none none (quoted.text ++ rest) = wordsFrom none (some quoted.value) rest := by
  have hquoted := wordsFrom_quoted quoted.mark_not_mem [] rest
  rw [QuotedValue.text, List.cons_append, List.append_assoc, List.singleton_append,
    wordsFrom_quote quoted.isQuote_mark]
  exact hquoted

theorem words_text (quoted : QuotedValue) : words quoted.text = [quoted.value] := by
  have htext := wordsFrom_text quoted []
  rwa [List.append_nil] at htext

theorem bracketed?_text_append (quoted : QuotedValue) (rest : List Char) :
    bracketed? (quoted.text ++ rest) = none := by
  rw [Option.eq_none_iff_forall_ne_some]
  intro body hbody
  have hmark : quoted.mark = '[' := (List.cons.inj (bracketed?_eq_some_iff.mp hbody)).1
  have hquote := quoted.isQuote_mark
  rw [hmark] at hquote
  exact absurd hquote (by decide)

theorem readValues_text (quoted : QuotedValue) : readValues quoted.text = [quoted.value] := by
  have hplain := bracketed?_text_append quoted []
  rw [List.append_nil] at hplain
  rw [readValues_of_not_bracketed hplain, words_text]

/-- Each value begins behind the blank after the last. -/
theorem words_blankLine (values : List QuotedValue) :
    words (blankLine values) = values.map (·.value) := by
  induction values with
  | nil => rfl
  | cons quoted values ih =>
      cases values with
      | nil => simpa [blankLine] using words_text quoted
      | cons next more =>
          have hline : blankLine (quoted :: next :: more) =
              quoted.text ++ ' ' :: blankLine (next :: more) := by
            simp [blankLine, List.intercalate_cons_cons]
          rw [hline, words, wordsFrom_text, wordsFrom_blank (by decide) Text.isBlank_space, ih]
          rfl

theorem readValues_blankLine (values : List QuotedValue) :
    readValues (blankLine values) = values.map (·.value) := by
  have hplain : bracketed? (blankLine values) = none := by
    match values with
    | [] => rfl
    | [quoted] => simpa [blankLine] using bracketed?_text_append quoted []
    | quoted :: next :: more =>
        simpa [blankLine, List.intercalate_cons_cons] using bracketed?_text_append quoted _
  rw [readValues_of_not_bracketed hplain, words_blankLine]

/-! ## Brackets -/

theorem trimChars_text (quoted : QuotedValue) : trimChars quoted.text = quoted.text := by
  have hmark : isBlank quoted.mark = false := isBlank_of_isQuote quoted.isQuote_mark
  have htrimmed : Text.Trimmed quoted.text := by
    refine ⟨fun c hc => ?_, fun c hc => ?_⟩
    · cases hc
      exact hmark
    · rw [QuotedValue.text, ← List.cons_append, List.getLast?_concat] at hc
      cases hc
      exact hmark
  exact htrimmed.trimChars_eq

/-- The blank behind a comma belongs to the entry that follows. -/
theorem intercalate_comma_blank (first : List Char) (parts : List (List Char)) :
    [',', ' '].intercalate (first :: parts) =
      [','].intercalate (first :: parts.map (' ' :: ·)) := by
  induction parts generalizing first with
  | nil => simp
  | cons next parts ih =>
      have hshift : [','].intercalate ((' ' :: next) :: parts.map (' ' :: ·)) =
          ' ' :: [','].intercalate (next :: parts.map (' ' :: ·)) := by
        cases parts with
        | nil => simp
        | cons => simp [List.intercalate_cons_cons]
      rw [List.map_cons, List.intercalate_cons_cons, List.intercalate_cons_cons, hshift, ih]
      simp

/-- The entries of the list are the quoted values, if there is no other comma in it. -/
theorem listEntries_of_commaless (h : ∀ quoted ∈ values, ',' ∉ quoted.value) :
    listEntries ([',', ' '].intercalate (values.map QuotedValue.text)) =
      values.map QuotedValue.text := by
  have htext : ∀ quoted ∈ values, ',' ∉ quoted.text := by
    intro quoted hquoted hmem
    rw [QuotedValue.text, List.mem_cons, List.mem_append, List.mem_singleton] at hmem
    have hmark : ',' ≠ quoted.mark := by
      intro heq
      have hquote := quoted.isQuote_mark
      rw [← heq] at hquote
      exact absurd hquote (by decide)
    rcases hmem with heq | hmem | heq
    · exact hmark heq
    · exact h quoted hquoted hmem
    · exact hmark heq
  cases values with
  | nil => rfl
  | cons quoted values =>
      obtain ⟨hfirst, hothers⟩ := List.forall_mem_cons.mp htext
      have hpieces : ∀ piece ∈ quoted.text :: (values.map QuotedValue.text).map (' ' :: ·),
          ',' ∉ piece := by
        refine List.forall_mem_cons.mpr ⟨hfirst, fun piece hpiece => ?_⟩
        rw [List.map_map] at hpiece
        obtain ⟨other, hother, rfl⟩ := List.mem_map.mp hpiece
        simpa using hothers other hother
      have htrim : (quoted.text :: (values.map QuotedValue.text).map (' ' :: ·)).map trimChars =
          (quoted :: values).map QuotedValue.text := by
        simp [trimChars_text, Text.trimChars_cons Text.isBlank_space]
      rw [listEntries, List.map_cons, intercalate_comma_blank,
        List.splitOn_intercalate ',' hpieces (List.cons_ne_nil _ _), htrim]
      exact List.filter_eq_self.mpr fun entry hentry => by
        obtain ⟨other, -, rfl⟩ := List.mem_map.mp hentry
        rfl

theorem not_mem_of_mem_splitOn {sep : Char} (h : entry ∈ cs.splitOn sep) : sep ∉ entry := by
  induction cs generalizing entry with
  | nil =>
      rw [List.splitOn_nil, List.mem_singleton] at h
      rw [h]
      exact List.not_mem_nil
  | cons c cs ih =>
      rw [List.splitOn_cons_eq_if_modifyHead] at h
      split at h
      · rcases List.mem_cons.mp h with rfl | h
        · exact List.not_mem_nil
        · exact ih h
      · next hc =>
          obtain ⟨first, pieces, hpieces⟩ := List.exists_cons_of_ne_nil (List.splitOn_ne_nil sep cs)
          rw [hpieces] at h ih
          rcases List.mem_cons.mp h with rfl | h
          · rw [List.mem_cons, not_or]
            exact ⟨fun heq => hc (by rw [heq, beq_self_eq_true]), ih List.mem_cons_self⟩
          · exact ih (List.mem_cons_of_mem _ h)

theorem comma_not_mem_of_mem_listEntries (h : entry ∈ listEntries body) : ',' ∉ entry := by
  obtain ⟨piece, hpiece, rfl⟩ := List.mem_map.mp (List.mem_of_mem_filter h)
  exact fun hmem => not_mem_of_mem_splitOn hpiece ((trimChars_sublist piece).mem hmem)

/-- What is read from a list in brackets holds no comma, whatever its quotes say. -/
theorem comma_not_mem_of_bracketed (hbody : bracketed? cs = some body) :
    ∀ value ∈ readValues cs, ',' ∉ value := by
  intro value hvalue hcomma
  rw [readValues_of_bracketed hbody] at hvalue
  obtain ⟨entry, hentry, hvalue⟩ := List.mem_flatMap.mp hvalue
  exact comma_not_mem_of_mem_listEntries hentry
    ((flatten_readValues_sublist entry).mem (List.mem_flatten.mpr ⟨value, hvalue, hcomma⟩))

theorem bracketed?_bracketLine (values : List QuotedValue) :
    bracketed? (bracketLine values) =
      some ([',', ' '].intercalate (values.map QuotedValue.text)) :=
  bracketed?_eq_some_iff.mpr rfl

theorem readValues_bracketLine (h : ∀ quoted ∈ values, ',' ∉ quoted.value) :
    readValues (bracketLine values) = values.map (·.value) := by
  rw [readValues_of_bracketed (bracketed?_bracketLine values), listEntries_of_commaless h,
    List.flatMap_map, List.map_eq_flatMap]
  exact List.flatMap_congr fun quoted _ => readValues_text quoted

/-! ## Both -/

/-- Quoted values that blanks separate are read as they are. In brackets they are read as the
same values if and only if no value holds a comma. -/
theorem notations_agree_iff (values : List QuotedValue) :
    readValues (blankLine values) = values.map (·.value) ∧
      (readValues (bracketLine values) = readValues (blankLine values) ↔
        ∀ quoted ∈ values, ',' ∉ quoted.value) := by
  have hblank := readValues_blankLine values
  refine ⟨hblank, fun hagree quoted hquoted => ?_, fun h => ?_⟩
  · rw [hblank] at hagree
    refine comma_not_mem_of_bracketed (bracketed?_bracketLine values) quoted.value ?_
    rw [hagree]
    exact List.mem_map_of_mem hquoted
  · rw [hblank, readValues_bracketLine h]

/-- In brackets a comma ends the entry, although it stands between quotes. -/
theorem quoted_comma_splits :
    ¬∀ values : List QuotedValue, values ≠ [] →
      readValues (bracketLine values) = values.map (·.value) ∧
        readValues (blankLine values) = values.map (·.value) := by
  intro h
  obtain ⟨hread, -⟩ := h [.double "x,y".toList (by decide)] (by simp)
  have hsplit : readValues "[\"x,y\"]".toList = [['x'], ['y']] := by cbv
  have hline : bracketLine [.double "x,y".toList (by decide)] = "[\"x,y\"]".toList := by
    decide +kernel
  rw [hline, hsplit] at hread
  exact absurd hread (by decide)

end CommandLine.Config
