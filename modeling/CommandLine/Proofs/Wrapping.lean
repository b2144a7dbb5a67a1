import CommandLine.Help.Wrap
import CommandLine.Proofs.ListNotation
import Mathlib.Algebra.Order.BigOperators.Group.List
import Mathlib.Algebra.Order.Group.Nat

/-!
# What wrapping makes of words

A line of wrapped text begins with a character of a word and is no wider
than it may be (`Wrap.Fits`). That goes for the parts of a word that is
cut (`Wrap.fits_breakWord`), and for whatever words are set into lines
(`Wrap.fits_wrap`). A paragraph that fits on one line as it stands, with
all its spaces, is set on one line (`Wrap.wrap_of_length_le`).
-/

namespace CommandLine.Wrap

variable {width : Nat} {word line paragraph : List Char} {words : List (List Char)}

/-! ## Words -/

/-- What stands between spaces: there is something, and no space. -/
structure IsWord (word : List Char) : Prop where
  ne_nil : word ≠ []
  spaceless : ' ' ∉ word

theorem isWord_of_mem_paragraphWords (h : word ∈ paragraphWords paragraph) : IsWord word := by
  obtain ⟨hpiece, hne⟩ := List.mem_filter.mp h
  exact ⟨by simpa using hne, Config.not_mem_of_mem_splitOn hpiece⟩

theorem IsWord.ne_space (h : IsWord word) : ∀ c ∈ word.head?, c ≠ ' ' := by
  rintro c hc rfl
  exact h.spaceless (List.mem_of_mem_head? hc)

/-! ## Lines that fit -/

/-- The line begins with text, and is not too wide. -/
structure Fits (width : Nat) (line : List Char) : Prop where
  start : ∃ c ∈ line.head?, c ≠ ' '
  length_le : line.length ≤ width

theorem Fits.ne_nil (h : Fits width line) : line ≠ [] := by
  rintro rfl
  obtain ⟨c, hc, -⟩ := h.start
  cases hc

theorem IsWord.fits (h : IsWord word) (hlength : word.length ≤ width) : Fits width word := by
  obtain ⟨c, rest, rfl⟩ := List.exists_cons_of_ne_nil h.ne_nil
  exact ⟨⟨c, rfl, h.ne_space c rfl⟩, hlength⟩

theorem breakWord_of_length_le (h : word.length ≤ width) : breakWord width word = ([], word) := by
  rw [breakWord, dif_neg fun hcut => Nat.not_lt_of_le h hcut.2]

theorem breakWord_of_lt (hwidth : 2 ≤ width) (h : width < word.length) :
    breakWord width word =
      ((word.take (width - 1) ++ ['-']) :: (breakWord width (word.drop (width - 1))).1,
        (breakWord width (word.drop (width - 1))).2) := by
  rw [breakWord, dif_pos ⟨hwidth, h⟩]

/-- What is left of a word behind a cut is a word. -/
theorem IsWord.drop (h : IsWord word) (hlength : width < word.length) :
    IsWord (word.drop (width - 1)) where
  ne_nil := by
    rw [Ne, List.drop_eq_nil_iff]
    omega
  spaceless hmem := h.spaceless (List.mem_of_mem_drop hmem)

/-- The part in front of a cut fills its line, with the hyphen. -/
theorem IsWord.fits_take (h : IsWord word) (hwidth : 2 ≤ width) (hlength : width < word.length) :
    Fits width (word.take (width - 1) ++ ['-']) where
  start := by
    obtain ⟨c, rest, rfl⟩ := List.exists_cons_of_ne_nil h.ne_nil
    obtain ⟨n, hn⟩ := Nat.exists_eq_succ_of_ne_zero (by omega : width - 1 ≠ 0)
    rw [hn]
    exact ⟨c, rfl, h.ne_space c rfl⟩
  length_le := by
    rw [List.length_append, List.length_take, List.length_singleton]
    omega

theorem fits_breakWord (hwidth : 2 ≤ width) (h : IsWord word) :
    (∀ line ∈ (breakWord width word).1, Fits width line) ∧
      Fits width (breakWord width word).2 := by
  induction hn : word.length using Nat.strong_induction_on generalizing word with
  | _ n ih =>
      by_cases hlength : width < word.length
      · rw [breakWord_of_lt hwidth hlength, List.forall_mem_cons]
        have hshorter : (word.drop (width - 1)).length < n := by
          rw [List.length_drop]
          omega
        obtain ⟨hcut, htail⟩ := ih _ hshorter (h.drop hlength) rfl
        exact ⟨⟨h.fits_take hwidth hlength, hcut⟩, htail⟩
      · rw [breakWord_of_length_le (Nat.le_of_not_lt hlength)]
        exact ⟨nofun, h.fits (Nat.le_of_not_lt hlength)⟩

/-- A line to which a word is added still fits, as the space between them is counted. -/
theorem Fits.append_word (h : Fits width line) (hroom : line.length + word.length < width) :
    Fits width (line ++ ' ' :: word) where
  start := by
    rw [List.head?_append_of_ne_nil _ h.ne_nil]
    exact h.start
  length_le := by
    rw [List.length_append, List.length_cons]
    omega

theorem fits_fill (hwidth : 2 ≤ width) (hwords : ∀ word ∈ words, IsWord word)
    (hline : line ≠ [] → Fits width line) : ∀ set ∈ fill width line words, Fits width set := by
  induction words generalizing line with
  | nil =>
      rw [fill]
      split
      · exact nofun
      · next hne => simpa using hline (by simpa using hne)
  | cons word words ih =>
      obtain ⟨hword, hwords⟩ := List.forall_mem_cons.mp hwords
      obtain ⟨hcut, htail⟩ := fits_breakWord hwidth hword
      have hrest := ih hwords fun _ => htail
      simp only [fill]
      split
      · exact List.forall_mem_append.mpr ⟨hcut, hrest⟩
      · next hne =>
          have hline := hline (by simpa using hne)
          split
          · next hroom => exact ih hwords fun _ => hline.append_word hroom
          · rw [List.cons_append, List.forall_mem_cons]
            exact ⟨hline, List.forall_mem_append.mpr ⟨hcut, hrest⟩⟩

/-- Every line of wrapped text fits. -/
theorem fits_wrap (hwidth : 2 ≤ width) (paragraph : List Char) :
    ∀ line ∈ wrap width paragraph, Fits width line :=
  fits_fill hwidth (fun _ => isWord_of_mem_paragraphWords) fun hne => absurd rfl hne

/-- Setting words into lines leaves at least one line. -/
theorem fill_ne_nil (hline : line ≠ []) : fill width line words ≠ [] := by
  induction words generalizing line with
  | nil => simp [fill, hline]
  | cons word words ih =>
      simp only [fill, List.isEmpty_iff, hline, if_false]
      split
      · exact ih (by simp)
      · exact List.cons_ne_nil _ _

/-- Only a paragraph without words has no lines. -/
theorem wrap_eq_nil (hwidth : 2 ≤ width) :
    wrap width paragraph = [] ↔ paragraphWords paragraph = [] := by
  rw [wrap]
  cases hwords : paragraphWords paragraph with
  | nil => simp [fill]
  | cons word words =>
      have hword : IsWord word := isWord_of_mem_paragraphWords (hwords ▸ List.mem_cons_self)
      have htail := (fits_breakWord hwidth hword).2.ne_nil
      simp [fill, fill_ne_nil htail]

/-! ## Paragraphs of one line -/

/-- The length that words take up behind a line, each with a space before it. -/
def spacedLength (words : List (List Char)) : Nat := (words.map (·.length + 1)).sum

theorem fill_of_spacedLength (hline : line ≠ [])
    (h : line.length + spacedLength words ≤ width) :
    fill width line words = [line ++ words.flatMap (' ' :: ·)] := by
  induction words generalizing line with
  | nil => simp [fill, hline]
  | cons word words ih =>
      have hnext : line.length + (word.length + 1 + spacedLength words) ≤ width := h
      have hroom : line.length + word.length < width := by omega
      have hfits : (line ++ ' ' :: word).length + spacedLength words ≤ width := by
        rw [List.length_append, List.length_cons]
        omega
      simp only [fill, List.isEmpty_iff, hline, if_false, if_pos hroom]
      rw [ih (by simp) hfits, List.flatMap_cons, List.append_assoc]

theorem spacedLength_splitOn (cs : List Char) :
    spacedLength (cs.splitOn ' ') = cs.length + 1 := by
  have hjoined : ∀ parts : List (List Char), parts ≠ [] →
      spacedLength parts = ([' '].intercalate parts).length + 1 := by
    intro parts hne
    induction parts with
    | nil => exact absurd rfl hne
    | cons part parts ih =>
        cases parts with
        | nil => simp [spacedLength]
        | cons next more =>
            have hrest := ih (List.cons_ne_nil _ _)
            rw [List.intercalate_cons_cons, List.length_append, List.length_append,
              List.length_singleton, spacedLength, List.map_cons, List.sum_cons, ← spacedLength,
              hrest]
            omega
  rw [hjoined _ (List.splitOn_ne_nil _ _), List.intercalate_splitOn]

/-- Spaces between words are at least as many as it takes to tell the words apart. -/
theorem spacedLength_paragraphWords_le (paragraph : List Char) :
    spacedLength (paragraphWords paragraph) ≤ paragraph.length + 1 := by
  rw [← spacedLength_splitOn]
  exact (List.filter_sublist.map _).sum_le_sum fun _ _ => Nat.zero_le _

/-- A paragraph that is no longer than a line is set on one line. -/
theorem wrap_of_length_le (h : paragraph.length ≤ width) {first : List Char}
    (hwords : paragraphWords paragraph = first :: words) :
    wrap width paragraph = [first ++ words.flatMap (' ' :: ·)] := by
  have hlength := spacedLength_paragraphWords_le paragraph
  rw [hwords] at hlength
  have hspaced : first.length + 1 + spacedLength words ≤ paragraph.length + 1 := hlength
  have hfirst : IsWord first :=
    isWord_of_mem_paragraphWords (hwords ▸ List.mem_cons_self)
  rw [wrap, hwords, fill, breakWord_of_length_le (by omega)]
  exact fill_of_spacedLength hfirst.ne_nil (by omega)

end CommandLine.Wrap
