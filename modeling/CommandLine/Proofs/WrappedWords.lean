import CommandLine.Proofs.HelpLayout

/-!
# Wrapping loses no text

Wrapped text consists of the words that it was made of, in their order,
but for the spaces between words and the hyphens at cuts. A word is taken
to pieces by `Cut`, for as long as that takes, and a `Line` holds pieces:
one that ends in a hyphen, or any number of them that are whole words or
the ends of words. Read piece by piece, the lines are the words
(`Sets`), and this settles what else there is to say (`words_kept`): a
word that fits on a line is not cut, no character is lost, and since
there is some text on every line, wrapping comes to an end.
-/

namespace CommandLine.Wrap

/-- A piece of a word. -/
inductive Piece where
  /-- A part in front of a cut. -/
  | part (chars : List Char)
  /-- What is left of the word behind its last cut, or all of it. -/
  | tail (chars : List Char)
  deriving DecidableEq

def Piece.chars : Piece → List Char
  | part chars | tail chars => chars

/-- The pieces of a word. While it is wider than a line, a part is cut off that fills the line
together with a hyphen. Nothing in this says that there is ever an end to it. -/
inductive Cut (width : Nat) : List Char → List Piece → Prop
  | tail {word : List Char} (h : word.length ≤ width) : Cut width word [.tail word]
  | part {word : List Char} {pieces : List Piece} (h : width < word.length)
      (hrest : Cut width (word.drop (width - 1)) pieces) :
      Cut width word (.part (word.take (width - 1)) :: pieces)

/-- A line as it is set. -/
inductive Line where
  /-- A part of a word, which goes on on the next line. -/
  | cut (part : List Char)
  /-- The end of a word, or all of it, and the words that follow. -/
  | words (first : List Char) (more : List (List Char))
  deriving DecidableEq

namespace Line

/-- A part has a hyphen behind it, and words have a space between them. -/
def text : Line → List Char
  | cut part => part ++ ['-']
  | words first more => first ++ more.flatMap (' ' :: ·)

def pieces : Line → List Piece
  | cut part => [.part part]
  | words first more => (first :: more).map .tail

/-- The line without the hyphen or the spaces that have come with the setting. -/
def chars (line : Line) : List Char := line.pieces.flatMap Piece.chars

end Line

/-- The lines hold these pieces and then the words: read piece by piece, that is what they are. -/
def Sets (width : Nat) (before : List Piece) (words lines : List (List Char)) : Prop :=
  ∃ (layout : List Line) (cuts : List (List Piece)), lines = layout.map Line.text ∧
    List.Forall₂ (Cut width) words cuts ∧ layout.flatMap Line.pieces = before ++ cuts.flatten

variable {width : Nat} {word first paragraph : List Char}
  {words more lines : List (List Char)} {before pieces : List Piece} {cuts : List (List Piece)}
  {layout : List Line}

/-! ## Cutting a word -/

theorem Cut.chars_eq (h : Cut width word pieces) : pieces.flatMap Piece.chars = word := by
  induction h with
  | tail h => exact List.append_nil _
  | part h hrest ih =>
      rw [List.flatMap_cons, ih]
      exact List.take_append_drop _ _

/-- A word that fits on a line is not cut. -/
theorem Cut.eq_of_length_le (h : Cut width word pieces) (hlength : word.length ≤ width) :
    pieces = [.tail word] := by
  cases h with
  | tail => rfl
  | part h => exact absurd hlength (Nat.not_le_of_lt h)

/-- No piece of a word is empty. -/
theorem Cut.chars_ne_nil (h : Cut width word pieces) (hwidth : 2 ≤ width) (hword : word ≠ []) :
    ∀ piece ∈ pieces, piece.chars ≠ [] := by
  induction h with
  | tail h => simpa [Piece.chars] using hword
  | @part word pieces h hrest ih =>
      have hpart : (word.take (width - 1)).length = width - 1 := by
        rw [List.length_take]
        omega
      have hbehind : (word.drop (width - 1)).length ≠ 0 := by
        rw [List.length_drop]
        omega
      refine List.forall_mem_cons.mpr ⟨fun hnil => ?_, ih (List.ne_nil_of_length_pos
        (Nat.pos_of_ne_zero hbehind))⟩
      have hzero : (word.take (width - 1)).length = 0 := congrArg List.length hnil
      omega

/-- There is an end to cutting where a line has room for a character and a hyphen, and these are
the lines. -/
theorem exists_cut (hwidth : 2 ≤ width) (word : List Char) :
    ∃ parts : List (List Char),
      (breakWord width word).1 = (parts.map Line.cut).map Line.text ∧
      Cut width word (parts.map .part ++ [.tail (breakWord width word).2]) := by
  by_cases hlength : width < word.length
  · obtain ⟨parts, hlines, hrest⟩ := exists_cut hwidth (word.drop (width - 1))
    rw [breakWord_of_lt hwidth hlength, hlines]
    exact ⟨word.take (width - 1) :: parts, rfl, .part hlength hrest⟩
  · rw [breakWord_of_length_le (Nat.le_of_not_lt hlength)]
    exact ⟨[], rfl, .tail (Nat.le_of_not_lt hlength)⟩
termination_by word.length
decreasing_by
  rw [List.length_drop]
  omega

/-! ## Setting words -/

theorem isEmpty_text (hfirst : first ≠ []) (more : List (List Char)) :
    (Line.words first more).text.isEmpty = false := by
  rw [List.isEmpty_eq_false_iff]
  exact List.append_ne_nil_of_left_ne_nil hfirst _

theorem text_words_nil (first : List Char) : (Line.words first []).text = first :=
  List.append_nil first

theorem text_words_append (first : List Char) (more : List (List Char)) (word : List Char) :
    (Line.words first (more ++ [word])).text = (Line.words first more).text ++ ' ' :: word := by
  simp [Line.text]

theorem pieces_words_append (first : List Char) (more : List (List Char)) (word : List Char) :
    (Line.words first (more ++ [word])).pieces =
      (Line.words first more).pieces ++ [.tail word] := by
  simp [Line.pieces]

theorem pieces_cuts (parts : List (List Char)) :
    (parts.map Line.cut).flatMap Line.pieces = parts.map .part := by
  rw [List.flatMap_map, List.map_eq_flatMap]
  rfl

namespace Sets

/-- A word goes on the line that has been started, and is short enough for that not to be cut. -/
theorem append_word (hlength : word.length ≤ width)
    (h : Sets width (before ++ [.tail word]) words lines) :
    Sets width before (word :: words) lines := by
  obtain ⟨layout, cuts, hlayout, hcuts, hpieces⟩ := h
  refine ⟨layout, [.tail word] :: cuts, hlayout, .cons (.tail hlength) hcuts, ?_⟩
  rw [hpieces, List.append_assoc, List.flatten_cons]

/-- A line is done. -/
theorem line (line : Line) (h : Sets width [] words lines) :
    Sets width line.pieces words (line.text :: lines) := by
  obtain ⟨layout, cuts, hlayout, hcuts, hpieces⟩ := h
  refine ⟨line :: layout, cuts, by rw [hlayout, List.map_cons], hcuts, ?_⟩
  rw [List.flatMap_cons, hpieces, List.nil_append]

/-- A word may fill some lines alone, and its end starts another one. -/
theorem breakWord (hwidth : 2 ≤ width) (word : List Char)
    (h : Sets width (Line.words (breakWord width word).2 []).pieces words lines) :
    Sets width [] (word :: words) ((breakWord width word).1 ++ lines) := by
  obtain ⟨parts, hlines, hcut⟩ := exists_cut hwidth word
  obtain ⟨layout, cuts, hlayout, hcuts, hpieces⟩ := h
  refine ⟨parts.map .cut ++ layout, _, ?_, .cons hcut hcuts, ?_⟩
  · rw [hlayout, hlines, List.map_append]
  · rw [List.flatMap_append, pieces_cuts, hpieces, List.flatten_cons, List.nil_append,
      List.append_assoc]
    rfl

end Sets

/-- The words are set behind the line that has been started. -/
theorem sets_fill (hwidth : 2 ≤ width) (hwords : ∀ word ∈ words, IsWord word)
    (hfirst : first ≠ []) (more : List (List Char)) :
    Sets width (Line.words first more).pieces words
      (fill width (Line.words first more).text words) := by
  induction words generalizing first more with
  | nil =>
      rw [fill, isEmpty_text hfirst, if_neg Bool.false_ne_true]
      exact .line _ ⟨[], [], rfl, .nil, rfl⟩
  | cons word words ih =>
      obtain ⟨hword, hwords⟩ := List.forall_mem_cons.mp hwords
      simp only [fill, isEmpty_text hfirst, Bool.false_eq_true, if_false]
      split
      · next hroom =>
          refine .append_word (by omega) ?_
          rw [← pieces_words_append, ← text_words_append]
          exact ih hwords hfirst (more ++ [word])
      · have htail := (fits_breakWord hwidth hword).2.ne_nil
        rw [List.cons_append]
        refine .line _ (.breakWord hwidth word ?_)
        have hrest := ih hwords htail []
        rwa [text_words_nil] at hrest

/-- The words of a paragraph are set. -/
theorem sets_wrap (hwidth : 2 ≤ width) (paragraph : List Char) :
    Sets width [] (paragraphWords paragraph) (wrap width paragraph) := by
  have hwords : ∀ word ∈ paragraphWords paragraph, IsWord word :=
    fun _ => isWord_of_mem_paragraphWords
  rw [wrap]
  cases hparagraph : paragraphWords paragraph with
  | nil => exact ⟨[], [], rfl, .nil, rfl⟩
  | cons word words =>
      rw [hparagraph] at hwords
      obtain ⟨hword, hwords⟩ := List.forall_mem_cons.mp hwords
      have hrest := sets_fill hwidth hwords (fits_breakWord hwidth hword).2.ne_nil []
      rw [text_words_nil] at hrest
      exact .breakWord hwidth word hrest

/-! ## What is left of the words -/

theorem flatMap_chars_flatten (h : List.Forall₂ (Cut width) words cuts) :
    cuts.flatten.flatMap Piece.chars = words.flatten := by
  induction h with
  | nil => rfl
  | cons hcut hcuts ih =>
      rw [List.flatten_cons, List.flatMap_append, hcut.chars_eq, ih, List.flatten_cons]

/-- There is some text on every line. -/
theorem chars_ne_nil (hwidth : 2 ≤ width) (hwords : ∀ word ∈ words, IsWord word)
    (hcuts : List.Forall₂ (Cut width) words cuts)
    (hpieces : layout.flatMap Line.pieces = cuts.flatten) : ∀ line ∈ layout, line.chars ≠ [] := by
  have hne : ∀ piece ∈ cuts.flatten, piece.chars ≠ [] := by
    clear hpieces
    induction hcuts with
    | nil => exact nofun
    | cons hcut hcuts ih =>
        obtain ⟨hword, hwords⟩ := List.forall_mem_cons.mp hwords
        rw [List.flatten_cons, List.forall_mem_append]
        exact ⟨hcut.chars_ne_nil hwidth hword.ne_nil, ih hwords⟩
  rintro line hline hnil
  obtain ⟨piece, hpiece⟩ : ∃ piece, piece ∈ line.pieces := by
    cases line with
    | cut part => exact ⟨_, List.mem_singleton_self _⟩
    | words first more => exact ⟨_, List.mem_cons_self⟩
  refine hne piece (hpieces ▸ List.mem_flatMap_of_mem hline hpiece) ?_
  exact List.flatMap_eq_nil_iff.mp hnil piece hpiece

theorem filter_intercalate {parts : List (List Char)} (hparts : ∀ part ∈ parts, ' ' ∉ part) :
    ([' '].intercalate parts).filter (· ≠ ' ') = parts.flatten := by
  induction parts with
  | nil => rfl
  | cons part parts ih =>
      obtain ⟨hpart, hparts⟩ := List.forall_mem_cons.mp hparts
      have hkept : part.filter (· ≠ ' ') = part :=
        List.filter_eq_self.mpr fun c hc => decide_eq_true fun hspace => hpart (hspace ▸ hc)
      cases parts with
      | nil => rw [List.intercalate_singleton, hkept, List.flatten_singleton]
      | cons next more =>
          have hspace : [' '].filter (· ≠ ' ') = [] := rfl
          rw [List.intercalate_cons_cons, List.filter_append, List.filter_append, hkept, ih hparts,
            hspace, List.append_nil]
          rfl

/-- The words are what is left of a paragraph without its spaces. -/
theorem flatten_paragraphWords (paragraph : List Char) :
    (paragraphWords paragraph).flatten = paragraph.filter (· ≠ ' ') := by
  calc (paragraphWords paragraph).flatten
      = (paragraph.splitOn ' ').flatten := List.flatten_filter_not_isEmpty
    _ = ([' '].intercalate (paragraph.splitOn ' ')).filter (· ≠ ' ') :=
        (filter_intercalate fun _ => Config.not_mem_of_mem_splitOn).symm
    _ = paragraph.filter (· ≠ ' ') := by rw [List.intercalate_splitOn]

/-- The lines keep the words of the paragraph. Piece by piece they are these words, of which none is
cut that fits on a line; without the hyphens at cuts and the spaces between words, they are what
stands between the spaces of the paragraph. They come to an end before there are more of them than
there are characters, and each has some text and is not too wide. -/
structure Keeps (width : Nat) (paragraph : List Char) (lines : List (List Char))
    (layout : List Line) (cuts : List (List Piece)) : Prop where
  text : lines = layout.map Line.text
  cut : List.Forall₂ (Cut width) (paragraphWords paragraph) cuts
  whole : List.Forall₂ (fun word pieces => word.length ≤ width → pieces = [.tail word])
    (paragraphWords paragraph) cuts
  pieces : layout.flatMap Line.pieces = cuts.flatten
  chars : layout.flatMap Line.chars = (paragraphWords paragraph).flatten
  spaceless : (paragraphWords paragraph).flatten = paragraph.filter (· ≠ ' ')
  fits : ∀ line ∈ lines, line ≠ [] ∧ line.length ≤ width
  length_le : lines.length ≤ (paragraph.filter (· ≠ ' ')).length

theorem Sets.exists_keeps (hwidth : 2 ≤ width) (hfits : ∀ line ∈ lines, Fits width line)
    (h : Sets width [] (paragraphWords paragraph) lines) :
    ∃ layout cuts, Keeps width paragraph lines layout cuts := by
  obtain ⟨layout, cuts, rfl, hcuts, hpieces⟩ := h
  have hchars : layout.flatMap Line.chars = (paragraphWords paragraph).flatten := by
    rw [← flatMap_chars_flatten hcuts]
    exact List.flatMap_assoc.symm.trans (congrArg _ hpieces)
  refine ⟨layout, cuts, rfl, hcuts, hcuts.imp fun _ _ hcut => hcut.eq_of_length_le, hpieces, hchars,
    flatten_paragraphWords paragraph, fun line hline => ?_, ?_⟩
  · exact ⟨(hfits line hline).ne_nil, (hfits line hline).length_le⟩
  · have hone : ∀ n ∈ layout.map (·.chars.length), 1 ≤ n := by
      have hline := chars_ne_nil hwidth (fun _ => isWord_of_mem_paragraphWords) hcuts hpieces
      simpa [Nat.one_le_iff_ne_zero] using hline
    calc (layout.map Line.text).length
        = (layout.map (·.chars.length)).length := by rw [List.length_map, List.length_map]
      _ ≤ (layout.map (·.chars.length)).sum := List.length_le_sum_of_one_le _ hone
      _ = (paragraph.filter (· ≠ ' ')).length := by
          rw [← List.length_flatMap, hchars, flatten_paragraphWords]

/-- Help never sets its text in lines that have no room for a cut, and in any others wrapping keeps
the words. -/
theorem words_kept :
    (∀ columns : Help.Columns, 2 ≤ columns.wrapWidth) ∧
      ∀ (width : Nat) (paragraph : List Char), 2 ≤ width →
        ∃ layout cuts, Keeps width paragraph (wrap width paragraph) layout cuts :=
  ⟨Help.two_le_wrapWidth, fun _ paragraph hwidth =>
    (sets_wrap hwidth paragraph).exists_keeps hwidth (fits_wrap hwidth paragraph)⟩

/-- A word that has a hyphen of its own, which is not lost, is cut twice. -/
theorem words_kept_hyphens :
    let paragraph := "a  bc-defghij k ".toList
    2 ≤ 5 ∧ (wrap 5 paragraph).map String.ofList = ["a", "bc-d-", "efgh-", "ij k"] ∧
      ∃ layout cuts, Keeps 5 paragraph (wrap 5 paragraph) layout cuts ∧
        layout.flatMap Line.chars = "abc-defghijk".toList := by
  obtain ⟨layout, cuts, hkeeps⟩ := words_kept.2 5 "a  bc-defghij k ".toList (by decide)
  refine ⟨by decide, by decide +kernel, layout, cuts, hkeeps, ?_⟩
  rw [hkeeps.chars, hkeeps.spaceless]
  decide

end CommandLine.Wrap
