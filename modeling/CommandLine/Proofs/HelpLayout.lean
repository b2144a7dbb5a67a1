import CommandLine.Help.Columns
import CommandLine.Proofs.Wrapping
import Mathlib.Data.String.Basic

/-!
# The columns of help

Entries are measured in bytes and set in characters. A text has no more
characters than bytes, so the left column holds every name, and the text
of every description starts behind the same margin (`Aligned`). How wide
the right column is, is a matter of taste, but for three things: it has
its least width, it takes no more than a terminal leaves that is wide
enough for the least width (`middleWidth_le`), and without a terminal it
holds every description. This is all that it takes to set an entry well
(`Entry.WellSet`), whatever part of a terminal it is that help tries to
stay within.

The help text is made of blocks of such entries, with their headings and
what stands above and below (`Typeset`), and of nothing else
(`layout_aligned`).
-/

namespace CommandLine.Help

open Wrap (Fits paragraphWords wrap)

variable {extent : Option Extent} {terminal : Extent} {page : HelpPage} {row : Row}
  {columns : Columns} {front text line : List Char} {margin width left wanted : Nat}

/-! ## Bytes and characters -/

/-- A text has no more characters than bytes. -/
theorem length_toList_le (s : String) : s.toList.length ≤ s.utf8ByteSize := by
  rw [← String.utf8Len_toList]
  induction s.toList with
  | nil => exact Nat.le_refl _
  | cons c cs ih =>
      rw [List.length_cons, String.utf8Len_cons]
      exact Nat.add_le_add ih (Char.utf8Size_pos c)

theorem le_foldl_max {l : List Nat} {n : Nat} (least : Nat) (h : n ∈ l) :
    n ≤ l.foldl max least := by
  rw [List.foldl_max]
  exact Nat.le_trans (List.le_max?_getD_of_mem h) (Nat.le_max_right _ _)

/-! ## The widths of the columns -/

/-- The bytes of the longest name of an entry, and at least one. -/
def widestLeft (page : HelpPage) : Nat :=
  max 1 (((rows page).map (·.left.utf8ByteSize)).max?.getD 0)

theorem left_ofRows (extent : Option Extent) (page : HelpPage) :
    (Columns.ofRows extent (rows page)).left = widestLeft page := by
  show ((rows page).map (·.left.utf8ByteSize)).foldl max 1 = widestLeft page
  rw [List.foldl_max, widestLeft]
  cases ((rows page).map (·.left.utf8ByteSize)).max? <;> rfl

theorem length_left_le (h : row ∈ rows page) : row.left.toList.length ≤ widestLeft page := by
  rw [← left_ofRows none]
  exact Nat.le_trans (length_toList_le row.left) (le_foldl_max 1 (List.mem_map_of_mem h))

theorem leastMiddle_le (extent : Option Extent) (left wanted : Nat) :
    leastMiddle ≤ middleWidth extent left wanted := by
  unfold middleWidth
  cases extent with
  | none => exact Nat.le_max_right _ _
  | some terminal =>
      dsimp only
      split
      · exact Nat.le_max_right _ _
      · split
        · exact Nat.le_max_right _ _
        · exact Nat.le_refl _

/-- Where there is room for the least width, the right column keeps within the terminal. -/
theorem middleWidth_le (h : left + gap + leastMiddle ≤ terminal.total) (wanted : Nat) :
    left + gap + middleWidth (some terminal) left wanted ≤ terminal.total := by
  have htarget := terminal.target_le
  simp only [middleWidth]
  split
  · omega
  · split
    · rw [Nat.max_eq_left (by omega)]
      omega
    · omega

theorem middle_ofRows_le (h : widestLeft page + gap + leastMiddle ≤ terminal.total) :
    widestLeft page + gap + (Columns.ofRows (some terminal) (rows page)).middle ≤
      terminal.total := by
  rw [← left_ofRows (some terminal)] at h ⊢
  exact middleWidth_le h _

/-- Without a terminal the right column has room for every description. -/
theorem length_description_lt (h : row ∈ rows page) :
    row.description.toList.length < (Columns.ofRows none (rows page)).middle := by
  have hwanted := le_foldl_max 2 (List.mem_map_of_mem
    (f := fun row : Row => row.description.utf8ByteSize + indent) h)
  calc row.description.toList.length
      < row.description.utf8ByteSize + indent := Nat.lt_succ_of_le (length_toList_le _)
    _ ≤ _ := hwanted
    _ ≤ (Columns.ofRows none (rows page)).middle := Nat.le_max_left _ _

/-- Text is never wrapped so narrowly that a word could not be cut. -/
theorem two_le_wrapWidth (columns : Columns) : 2 ≤ columns.wrapWidth := Nat.le_max_right _ 2

/-- The indent is part of the right column, but no text stands there. -/
theorem wrapWidth_add_indent (h : leastMiddle ≤ columns.middle) :
    columns.wrapWidth + indent = columns.middle := by
  unfold leastMiddle at h
  unfold Columns.wrapWidth indent
  omega

/-! ## Lines -/

/-- The text starts after exactly `margin` characters of the line, which are those in front of it
and spaces. It does not start with a space itself. -/
structure StartsAt (margin : Nat) (front text line : List Char) : Prop where
  start : ∃ c ∈ text.head?, c ≠ ' '
  spaces : ∃ n, front.length + n = margin ∧ line = front ++ List.replicate n ' ' ++ text

theorem StartsAt.length_eq (h : StartsAt margin front text line) :
    line.length = margin + text.length := by
  obtain ⟨n, rfl, rfl⟩ := h.spaces
  rw [List.length_append, List.length_append, List.length_replicate]

/-- The lines of an entry: its name alone, or its name and the lines of its description, all of
which start behind the margin. -/
inductive Aligned (margin width : Nat) (row : Row) : List (List Char) → Prop
  | name (hblank : paragraphWords row.description.toList = []) :
      Aligned margin width row [List.replicate indent ' ' ++ row.left.toList]
  | text {first : List Char} {rest : List (List Char)} {line : List Char}
      {lines : List (List Char)} (htext : wrap width row.description.toList = first :: rest)
      (hfirst : StartsAt margin (List.replicate indent ' ' ++ row.left.toList) first line)
      (hrest : List.Forall₂ (StartsAt margin []) rest lines) :
      Aligned margin width row (line :: lines)

/-- What the left column can hold does not move the text. -/
theorem startsAt_line (hleft : front.length ≤ columns.left) (hstart : ∃ c ∈ text.head?, c ≠ ' ') :
    StartsAt (indent + columns.left + gap) (List.replicate indent ' ' ++ front) text
      (columns.line front text) where
  start := hstart
  spaces := by
    refine ⟨columns.left - front.length + gap, ?_, ?_⟩
    · rw [List.length_append, List.length_replicate]
      omega
    · rw [List.replicate_add]
      simp [Columns.line, padTo, List.append_assoc]

theorem startsAt_line_nil (hstart : ∃ c ∈ text.head?, c ≠ ' ') :
    StartsAt (indent + columns.left + gap) [] text (columns.line [] text) where
  start := hstart
  spaces := by
    refine ⟨indent + columns.left + gap, Nat.zero_add _, ?_⟩
    rw [List.replicate_add, List.replicate_add]
    simp [Columns.line, padTo]

theorem aligned_lines (hleft : row.left.toList.length ≤ columns.left) :
    Aligned (indent + columns.left + gap) columns.wrapWidth row (columns.lines row) := by
  have hfits := Wrap.fits_wrap (two_le_wrapWidth columns) row.description.toList
  rw [Columns.lines]
  cases htexts : wrap columns.wrapWidth row.description.toList with
  | nil => exact .name ((Wrap.wrap_eq_nil (two_le_wrapWidth columns)).mp htexts)
  | cons first rest =>
      rw [htexts, List.forall_mem_cons] at hfits
      obtain ⟨hfirst, hrest⟩ := hfits
      refine .text htexts (startsAt_line hleft hfirst.start) ?_
      refine List.forall₂_map_right_iff.mpr (List.forall₂_same.mpr fun text htext => ?_)
      exact startsAt_line_nil (hrest text htext).start

/-- A line is no wider than both columns, the indent and the gap. -/
theorem length_lines_le (hleft : row.left.toList.length ≤ columns.left) :
    ∀ line ∈ columns.lines row,
      line.length ≤ indent + columns.left + gap + columns.wrapWidth := by
  have hfits := Wrap.fits_wrap (two_le_wrapWidth columns) row.description.toList
  rw [Columns.lines]
  cases htexts : wrap columns.wrapWidth row.description.toList with
  | nil =>
      intro line hline
      rw [List.mem_singleton.mp hline, List.length_append, List.length_replicate]
      omega
  | cons first rest =>
      rw [htexts, List.forall_mem_cons] at hfits
      obtain ⟨hfirst, hrest⟩ := hfits
      rw [List.forall_mem_cons, List.forall_mem_map]
      refine ⟨?_, fun text htext => ?_⟩
      · rw [(startsAt_line hleft hfirst.start).length_eq]
        exact Nat.add_le_add_left hfirst.length_le _
      · rw [(startsAt_line_nil (hrest text htext).start).length_eq]
        exact Nat.add_le_add_left (hrest text htext).length_le _

/-- A description that is no longer than its column takes one line. -/
theorem length_lines_eq_one (h : row.description.toList.length ≤ columns.wrapWidth) :
    (columns.lines row).length = 1 := by
  rw [Columns.lines]
  cases hwords : paragraphWords row.description.toList with
  | nil => rw [(Wrap.wrap_eq_nil (two_le_wrapWidth columns)).mpr hwords]; rfl
  | cons first words => rw [Wrap.wrap_of_length_le h hwords]; rfl

/-! ## The page -/

/-- A row, and the lines that are set for it. -/
structure Entry where
  row : Row
  lines : List (List Char)

/-- The entry is set well, as one of the page: the text of its description starts behind the margin
that has room for the longest name of the page. No line is wider than a terminal that has room for
the least width of the right column, and without a terminal no description is wrapped. -/
structure Entry.WellSet (extent : Option Extent) (page : HelpPage) (entry : Entry) : Prop where
  aligned : Aligned (indent + widestLeft page + gap) (Columns.ofRows extent (rows page)).wrapWidth
    entry.row entry.lines
  length_le : ∀ terminal, extent = some terminal →
    widestLeft page + gap + leastMiddle ≤ terminal.total →
    ∀ line ∈ entry.lines, line.length ≤ terminal.total
  one_line : extent = none → entry.lines.length = 1

/-- Entries under a heading. -/
structure Block where
  heading : String
  entries : List Entry

namespace Block

/-- The section that is set in the block. -/
def content (block : Block) : String × List Row := (block.heading, block.entries.map (·.row))

/-- The lines of the block, with an empty line above. -/
def lines (block : Block) : List String :=
  "" :: block.heading :: (block.entries.flatMap (·.lines)).map String.ofList

end Block

/-- The text is the page, in columns: line by line its usage line, the paragraph about it, the
sections that have any rows, block by block and with each entry set well, and its footer. -/
def Typeset (extent : Option Extent) (page : HelpPage) (text : String) : Prop :=
  ∃ blocks : List Block,
    blocks.map Block.content = (sections page).filter (!·.2.isEmpty) ∧
    text = "\n".intercalate (usageLine page :: paragraph page.about ++
      blocks.flatMap Block.lines ++ paragraph page.footer) ∧
    ∀ block ∈ blocks, ∀ entry ∈ block.entries, entry.WellSet extent page

namespace Columns

/-- The entry of a row. -/
def entry (columns : Columns) (row : Row) : Entry := ⟨row, columns.lines row⟩

/-- The block of a section. -/
def block (columns : Columns) (content : String × List Row) : Block :=
  ⟨content.1, content.2.map columns.entry⟩

theorem content_block (columns : Columns) (content : String × List Row) :
    (columns.block content).content = content := by
  simp [block, Block.content, entry, Function.comp_def]

/-- A section without rows leaves no lines, and any other those of its block. -/
theorem flatMap_sectionLines (columns : Columns) (contents : List (String × List Row)) :
    contents.flatMap columns.sectionLines =
      ((contents.filter (!·.2.isEmpty)).map columns.block).flatMap Block.lines := by
  induction contents with
  | nil => rfl
  | cons content contents ih =>
      obtain ⟨heading, rows⟩ := content
      cases rows with
      | nil => exact ih
      | cons row rows =>
          rw [List.flatMap_cons, ih, List.filter_cons_of_pos (by rfl), List.map_cons,
            List.flatMap_cons]
          simp [sectionLines, Block.lines, block, entry, List.flatMap_map]

end Columns

/-- The columns that are made for a page set each of its rows well. -/
theorem wellSet_entry (extent : Option Extent) (hrow : row ∈ rows page) :
    ((Columns.ofRows extent (rows page)).entry row).WellSet extent page := by
  have hleft := left_ofRows extent page
  have hmiddle := @wrapWidth_add_indent (Columns.ofRows extent (rows page))
    (leastMiddle_le extent _ _)
  have hname : row.left.toList.length ≤ (Columns.ofRows extent (rows page)).left := by
    rw [hleft]
    exact length_left_le hrow
  refine ⟨?_, ?_, ?_⟩
  · rw [← hleft]
    exact aligned_lines hname
  · rintro terminal rfl hroom line hline
    have hline := length_lines_le hname line hline
    have htotal := middle_ofRows_le hroom
    omega
  · rintro rfl
    have hlength := length_description_lt hrow
    unfold indent at hmiddle
    exact length_lines_eq_one (by omega)

/-- Every page is set in the columns that are made for it. -/
theorem typeset_renderIn (extent : Option Extent) (page : HelpPage) :
    Typeset extent page (renderIn extent page) := by
  let columns := Columns.ofRows extent (rows page)
  refine ⟨((sections page).filter (!·.2.isEmpty)).map columns.block, ?_, ?_, ?_⟩
  · simp [Function.comp_def, Columns.content_block]
  · rw [renderIn, columns.flatMap_sectionLines]
  · intro block hblock entry hentry
    obtain ⟨content, hcontent, rfl⟩ := List.mem_map.mp hblock
    obtain ⟨row, hrow, rfl⟩ := List.mem_map.mp hentry
    exact wellSet_entry extent
      (List.mem_flatMap.mpr ⟨content, List.mem_of_mem_filter hcontent, hrow⟩)

/-- The help text of a page is the page in aligned columns, whatever part of a terminal it is that
help tries to stay within, and the formatter's text is one of these. -/
theorem layout_aligned (page : HelpPage) :
    (∀ extent, Typeset extent page (renderIn extent page)) ∧
      ∀ total, Typeset (total.map .ofTotal) page ((columnFormatter total).render page) :=
  ⟨fun extent => typeset_renderIn extent page,
    fun total => typeset_renderIn (total.map .ofTotal) page⟩

/-- A name with more bytes than characters, and a word that has to be cut. -/
def measuringPage : HelpPage where
  program := "tool"
  options := [
    { flags := ["-g", "--größe"], name := "größe", nargs := .exactly 1, required := true,
      help := some "Breite der Grundstücksverkehrsgenehmigung" }]
  subcommands := [{ name := "run" }]

/-- The page on a terminal that is just wide enough, and without one. -/
theorem layout_aligned_measuring :
    widestLeft measuringPage + gap + leastMiddle ≤ 41 ∧
      render (some 41) measuringPage = "\n".intercalate
        ["usage: tool -g GRößE SUBCOMMAND ...", "", "options:",
          " -g, --größe GRößE       Breite der",
          "                         Grundstücksverk-",
          "                         ehrsgenehmigung",
          "                         [required]", "", "sub-commands:", " run"] ∧
      (∃ blocks : List Block,
        blocks.map Block.content = (sections measuringPage).drop 1 ∧
        render (some 41) measuringPage = "\n".intercalate
          (usageLine measuringPage :: blocks.flatMap Block.lines) ∧
        ∀ block ∈ blocks, ∀ entry ∈ block.entries, Aligned 25 16 entry.row entry.lines ∧
          ∀ line ∈ entry.lines, line.length ≤ 41) ∧
      ∃ blocks : List Block,
        render none measuringPage = "\n".intercalate
          (usageLine measuringPage :: blocks.flatMap Block.lines) ∧
        ∀ block ∈ blocks, ∀ entry ∈ block.entries, entry.lines.length = 1 := by
  have hroom : widestLeft measuringPage + gap + leastMiddle ≤ (Extent.ofTotal 41).total := by
    decide +kernel
  have hbare : ∀ lines, paragraph measuringPage.about ++ lines ++ paragraph measuringPage.footer =
      lines := List.append_nil
  refine ⟨hroom, by decide +kernel, ?_, ?_⟩
  · obtain ⟨blocks, hcontent, htext, hset⟩ := (layout_aligned measuringPage).2 (some 41)
    rw [List.cons_append, List.cons_append, hbare] at htext
    refine ⟨blocks, hcontent.trans (by decide +kernel), htext, fun block hblock entry hentry => ?_⟩
    have hset := hset block hblock entry hentry
    exact ⟨hset.aligned, hset.length_le _ rfl hroom⟩
  · obtain ⟨blocks, -, htext, hset⟩ := (layout_aligned measuringPage).2 none
    rw [List.cons_append, List.cons_append, hbare] at htext
    exact ⟨blocks, htext, fun block hblock entry hentry =>
      (hset block hblock entry hentry).one_line rfl⟩

end CommandLine.Help
