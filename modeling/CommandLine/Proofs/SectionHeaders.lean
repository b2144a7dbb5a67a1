import CommandLine.Proofs.Declarations
import CommandLine.Proofs.IniRoundTrip

/-!
# Sections are dotted names

A section header saves writing the names of its sub-commands in front of
every name below it, and does nothing else (`sections_dotted`). A line
without a header is read on its own, so most of this is about one line:
with the names and a dot in front it says the same of a parameter further
in (`Line.read_dotted`).

What is between the lines is put apart first. Lines make up a text in
many ways, with blank lines and comments among them and with either kind
of ending (`LaidOut`), and all of them are read the same
(`LaidOut.items_eq`).
-/

namespace CommandLine.Ini

open Config (bracketed? bracketed?_eq_some_iff readValues)
open Text (Trimmed cutAt isBlank trimChars trimEnd trimStart)

variable {names parents : List String} {line name cs : List Char}
  {lines padded : List (List Char)} {text : List Char} {inputs : List String}

-- All characters could be tried to decide about some of them, and there are too many for that.
local instance (priority := 2000) decidableForallChars (p : Char → Prop) [DecidablePred p]
    (cs : List Char) : Decidable (∀ c ∈ cs, p c) := List.decidableBAll p cs

local instance (priority := 2000) decidableForallChar (p : Char → Prop) [DecidablePred p]
    (c? : Option Char) : Decidable (∀ c ∈ c?, p c) := Option.decidableForallMem c?

local instance (priority := 2000) decidableExistsChar (p : Char → Prop) [DecidablePred p]
    (c? : Option Char) : Decidable (∃ c ∈ c?, p c) := Option.decidableExistsMem c?

/-! ## Texts of lines -/

/-- The line says nothing: it is blank, or a comment. -/
@[mk_iff]
structure IsFiller (line : List Char) : Prop where
  single : '\n' ∉ line
  idle : ∀ c ∈ (trimChars line).head?, c = ';' ∨ c = '#'

instance (line : List Char) : Decidable (IsFiller line) :=
  decidable_of_iff _ (isFiller_iff line).symm

/-- The line is neither blank nor a comment nor a header. -/
@[mk_iff]
structure IsItemLine (line : List Char) : Prop where
  single : '\n' ∉ line
  busy : ∃ c ∈ (trimChars line).head?, c ≠ ';' ∧ c ≠ '#'
  headless : ¬((trimChars line).head? = some '[' ∧ (trimChars line).getLast? = some ']')

instance (line : List Char) : Decidable (IsItemLine line) :=
  decidable_of_iff _ (isItemLine_iff line).symm

/-- There are blank lines and comments among the lines. -/
inductive Padded : (lines padded : List (List Char)) → Prop
  | nil : Padded [] []
  | keep (line : List Char) {lines padded : List (List Char)} (h : Padded lines padded) :
      Padded (line :: lines) (line :: padded)
  | filler {line : List Char} {lines padded : List (List Char)} (hline : IsFiller line)
      (h : Padded lines padded) : Padded lines (line :: padded)

/-- What a line can end with. -/
def endings : List (List Char) := [['\n'], ['\r', '\n']]

/-- The lines make up the text, each with its ending. The last one may do without. -/
inductive Ended : List (List Char) → (text : List Char) → Prop
  | nil : Ended [] []
  | last {line : List Char} (hline : '\n' ∉ line) : Ended [line] line
  | cons {line ending : List Char} {lines : List (List Char)} {text : List Char}
      (hline : '\n' ∉ line) (hending : ending ∈ endings) (h : Ended lines text) :
      Ended (line :: lines) (line ++ ending ++ text)

/-- The lines make up the text, with blank lines and comments among them. -/
def LaidOut (lines : List (List Char)) (text : List Char) : Prop :=
  ∃ padded, Padded lines padded ∧ Ended padded text

/-- What a line says, with the blanks around it. -/
def Line.read (line : List Char) : Line := .ofChars (trimChars line)

theorem items_cons_congr {l m : List Line} (h : ∀ parents, items parents l = items parents m)
    (line : Line) (parents : List String) :
    items parents (line :: l) = items parents (line :: m) := by
  cases line with
  | blank => exact h parents
  | header inner => exact h inner
  | item more name inputs => rw [items, items, h parents]

theorem Line.read_filler (h : IsFiller line) : Line.read line = .blank := by
  have hidle := h.idle
  unfold Line.read
  cases hcs : trimChars line with
  | nil => rfl
  | cons c rest =>
      rw [hcs] at hidle
      rcases hidle c rfl with rfl | rfl <;> rfl

theorem Padded.items_eq (h : Padded lines padded) (parents : List String) :
    items parents (padded.map Line.read) = items parents (lines.map Line.read) := by
  induction h generalizing parents with
  | nil => rfl
  | keep line _ ih => exact items_cons_congr ih (Line.read line) parents
  | filler hline _ ih =>
      rw [List.map_cons, Line.read_filler hline]
      exact ih parents

theorem Ended.items_eq (h : Ended lines text) (parents : List String) :
    readBelow parents text = items parents (lines.map Line.read) := by
  induction h generalizing parents with
  | nil => exact readBelow_nil parents
  | @last line hline =>
      cases line with
      | nil => exact readBelow_nil parents
      | cons c rest =>
          have hlines : Text.lines (c :: rest) = [c :: rest] := by
            rw [Text.lines, List.splitOn_eq_singleton hline]
            rfl
          rw [readBelow, hlines]
          rfl
  | @cons line ending lines text hline hending _ ih =>
      -- The line that is read may have the carriage return, which is trimmed off.
      obtain ⟨whole, hwhole, hnewline, hread⟩ : ∃ whole,
          line ++ ending ++ text = whole ++ '\n' :: text ∧ '\n' ∉ whole ∧
            trimChars whole = trimChars line := by
        rcases List.mem_pair.mp hending with rfl | rfl
        · exact ⟨line, by simp, hline, rfl⟩
        · exact ⟨line ++ ['\r'], by simp, by simpa using hline,
            Text.trimChars_append_singleton (by decide)⟩
      rw [hwhole, readBelow_line hnewline, hread]
      exact items_cons_congr ih (Line.read line) parents

/-- However lines are laid out, they are read the same. -/
theorem LaidOut.items_eq (h : LaidOut lines text) (parents : List String) :
    readBelow parents text = items parents (lines.map Line.read) := by
  obtain ⟨padded, hpadded, hended⟩ := h
  rw [hended.items_eq, hpadded.items_eq]

/-! ## Names in front of a line -/

/-- The names can be written one after the other with dots between them, in a header as well as in
front of a name. -/
@[mk_iff]
structure IsSection (names : List String) : Prop where
  ne_nil : names ≠ []
  named : ∀ name ∈ names, name ≠ ""
  plain : ∀ name ∈ names, ∀ c ∈ name.toList, isBlank c = false ∧ c ≠ '.' ∧ c ≠ '='
  start : ∀ name ∈ names.head?, ∀ c ∈ name.toList.head?, c ≠ ';' ∧ c ≠ '#' ∧ c ≠ '['
  other : (".".intercalate names).toList.map Char.toLower ≠ rootSection.toList

instance (names : List String) : Decidable (IsSection names) :=
  decidable_of_iff _ (isSection_iff names).symm

/-- The header of the section. -/
def header (names : List String) : List Char := '[' :: ((".".intercalate names).toList ++ [']'])

/-- The characters with the names in front, and a dot behind each name. -/
def dotted (names : List String) (cs : List Char) : List Char :=
  (".".intercalate names).toList ++ '.' :: cs

/-- What the line says, further in. -/
def Line.below (names : List String) : Line → Line
  | .item more name inputs => .item (names ++ more) name inputs
  | line => line

/-- A line that is neither blank nor a comment nor a header gives a parameter its values. -/
def Line.assignment (line : List Char) : Line :=
  match cutAt '=' line with
  | some (name, values) =>
    .ofName (trimChars name) ((readValues (trimChars values)).map String.ofList)
  | none => .ofName line [bareValue]

theorem Line.ofChars_eq_assignment (hbusy : ∃ c ∈ line.head?, c ≠ ';' ∧ c ≠ '#')
    (hheadless : ¬(line.head? = some '[' ∧ line.getLast? = some ']')) :
    Line.ofChars line = .assignment line := by
  obtain ⟨c, hc, hsemicolon, hhash⟩ := hbusy
  obtain ⟨rest, rfl⟩ := List.head?_eq_some_iff.mp hc
  unfold Line.ofChars
  split
  · next heq => cases heq
  · next heq =>
      cases heq
      exact absurd rfl hsemicolon
  · next heq =>
      cases heq
      exact absurd rfl hhash
  · split
    · next hbody =>
        rw [bracketed?_eq_some_iff.mp hbody] at hheadless
        exact absurd ⟨rfl, by rw [← List.cons_append, List.getLast?_concat]⟩ hheadless
    · rfl

theorem Line.assignment_eq_item (line : List Char) :
    ∃ more name inputs, Line.assignment line = .item more name inputs := by
  unfold Line.assignment
  split <;> exact ⟨_, _, _, rfl⟩

theorem IsItemLine.read_eq (h : IsItemLine line) :
    Line.read line = .assignment (trimChars line) :=
  Line.ofChars_eq_assignment h.busy h.headless

namespace IsSection

theorem forall_chars (h : IsSection names) :
    ∀ part ∈ names.map String.toList,
      part ≠ [] ∧ ∀ c ∈ part, isBlank c = false ∧ c ≠ '.' ∧ c ≠ '=' := by
  rw [List.forall_mem_map]
  exact fun name hname => ⟨mt String.toList_eq_nil_iff.mp (h.named name hname), h.plain name hname⟩

theorem trimmed_of_mem (h : IsSection names) :
    ∀ part ∈ names.map String.toList, Trimmed part := by
  intro part hpart
  obtain ⟨-, hchars⟩ := h.forall_chars part hpart
  exact ⟨fun c hc => (hchars c (List.mem_of_mem_head? hc)).1,
    fun c hc => (hchars c (List.mem_of_mem_getLast? hc)).1⟩

theorem trimmed (h : IsSection names) : Trimmed (".".intercalate names).toList := by
  rw [String.toList_intercalate]
  exact Text.trimmed_intercalate (by decide) h.trimmed_of_mem

theorem equals_not_mem (h : IsSection names) : '=' ∉ (".".intercalate names).toList := by
  rw [String.toList_intercalate]
  intro hmem
  obtain hdot | ⟨part, hpart, hmem⟩ := Text.mem_intercalate hmem
  · exact absurd hdot (by decide)
  · exact ((h.forall_chars part hpart).2 _ hmem).2.2 rfl

theorem splitOn_eq (h : IsSection names) :
    (".".intercalate names).toList.splitOn '.' = names.map String.toList := by
  rw [String.toList_intercalate]
  refine List.splitOn_intercalate '.' (fun part hpart hmem => ?_) (by simpa using h.ne_nil)
  exact ((h.forall_chars part hpart).2 _ hmem).2.1 rfl

theorem joined_ne_nil (h : IsSection names) : (".".intercalate names).toList ≠ [] := by
  intro hnil
  have hsplit := h.splitOn_eq
  rw [hnil, List.splitOn_nil] at hsplit
  exact (h.forall_chars [] (hsplit ▸ List.mem_singleton_self _)).1 rfl

/-- What starts with the names of a section is no comment and no header, and not blank. -/
theorem head?_dotted (h : IsSection names) (cs : List Char) :
    ∃ c ∈ (dotted names cs).head?, c ≠ ';' ∧ c ≠ '#' ∧ c ≠ '[' := by
  obtain ⟨first, rest, rfl⟩ := List.exists_cons_of_ne_nil h.ne_nil
  have hparts : ∀ part ∈ (first :: rest).map String.toList, part ≠ [] :=
    fun part hpart => (h.forall_chars part hpart).1
  have hhead : (dotted (first :: rest) cs).head? = first.toList.head? := by
    rw [dotted, List.head?_append_of_ne_nil _ h.joined_ne_nil,
      String.toList_intercalate]
    exact Text.head?_intercalate _ hparts
  obtain ⟨c, chars, hchars⟩ := List.exists_cons_of_ne_nil (hparts _ List.mem_cons_self)
  have hc : c ∈ first.toList.head? := by
    rw [hchars]
    rfl
  rw [hhead]
  exact ⟨c, hc, h.start first rfl c hc⟩

theorem trimChars_dotted (h : IsSection names) (hstart : ∀ c ∈ cs.head?, isBlank c = false) :
    trimChars (dotted names cs) = dotted names (trimChars cs) := by
  rw [dotted, Text.trimChars_append_cons (by decide), Text.trimStart_of_head? h.trimmed.start,
    trimChars, Text.trimStart_of_head? hstart, dotted]

theorem headerParents_eq (h : IsSection names) :
    headerParents (".".intercalate names).toList = names := by
  refine headerParents_of_writable ⟨?_, ?_, ?_, h.other⟩ h.ne_nil
  · exact List.forall_mem_map.mp h.trimmed_of_mem
  · refine fun name hname => ⟨fun hmem => (h.plain name hname _ hmem).2.1 rfl, fun hmem => ?_⟩
    exact absurd (h.plain name hname _ hmem).1 (by decide)
  · exact mt String.toList_eq_nil_iff.mpr h.joined_ne_nil

theorem read_header (h : IsSection names) : Line.read (header names) = .header names := by
  rw [Line.read, header, (trimmed_bracketed _).trimChars_eq, Line.ofChars_bracketed,
    h.headerParents_eq]

end IsSection

theorem Line.ofName_dotted (h : IsSection names) (name : List Char) (inputs : List String) :
    Line.ofName (dotted names name) inputs = (Line.ofName name inputs).below names := by
  obtain ⟨first, rest, hsplit⟩ := List.exists_cons_of_ne_nil (List.splitOn_ne_nil '.' name)
  have hnames : (names.map String.toList).map String.ofList = names := by
    simp [Function.comp_def]
  have hdotted : (dotted names name).splitOn '.' = names.map String.toList ++ first :: rest := by
    rw [dotted, List.splitOn_append_cons_self, h.splitOn_eq, hsplit]
  rw [Line.ofName, Line.ofName, hdotted, hsplit, List.map_append, hnames, Line.below]
  congr 1
  · exact List.dropLast_append_of_ne_nil (by simp)
  · rw [List.getLast?_append_of_ne_nil _ (by simp)]

/-- What stands before the sign is what is behind the names. -/
theorem cutAt_append (h : '=' ∉ cs) (line : List Char) :
    cutAt '=' (cs ++ line) =
      (cutAt '=' line).map fun (name, values) => (cs ++ name, values) := by
  induction cs with
  | nil => cases hcut : cutAt '=' line <;> simp [hcut]
  | cons c cs ih =>
      obtain ⟨hc, hcs⟩ := not_or.mp (mt List.mem_cons.mpr h)
      rw [List.cons_append, cutAt, if_neg (Ne.symm hc), ih hcs, Option.map_map]
      rfl

theorem Line.assignment_dotted (h : IsSection names)
    (hstart : ∀ c ∈ line.head?, isBlank c = false) :
    Line.assignment (dotted names line) = (Line.assignment line).below names := by
  have hcut : cutAt '=' (dotted names line) =
      (cutAt '=' line).map fun (name, values) => (dotted names name, values) := by
    have hfree : '=' ∉ (".".intercalate names).toList ++ ['.'] := by
      simpa using h.equals_not_mem
    have happend := cutAt_append hfree line
    simpa [dotted] using happend
  rw [Line.assignment, Line.assignment, hcut]
  cases hline : cutAt '=' line with
  | none => exact Line.ofName_dotted h line [bareValue]
  | some sides =>
      obtain ⟨name, values⟩ := sides
      -- The name starts as its line does, if it starts at all.
      have hname : ∀ c ∈ name.head?, isBlank c = false := by
        intro c hc
        refine hstart c ?_
        obtain ⟨rest, rfl⟩ := List.head?_eq_some_iff.mp hc
        rw [Text.eq_append_of_cutAt hline]
        rfl
      simp only [Option.map_some]
      rw [h.trimChars_dotted hname]
      exact Line.ofName_dotted h _ _

/-- With the names of a section in front a line says the same of a parameter further in. -/
theorem Line.read_dotted (h : IsSection names) (hline : IsItemLine line) :
    Line.read (dotted names (trimChars line)) = (Line.read line).below names := by
  obtain ⟨-, -, -, -, -, htrimmed⟩ := Text.exists_trimChars line
  have hread : trimChars (dotted names (trimChars line)) = dotted names (trimChars line) := by
    rw [h.trimChars_dotted htrimmed.start, htrimmed.trimChars_eq]
  obtain ⟨c, hc, hsemicolon, hhash, hbracket⟩ := h.head?_dotted (trimChars line)
  rw [hline.read_eq, ← Line.assignment_dotted h htrimmed.start, Line.read, hread]
  refine Line.ofChars_eq_assignment ⟨c, hc, hsemicolon, hhash⟩ fun hheader => hbracket ?_
  exact Option.some.inj (hc.symm.trans hheader.1)

/-! ## Sections -/

/-- The lines below a header are read as they are with its names in front. -/
theorem items_dotted (h : IsSection names) (hlines : ∀ line ∈ lines, IsItemLine line) :
    items names (lines.map Line.read) =
      items [] ((lines.map fun line => dotted names (trimChars line)).map Line.read) := by
  induction lines with
  | nil => rfl
  | cons line lines ih =>
      obtain ⟨hline, hlines⟩ := List.forall_mem_cons.mp hlines
      obtain ⟨more, name, inputs, hitem⟩ := Line.assignment_eq_item (trimChars line)
      have hread : Line.read line = .item more name inputs := hline.read_eq.trans hitem
      simp only [List.map_cons, Line.read_dotted h hline, hread, Line.below, items, ih hlines,
        List.nil_append]

/-- The line gives the item its values, below the names. -/
def Gives (names : List String) (line : List Char) (item : ConfigItem) : Prop :=
  ∃ more, Line.read line = .item more item.name item.inputs ∧ item.parents = names ++ more

theorem items_gives (names : List String) (hlines : ∀ line ∈ lines, IsItemLine line) :
    List.Forall₂ (Gives names) lines (items names (lines.map Line.read)) := by
  induction lines with
  | nil => exact .nil
  | cons line lines ih =>
      obtain ⟨hline, hlines⟩ := List.forall_mem_cons.mp hlines
      obtain ⟨more, name, inputs, hitem⟩ := Line.assignment_eq_item (trimChars line)
      have hread : Line.read line = .item more name inputs := hline.read_eq.trans hitem
      rw [List.map_cons, hread, items]
      exact .cons ⟨more, hread, rfl⟩ (ih hlines)

/-- Lines below a header are read as the same lines with the names of the header in front, however
the two texts are laid out: one item for each line, below the names. -/
theorem sections_dotted (h : IsSection names) (hlines : ∀ line ∈ lines, IsItemLine line)
    {headed flat : String} (hheaded : LaidOut (header names :: lines) headed.toList)
    (hflat : LaidOut (lines.map fun line => dotted names (trimChars line)) flat.toList) :
    read headed = read flat ∧ List.Forall₂ (Gives names) lines (read headed) := by
  have hread : read headed = items names (lines.map Line.read) := by
    have hitems := hheaded.items_eq []
    rw [List.map_cons, h.read_header] at hitems
    exact hitems
  rw [hread]
  exact ⟨(items_dotted h hlines).trans (hflat.items_eq []).symm, items_gives names hlines⟩

/-- A name with a name of its own in front, and a line that switches a flag on. -/
def runnerLines : List (List Char) := ["  a.level =  3 4 ".toList, "loud".toList]

theorem sections_dotted_runner :
    IsSection ["run", "fast"] ∧ (∀ line ∈ runnerLines, IsItemLine line) ∧
      read "; runs\r\n[run.fast]\r\n  a.level =  3 4 \n\nloud" =
        [⟨["run", "fast", "a"], "level", ["3", "4"]⟩, ⟨["run", "fast"], "loud", ["ON"]⟩] ∧
      read "; runs\r\n[run.fast]\r\n  a.level =  3 4 \n\nloud" =
        read "run.fast.a.level =  3 4\nrun.fast.loud\r\n" := by
  have hsection : IsSection ["run", "fast"] := by decide +kernel
  have hlines : ∀ line ∈ runnerLines, IsItemLine line := by decide +kernel
  have hpadded : Padded (header ["run", "fast"] :: runnerLines)
      (["; runs", "[run.fast]", "  a.level =  3 4 ", "", "loud"].map String.toList) :=
    .filler (by decide) (.keep _ (.keep _ (.filler (by decide) (.keep _ .nil))))
  have hheaded : Ended (["; runs", "[run.fast]", "  a.level =  3 4 ", "", "loud"].map String.toList)
      "; runs\r\n[run.fast]\r\n  a.level =  3 4 \n\nloud".toList :=
    .cons (by decide) (.tail _ (.head _)) (.cons (by decide) (.tail _ (.head _))
      (.cons (by decide) (.head _) (.cons (by decide) (.head _) (.last (by decide)))))
  have hflat : LaidOut (runnerLines.map fun line => dotted ["run", "fast"] (trimChars line))
      "run.fast.a.level =  3 4\nrun.fast.loud\r\n".toList :=
    ⟨_, .keep _ (.keep _ .nil),
      .cons (by decide) (.head _) (.cons (by decide) (.tail _ (.head _)) .nil)⟩
  obtain ⟨hread, -⟩ := sections_dotted hsection hlines ⟨_, hpadded, hheaded⟩ hflat
  exact ⟨hsection, hlines, by decide +kernel, hread⟩

end CommandLine.Ini
