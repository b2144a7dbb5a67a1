import CommandLine.Config.Ini
import CommandLine.Proofs.Quoting

/-!
# An INI file is read as it was written

Writing sorts items into sections; but for that, reading a file that was
written gives back all that was put in (`Ini.read_write`), as long as
every item can be written at all (`Ini.Writable`).

Reading goes line by line, and all that one line hands on to the next is
the section it stands in. So `readBelow` speaks of the rest of a text,
and there is one lemma for each kind of line that can stand before it.
-/

namespace CommandLine.Ini

open Config (Quotable Unlisted bracketed? bracketed?_eq_some_iff readValues writeValues)
open Text (Trimmed cutAt isBlank trimChars trimEnd trimStart)

variable {all : List ConfigItem} {parents : List String} {line name values : List Char}

/-! ## What can be written -/

/-- The name is read as it is when it stands at the start of a line. -/
@[mk_iff]
structure WritableName (name : List Char) : Prop where
  trimmed : Trimmed name
  plain : '=' ∉ name ∧ '.' ∉ name ∧ '\n' ∉ name
  start : name.head? ∉ [some ';', some '#', some '[']

instance (name : List Char) : Decidable (WritableName name) :=
  decidable_of_iff _ (writableName_iff name).symm

/-- The names make up the header of a section. -/
@[mk_iff]
structure WritableSection (parents : List String) : Prop where
  trimmed : ∀ parent ∈ parents, Trimmed parent.toList
  plain : ∀ parent ∈ parents, '.' ∉ parent.toList ∧ '\n' ∉ parent.toList
  named : ".".intercalate parents ≠ ""
  other : (".".intercalate parents).toList.map Char.toLower ≠ "default".toList

instance (parents : List String) : Decidable (WritableSection parents) :=
  decidable_of_iff _ (writableSection_iff parents).symm

/-- The values can be told apart on one line, and differ from a list in brackets. -/
@[mk_iff]
structure WritableInputs (inputs : List (List Char)) : Prop where
  plain : ∀ value ∈ inputs, '\n' ∉ value
  quotable : ∀ value ∈ inputs, Quotable value
  unlisted : Unlisted inputs

instance (inputs : List (List Char)) : Decidable (WritableInputs inputs) :=
  decidable_of_iff _ (writableInputs_iff inputs).symm

/-- The item can be written. -/
@[mk_iff]
structure Writable (item : ConfigItem) : Prop where
  parents : item.parents ≠ [] → WritableSection item.parents
  name : WritableName item.name.toList
  inputs : WritableInputs (item.inputs.map String.toList)

instance (item : ConfigItem) : Decidable (Writable item) :=
  decidable_of_iff _ (writable_iff item).symm

/-! ## Lines -/

theorem Line.ofChars_of_cutAt (hstart : line.head? ∉ [some ';', some '#', some '['])
    (hcut : cutAt '=' line = some (name, values)) :
    Line.ofChars line =
      .ofName (trimChars name) ((readValues (trimChars values)).map String.ofList) := by
  unfold Line.ofChars
  split
  · cases hcut
  · exact absurd (by simp) hstart
  · exact absurd (by simp) hstart
  · split
    · next hbody =>
        rw [bracketed?_eq_some_iff.mp hbody] at hstart
        exact absurd (by simp) hstart
    · rw [hcut]

theorem Line.ofName_of_not_mem (h : '.' ∉ name) (inputs : List String) :
    Line.ofName name inputs = .item [] (String.ofList name) inputs := by
  simp [Line.ofName, List.splitOn_eq_singleton h]

theorem Line.ofChars_bracketed (body : List Char) :
    Line.ofChars ('[' :: (body ++ [']'])) = .header (headerParents body) := by
  have hbody : bracketed? ('[' :: (body ++ [']'])) = some body := bracketed?_eq_some_iff.mpr rfl
  simp [Line.ofChars, hbody]

/-- Only the name can be trimmed off what stands before the sign. -/
theorem head?_trimStart_append (h : Trimmed name) (behind : List Char) :
    (trimStart (name ++ [' ']) ++ '=' :: behind).head? = name.head?.or (some '=') := by
  cases name with
  | nil => simp [trimStart]
  | cons c name =>
      have hstart : trimStart (c :: name ++ [' ']) = c :: name ++ [' '] :=
        Text.trimStart_of_head? h.start
      rw [hstart]
      rfl

/-- The line of an item says what the item does. -/
theorem Line.ofChars_item (hname : WritableName name) {inputs : List (List Char)}
    (hinputs : WritableInputs inputs) :
    Line.ofChars (trimChars (name ++ ' ' :: '=' :: ' ' :: writeValues inputs)) =
      .item [] (String.ofList name) (inputs.map String.ofList) := by
  have hsplit : name ++ ' ' :: '=' :: ' ' :: writeValues inputs =
      (name ++ [' ']) ++ '=' :: (' ' :: writeValues inputs) := by simp
  rw [hsplit, Text.trimChars_append_cons (by decide)]
  have hbefore : '=' ∉ trimStart (name ++ [' ']) := by
    intro hmem
    have hsuffix : trimStart (name ++ [' ']) <:+ name ++ [' '] := List.dropWhile_suffix isBlank
    have hmem := hsuffix.mem hmem
    rw [List.mem_append, List.mem_singleton] at hmem
    rcases hmem with hmem | hmem
    · exact hname.plain.1 hmem
    · exact absurd hmem (by decide)
  have hstart : (trimStart (name ++ [' ']) ++
      '=' :: trimEnd (' ' :: writeValues inputs)).head? ∉ [some ';', some '#', some '['] := by
    rw [head?_trimStart_append hname.trimmed]
    have hne := hname.start
    cases hhead : name.head? with
    | none => decide
    | some c => rwa [hhead] at hne
  have hname' : trimChars (trimStart (name ++ [' '])) = name := by
    rw [Text.trimChars_trimStart, Text.trimChars_append_singleton Text.isBlank_space,
      hname.trimmed.trimChars_eq]
  have hvalues : trimChars (trimEnd (' ' :: writeValues inputs)) = writeValues inputs := by
    rw [Text.trimChars_trimEnd, Text.trimChars_cons Text.isBlank_space,
      (Config.trimmed_writeValues inputs).trimChars_eq]
  rw [Line.ofChars_of_cutAt hstart (Text.cutAt_append_cons hbefore), hname', hvalues,
    Config.readValues_writeValues hinputs.quotable hinputs.unlisted,
    Line.ofName_of_not_mem hname.plain.2.1]

/-! ## Headers -/

theorem trimmed_bracketed (body : List Char) : Trimmed ('[' :: (body ++ [']'])) where
  start c hc := by
    cases hc
    decide
  stop c hc := by
    rw [← List.cons_append, List.getLast?_concat] at hc
    cases hc
    decide

theorem WritableSection.forall_chars (h : WritableSection parents) :
    ∀ part ∈ parents.map String.toList, Trimmed part ∧ '.' ∉ part ∧ '\n' ∉ part := by
  intro part hpart
  obtain ⟨parent, hparent, rfl⟩ := List.mem_map.mp hpart
  exact ⟨h.trimmed parent hparent, h.plain parent hparent⟩

theorem WritableSection.newline_not_mem (h : WritableSection parents) :
    '\n' ∉ (".".intercalate parents).toList := by
  rw [String.toList_intercalate]
  intro hmem
  obtain hdot | ⟨part, hpart, hmem⟩ := Text.mem_intercalate hmem
  · exact absurd hdot (by decide)
  · exact (h.forall_chars part hpart).2.2 hmem

/-- The header of a section leads to the section. -/
theorem headerParents_of_writable (h : WritableSection parents) (hne : parents ≠ []) :
    headerParents (".".intercalate parents).toList = parents := by
  have hjoined : (".".intercalate parents).toList = ['.'].intercalate (parents.map String.toList) :=
    String.toList_intercalate
  have htrimmed : Trimmed (".".intercalate parents).toList := by
    rw [hjoined]
    exact Text.trimmed_intercalate (by decide) fun part hpart => (h.forall_chars part hpart).1
  have hsplit : (".".intercalate parents).toList.splitOn '.' = parents.map String.toList := by
    rw [hjoined]
    exact List.splitOn_intercalate '.' (fun part hpart => (h.forall_chars part hpart).2.1)
      (by simpa using hne)
  have hroot : ¬((".".intercalate parents).toList.isEmpty ||
      (".".intercalate parents).toList.map Char.toLower == rootSection.toList) = true := by
    rw [Bool.or_eq_true, List.isEmpty_iff, beq_iff_eq, not_or]
    exact ⟨fun hnil => h.named (String.toList_eq_nil_iff.mp hnil), h.other⟩
  have hparts : ∀ parent ∈ parents, String.ofList (trimChars parent.toList) = parent := by
    intro parent hparent
    rw [(h.trimmed parent hparent).trimChars_eq, String.ofList_toList]
  rw [headerParents, htrimmed.trimChars_eq, if_neg hroot, hsplit, List.map_map]
  exact (List.map_congr_left hparts).trans (List.map_id parents)

/-! ## The rest of a text -/

/-- The items of the lines that stand below a header. -/
def readBelow (parents : List String) (cs : List Char) : List ConfigItem :=
  items parents ((Text.lines cs).map fun line => .ofChars (trimChars line))

theorem readBelow_nil (parents : List String) : readBelow parents [] = [] := by
  rw [readBelow, Text.lines_nil, List.map_nil, items]

theorem readBelow_line (h : '\n' ∉ line) (rest : List Char) :
    readBelow parents (line ++ '\n' :: rest) =
      items parents (.ofChars (trimChars line) ::
        (Text.lines rest).map fun line => .ofChars (trimChars line)) := by
  rw [readBelow, Text.lines_append h, List.map_cons, Text.trimChars_dropReturn]

theorem readBelow_newline (rest : List Char) :
    readBelow parents ('\n' :: rest) = readBelow parents rest :=
  readBelow_line List.not_mem_nil rest

theorem toList_itemLine (item : ConfigItem) :
    (itemLine item).toList = (item.name.toList ++ ' ' :: '=' :: ' ' ::
      writeValues (item.inputs.map String.toList)) ++ ['\n'] := by
  simp [itemLine]

theorem readBelow_itemLine (h : Writable item) (hparents : item.parents = parents)
    (rest : List Char) :
    readBelow parents ((itemLine item).toList ++ rest) = item :: readBelow parents rest := by
  have hline : '\n' ∉ item.name.toList ++ ' ' :: '=' :: ' ' ::
      writeValues (item.inputs.map String.toList) := by
    have hname := h.name.plain.2.2
    have hvalues := Config.newline_not_mem_writeValues h.inputs.plain
    simp [hname, hvalues]
  rw [toList_itemLine, List.append_assoc, List.singleton_append, readBelow_line hline,
    Line.ofChars_item h.name h.inputs, items]
  simp [readBelow, Function.comp_def, ← hparents]

theorem readBelow_itemLines (all : List ConfigItem)
    (h : ∀ item ∈ all, Writable item ∧ item.parents = parents) (rest : List Char) :
    readBelow parents (all.flatMap (fun item => (itemLine item).toList) ++ rest) =
      all ++ readBelow parents rest := by
  induction all with
  | nil => rfl
  | cons item all ih =>
      obtain ⟨⟨hitem, hparents⟩, hall⟩ := List.forall_mem_cons.mp h
      rw [List.flatMap_cons, List.append_assoc, readBelow_itemLine hitem hparents, ih hall,
        List.cons_append]

theorem readBelow_sectionLines (h : ∀ item ∈ all, Writable item) (parents : List String)
    (rest : List Char) :
    readBelow parents ((sectionLines all parents).toList ++ rest) =
      all.filter (·.parents == parents) ++ readBelow parents rest := by
  have hsection : ∀ item ∈ all.filter (·.parents == parents),
      Writable item ∧ item.parents = parents := by
    intro item hitem
    obtain ⟨hmem, hparents⟩ := List.mem_filter.mp hitem
    exact ⟨h item hmem, beq_iff_eq.mp hparents⟩
  rw [sectionLines, String.toList_join, List.flatMap_map]
  exact readBelow_itemLines _ hsection rest

theorem readBelow_headerLine {inner : List String} (h : WritableSection inner) (hne : inner ≠ [])
    (rest : List Char) :
    readBelow parents ((headerLine inner).toList ++ rest) = readBelow inner rest := by
  have htext : (headerLine inner).toList ++ rest =
      ('[' :: ((".".intercalate inner).toList ++ [']'])) ++ '\n' :: rest := by
    simp [headerLine]
  have hline : '\n' ∉ '[' :: ((".".intercalate inner).toList ++ [']']) := by
    rw [List.mem_cons, List.mem_append, List.mem_singleton]
    rintro (hopen | hmem | hclose)
    · exact absurd hopen (by decide)
    · exact h.newline_not_mem hmem
    · exact absurd hclose (by decide)
  rw [htext, readBelow_line hline, (trimmed_bracketed _).trimChars_eq, Line.ofChars_bracketed,
    headerParents_of_writable h hne, items]
  rfl

/-- Whatever a block of lines says, an empty line may follow it. -/
theorem readBelow_intercalate {block : String} {inner : List String}
    (h : ∀ rest, readBelow parents (block.toList ++ rest) = all ++ readBelow inner rest)
    (blocks : List String) :
    readBelow parents ("\n".intercalate (block :: blocks)).toList =
      all ++ readBelow inner ("\n".intercalate blocks).toList := by
  cases blocks with
  | nil =>
      have hlast := h []
      rwa [List.append_nil] at hlast
  | cons next blocks =>
      have hnext := h ('\n' :: ("\n".intercalate (next :: blocks)).toList)
      rw [readBelow_newline] at hnext
      rw [String.intercalate_cons_cons, String.toList_append, String.toList_append,
        List.append_assoc]
      exact hnext

/-! ## Sections -/

section Grouping

variable {α β : Type} [BEq β] [LawfulBEq β]

theorem nodup_eraseDups (l : List β) : l.eraseDups.Nodup := by
  match l with
  | [] => simp
  | b :: l =>
      rw [List.eraseDups_cons, List.nodup_cons, List.mem_eraseDups]
      exact ⟨by simp, nodup_eraseDups _⟩
termination_by l.length
decreasing_by exact Nat.lt_succ_of_le (List.length_filter_le _ l)

/-- Nothing is lost or repeated when a list is taken apart by a key. -/
theorem perm_flatMap_filter (key : α → β) {keys : List β} (hkeys : keys.Nodup) {l : List α}
    (h : ∀ a ∈ l, key a ∈ keys) : (keys.flatMap fun k => l.filter (key · == k)).Perm l := by
  induction keys generalizing l with
  | nil =>
      have hnil : l = [] := List.eq_nil_iff_forall_not_mem.mpr fun a ha => List.not_mem_nil (h a ha)
      rw [hnil]
      exact .refl _
  | cons k keys ih =>
      obtain ⟨hk, hkeys⟩ := List.nodup_cons.mp hkeys
      have hothers : ∀ a ∈ l.filter (!key · == k), key a ∈ keys := by
        intro a ha
        obtain ⟨hmem, hne⟩ := List.mem_filter.mp ha
        refine (List.mem_cons.mp (h a hmem)).resolve_left fun heq => ?_
        simp [heq] at hne
      have hsame : (keys.flatMap fun other => l.filter (key · == other)) =
          keys.flatMap fun other => (l.filter (!key · == k)).filter (key · == other) := by
        refine List.flatMap_congr fun other hother => ?_
        rw [List.filter_filter]
        refine List.filter_congr fun a _ => ?_
        have hne : other ≠ k := fun heq => hk (heq ▸ hother)
        by_cases ha : key a = other
        · simp [ha, hne]
        · simp [ha]
      rw [List.flatMap_cons, hsame]
      exact ((ih hkeys hothers).append_left _).trans (List.filter_append_perm _ l)

end Grouping

theorem mem_sections :
    parents ∈ sections all ↔ parents ≠ [] ∧ ∃ item ∈ all, item.parents = parents := by
  simp [sections, and_comm]

/-- What stands under a header is read as the items of that section, whatever stood above. -/
theorem readBelow_blocks (h : ∀ item ∈ all, Writable item) (above : List String)
    {inner : List (List String)}
    (hinner : ∀ parents ∈ inner, WritableSection parents ∧ parents ≠ []) :
    readBelow above ("\n".intercalate
        (inner.map fun parents => headerLine parents ++ sectionLines all parents)).toList =
      inner.flatMap fun parents => all.filter (·.parents == parents) := by
  induction inner generalizing above with
  | nil => exact readBelow_nil above
  | cons parents inner ih =>
      obtain ⟨⟨hheader, hne⟩, hinner⟩ := List.forall_mem_cons.mp hinner
      have hblock : ∀ rest, readBelow above
          ((headerLine parents ++ sectionLines all parents).toList ++ rest) =
            all.filter (·.parents == parents) ++ readBelow parents rest := by
        intro rest
        rw [String.toList_append, List.append_assoc, readBelow_headerLine hheader hne,
          readBelow_sectionLines h]
      rw [List.map_cons, readBelow_intercalate hblock, ih parents hinner, List.flatMap_cons]

/-- What is written is read section by section, the root's items first. -/
theorem read_write_eq (h : ∀ item ∈ all, Writable item) :
    read (write all) =
      ([] :: sections all).flatMap fun parents => all.filter (·.parents == parents) := by
  have hsections : ∀ parents ∈ sections all, WritableSection parents ∧ parents ≠ [] := by
    intro parents hparents
    obtain ⟨hne, item, hitem, rfl⟩ := mem_sections.mp hparents
    exact ⟨(h item hitem).parents hne, hne⟩
  have hroot := readBelow_sectionLines h []
  have hblocks := readBelow_blocks h [] hsections
  rw [List.flatMap_cons, ← hblocks]
  unfold write
  dsimp only
  split
  · next hempty =>
      have hnone : (sectionLines all []).toList = [] := by
        rw [String.isEmpty_iff.mp hempty]
        rfl
      rw [hnone] at hroot
      exact hroot _
  · exact readBelow_intercalate hroot _

/-- A file that was written is read as the items of the root, followed by those of each section in
the order in which the sections first come up; the items of one section keep their order, and
nothing else is read. -/
theorem read_write (h : ∀ item ∈ all, Writable item) :
    read (write all) = all.filter (·.parents.isEmpty) ++
        (sections all).flatMap (fun parents => all.filter (·.parents == parents)) ∧
      (read (write all)).Perm all := by
  have hroot : all.filter (·.parents == []) = all.filter (·.parents.isEmpty) := by
    refine List.filter_congr fun item _ => ?_
    cases item.parents <;> rfl
  have hdistinct : ([] :: sections all).Nodup :=
    List.nodup_cons.mpr ⟨fun hmem => (mem_sections.mp hmem).1 rfl, nodup_eraseDups _⟩
  have hcovered : ∀ item ∈ all, item.parents ∈ [] :: sections all := by
    intro item hitem
    by_cases hne : item.parents = []
    · exact List.mem_cons.mpr (Or.inl hne)
    · exact List.mem_cons_of_mem _ (mem_sections.mpr ⟨hne, item, hitem, rfl⟩)
  rw [read_write_eq h]
  refine ⟨?_, perm_flatMap_filter ConfigItem.parents hdistinct hcovered⟩
  rw [List.flatMap_cons, hroot]

/-- Two sections in turn with the root, names and values that are empty, and values with quotes,
brackets and signs. -/
def scatteredItems : List ConfigItem :=
  [⟨["start"], "port", ["8080"]⟩, ⟨[], "count", []⟩, ⟨["start", "", "now"], "a b", ["[x", "it's"]⟩,
    ⟨["start"], "", ["", "= [y]", "\"z\""]⟩, ⟨[], "port", ["8080", "; no]"]⟩]

theorem read_write_scattered :
    (∀ item ∈ scatteredItems, Writable item) ∧
      read (write scatteredItems) =
        [⟨[], "count", []⟩, ⟨[], "port", ["8080", "; no]"]⟩, ⟨["start"], "port", ["8080"]⟩,
          ⟨["start"], "", ["", "= [y]", "\"z\""]⟩,
          ⟨["start", "", "now"], "a b", ["[x", "it's"]⟩] := by
  have hwritable : ∀ item ∈ scatteredItems, Writable item := by decide +kernel
  obtain ⟨hread, -⟩ := read_write hwritable
  refine ⟨hwritable, hread.trans ?_⟩
  decide +kernel

end CommandLine.Ini
