import CommandLine.Proofs.DeclaredNames
import CommandLine.Proofs.ListNotation

/-!
# The grammar of declarations

A declaration is read entry by entry: it is cut at its commas, blanks are
trimmed off, and each entry that is left is told apart by its dashes. What
can be read is said here without any of that: names are written one after
the other, each with its dashes, with commas between them and blanks as one
likes (`Names.WrittenIn`).

- **entries** (`NamePart.ofChars_eq_ok_iff`): of the texts that neither start
  nor end with a blank, are not empty and hold no comma, an entry reads
  exactly the names that are `Writable`, in their written form.
- **names** (`Names.foldlM_insertEntry_iff`): the names gathered so far are
  those that were written, in their order within each kind (`Names.Gather`),
  and only a second positional name has no place among them.
- **pieces** (`Names.Lists.entries`, `Names.lists_of_entries`): no name holds a
  comma, so what a declaration was written from stands between its commas.

The reader accepts the grammar, returns what was written and says of every
other text that it is a bad name (`Names.ofDeclaration_grammar`).
-/

namespace CommandLine

namespace Text

variable {cs before after : List Char}

/-- Nothing but blanks. -/
def AllBlank (cs : List Char) : Prop := ∀ c ∈ cs, isBlank c = true

theorem trimStart_append_of_allBlank (h : AllBlank before) (cs : List Char) :
    trimStart (before ++ cs) = trimStart cs := by
  induction before with
  | nil => rfl
  | cons c before ih =>
      obtain ⟨hc, hbefore⟩ := List.forall_mem_cons.mp h
      rw [List.cons_append, trimStart_cons hc, ih hbefore]

theorem trimEnd_append_of_allBlank (h : AllBlank after) (cs : List Char) :
    trimEnd (cs ++ after) = trimEnd cs := by
  have hreverse : AllBlank after.reverse := fun c hc => h c (List.mem_reverse.mp hc)
  rw [trimEnd_eq, List.reverse_append, trimStart_append_of_allBlank hreverse, trimEnd_eq]

theorem Trimmed.trimChars_padded (h : Trimmed cs) (hbefore : AllBlank before)
    (hafter : AllBlank after) : trimChars (before ++ cs ++ after) = cs := by
  rw [← trimChars_trimEnd, trimEnd_append_of_allBlank hafter, trimChars_trimEnd,
    ← trimChars_trimStart, trimStart_append_of_allBlank hbefore, trimChars_trimStart,
    h.trimChars_eq]

theorem trimChars_of_allBlank (h : AllBlank cs) : trimChars cs = [] := by
  have hnil : Trimmed [] := ⟨nofun, nofun⟩
  have hpadded := hnil.trimChars_padded h fun c hc => absurd hc List.not_mem_nil
  rwa [List.append_nil, List.append_nil] at hpadded

theorem exists_trimStart (cs : List Char) :
    ∃ before, AllBlank before ∧ cs = before ++ trimStart cs ∧
      ∀ c ∈ (trimStart cs).head?, isBlank c = false := by
  induction cs with
  | nil => exact ⟨[], nofun, rfl, nofun⟩
  | cons c cs ih =>
      cases hc : isBlank c with
      | false =>
          have hstart : trimStart (c :: cs) = c :: cs := @trimStart_append_cons [] cs c hc
          rw [hstart]
          refine ⟨[], nofun, rfl, ?_⟩
          rintro d ⟨⟩
          exact hc
      | true =>
          obtain ⟨before, hbefore, heq, hhead⟩ := ih
          rw [trimStart_cons hc]
          refine ⟨c :: before, List.forall_mem_cons.mpr ⟨hc, hbefore⟩, ?_, hhead⟩
          rw [List.cons_append, ← heq]

/-- Trimming takes blanks off both ends, and leaves none there. -/
theorem exists_trimChars (cs : List Char) :
    ∃ before after, AllBlank before ∧ AllBlank after ∧ cs = before ++ trimChars cs ++ after ∧
      Trimmed (trimChars cs) := by
  obtain ⟨before, hbefore, hcs, -⟩ := exists_trimStart cs
  obtain ⟨after, hafter, hstart, hstop⟩ := exists_trimStart (trimStart cs).reverse
  obtain ⟨-, -, -, hhead⟩ := exists_trimStart (trimEnd cs)
  have hchars : trimChars cs = (trimStart (trimStart cs).reverse).reverse := trimEnd_eq _
  refine ⟨before, after.reverse, hbefore, fun c hc => hafter c (List.mem_reverse.mp hc), ?_, ?_⟩
  · rw [List.append_assoc, hchars, ← List.reverse_append, ← hstart, List.reverse_reverse]
    exact hcs
  · constructor
    · rwa [trimStart_trimEnd] at hhead
    · rwa [hchars, List.getLast?_reverse]

end Text

namespace NamePart

variable {entry : List Char} {part : NamePart}

/-- The name can be written in a declaration, where commas end an entry and blanks around it are
no part of it. -/
def Writable : NamePart → Prop
  | .short c => canStartName c = true ∧ c ≠ ',' ∧ Text.isBlank c = false
  | .long name =>
    isName name.toList = true ∧ ',' ∉ name.toList ∧
      ∀ c ∈ name.toList.getLast?, Text.isBlank c = false
  | .positional name =>
    name ≠ "" ∧ (∀ c ∈ name.toList, Text.isBlank c = false) ∧ ',' ∉ name.toList ∧
      name.toList.head? ≠ some '-'

theorem Writable.comma_not_mem (h : part.Writable) : ',' ∉ part.written.toList := by
  cases part with
  | short c => simpa [eq_comm] using h.2.1
  | long name => simpa using h.2.1
  | positional name => exact h.2.2.1

theorem Writable.written_ne_nil (h : part.Writable) : part.written.toList ≠ [] := by
  cases part with
  | short c | long name => simp
  | positional name => simpa using h.1

theorem Writable.trimmed (h : part.Writable) : Text.Trimmed part.written.toList := by
  have hdash : Text.isBlank '-' = false := by decide
  cases part with
  | short c =>
      rw [toList_written_short]
      constructor
      · rintro d ⟨⟩
        exact hdash
      · rintro d ⟨⟩
        exact h.2.2
  | long name =>
      obtain ⟨hname, -, hlast⟩ := h
      have hne : name.toList ≠ [] := by
        intro hnil
        rw [hnil] at hname
        cases hname
      rw [toList_written_long]
      constructor
      · rintro d ⟨⟩
        exact hdash
      · intro d hd
        refine hlast d ?_
        rwa [List.getLast?_cons_of_ne_nil (List.cons_ne_nil _ _),
          List.getLast?_cons_of_ne_nil hne] at hd
  | positional name =>
      constructor
      · exact fun d hd => h.2.1 d (List.mem_of_mem_head? hd)
      · exact fun d hd => h.2.1 d (List.mem_of_mem_getLast? hd)

theorem ofChars_of_undashed (h : entry.head? ≠ some '-') :
    ofChars entry = if entry.any Text.isBlank then .error .blankInPositional
      else .ok (.positional (String.ofList entry)) := by
  unfold ofChars
  split
  · exact absurd rfl h
  · exact absurd rfl h
  · exact absurd rfl h
  · exact absurd rfl h
  · rfl

theorem Writable.ofChars_eq (h : part.Writable) : ofChars part.written.toList = .ok part := by
  cases part with
  | short c =>
      have hdash : c ≠ '-' := ne_dash_of_canStartName h.1
      rw [toList_written_short]
      simp [ofChars, hdash, h.1]
  | long name =>
      rw [toList_written_long]
      cases hname : name.toList with
      | nil =>
          have habsurd := h.1
          rw [hname] at habsurd
          cases habsurd
      | cons c rest =>
          have hlong : isName (c :: rest) = true := hname ▸ h.1
          rw [ofChars, if_pos hlong, ← hname, String.ofList_toList]
          all_goals simp
  | positional name =>
      obtain ⟨-, hblank, -, hdash⟩ := h
      have hany : name.toList.any Text.isBlank = false := by simpa using hblank
      rw [toList_written_positional, ofChars_of_undashed hdash, hany, if_neg Bool.false_ne_true,
        String.ofList_toList]

/-- What an entry is read as was written there. -/
theorem written_of_ofChars (h : ofChars entry = .ok part) : part.written.toList = entry := by
  unfold ofChars at h
  split at h
  · cases h
  · cases h
  · split at h <;> cases h
    rw [toList_written_long, String.toList_ofList]
  · split at h
    · split at h <;> cases h
      exact toList_written_short _
    · cases h
  · split at h <;> cases h
    rw [toList_written_positional, String.toList_ofList]

/-- Whatever can be read between two commas, less the blanks around it, can be written there. -/
theorem writable_of_ofChars (htrimmed : Text.Trimmed entry) (hne : entry ≠ [])
    (hcomma : ',' ∉ entry) (h : ofChars entry = .ok part) : part.Writable := by
  have hvalid := valid_of_ofChars h
  have hwritten := written_of_ofChars h
  subst hwritten
  cases part with
  | short c =>
      refine ⟨hvalid, ?_, htrimmed.stop c (by simp)⟩
      rintro rfl
      exact hcomma (by simp)
  | long name =>
      have hname : name.toList ≠ [] := by
        intro hnil
        rw [Valid, hnil] at hvalid
        cases hvalid
      refine ⟨hvalid, fun hmem => hcomma (by simp [hmem]), fun c hc => htrimmed.stop c ?_⟩
      rwa [toList_written_long, List.getLast?_cons_of_ne_nil (List.cons_ne_nil _ _),
        List.getLast?_cons_of_ne_nil hname]
  | positional name =>
      rw [toList_written_positional, ofChars_of_undashed hvalid] at h
      split at h
      · cases h
      · next hany =>
          have hblank : ∀ c ∈ name.toList, Text.isBlank c = false := by simpa using hany
          exact ⟨by simpa using hne, hblank, hcomma, hvalid⟩

theorem ofChars_eq_ok_iff (htrimmed : Text.Trimmed entry) (hne : entry ≠ [])
    (hcomma : ',' ∉ entry) :
    ofChars entry = .ok part ↔ part.Writable ∧ part.written.toList = entry := by
  constructor
  · exact fun h => ⟨writable_of_ofChars htrimmed hne hcomma h, written_of_ofChars h⟩
  · rintro ⟨hwritable, rfl⟩
    exact hwritable.ofChars_eq

def short? : NamePart → Option Char
  | .short c => some c
  | _ => none

def long? : NamePart → Option String
  | .long name => some name
  | _ => none

def positional? : NamePart → Option String
  | .positional name => some name
  | _ => none

end NamePart

namespace Names

variable {names after final : Names} {part : NamePart} {parts more : List NamePart}
  {found : List (List Char)} {declaration : String}

/-- The names are those of the list, in its order within each kind. At most one is positional. -/
structure Gather (names : Names) (parts : List NamePart) : Prop where
  shorts : parts.filterMap NamePart.short? = names.shorts
  longs : parts.filterMap NamePart.long? = names.longs
  positional : parts.filterMap NamePart.positional? = names.positional.toList

theorem gather_nil : Gather {} [] := ⟨rfl, rfl, rfl⟩

theorem Gather.unique (h : names.Gather parts) (hother : after.Gather parts) : names = after := by
  obtain ⟨shorts, longs, positional⟩ := names
  obtain ⟨shorts', longs', positional'⟩ := after
  have hpositional : positional.toList = positional'.toList :=
    h.positional.symm.trans hother.positional
  obtain rfl : shorts = shorts' := h.shorts.symm.trans hother.shorts
  obtain rfl : longs = longs' := h.longs.symm.trans hother.longs
  obtain rfl : positional = positional' := by
    cases positional <;> cases positional' <;> simp_all
  rfl

theorem Gather.insert (h : names.Gather parts) (hinsert : names.insert part = .ok after) :
    after.Gather (parts ++ [part]) := by
  obtain ⟨hshorts, hlongs, hpositional⟩ := h
  cases part with
  | short c | long name =>
      cases hinsert
      constructor <;> simp [List.filterMap_append, NamePart.short?, NamePart.long?,
        NamePart.positional?, *]
  | positional name =>
      rw [Names.insert] at hinsert
      split at hinsert
      · cases hinsert
      · next hnone =>
          cases hinsert
          have hnone : names.positional = none := by simpa [isPositional] using hnone
          constructor <;> simp [List.filterMap_append, NamePart.short?, NamePart.long?,
            NamePart.positional?, *]

/-- Where a list of names can be gathered, each of them has a place after those before it. -/
theorem Gather.exists_insert (h : names.Gather parts)
    (hfinal : final.Gather (parts ++ part :: more)) : ∃ after, names.insert part = .ok after := by
  cases part with
  | short c | long name => exact ⟨_, rfl⟩
  | positional name =>
      have hpositional := hfinal.positional
      rw [List.filterMap_append, h.positional,
        List.filterMap_cons_some (rfl : NamePart.positional? _ = some name)] at hpositional
      cases hnone : names.positional with
      | none => exact ⟨_, by rw [Names.insert, isPositional, hnone]; rfl⟩
      | some other =>
          -- two positional names, of which one is kept
          have hlength := congrArg List.length hpositional
          rw [hnone, List.length_append, Option.toList_some, List.length_singleton,
            List.length_cons, Option.length_toList] at hlength
          split at hlength <;> omega

theorem foldlM_insertEntry_iff (h : names.Gather parts) :
    found.foldlM insertEntry names = .ok after ↔
      ∃ read, List.Forall₂ (fun entry part => NamePart.ofChars entry = .ok part) found read ∧
        after.Gather (parts ++ read) := by
  induction found generalizing names parts with
  | nil =>
      constructor
      · rintro ⟨⟩
        exact ⟨[], .nil, by rwa [List.append_nil]⟩
      · rintro ⟨read, ⟨⟩, hafter⟩
        rw [List.append_nil] at hafter
        rw [h.unique hafter]
        rfl
  | cons entry found ih =>
      constructor
      · intro hfold
        obtain ⟨next, hentry, hrest⟩ := ok_of_bind_ok hfold
        obtain ⟨part, hpart, hinsert⟩ := insertEntry_eq_ok_iff.mp hentry
        obtain ⟨read, hread, hafter⟩ := (ih (h.insert hinsert)).mp hrest
        exact ⟨part :: read, .cons hpart hread, by rwa [List.append_assoc] at hafter⟩
      · rintro ⟨_, hread, hafter⟩
        cases hread with
        | @cons _ part _ read hpart hread =>
            obtain ⟨next, hinsert⟩ := h.exists_insert hafter
            have hentry : names.insertEntry entry = .ok next :=
              insertEntry_eq_ok_iff.mpr ⟨part, hpart, hinsert⟩
            rw [List.foldlM_cons, hentry]
            refine (ih (h.insert hinsert)).mpr ⟨read, hread, ?_⟩
            rwa [List.append_assoc]

/-! ## Pieces -/

/-- The pieces hold the names: each piece is blank, or one name with blanks around it. -/
inductive Lists : List (List Char) → List NamePart → Prop
  | nil : Lists [] []
  | blank {piece pieces parts} (hpiece : Text.AllBlank piece) (hrest : Lists pieces parts) :
      Lists (piece :: pieces) parts
  | name {before after part pieces parts} (hbefore : Text.AllBlank before)
      (hpart : NamePart.Writable part) (hafter : Text.AllBlank after)
      (hrest : Lists pieces parts) :
      Lists ((before ++ part.written.toList ++ after) :: pieces) (part :: parts)

/-- The declaration is the names, in any order, separated by commas, with blanks around them and
blank pieces between them. -/
def WrittenIn (names : Names) (declaration : String) : Prop :=
  ∃ pieces parts, declaration.toList = [','].intercalate pieces ∧ Lists pieces parts ∧
    parts ≠ [] ∧ names.Gather parts

variable {pieces : List (List Char)}

theorem comma_not_mem_of_allBlank {cs : List Char} (h : Text.AllBlank cs) : ',' ∉ cs :=
  fun hmem => absurd (h ',' hmem) (by decide)

theorem Lists.comma_not_mem (h : Lists pieces parts) : ∀ piece ∈ pieces, ',' ∉ piece := by
  induction h with
  | nil => exact nofun
  | blank hpiece _ ih => exact List.forall_mem_cons.mpr ⟨comma_not_mem_of_allBlank hpiece, ih⟩
  | name hbefore hpart hafter _ ih =>
      refine List.forall_mem_cons.mpr ⟨?_, ih⟩
      rw [List.mem_append, List.mem_append, not_or, not_or]
      exact ⟨⟨comma_not_mem_of_allBlank hbefore, hpart.comma_not_mem⟩,
        comma_not_mem_of_allBlank hafter⟩

/-- The names are what the pieces are read as, entry by entry. -/
theorem Lists.entries (h : Lists pieces parts) :
    List.Forall₂ (fun entry part => NamePart.ofChars entry = .ok part)
      ((pieces.map Text.trimChars).filter (!·.isEmpty)) parts := by
  induction h with
  | nil => exact .nil
  | blank hpiece _ ih =>
      rw [List.map_cons, Text.trimChars_of_allBlank hpiece, List.filter_cons_of_neg (by simp)]
      exact ih
  | @name _ _ part _ _ hbefore hpart hafter _ ih =>
      have hne := hpart.written_ne_nil
      rw [List.map_cons, hpart.trimmed.trimChars_padded hbefore hafter,
        List.filter_cons_of_pos (by simpa using hne)]
      exact .cons hpart.ofChars_eq ih

theorem lists_of_entries (hcommas : ∀ piece ∈ pieces, ',' ∉ piece)
    (h : List.Forall₂ (fun entry part => NamePart.ofChars entry = .ok part)
      ((pieces.map Text.trimChars).filter (!·.isEmpty)) parts) : Lists pieces parts := by
  induction pieces generalizing parts with
  | nil =>
      cases h
      exact .nil
  | cons piece pieces ih =>
      obtain ⟨hcomma, hcommas⟩ := List.forall_mem_cons.mp hcommas
      obtain ⟨before, after, hbefore, hafter, hpiece, htrimmed⟩ := Text.exists_trimChars piece
      rw [List.map_cons] at h
      by_cases hne : Text.trimChars piece = []
      · rw [hne, List.filter_cons_of_neg (by simp)] at h
        refine .blank ?_ (ih hcommas h)
        rw [hne, List.append_nil] at hpiece
        rw [hpiece]
        exact List.forall_mem_append.mpr ⟨hbefore, hafter⟩
      · rw [List.filter_cons_of_pos (by simpa using hne)] at h
        cases h with
        | @cons _ part _ parts hpart hrest =>
            have hentry : ',' ∉ Text.trimChars piece := fun hmem =>
              hcomma ((Config.trimChars_sublist piece).mem hmem)
            obtain ⟨hwritable, hwritten⟩ :=
              (NamePart.ofChars_eq_ok_iff htrimmed hne hentry).mp hpart
            rw [hpiece, ← hwritten]
            exact .name hbefore hwritable hafter (ih hcommas hrest)

/-! ## Declarations -/

theorem ofDeclaration_eq_ok_iff_foldlM :
    ofDeclaration declaration = .ok names ↔
      entries declaration ≠ [] ∧ (entries declaration).foldlM insertEntry {} = .ok names := by
  unfold ofDeclaration
  split
  · next hnil => simp [hnil]
  · next hne => exact (and_iff_right hne).symm

/-- A declaration is read as the names that are written in it. -/
theorem ofDeclaration_eq_ok_iff :
    ofDeclaration declaration = .ok names ↔ names.WrittenIn declaration := by
  rw [ofDeclaration_eq_ok_iff_foldlM, foldlM_insertEntry_iff gather_nil, WrittenIn]
  constructor
  · rintro ⟨hne, parts, hparts, hgather⟩
    have hcommas : ∀ piece ∈ declaration.toList.splitOn ',', ',' ∉ piece :=
      fun piece hpiece => Config.not_mem_of_mem_splitOn hpiece
    refine ⟨_, parts, (List.intercalate_splitOn ',').symm, lists_of_entries hcommas hparts, ?_,
      hgather⟩
    rintro rfl
    exact hne (List.forall₂_nil_right_iff.mp hparts)
  · rintro ⟨pieces, parts, hdeclaration, hlists, hne, hgather⟩
    have hpieces : pieces ≠ [] := by
      rintro rfl
      cases hlists
      exact hne rfl
    have hsplit : declaration.toList.splitOn ',' = pieces := by
      rw [hdeclaration]
      exact List.splitOn_intercalate ',' hlists.comma_not_mem hpieces
    have hentries : List.Forall₂ (fun entry part => NamePart.ofChars entry = .ok part)
        (entries declaration) parts := by
      rw [entries, hsplit]
      exact hlists.entries
    refine ⟨fun hnil => ?_, parts, hentries, hgather⟩
    exact hne (List.forall₂_nil_left_iff.mp (hnil ▸ hentries))

theorem badName_of_insertEntry {entry : List Char} {error : DeclarationError}
    (h : names.insertEntry entry = .error error) : ∃ entry fault, error = .badName entry fault := by
  unfold insertEntry at h
  split at h <;> cases h
  exact ⟨_, _, rfl⟩

theorem badName_of_foldlM {error : DeclarationError}
    (h : found.foldlM insertEntry names = .error error) :
    ∃ entry fault, error = .badName entry fault := by
  induction found generalizing names with
  | nil => cases h
  | cons entry found ih =>
      rw [List.foldlM_cons] at h
      cases hentry : names.insertEntry entry with
      | error fault =>
          rw [hentry] at h
          cases h
          exact badName_of_insertEntry hentry
      | ok next =>
          rw [hentry] at h
          exact ih h

/-- A declaration is refused for a name only. -/
theorem badName_of_ofDeclaration {error : DeclarationError}
    (h : ofDeclaration declaration = .error error) :
    ∃ entry fault, error = .badName entry fault := by
  unfold ofDeclaration at h
  split at h
  · cases h
    exact ⟨_, _, rfl⟩
  · exact badName_of_foldlM h

/-- The reader accepts exactly the declarations in which names are written, and returns these
names, by kind and in their order. Every other text is a bad name. -/
theorem ofDeclaration_grammar (declaration : String) :
    (∀ names, ofDeclaration declaration = .ok names ↔ names.WrittenIn declaration) ∧
      ((∃ entry fault, ofDeclaration declaration = .error (.badName entry fault)) ↔
        ∀ names, ¬ WrittenIn names declaration) := by
  refine ⟨fun names => ofDeclaration_eq_ok_iff, ?_, fun hnone => ?_⟩
  · rintro ⟨entry, fault, herror⟩ names hwritten
    rw [ofDeclaration_eq_ok_iff.mpr hwritten] at herror
    cases herror
  · cases hread : ofDeclaration declaration with
    | ok names => exact absurd (ofDeclaration_eq_ok_iff.mp hread) (hnone names)
    | error error =>
        obtain ⟨entry, fault, rfl⟩ := badName_of_ofDeclaration hread
        exact ⟨entry, fault, rfl⟩

/-- Blank pieces and blanks of any kind around the names change nothing. -/
example : ofDeclaration "\u00a0-v ,,--verbose\t, \u3000,FILE" =
    .ok { shorts := ['v'], longs := ["verbose"], positional := some "FILE" } := by
  decide +kernel

end Names

end CommandLine
