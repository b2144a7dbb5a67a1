import CommandLine.Proofs.CommandNames

/-!
# Declared names

The names of a parameter have been read from a declaration, entry by
entry, and nothing else ever names it. So there is at least one of them,
and each is a valid name of its kind (`Parser.Reachable.valid_parts`): the short
and long ones can be written behind their dashes, and no name starts with a
dash itself (`Parser.Reachable.declared`).
-/

namespace CommandLine

namespace NamePart

variable {entry : List Char} {part : NamePart}

/-- The name without its dashes. -/
def text : NamePart → String
  | .short c => String.singleton c
  | .long name | .positional name => name

/-- The name as it is written, with its dashes. -/
def written : NamePart → String
  | .short c => s!"-{c}"
  | .long name => s!"--{name}"
  | .positional name => name

@[simp] theorem toList_written_short (c : Char) : (short c).written.toList = ['-', c] := by
  simp [written, toString]

@[simp] theorem toList_written_long (name : String) :
    (long name).written.toList = '-' :: '-' :: name.toList := by
  simp [written, toString]

@[simp] theorem toList_written_positional (name : String) :
    (positional name).written.toList = name.toList := rfl

/-- The name can be told from its dashes, and from those of a name of another kind. -/
def Valid : NamePart → Prop
  | .short c => canStartName c = true
  | .long name => isName name.toList = true
  | .positional name => name.toList.head? ≠ some '-'

theorem valid_of_ofChars (h : ofChars entry = .ok part) : part.Valid := by
  unfold ofChars at h
  split at h
  · cases h
  · cases h
  · next name _ =>
      split at h
      · next hname =>
          cases h
          rwa [Valid, String.toList_ofList]
      · cases h
  · split at h
    · split at h
      · next hstart =>
          cases h
          exact hstart
      · cases h
    · cases h
  · next hdashed =>
      split at h
      · cases h
      · cases h
        intro hhead
        obtain ⟨rest, hrest⟩ := List.head?_eq_some_iff.mp hhead
        rw [String.toList_ofList] at hrest
        exact hdashed rest hrest

/-- The dashes in front of a name are no part of it. -/
theorem Valid.head?_ne_dash (h : part.Valid) : part.text.toList.head? ≠ some '-' := by
  cases part with
  | short c => simpa [text] using ne_dash_of_canStartName h
  | long name => exact head?_ne_dash_of_isName h
  | positional name => exact h

end NamePart

namespace Names

variable {names after : Names} {part : NamePart}

/-- All names of a parameter. -/
def parts (names : Names) : List NamePart :=
  names.shorts.map .short ++ names.longs.map .long ++ names.positional.toList.map .positional

theorem mem_parts_insert (h : names.insert part = .ok after) (other : NamePart) :
    other ∈ after.parts ↔ other ∈ names.parts ∨ other = part := by
  cases part with
  | short c | long name =>
      cases h
      simp [parts, or_comm, or_left_comm]
  | positional name =>
      rw [insert] at h
      split at h
      · cases h
      · next hnone =>
          cases h
          have hpositional : names.positional = none := by simpa [isPositional] using hnone
          simp [parts, hpositional, or_assoc]

theorem insertEntry_eq_ok_iff {entry : List Char} :
    names.insertEntry entry = .ok after ↔
      ∃ part, NamePart.ofChars entry = .ok part ∧ names.insert part = .ok after := by
  unfold insertEntry
  constructor
  · intro h
    split at h
    · next hinsert =>
        cases h
        exact ok_of_bind_ok hinsert
    · cases h
  · rintro ⟨part, hpart, hinsert⟩
    rw [hpart, show Except.ok part >>= names.insert = names.insert part from rfl, hinsert]

/-- A declaration that can be read gives at least one name, and none that starts with a dash. -/
structure Declared (names : Names) : Prop where
  named : names.parts ≠ []
  undashed : ∀ part ∈ names.parts, part.text.toList.head? ≠ some '-'

theorem valid_of_foldlM (names : Names) {found : List (List Char)}
    (hnames : names.parts ≠ [] ∨ found ≠ []) (hvalid : ∀ part ∈ names.parts, part.Valid)
    (h : found.foldlM insertEntry names = .ok after) :
    after.parts ≠ [] ∧ ∀ part ∈ after.parts, part.Valid := by
  induction found generalizing names with
  | nil =>
      cases h
      exact ⟨hnames.resolve_right fun hnil => hnil rfl, hvalid⟩
  | cons entry found ih =>
      obtain ⟨more, hentry, hrest⟩ := ok_of_bind_ok h
      obtain ⟨part, hpart, hmore⟩ := insertEntry_eq_ok_iff.mp hentry
      have hmem := mem_parts_insert hmore
      refine ih more (Or.inl (List.ne_nil_of_mem ((hmem part).mpr (Or.inr rfl)))) ?_ hrest
      intro other hother
      rcases (hmem other).mp hother with hold | rfl
      · exact hvalid other hold
      · exact NamePart.valid_of_ofChars hpart

theorem valid_of_ofDeclaration {declaration : String} (h : ofDeclaration declaration = .ok names) :
    names.parts ≠ [] ∧ ∀ part ∈ names.parts, part.Valid := by
  unfold ofDeclaration at h
  split at h
  · cases h
  · next found hfound =>
      exact valid_of_foldlM {} (Or.inr hfound)
        (fun part hpart => absurd hpart List.not_mem_nil) h

end Names

namespace Parser

variable {parser : Parser}

theorem Reachable.valid_parts (h : Reachable parser) :
    ∀ c, ∀ p ∈ (parser.schema.command c).parameters,
      p.names.parts ≠ [] ∧ ∀ part ∈ p.names.parts, part.Valid := by
  refine h.schema_induction (P := fun schema => ∀ c, ∀ p ∈ (schema.command c).parameters,
    p.names.parts ≠ [] ∧ ∀ part ∈ p.names.parts, part.Valid) ?_ ?_
  · rintro program ⟨i⟩ p hp
    cases i <;> exact absurd hp List.not_mem_nil
  · intro schema grown hvalid hedit c p hp
    rcases hedit.parameter_cases hp with ⟨old, hold, -, hnames, -⟩ | ⟨-, -, declaration, hread⟩
    · rw [hnames]
      exact hvalid c old hold
    · exact Names.valid_of_ofDeclaration hread

theorem Reachable.declared (h : Reachable parser) :
    ∀ c, ∀ p ∈ (parser.schema.command c).parameters, p.names.Declared := by
  intro c p hp
  obtain ⟨hnamed, hvalid⟩ := h.valid_parts c p hp
  exact ⟨hnamed, fun part hpart => (hvalid part hpart).head?_ne_dash⟩

end Parser

end CommandLine
