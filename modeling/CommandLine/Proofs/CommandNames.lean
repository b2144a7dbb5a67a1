import CommandLine.Proofs.LowerCase
import CommandLine.Proofs.Names

/-!
# Names of sub-commands

The name of a sub-command is checked when it is declared and never
changes, so it does not start with a dash, and no equals sign stands in it
(`Parser.Reachable.namesChildren`). Folding makes neither character out of
another one. So a token with an equals sign never means a sub-command
(`Schema.NamesChildren.child?_eq_none_of_equals`), and one that starts with a
dash only where the command passes over underscores
(`Schema.NamesChildren.child?_eq_none`).
-/

namespace CommandLine

theorem ne_dash_of_canStartName {c : Char} (h : canStartName c = true) : c ≠ '-' := by
  rintro rfl
  revert h
  decide

/-- No name starts with a dash. -/
theorem head?_ne_dash_of_isName {name : List Char} (h : isName name = true) :
    name.head? ≠ some '-' := by
  cases name with
  | nil => cases h
  | cons c rest =>
      rw [isName, Bool.and_eq_true] at h
      simpa using ne_dash_of_canStartName h.1

theorem canStartName_of_isName {name : List Char} (h : isName name = true) :
    name.head?.any canStartName = true := by
  cases name with
  | nil => cases h
  | cons c rest =>
      rw [isName, Bool.and_eq_true] at h
      exact h.1

/-- No name holds an equals sign. -/
theorem equals_not_mem_of_isName {name : List Char} (h : isName name = true) : '=' ∉ name := by
  cases name with
  | nil => cases h
  | cons c rest =>
      rw [isName, Bool.and_eq_true, List.all_eq_true] at h
      obtain ⟨hstart, hcontinue⟩ := h
      rw [List.mem_cons, not_or]
      refine ⟨?_, fun hmem => ?_⟩
      · rintro rfl
        exact absurd hstart (by decide)
      · exact absurd (hcontinue '=' hmem) (by decide)

/-- Without passing over underscores, names that start with a dash fold to such names only. -/
theorem Settings.head?_foldName {settings : Settings} (hsetting : settings.ignoreUnderscore = false)
    (name : String) :
    (settings.foldName name).toList.head? = some '-' ↔ name.toList.head? = some '-' := by
  simp only [foldName, hsetting, Bool.false_eq_true, if_false, String.toList_ofList]
  split
  · exact Text.Lowercase.inert_dash.head?_lowercaseChars
  · rfl

/-- However names are folded, those that hold an equals sign fold to such names only. -/
theorem Settings.equals_mem_foldName (settings : Settings) (name : String) :
    '=' ∈ (settings.foldName name).toList ↔ '=' ∈ name.toList := by
  have hcase : '=' ∈ (if settings.ignoreCase then Text.lowercaseChars name.toList
      else name.toList) ↔ '=' ∈ name.toList := by
    split
    · exact Text.Lowercase.inert_equals.mem_lowercaseChars
    · exact Iff.rfl
  rw [← hcase, foldName, String.toList_ofList]
  split
  · simp
  · exact Iff.rfl

namespace Schema

variable {schema grown : Schema} {c : CommandId}

/-- Sub-commands have valid names. -/
def NamesChildren (schema : Schema) : Prop :=
  ∀ c, ∀ name ∈ schema.childNames c, isName name.toList = true

theorem namesChildren_bare (program : String) : (bare program).NamesChildren :=
  fun _ _ hname => absurd hname List.not_mem_nil

/-- Only the declaration of a sub-command adds a name. -/
theorem NamesChildren.edit (h : schema.NamesChildren) (hedit : Edit schema grown) :
    grown.NamesChildren := by
  intro c
  have hkept : grown.childNames c = schema.childNames c →
      ∀ name ∈ grown.childNames c, isName name.toList = true := fun heq => heq ▸ h c
  cases hedit with
  | parameter | settings | noHelp | help =>
      exact hkept (childNames_modifyCommand (fun _ => rfl) (fun _ => rfl))
  | note hf => exact hkept (childNames_modifyCommand hf.ancestors hf.name)
  | removal =>
      exact hkept (childNames_congr (List.length_map _) (fun d => by rw [command_without])
        (fun d => by rw [command_without]))
  | relation =>
      exact hkept (childNames_congr (List.length_map _) (fun d => by rw [command_withRelation])
        (fun d => by rw [command_withRelation]))
  | config => exact h c
  | @child parent name hparent hname =>
      rw [childNames_withChild]
      intro other hother
      rcases List.mem_append.mp hother with hold | hnew
      · exact h c other hold
      · split at hnew
        · rwa [List.mem_singleton.mp hnew]
        · exact absurd hnew List.not_mem_nil

/-- A text that starts with a dash is no sub-command's name. -/
theorem NamesChildren.child?_eq_none (h : schema.NamesChildren)
    (hsetting : (schema.command c).settings.ignoreUnderscore = false) {text : String}
    (hdash : text.toList.head? = some '-') : schema.child? c text = none := by
  rw [child?, List.find?_eq_none]
  intro child hchild hsame
  have hname := h c _ (List.mem_map_of_mem hchild)
  refine head?_ne_dash_of_isName hname ?_
  rw [← Settings.head?_foldName hsetting, eq_of_beq hsame, Settings.head?_foldName hsetting]
  exact hdash

/-- A text that holds an equals sign is no sub-command's name. -/
theorem NamesChildren.child?_eq_none_of_equals (h : schema.NamesChildren) {text : String}
    (hequals : '=' ∈ text.toList) : schema.child? c text = none := by
  rw [child?, List.find?_eq_none]
  intro child hchild hsame
  have hname := h c _ (List.mem_map_of_mem hchild)
  refine equals_not_mem_of_isName hname ?_
  rw [← Settings.equals_mem_foldName (schema.command c).settings, eq_of_beq hsame,
    Settings.equals_mem_foldName]
  exact hequals

end Schema

theorem Parser.Reachable.namesChildren {parser : Parser} (h : Reachable parser) :
    parser.schema.NamesChildren :=
  h.schema_induction Schema.namesChildren_bare fun _ _ => Schema.NamesChildren.edit

end CommandLine
