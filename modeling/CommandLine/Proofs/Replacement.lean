import CommandLine.Proofs.Path

/-!
# What a refused replacement leaves

Replacing a help flag or the parameter for the configuration file takes
the present one away before the new one is looked at. When the new one
is refused, the present one is not put back: what is left is the schema
without it (`withoutHelp`, `withoutConfig`), and nothing refers to it
any more (`Lacks`). So the call leaves the parser as it was just where
there was nothing to replace.

Sub-commands inherit the names of the help flag by another way, through
the settings. These are not touched, and that the two agree
(`HelpAgrees`), which edits keep wherever there is a help flag, is lost
along with the flag.
-/

namespace CommandLine

namespace Schema

variable {schema grown : Schema} {c d : CommandId} {p : ParameterId}

/-! ## Nothing refers to a number -/

/-- The parameter is gone, with whatever referred to it. -/
structure Lacks (schema : Schema) (p : ParameterId) : Prop where
  parameter : schema.parameter? p = none
  related : ∀ q ∈ schema.parameters, ∀ relation, p ∉ q.related relation
  help : ∀ c, (schema.command c).help ≠ some p
  config : ∀ source, schema.config = some source → source.parameter ≠ p

theorem lacks_without (schema : Schema) (p : ParameterId) : (schema.without p).Lacks p := by
  have hmem : ∀ q ∈ (schema.without p).parameters, ∃ old : Parameter,
      old.id ≠ p ∧ q = old.forget p := by
    intro q hq
    rw [parameters_without] at hq
    obtain ⟨old, hold, rfl⟩ := List.mem_map.mp hq
    exact ⟨old, of_decide_eq_true (List.mem_filter.mp hold).2, rfl⟩
  refine ⟨?_, ?_, ?_, ?_⟩
  · refine List.find?_eq_none.mpr fun q hq => ?_
    obtain ⟨old, hne, rfl⟩ := hmem q hq
    simpa [Parameter.forget] using hne
  · intro q hq relation hp
    obtain ⟨old, -, rfl⟩ := hmem q hq
    cases relation <;> simp [Parameter.related, Parameter.forget] at hp
  · intro c hc
    rw [command_without] at hc
    simpa using (Option.filter_eq_some_iff.mp hc).2
  · intro source hsource
    exact of_decide_eq_true (Option.filter_eq_some_iff.mp hsource).2

theorem withoutHelp_eq (h : (schema.command c).help = some p) :
    schema.withoutHelp c = schema.without p := by
  rw [withoutHelp, h]

theorem withoutConfig_eq {source : ConfigSource} (h : schema.config = some source) :
    schema.withoutConfig = schema.without source.parameter := by
  rw [withoutConfig, h]

theorem withoutHelp_eq_self : schema.withoutHelp c = schema ↔ (schema.command c).help = none := by
  constructor
  · intro heq
    rw [← heq]
    exact help_withoutHelp
  · intro hnone
    rw [withoutHelp, hnone]

theorem withoutConfig_eq_self : schema.withoutConfig = schema ↔ schema.config = none := by
  constructor
  · intro heq
    cases hconfig : schema.config with
    | none => rfl
    | some source =>
        have hlacks := lacks_without schema source.parameter
        rw [← withoutConfig_eq hconfig, heq] at hlacks
        exact absurd rfl (hlacks.config source hconfig)
  · intro hnone
    rw [withoutConfig, hnone]

/-! ## The names that sub-commands inherit -/

/-- The parameter has the names that help flags of sub-commands will have. -/
def PassesOn (schema : Schema) (c : CommandId) (p : ParameterId) : Prop :=
  ∃ flag ∈ (schema.command c).parameters, flag.id = p ∧
    ∃ declaration, (schema.command c).settings.helpNames = some declaration ∧
      Names.ofDeclaration declaration = .ok flag.names

/-- Sub-commands will have a help flag of the same names, or none if there is none. -/
def HelpAgrees (schema : Schema) (c : CommandId) : Prop :=
  match (schema.command c).help with
  | none => (schema.command c).settings.helpNames = none
  | some p => schema.PassesOn c p

def HelpNamed (schema : Schema) : Prop :=
  ∀ c p, (schema.command c).help = some p → schema.PassesOn c p

theorem HelpNamed.helpAgrees (h : schema.HelpNamed) (hc : (schema.command c).help = some p) :
    schema.HelpAgrees c := by
  rw [HelpAgrees, hc]
  exact h c p hc

/-- It is enough to find the flags of before, in another form but with their names. -/
theorem PassesOn.of_flags (h : schema.PassesOn c p)
    (hnames : (grown.command d).settings.helpNames = (schema.command c).settings.helpNames)
    (hflags : ∀ flag ∈ (schema.command c).parameters, flag.id = p →
      ∃ other ∈ (grown.command d).parameters, other.id = p ∧ other.names = flag.names) :
    grown.PassesOn d p := by
  obtain ⟨flag, hflag, hid, declaration, hdeclaration, hread⟩ := h
  obtain ⟨other, hother, hotherId, hotherNames⟩ := hflags flag hflag hid
  refine ⟨other, hother, hotherId, declaration, hnames.trans hdeclaration, ?_⟩
  rw [hotherNames]
  exact hread

/-- What goes for the commands that are as before. -/
theorem HelpNamed.of_command (h : schema.HelpNamed) (hsame : grown.command c = schema.command c)
    (hp : (grown.command c).help = some p) : grown.PassesOn c p := by
  rw [hsame] at hp
  rw [PassesOn, hsame]
  exact h c p hp

theorem HelpNamed.modifyCommand (h : schema.HelpNamed) {f : Command → Command}
    (hhelp : ∀ command, (f command).help = command.help)
    (hparameters : ∀ command, (f command).parameters = command.parameters)
    (hnames : ∀ command, (f command).settings.helpNames = command.settings.helpNames) :
    (schema.modifyCommand c f).HelpNamed := by
  intro d p hp
  rw [proj_modifyCommand Command.help hhelp] at hp
  refine (h d p hp).of_flags
    (proj_modifyCommand (fun command => command.settings.helpNames) hnames) fun flag hflag hid => ?_
  refine ⟨flag, ?_, hid, rfl⟩
  rwa [proj_modifyCommand Command.parameters hparameters]

theorem helpNamed_bare (program : String) : (bare program).HelpNamed := by
  intro c p hp
  by_cases hc : (bare program).Issued c
  · obtain rfl : c = .root := by
      cases c
      cases Nat.lt_one_iff.mp hc
      rfl
    cases hp
  · rw [command_of_not_issued hc] at hp
    cases hp

theorem HelpNamed.edit (h : schema.HelpNamed) (hedit : Edit schema grown) : grown.HelpNamed := by
  cases hedit with
  | @parameter c parameter hc =>
      intro d p hp
      by_cases hdc : d = c
      · subst hdc
        rw [command_withParameter_self hc] at hp
        refine (h d p hp).of_flags (by rw [command_withParameter_self hc]) fun flag hflag hid => ?_
        refine ⟨flag, ?_, hid, rfl⟩
        rw [command_withParameter_self hc]
        exact List.mem_append_left _ hflag
      · exact h.of_command (command_withParameter_of_ne hdc) hp
  | removal q =>
      intro d p hp
      rw [command_without] at hp
      obtain ⟨hold, hne⟩ := Option.filter_eq_some_iff.mp hp
      refine (h d p hold).of_flags (by rw [command_without]) fun flag hflag hid => ?_
      refine ⟨flag.forget q, ?_, hid, rfl⟩
      rw [command_without]
      exact List.mem_map_of_mem (List.mem_filter.mpr ⟨hflag, by rw [hid]; exact hne⟩)
  | @relation relation q r _ =>
      intro d p hp
      rw [command_withRelation] at hp
      refine (h d p hp).of_flags (by rw [command_withRelation]) fun flag hflag hid => ?_
      rw [command_withRelation]
      refine ⟨_, List.mem_map_of_mem hflag, ?_, ?_⟩
      · split
        · rw [id_relate]
          exact hid
        · exact hid
      · split
        · cases relation <;> rfl
        · rfl
  | note hf =>
      exact h.modifyCommand hf.help hf.parameters fun command => by rw [hf.settings]
  | settings _ hhelp => exact h.modifyCommand (fun _ => rfl) (fun _ => rfl) fun _ => hhelp _
  | @noHelp c hnone =>
      intro d p hp
      by_cases hdc : d = c
      · subst hdc
        rw [show ((schema.modifySettings d _).command d).help = (schema.command d).help from
          proj_modifyCommand Command.help fun _ => rfl, hnone] at hp
        cases hp
      · exact h.of_command (command_modifyCommand_of_ne hdc) hp
  | @help c parameter declaration hmem _ hread =>
      intro d p hp
      by_cases hdc : d = c
      · subst hdc
        have hself := command_modifyCommand_self (issued_of_mem_parameters hmem)
          (f := fun command => { command with
            help := some parameter.id
            settings := { command.settings with helpNames := some declaration } })
        rw [withHelp, hself] at hp
        cases hp
        rw [PassesOn, withHelp, hself]
        exact ⟨parameter, hmem, rfl, declaration, rfl, hread⟩
      · exact h.of_command (command_modifyCommand_of_ne hdc) hp
  | config => exact h
  | @child parent name hparent =>
      intro d p hp
      by_cases hd : schema.Issued d
      · exact h.of_command (command_withChild_of_issued hd) hp
      · rw [proj_withChild Command.help fun _ _ => rfl, command_of_not_issued hd] at hp
        cases hp

/-! ## Refusals -/

theorem replaceHelp_refused {names : Option String} {error : DeclarationError}
    (h : (schema.replaceHelp c names).2 = .error error) :
    (schema.replaceHelp c names).1 = schema.withoutHelp c := by
  cases names with
  | none => cases h
  | some declaration =>
      rw [replaceHelp_some] at h ⊢
      split at h
      · cases h
      · rfl

theorem replaceConfig_refused {names : String} {default : Option String} {required : Bool}
    {error : DeclarationError}
    (h : (schema.replaceConfig names default required).2 = .error error) :
    (schema.replaceConfig names default required).1 = schema.withoutConfig := by
  rw [replaceConfig_eq] at h ⊢
  split at h
  · cases h
  · rfl

theorem settings_withoutHelp :
    ((schema.withoutHelp c).command d).settings = (schema.command d).settings := by
  unfold withoutHelp
  split
  · rw [command_without]
  · rfl

/-- The flag goes, but its names are still passed on. -/
theorem HelpNamed.not_helpAgrees_withoutHelp (h : schema.HelpNamed)
    (hc : (schema.command c).help = some p) : ¬(schema.withoutHelp c).HelpAgrees c := by
  obtain ⟨flag, -, -, declaration, hdeclaration, -⟩ := h c p hc
  rw [HelpAgrees, help_withoutHelp, settings_withoutHelp, hdeclaration]
  exact Option.some_ne_none declaration

end Schema

namespace Parser

variable {parser : Parser}

theorem Reachable.helpNamed (h : Reachable parser) : parser.schema.HelpNamed :=
  h.schema_induction Schema.helpNamed_bare fun _ _ => Schema.HelpNamed.edit

/-- A refused replacement leaves the parser without what was to be replaced. It leaves it as
it was just where there was nothing. -/
theorem Reachable.replacement_refused (h : Reachable parser) :
    (∀ c names error, (parser.replaceHelp c names).2 = .error error →
      (parser.replaceHelp c names).1 = { parser with schema := parser.schema.withoutHelp c } ∧
      ((parser.replaceHelp c names).1 = parser ↔ (parser.schema.command c).help = none) ∧
      ∀ p, (parser.schema.command c).help = some p →
        parser.schema.HelpAgrees c ∧ (parser.replaceHelp c names).1.schema.Lacks p ∧
          ¬(parser.replaceHelp c names).1.schema.HelpAgrees c) ∧
    ∀ names default required error,
      (parser.replaceConfig names default required).2 = .error error →
      (parser.replaceConfig names default required).1 =
        { parser with schema := parser.schema.withoutConfig } ∧
      ((parser.replaceConfig names default required).1 = parser ↔ parser.schema.config = none) ∧
      ∀ source, parser.schema.config = some source →
        (parser.replaceConfig names default required).1.schema.Lacks source.parameter := by
  refine ⟨fun c names error hrefused => ?_, fun names default required error hrefused => ?_⟩
  · have hleft : (parser.replaceHelp c names).1 =
        { parser with schema := parser.schema.withoutHelp c } := by
      rw [← Schema.replaceHelp_refused hrefused]
      rfl
    rw [hleft]
    refine ⟨rfl, ?_, fun p hp => ⟨h.helpNamed.helpAgrees hp, ?_, ?_⟩⟩
    · rw [← Schema.withoutHelp_eq_self]
      exact ⟨congrArg Parser.schema, fun heq => by rw [heq]⟩
    · show (parser.schema.withoutHelp c).Lacks p
      rw [Schema.withoutHelp_eq hp]
      exact Schema.lacks_without _ p
    · exact h.helpNamed.not_helpAgrees_withoutHelp hp
  · have hleft : (parser.replaceConfig names default required).1 =
        { parser with schema := parser.schema.withoutConfig } := by
      rw [← Schema.replaceConfig_refused hrefused]
      rfl
    rw [hleft]
    refine ⟨rfl, ?_, fun source hsource => ?_⟩
    · rw [← Schema.withoutConfig_eq_self]
      exact ⟨congrArg Parser.schema, fun heq => by rw [heq]⟩
    · show parser.schema.withoutConfig.Lacks source.parameter
      rw [Schema.withoutConfig_eq hsource]
      exact Schema.lacks_without _ _

theorem replacement_refused_of_dashes :
    ((ofProgram "tool").replaceHelp .root (some "-")).2 = .error (.badName "-" .onlyDashes) ∧
      (((ofProgram "tool").replaceHelp .root (some "-")).1.schema.Lacks ⟨0⟩ ∧
        ¬((ofProgram "tool").replaceHelp .root (some "-")).1.schema.HelpAgrees .root) ∧
      ((ofProgram "tool").replaceConfig "-" none false).1 = ofProgram "tool" := by
  have hhelp : ((ofProgram "tool").replaceHelp .root (some "-")).2 =
      .error (.badName "-" .onlyDashes) := by decide +kernel
  have hconfig : ((ofProgram "tool").replaceConfig "-" none false).2 =
      .error (.badName "-" .onlyDashes) := by decide +kernel
  obtain ⟨hlost, hkept⟩ := (reachable_ofProgram "tool").replacement_refused
  obtain ⟨-, -, hflag⟩ := hlost .root (some "-") _ hhelp
  obtain ⟨-, hsame, -⟩ := hkept "-" none false _ hconfig
  exact ⟨hhelp, (hflag ⟨0⟩ (by decide +kernel)).2, hsame.mpr (by decide +kernel)⟩

/-- The flag of before does not answer any more. -/
theorem help_lost_by_refusal :
    Reachable (ofProgram "tool") ∧
      ((ofProgram "tool").replaceHelp .root (some "-")).2 = .error (.badName "-" .onlyDashes) ∧
      ((ofProgram "tool").parse {} ["--help"]).2.result = .ok (.help .root) ∧
      (((ofProgram "tool").replaceHelp .root (some "-")).1.parse {} ["--help"]).2.result =
        .error (.extras ["--help"]) := by
  refine ⟨reachable_ofProgram "tool", ?_, ?_, ?_⟩ <;> decide +kernel

end Parser

end CommandLine
