import CommandLine.Proofs.Replacement

/-!
# Refused declarations

A declaration that is refused leaves the parser as it was, unless it was
to replace something (`Reachable.refused_unchanged`). Most of them look
before they change anything. A sub-command does not: it is there before
its help flag is declared, under the names that its parent's settings
pass on. That this never fails is a matter of history: whatever is
passed on has once been accepted as the names of a help flag
(`Inheritable`), and the new command has no names that could clash.
-/

namespace CommandLine

namespace Schema

variable {schema grown : Schema} {c d : CommandId}

/-! ## What sub-commands inherit -/

/-- The names that are passed on are those of a flag, which is not filled by position. -/
structure Inheritable (schema : Schema) : Prop where
  flags : ∀ c, ∀ p ∈ (schema.command c).parameters, p.nargs.isFlag = true →
    p.names.isPositional = false
  names : ∀ c declaration, (schema.command c).settings.helpNames = some declaration →
    ∃ names, Names.ofDeclaration declaration = .ok names ∧ names.isPositional = false

theorem inheritable_bare (program : String) : (bare program).Inheritable := by
  refine ⟨?_, ?_⟩
  · rintro ⟨i⟩ p hp
    cases i <;> exact absurd hp List.not_mem_nil
  · rintro ⟨i⟩ declaration hdeclaration
    cases i <;> cases hdeclaration

theorem Inheritable.edit (h : schema.Inheritable) (hedit : Edit schema grown) :
    grown.Inheritable := by
  refine ⟨fun c p hp hflag => ?_, fun c declaration hnames => ?_⟩
  · rcases hedit.parameter_cases hp with ⟨old, hold, -, hsame, hnargs⟩ | ⟨-, hnew, -⟩
    · rw [hsame]
      exact h.flags c old hold (hnargs ▸ hflag)
    · exact hnew hflag
  · rcases hedit.helpNames_cases hnames with ⟨d, hold⟩ | ⟨p, hp, hflag, hread⟩
    · exact h.names d declaration hold
    · exact ⟨p.names, hread, h.flags c p hp hflag⟩

/-! ## Adding a sub-command -/

theorem helpAgrees_withHelp {flag : Parameter} {declaration : String}
    (hflag : flag ∈ (schema.command c).parameters)
    (hread : Names.ofDeclaration declaration = .ok flag.names) :
    (schema.withHelp c flag.id declaration).HelpAgrees c := by
  have hself := command_withHelp_self flag.id declaration (issued_of_mem_parameters hflag)
  rw [HelpAgrees, hself]
  refine ⟨flag, ?_, rfl, declaration, ?_, hread⟩
  · rw [hself]
    exact hflag
  · rw [hself]

/-- A command without parameters can have any help flag that is not filled by position. -/
theorem replaceHelp_of_empty {declaration : String} {names : Names} (hc : schema.Issued c)
    (hempty : (schema.command c).parameters = []) (hnone : (schema.command c).help = none)
    (hread : Names.ofDeclaration declaration = .ok names) (hdashed : names.isPositional = false) :
    ∃ grown, schema.replaceHelp c (some declaration) = (grown, .ok ()) ∧
      (grown.command c).settings =
        { (schema.command c).settings with helpNames := some declaration } ∧
      grown.HelpAgrees c := by
  have hmisuse : (helpDeclaration declaration).misuse? names = none := by
    simp [helpDeclaration, Declaration.misuse?, Declaration.nameMisuse?, Declaration.nargs,
      Nargs.isUnlimited, hdashed]
  have hclash : (schema.command c).clash? names (schema.command c).parameters = none := by
    rw [hempty]
    rfl
  have hadd := addParameter_eq_ok.mpr ⟨names, hread, hmisuse, hclash, rfl, rfl⟩
  refine ⟨_, by rw [replaceHelp_some, withoutHelp_eq_self.mpr hnone, hadd], ?_, ?_⟩
  · rw [command_withHelp_self _ _ (issued_withParameter.mpr hc), command_withParameter_self hc]
  · have hflag : (helpDeclaration declaration).toParameter ⟨schema.nextParameter⟩ names ∈
        ((schema.withParameter c
          ((helpDeclaration declaration).toParameter ⟨schema.nextParameter⟩ names)).command
            c).parameters := by
      rw [command_withParameter_self hc]
      exact List.mem_append_right _ (List.mem_singleton.mpr rfl)
    exact helpAgrees_withHelp hflag hread

/-- A sub-command whose name is valid and free is added, and its help flag with it. -/
theorem Inheritable.addSubcommand (h : schema.Inheritable) {parent : CommandId} {name : String}
    (hname : isName name.toList = true) (hfree : schema.child? parent name = none) :
    ∃ grown, schema.addSubcommand parent name = (grown, .ok ⟨schema.commands.length⟩) ∧
      (grown.command ⟨schema.commands.length⟩).settings = (schema.command parent).settings ∧
      grown.HelpAgrees ⟨schema.commands.length⟩ := by
  have hnew := @command_withChild_new schema parent name
  have hissued : (schema.withChild parent name).Issued ⟨schema.commands.length⟩ :=
    issued_withChild.mpr (Or.inr rfl)
  rw [Schema.addSubcommand, addChild_eq_ok.mpr ⟨hname, hfree, rfl, rfl⟩]
  cases hnames : (schema.command parent).settings.helpNames with
  | none =>
      refine ⟨_, rfl, by rw [hnew], ?_⟩
      rw [HelpAgrees, hnew]
      exact hnames
  | some declaration =>
      obtain ⟨names, hread, hdashed⟩ := h.names parent declaration hnames
      obtain ⟨grown, hgrown, hsettings, hagrees⟩ :=
        replaceHelp_of_empty hissued (by rw [hnew]) (by rw [hnew]) hread hdashed
      refine ⟨grown, ?_, ?_, hagrees⟩
      · simp only [hgrown]
        rfl
      · rw [hsettings, hnew, ← hnames]

end Schema

namespace Parser

variable {parser : Parser}

theorem Reachable.inheritable (h : Reachable parser) : parser.schema.Inheritable :=
  h.schema_induction Schema.inheritable_bare fun _ _ => Schema.Inheritable.edit

/-- Puts a parameter in the place of another one. -/
def Call.replaces : Call → Bool
  | .replaceHelp .. | .replaceConfig .. => true
  | _ => false

/-- The error that an outcome is, if it is one. -/
def refusalOf {α : Type} : Except DeclarationError α → Option DeclarationError
  | .ok _ => none
  | .error error => some error

/-- Why the parser refuses a call, if it does. -/
def refusal? (parser : Parser) : Call → Option DeclarationError
  | .add c declaration => refusalOf (parser.add c declaration).2
  | .addSubcommand c name => refusalOf (parser.addSubcommand c name).2
  | .set c setting value => refusalOf (parser.set c setting value).2
  | .replaceHelp c names => refusalOf (parser.replaceHelp c names).2
  | .relate relation p q => refusalOf (parser.relate relation p q).2
  | .remove p => refusalOf (parser.remove p).2
  | .replaceConfig names default required =>
    refusalOf (parser.replaceConfig names default required).2
  | .setAbout .. | .setFooter .. | .onComplete .. | .useFormat _ | .useFormatter _ | .parse ..
  | .reset => none

theorem commit_unchanged {outcome : Except DeclarationError Schema} {error : DeclarationError}
    (h : refusalOf (parser.commit outcome).2 = some error) :
    (parser.commit outcome).1 = parser := by
  cases outcome with
  | ok grown => cases h
  | error => rfl

theorem add_unchanged {c : CommandId} {declaration : Declaration} {error : DeclarationError}
    (h : refusalOf (parser.add c declaration).2 = some error) :
    (parser.add c declaration).1 = parser := by
  unfold add at h ⊢
  split at h
  · rfl
  · cases h

theorem addSubcommand_unchanged (h : parser.schema.Inheritable) {c : CommandId} {name : String}
    {error : DeclarationError} (hrefused : refusalOf (parser.addSubcommand c name).2 = some error) :
    (parser.addSubcommand c name).1 = parser := by
  cases hadd : parser.schema.addChild c name with
  | error cause =>
      rw [addSubcommand, Schema.addSubcommand, hadd]
      rfl
  | ok added =>
      -- The name is valid and free, and then nothing else can go wrong.
      obtain ⟨hname, hfree, -, -⟩ := Schema.addChild_eq_ok.mp hadd
      obtain ⟨grown, hgrown, -⟩ := h.addSubcommand hname hfree
      rw [addSubcommand, hgrown] at hrefused
      cases hrefused

/-- A refused declaration leaves the parser as it was, unless it was to replace something. Only
its name can be wrong with a sub-command: its help flag, under the names that it inherits, is
always accepted. -/
theorem Reachable.refused_unchanged (h : Reachable parser) :
    (∀ call error, call.replaces = false → parser.refusal? call = some error →
      parser.after call = parser) ∧
    ∀ c name, isName name.toList = true → parser.schema.child? c name = none →
      (parser.addSubcommand c name).2 = .ok ⟨parser.schema.commands.length⟩ ∧
      ((parser.addSubcommand c name).1.schema.command ⟨parser.schema.commands.length⟩).settings =
        (parser.schema.command c).settings ∧
      (parser.addSubcommand c name).1.schema.HelpAgrees ⟨parser.schema.commands.length⟩ := by
  refine ⟨fun call error hreplaces hrefused => ?_, fun c name hname hfree => ?_⟩
  · cases call with
    | add c declaration => exact add_unchanged hrefused
    | addSubcommand c name => exact addSubcommand_unchanged h.inheritable hrefused
    | set | relate | remove => exact commit_unchanged hrefused
    | replaceHelp | replaceConfig => cases hreplaces
    | setAbout | setFooter | onComplete | useFormat | useFormatter | parse | reset =>
        cases hrefused
  · obtain ⟨grown, hgrown, hsettings, hagrees⟩ := h.inheritable.addSubcommand hname hfree
    rw [addSubcommand, hgrown]
    exact ⟨rfl, hsettings, hagrees⟩

/-- `-f` and `-F` would clash, and `run` is taken in any case. A command under `run` has the help
flag that `run` itself has lost. -/
theorem refused_unchanged_mixedCalls :
    ((ofProgram "tool").afterAll mixedCalls).after (.set ⟨1⟩ .ignoreCase true) =
        (ofProgram "tool").afterAll mixedCalls ∧
      ((ofProgram "tool").afterAll mixedCalls).after (.addSubcommand .root "RUN") =
        (ofProgram "tool").afterAll mixedCalls ∧
      (((ofProgram "tool").afterAll mixedCalls).schema.command ⟨1⟩).help = none ∧
      (((ofProgram "tool").afterAll mixedCalls).addSubcommand ⟨1⟩ "deep").2 = .ok ⟨2⟩ ∧
      ((((ofProgram "tool").afterAll mixedCalls).addSubcommand ⟨1⟩ "deep").1.schema.command
        ⟨2⟩).settings = (((ofProgram "tool").afterAll mixedCalls).schema.command ⟨1⟩).settings ∧
      (((ofProgram "tool").afterAll mixedCalls).addSubcommand ⟨1⟩ "deep").1.schema.HelpAgrees
        ⟨2⟩ := by
  have hlength : ((ofProgram "tool").afterAll mixedCalls).schema.commands.length = 2 := by
    decide +kernel
  obtain ⟨hunchanged, hadded⟩ := reachable_mixedCalls.refused_unchanged
  have hdeep := hadded ⟨1⟩ "deep" (by decide +kernel) (by decide +kernel)
  rw [hlength] at hdeep
  refine ⟨?_, ?_, ?_, hdeep⟩
  · exact hunchanged _ (.duplicate .short "-F") rfl (by decide +kernel)
  · exact hunchanged _ (.duplicate .subcommand "RUN") rfl (by decide +kernel)
  · decide +kernel

end Parser

end CommandLine
