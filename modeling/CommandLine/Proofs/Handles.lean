import CommandLine.Proofs.References

/-!
# Numbers that programs keep

A program keeps the numbers that it is given for parameters and commands,
and uses them much later (`numbers_stable`). Numbers are given out in
order and none is taken back (`handles_numbered`), so that a number can
only mean what was declared under it, or nothing once that was removed.

What a parameter was declared as is kept with its number (`Handle`). Each
call is taken apart once, for the parameter that it declares
(`givesOut_call`); what happens to a parameter afterwards is the matter of
edits, and for these `Edit.declared_cases` has settled it.
-/

namespace CommandLine

/-- A parameter as it was declared, and the number that it was given. -/
structure Handle where
  number : ParameterId
  owner : CommandId
  declaration : Declaration

/-- A command as it was declared, and the number that it was given. -/
structure Branch where
  number : CommandId
  name : String
  parent : Option CommandId
  deriving DecidableEq

/-- The number means what was declared under it: only its relations can be other ones by now. -/
structure Handle.Live (handle : Handle) (schema : Schema) : Prop where
  owner : schema.owner? handle.number = some handle.owner
  declared : ∃ names parameter, Names.ofDeclaration handle.declaration.names = .ok names ∧
    schema.parameter? handle.number = some parameter ∧
    parameter.declared = handle.declaration.toParameter handle.number names

/-- The number means the command that was declared under it. -/
structure Branch.Live (branch : Branch) (schema : Schema) : Prop where
  issued : schema.Issued branch.number
  name : (schema.command branch.number).name = branch.name
  parent : (schema.command branch.number).parent = branch.parent

namespace Schema

variable {schema grown : Schema} {c d : CommandId} {p : ParameterId} {handle : Handle}
  {branch : Branch} {declaration : Declaration}

/-! ## Numbers under edits -/

theorem WellFormed.number_lt (h : schema.WellFormed) {parameter : Parameter}
    (hp : parameter ∈ (schema.command c).parameters) :
    parameter.id.number < schema.nextParameter :=
  h.fresh _ (List.mem_map_of_mem (mem_parameters.mpr ⟨c, hp⟩))

theorem WellFormed.number_lt_of_parameter? (h : schema.WellFormed) {parameter : Parameter}
    (hfound : schema.parameter? p = some parameter) : p.number < schema.nextParameter := by
  obtain ⟨rfl, c, hp⟩ := exists_of_parameter? hfound
  exact h.number_lt hp

theorem Edits.nextParameter_le (h : Edits schema grown) :
    schema.nextParameter ≤ grown.nextParameter := by
  induction h with
  | refl => exact Nat.le_refl _
  | tail _ hedit ih => exact ih.trans hedit.nextParameter_le

/-- A parameter whose number was given out before some edits was there before them. -/
theorem Edits.declared (h : Edits schema grown) {parameter : Parameter}
    (hp : parameter ∈ (grown.command d).parameters)
    (hlt : parameter.id.number < schema.nextParameter) :
    ∃ old ∈ (schema.command d).parameters, parameter.declared = old.declared := by
  induction h generalizing parameter with
  | refl => exact ⟨parameter, hp, rfl⟩
  | tail hedits hedit ih =>
      rcases hedit.declared_cases hp with ⟨between, hbetween, heq⟩ | ⟨hnew, -⟩
      · have hid : parameter.declared.id = between.declared.id := by rw [heq]
        obtain ⟨old, hold, hsame⟩ := ih hbetween (hid ▸ hlt)
        exact ⟨old, hold, heq.trans hsame⟩
      · rw [hnew] at hlt
        exact absurd (Edits.nextParameter_le hedits) (Nat.not_le.mpr hlt)

/-- A number that was given out before some edits means the same after them, or nothing. -/
theorem WellFormed.parameter?_edits (h : schema.WellFormed) (hgrown : grown.WellFormed)
    (hedits : Edits schema grown) (hlt : p.number < schema.nextParameter) {now : Parameter}
    (hnow : grown.parameter? p = some now) :
    ∃ was, schema.parameter? p = some was ∧ now.declared = was.declared ∧
      grown.owner? p = schema.owner? p := by
  obtain ⟨rfl, c, hmem⟩ := exists_of_parameter? hnow
  obtain ⟨was, hwas, heq⟩ := hedits.declared hmem hlt
  have hid := Parameter.id_eq_of_declared heq
  refine ⟨was, ?_, heq, ?_⟩
  · rw [hid]
    exact h.nodup.parameter?_eq hwas
  · rw [hgrown.nodup.owner?_eq hmem, hid, h.nodup.owner?_eq hwas]

theorem WellFormed.edits (h : schema.WellFormed) (hedits : Edits schema grown) :
    grown.WellFormed := by
  induction hedits with
  | refl => exact h
  | tail _ hedit ih => exact ih.edit hedit

theorem WellFormed.parameter?_eq_none (h : schema.WellFormed) (hedits : Edits schema grown)
    (hlt : p.number < schema.nextParameter) (hnone : schema.parameter? p = none) :
    grown.parameter? p = none := by
  cases hnow : grown.parameter? p with
  | none => rfl
  | some now =>
      obtain ⟨was, hwas, -⟩ := h.parameter?_edits (h.edits hedits) hedits hlt hnow
      rw [hnone] at hwas
      cases hwas

theorem WellFormed.handle_edits (h : schema.WellFormed) (hedits : Edits schema grown)
    (hlive : handle.Live schema) :
    handle.Live grown ∨ grown.parameter? handle.number = none := by
  cases hnow : grown.parameter? handle.number with
  | none => exact Or.inr rfl
  | some now =>
      obtain ⟨names, parameter, hnames, hfound, hdeclared⟩ := hlive.declared
      obtain ⟨was, hwas, heq, howner⟩ := h.parameter?_edits (h.edits hedits) hedits
        (h.number_lt_of_parameter? hfound) hnow
      obtain rfl : was = parameter := Option.some.inj (hwas.symm.trans hfound)
      exact Or.inl ⟨howner.trans hlive.owner, names, now, hnames, hnow, heq.trans hdeclared⟩

theorem Edits.branch_live (hedits : Edits schema grown) (hlive : branch.Live schema) :
    branch.Live grown := by
  obtain ⟨hname, hancestors⟩ := hedits.placed hlive.issued
  refine ⟨hedits.issued hlive.issued, hname.trans hlive.name, ?_⟩
  rw [Command.parent, hancestors]
  exact hlive.parent

/-! ## Declaring a parameter -/

/-- The handle, if there is one, is that of a parameter that was declared under the next number. -/
def GivesOut (next : Nat) (grown : Schema) : Option Handle → Prop
  | none => grown.nextParameter = next
  | some handle =>
    handle.number = ⟨next⟩ ∧ grown.nextParameter = next + 1 ∧ handle.Live grown

/-- The help flag that a command has from a declaration of it that went well. -/
def helpHandle? (c : CommandId) (declaration : String) :
    Schema × Except DeclarationError Unit → Option Handle
  | (grown, .ok _) => (grown.command c).help.map fun p => ⟨p, c, helpDeclaration declaration⟩
  | (_, .error _) => none

/-- What comes after a parameter was added to its command does not touch the parameter. -/
theorem givesOut_of_addParameter (hc : schema.Issued c)
    (hadd : schema.addParameter c declaration = .ok (p, grown)) {final : Schema}
    (hfinal : final.WellFormed)
    (hparameters : (final.command c).parameters = (grown.command c).parameters)
    (hnext : final.nextParameter = grown.nextParameter) :
    GivesOut schema.nextParameter final (some ⟨p, c, declaration⟩) := by
  obtain ⟨names, hnames, -, -, rfl, rfl⟩ := addParameter_eq_ok.mp hadd
  have hmem : declaration.toParameter ⟨schema.nextParameter⟩ names ∈
      (final.command c).parameters := by
    rw [hparameters, command_withParameter_self hc]
    exact List.mem_append_right _ (List.mem_singleton.mpr rfl)
  exact ⟨rfl, hnext, hfinal.nodup.owner?_eq hmem, names, _, hnames,
    hfinal.nodup.parameter?_eq hmem, rfl⟩

theorem nextParameter_withoutHelp :
    (schema.withoutHelp c).nextParameter = schema.nextParameter := by
  unfold withoutHelp
  split <;> rfl

theorem nextParameter_withoutConfig :
    schema.withoutConfig.nextParameter = schema.nextParameter := by
  unfold withoutConfig
  split <;> rfl

theorem WellFormed.givesOut_replaceHelp (h : schema.WellFormed) (hc : schema.Issued c)
    (declaration : String) :
    GivesOut schema.nextParameter (schema.replaceHelp c (some declaration)).1
      (helpHandle? c declaration (schema.replaceHelp c (some declaration))) := by
  have hfinal := h.edits (replaceHelp_edits hc (some declaration))
  have hcleared : (schema.withoutHelp c).Issued c := issued_withoutHelp.mpr hc
  rw [replaceHelp_some] at hfinal ⊢
  cases hadd : (schema.withoutHelp c).addParameter c (helpDeclaration declaration) with
  | error error => exact nextParameter_withoutHelp
  | ok added =>
      obtain ⟨p, grown⟩ := added
      simp only [hadd] at hfinal ⊢
      have hgrown : grown.Issued c := (addParameter_edit hcleared hadd).issued hcleared
      rw [helpHandle?, command_withHelp_self p declaration hgrown, ← nextParameter_withoutHelp]
      exact givesOut_of_addParameter hcleared hadd hfinal
        (proj_modifyCommand Command.parameters fun _ => rfl) rfl

theorem WellFormed.givesOut_replaceConfig (h : schema.WellFormed) (names : String)
    (default : Option String) (required : Bool) :
    GivesOut schema.nextParameter (schema.replaceConfig names default required).1
      ((schema.replaceConfig names default required).2.toOption.map fun p =>
        ⟨p, .root, configDeclaration names⟩) := by
  have hfinal := h.edits (replaceConfig_edits h.root names default required)
  rw [replaceConfig_eq] at hfinal ⊢
  cases hadd : schema.withoutConfig.addParameter .root (configDeclaration names) with
  | error error => exact nextParameter_withoutConfig
  | ok added =>
      obtain ⟨p, grown⟩ := added
      simp only [hadd] at hfinal ⊢
      rw [← nextParameter_withoutConfig]
      exact givesOut_of_addParameter (issued_withoutConfig.mpr h.root) hadd hfinal rfl rfl

/-- The help flag that a sub-command has from its declaration. -/
def subcommandHelp? (schema : Schema) (parent : CommandId) (name : String) : Option Handle :=
  match schema.addSubcommand parent name, (schema.command parent).settings.helpNames with
  | (grown, .ok child), some declaration => helpHandle? child declaration (grown, .ok ())
  | _, _ => none

theorem WellFormed.givesOut_addSubcommand (h : schema.WellFormed) {parent : CommandId}
    (hparent : schema.Issued parent) (name : String) :
    GivesOut schema.nextParameter (schema.addSubcommand parent name).1
      (schema.subcommandHelp? parent name) := by
  unfold subcommandHelp? addSubcommand
  cases hadd : schema.addChild parent name with
  | error error => rfl
  | ok added =>
      obtain ⟨child, grown⟩ := added
      obtain ⟨rfl, rfl, hchild⟩ := addChild_edit hparent hadd
      cases (schema.command parent).settings.helpNames with
      | none => rfl
      | some declaration =>
          have hnew : (schema.withChild parent name).Issued ⟨schema.commands.length⟩ :=
            issued_withChild.mpr (Or.inr rfl)
          have hhelp := (h.edit hchild).givesOut_replaceHelp hnew declaration
          dsimp only at hhelp ⊢
          generalize (schema.withChild parent name).replaceHelp ⟨schema.commands.length⟩
            (some declaration) = result at hhelp ⊢
          obtain ⟨final, outcome⟩ := result
          cases outcome <;> exact hhelp

theorem live_of_addSubcommand {parent child : CommandId} {name : String}
    (hparent : schema.Issued parent) (h : (schema.addSubcommand parent name).2 = .ok child) :
    ¬schema.Issued child ∧
      Branch.Live ⟨child, name, some parent⟩ (schema.addSubcommand parent name).1 := by
  unfold addSubcommand at h ⊢
  cases hadd : schema.addChild parent name with
  | error error =>
      rw [hadd] at h
      cases h
  | ok added =>
      obtain ⟨number, grown⟩ := added
      obtain ⟨rfl, rfl, -⟩ := addChild_edit hparent hadd
      have hfresh : ¬schema.Issued ⟨schema.commands.length⟩ := Nat.lt_irrefl _
      have hnew : (schema.withChild parent name).Issued ⟨schema.commands.length⟩ :=
        issued_withChild.mpr (Or.inr rfl)
      have hlive : Branch.Live ⟨⟨schema.commands.length⟩, name, some parent⟩
          (schema.withChild parent name) :=
        ⟨hnew, by rw [command_withChild_new], by rw [command_withChild_new]; rfl⟩
      simp only [hadd] at h ⊢
      cases hnames : (schema.command parent).settings.helpNames with
      | none =>
          simp only [hnames] at h ⊢
          cases h
          exact ⟨hfresh, hlive⟩
      | some declaration =>
          have hedits := replaceHelp_edits hnew (some declaration)
          simp only [hnames] at h ⊢
          generalize (schema.withChild parent name).replaceHelp ⟨schema.commands.length⟩
            (some declaration) = result at hedits h ⊢
          obtain ⟨final, outcome⟩ := result
          cases outcome with
          | error error => cases h
          | ok =>
              cases h
              exact ⟨hfresh, hedits.branch_live hlive⟩

end Schema

namespace Parser

variable {parser next : Parser} {p : ParameterId}

/-- The parameter that a call declares, if it succeeds in that. -/
def handle? (parser : Parser) : Call → Option Handle
  | .add c declaration => (parser.add c declaration).2.toOption.map fun p => ⟨p, c, declaration⟩
  | .addSubcommand c name => parser.schema.subcommandHelp? c name
  | .replaceHelp c (some declaration) =>
    Schema.helpHandle? c declaration (parser.schema.replaceHelp c (some declaration))
  | .replaceConfig names default required =>
    (parser.replaceConfig names default required).2.toOption.map fun p =>
      ⟨p, .root, Schema.configDeclaration names⟩
  | .replaceHelp _ none | .setAbout .. | .setFooter .. | .onComplete .. | .set .. | .relate ..
  | .remove _ | .useFormat _ | .useFormatter _ | .parse .. | .reset => none

theorem nextParameter_commit {outcome : Except DeclarationError Schema}
    (h : ∀ grown, outcome = .ok grown → grown.nextParameter = parser.schema.nextParameter) :
    (parser.commit outcome).1.schema.nextParameter = parser.schema.nextParameter := by
  cases outcome with
  | error error => rfl
  | ok grown => exact h grown rfl

theorem givesOut_call (h : parser.schema.WellFormed) {call : Call}
    (hc : ∀ c, call.command? = some c → parser.schema.Issued c) :
    Schema.GivesOut parser.schema.nextParameter (parser.after call).schema
      (parser.handle? call) := by
  cases call with
  | add c declaration =>
      rw [after, handle?, add]
      cases hadd : parser.schema.addParameter c declaration with
      | error error => rfl
      | ok added =>
          obtain ⟨p, grown⟩ := added
          exact Schema.givesOut_of_addParameter (hc c rfl) hadd
            (h.edit (Schema.addParameter_edit (hc c rfl) hadd)) rfl rfl
  | addSubcommand c name => exact h.givesOut_addSubcommand (hc c rfl) name
  | replaceHelp c names =>
      cases names with
      | none => exact Schema.nextParameter_withoutHelp
      | some declaration => exact h.givesOut_replaceHelp (hc c rfl) declaration
  | replaceConfig names default required => exact h.givesOut_replaceConfig names default required
  | set c setting value =>
      refine nextParameter_commit fun grown hgrown => ?_
      cases setting with
      | allowExtras | allowConfigExtras | prefixCommand | fallthrough | requireSubcommand =>
          cases hgrown
          rfl
      | ignoreCase | ignoreUnderscore =>
          obtain ⟨rfl, -⟩ := Schema.eq_of_unlessClash hgrown
          rfl
  | relate relation p q =>
      refine nextParameter_commit fun grown hgrown => ?_
      obtain ⟨-, -, -, -, -, rfl⟩ := Schema.withRelation_of_addRelation hgrown
      rfl
  | remove p =>
      refine nextParameter_commit fun grown hgrown => ?_
      rw [Schema.without_of_remove hgrown]
      rfl
  | setAbout | setFooter | onComplete | useFormat | useFormatter | reset => rfl
  | parse world tokens =>
      rw [after, handle?, schema_parse]
      rfl

/-- The command that a call declares, if it succeeds in that. -/
def branch? (parser : Parser) : Call → Option Branch
  | .addSubcommand c name =>
    (parser.addSubcommand c name).2.toOption.map fun child => ⟨child, name, some c⟩
  | .add .. | .replaceHelp .. | .replaceConfig .. | .setAbout .. | .setFooter .. | .onComplete ..
  | .set .. | .relate .. | .remove _ | .useFormat _ | .useFormatter _ | .parse .. | .reset => none

theorem live_of_branch? {call : Call} (hc : ∀ c, call.command? = some c → parser.schema.Issued c)
    {branch : Branch} (h : parser.branch? call = some branch) :
    ¬parser.schema.Issued branch.number ∧ branch.Live (parser.after call).schema := by
  cases call with
  | addSubcommand c name =>
      rw [branch?] at h
      cases houtcome : (parser.addSubcommand c name).2 with
      | error error =>
          rw [houtcome] at h
          cases h
      | ok child =>
          rw [houtcome] at h
          cases h
          exact Schema.live_of_addSubcommand (hc c rfl) houtcome
  | _ => cases h

/-! ## Histories -/

/-- The parameters that calls declare which are made one after the other. -/
def handles (parser : Parser) : List Call → List Handle
  | [] => []
  | call :: calls => (parser.handle? call).toList ++ (parser.after call).handles calls

/-- The commands that calls declare which are made one after the other. -/
def branches (parser : Parser) : List Call → List Branch
  | [] => []
  | call :: calls => (parser.branch? call).toList ++ (parser.after call).branches calls

/-- Numbers are given out in order, with none left out. -/
theorem handles_numbered (h : parser.schema.WellFormed) {calls : List Call}
    (hcalls : parser.admits calls = true) :
    List.range parser.schema.nextParameter ++ (parser.handles calls).map (·.number.number) =
      List.range (parser.afterAll calls).schema.nextParameter := by
  induction calls generalizing parser with
  | nil => simp [handles, afterAll]
  | cons call calls ih =>
      obtain ⟨hnext, hrest⟩ := admits_cons.mp hcalls
      have hgives := givesOut_call h hnext
      have hih := ih (h.edits (Next.edits (.call call hnext) h.root)) hrest
      rw [afterAll, handles, ← hih]
      cases hhandle : parser.handle? call with
      | none =>
          rw [hhandle] at hgives
          have hsame : (parser.after call).schema.nextParameter = parser.schema.nextParameter :=
            hgives
          rw [hsame]
          rfl
      | some handle =>
          rw [hhandle] at hgives
          obtain ⟨hnumber, hsucc, -⟩ := hgives
          rw [hsucc, List.range_succ]
          simp [hnumber]

/-- What calls declare is there from then on, unless it was removed since. -/
theorem handles_live (h : parser.schema.WellFormed) {calls : List Call}
    (hcalls : parser.admits calls = true) :
    ∀ handle ∈ parser.handles calls, handle.Live (parser.afterAll calls).schema ∨
      (parser.afterAll calls).schema.parameter? handle.number = none := by
  induction calls generalizing parser with
  | nil => exact fun _ hhandle => absurd hhandle List.not_mem_nil
  | cons call calls ih =>
      obtain ⟨hc, hrest⟩ := admits_cons.mp hcalls
      have hafter := h.edits (Next.edits (.call call hc) h.root)
      intro handle hhandle
      rcases List.mem_append.mp hhandle with hfirst | hlater
      · have hgives := givesOut_call h hc
        rw [Option.mem_toList.mp hfirst] at hgives
        exact hafter.handle_edits ((leads_afterAll hrest).edits hafter.root) hgives.2.2
      · exact ih hafter hrest handle hlater

theorem branches_live (h : parser.schema.WellFormed) {calls : List Call}
    (hcalls : parser.admits calls = true) :
    ∀ branch ∈ parser.branches calls,
      ¬parser.schema.Issued branch.number ∧ branch.Live (parser.afterAll calls).schema := by
  induction calls generalizing parser with
  | nil => exact fun _ hbranch => absurd hbranch List.not_mem_nil
  | cons call calls ih =>
      obtain ⟨hc, hrest⟩ := admits_cons.mp hcalls
      have hedits := Next.edits (.call call hc) h.root
      have hafter := h.edits hedits
      intro branch hbranch
      rcases List.mem_append.mp hbranch with hfirst | hlater
      · obtain ⟨hnew, hlive⟩ := live_of_branch? hc (Option.mem_toList.mp hfirst)
        exact ⟨hnew, ((leads_afterAll hrest).edits hafter.root).branch_live hlive⟩
      · obtain ⟨hnew, hlive⟩ := ih hafter hrest branch hlater
        exact ⟨fun hissued => hnew (hedits.issued hissued), hlive⟩

theorem nodup_branches (h : parser.schema.WellFormed) {calls : List Call}
    (hcalls : parser.admits calls = true) :
    ((parser.branches calls).map (·.number)).Nodup := by
  induction calls generalizing parser with
  | nil => exact List.nodup_nil
  | cons call calls ih =>
      obtain ⟨hc, hrest⟩ := admits_cons.mp hcalls
      have hafter := h.edits (Next.edits (.call call hc) h.root)
      rw [branches]
      cases hbranch : parser.branch? call with
      | none => exact ih hafter hrest
      | some branch =>
          refine List.nodup_cons.mpr ⟨fun hmem => ?_, ih hafter hrest⟩
          obtain ⟨other, hother, hnumber⟩ := List.mem_map.mp hmem
          have hissued := (live_of_branch? hc hbranch).2.issued
          exact (branches_live hafter hrest other hother).1 (hnumber ▸ hissued)

/-! ## Numbers that mean nothing -/

/-- Nothing is found under the number, and whoever uses it is told so. -/
structure Missing (parser : Parser) (p : ParameterId) : Prop where
  parameter? : parser.schema.parameter? p = none
  invocations : parser.invocations p = .error (.parameterNotFound p.label)
  results : parser.results p = .error (.parameterNotFound p.label)
  remove : parser.remove p = (parser, .error (.missingParameter p.label))
  dependent : ∀ relation q,
    parser.relate relation p q = (parser, .error (.missingParameter p.label))
  target : ∀ relation q, (parser.schema.parameter? q).isSome = true →
    parser.relate relation q p = (parser, .error (.missingParameter p.label))

theorem missing_of_parameter? (h : parser.schema.parameter? p = none) : parser.Missing p := by
  have hmissing : parser.schema.getParameter p = .error (.missingParameter p.label) := by
    rw [Schema.getParameter, h]
  have hinvocations : parser.invocations p = .error (.parameterNotFound p.label) := by
    rw [invocations, h]
  refine ⟨h, hinvocations, ?_, ?_, fun relation q => ?_, fun relation q hq => ?_⟩
  · rw [results, hinvocations]
    rfl
  · rw [Parser.remove, Schema.remove, h]
    rfl
  · rw [relate, Schema.addRelation, hmissing]
    rfl
  · obtain ⟨found, hfound⟩ := Option.isSome_iff_exists.mp hq
    rw [relate, Schema.addRelation, Schema.getParameter_eq_ok.mpr hfound, hmissing]
    rfl

/-! ## Histories of a program -/

/-- The help flag that a program has from the start. -/
def firstHandle : Handle := ⟨⟨0⟩, .root, Schema.helpDeclaration Schema.defaultHelp⟩

/-- The parameters that a program has declared by the end of a history. -/
def handlesOf (program : String) (calls : List Call) : List Handle :=
  firstHandle :: (ofProgram program).handles calls

/-- The commands that a program has declared by the end of a history, itself the first. -/
def branchesOf (program : String) (calls : List Call) : List Branch :=
  ⟨.root, program, none⟩ :: (ofProgram program).branches calls

/-- What has been declared under numbers, and what the numbers mean now. -/
structure Stable (parser : Parser) (handles : List Handle) (branches : List Branch) : Prop where
  /-- No two parameters have the same number. -/
  once : (handles.map (·.number)).Nodup
  /-- All that is found has been declared. -/
  found : ∀ p, (parser.schema.parameter? p).isSome = true → p ∈ handles.map (·.number)
  live : ∀ handle ∈ handles, handle.Live parser.schema ∨ parser.Missing handle.number
  /-- What means nothing will not mean anything again. -/
  gone : ∀ handle ∈ handles, parser.schema.parameter? handle.number = none →
    ∀ later, parser.admits later = true → (parser.afterAll later).Missing handle.number
  /-- What a call declares has a number that was not given out before, and is there at once. -/
  fresh : ∀ call handle, parser.admits [call] = true → parser.handle? call = some handle →
    handle.number ∉ handles.map (·.number) ∧ handle.Live (parser.after call).schema
  branches_once : (branches.map (·.number)).Nodup
  branches_live : ∀ branch ∈ branches, branch.Live parser.schema
  branches_fresh : ∀ call branch, parser.admits [call] = true →
    parser.branch? call = some branch →
      branch.number ∉ branches.map (·.number) ∧ branch.Live (parser.after call).schema

theorem handle_ofProgram (program : String) :
    Schema.helpHandle? .root Schema.defaultHelp
      ((Schema.bare program).replaceHelp .root (some Schema.defaultHelp)) = some firstHandle :=
  rfl

theorem givesOut_ofProgram (program : String) :
    Schema.GivesOut 0 (ofProgram program).schema (some firstHandle) := by
  have hgives := (Schema.wellFormed_bare program).givesOut_replaceHelp
    (Schema.issued_bare program) Schema.defaultHelp
  rwa [handle_ofProgram] at hgives

theorem numbered_handlesOf {program : String} {calls : List Call}
    (hcalls : (ofProgram program).admits calls = true) :
    ((handlesOf program calls).map (·.number)).map (·.number) =
      List.range ((ofProgram program).afterAll calls).schema.nextParameter := by
  obtain ⟨hzero, hone, -⟩ := givesOut_ofProgram program
  have hnumbered := handles_numbered (reachable_ofProgram program).wellFormed hcalls
  rw [hone] at hnumbered
  rw [← hnumbered, handlesOf]
  simp [hzero]

theorem mem_handlesOf {program : String} {calls : List Call}
    (hcalls : (ofProgram program).admits calls = true) :
    p ∈ (handlesOf program calls).map (·.number) ↔
      p.number < ((ofProgram program).afterAll calls).schema.nextParameter := by
  have hinjective : Function.Injective ParameterId.number := fun a b h => by
    cases a
    cases h
    rfl
  rw [← List.mem_range, ← numbered_handlesOf hcalls, List.mem_map_of_injective hinjective]

/-- Whatever a program does, the numbers it was given keep their meaning: a parameter's number means
that parameter until it is removed, and nothing from then on; a command's number means that command
for good. -/
theorem numbers_stable (program : String) {calls : List Call}
    (hcalls : (ofProgram program).admits calls = true) :
    ((ofProgram program).afterAll calls).Stable (handlesOf program calls)
      (branchesOf program calls) := by
  have hstart := (reachable_ofProgram program).wellFormed
  have hedits := (leads_afterAll hcalls).edits hstart.root
  have hwf := hstart.edits hedits
  have hlive : ∀ handle ∈ handlesOf program calls,
      handle.Live ((ofProgram program).afterAll calls).schema ∨
        ((ofProgram program).afterAll calls).schema.parameter? handle.number = none := by
    intro handle hhandle
    rcases List.mem_cons.mp hhandle with rfl | hlater
    · exact hstart.handle_edits hedits (givesOut_ofProgram program).2.2
    · exact handles_live hstart hcalls handle hlater
  have hroot : Branch.Live ⟨.root, program, none⟩ (ofProgram program).schema :=
    (Schema.ofProgram_edits program).branch_live ⟨Schema.issued_bare program, rfl, rfl⟩
  have hnot : ∀ branch ∈ (ofProgram program).branches calls, branch.number ≠ .root := by
    intro branch hbranch heq
    exact (branches_live hstart hcalls branch hbranch).1 (heq ▸ hstart.root)
  have hbranches : ∀ branch ∈ branchesOf program calls,
      branch.Live ((ofProgram program).afterAll calls).schema := by
    intro branch hbranch
    rcases List.mem_cons.mp hbranch with rfl | hlater
    · exact hedits.branch_live hroot
    · exact (branches_live hstart hcalls branch hlater).2
  refine ⟨?_, fun p hp => ?_, fun handle hhandle => ?_,
    fun handle hhandle hnone later hlater => ?_, fun call handle hcall hhandle => ?_, ?_,
    hbranches, fun call branch hcall hbranch => ?_⟩
  · exact .of_map _ (numbered_handlesOf hcalls ▸ List.nodup_range)
  · obtain ⟨parameter, hfound⟩ := Option.isSome_iff_exists.mp hp
    exact (mem_handlesOf hcalls).mpr (hwf.number_lt_of_parameter? hfound)
  · exact (hlive handle hhandle).imp_right missing_of_parameter?
  · have hlt := (mem_handlesOf hcalls).mp (List.mem_map_of_mem hhandle)
    exact missing_of_parameter?
      (hwf.parameter?_eq_none ((leads_afterAll hlater).edits hwf.root) hlt hnone)
  · have hgives := givesOut_call hwf (admits_cons.mp hcall).1
    rw [hhandle] at hgives
    obtain ⟨hnumber, -, hdeclared⟩ := hgives
    refine ⟨fun hmem => ?_, hdeclared⟩
    have hlt := (mem_handlesOf hcalls).mp hmem
    rw [hnumber] at hlt
    exact Nat.lt_irrefl _ hlt
  · refine List.nodup_cons.mpr ⟨fun hmem => ?_, nodup_branches hstart hcalls⟩
    obtain ⟨branch, hbranch, hnumber⟩ := List.mem_map.mp hmem
    exact hnot branch hbranch hnumber
  · obtain ⟨hnew, hdeclared⟩ := live_of_branch? (admits_cons.mp hcall).1 hbranch
    refine ⟨fun hmem => ?_, hdeclared⟩
    obtain ⟨other, hother, hnumber⟩ := List.mem_map.mp hmem
    exact hnew (hnumber ▸ (hbranches other hother).issued)

/-- A flag and a configuration file go, and others come under their names. -/
def renewals : List Call :=
  mixedCalls ++ [.remove ⟨3⟩, .replaceConfig "--config" none true,
    .add .root { names := "-q,--quiet", binding := .values (.exactly 1) }]

theorem numbers_stable_renewals :
    (ofProgram "tool").admits renewals = true ∧
      (handlesOf "tool" renewals).map (·.number.number) = [0, 1, 2, 3, 4, 5, 6, 7] ∧
      (handlesOf "tool" renewals).map (·.owner.index) = [0, 1, 1, 0, 0, 1, 0, 0] ∧
      branchesOf "tool" renewals = [⟨⟨0⟩, "tool", none⟩, ⟨⟨1⟩, "run", some ⟨0⟩⟩] ∧
      ((ofProgram "tool").afterAll renewals).Missing ⟨3⟩ ∧
      ((ofProgram "tool").afterAll renewals).Stable (handlesOf "tool" renewals)
        (branchesOf "tool" renewals) := by
  have hcalls : (ofProgram "tool").admits renewals = true := by decide +kernel
  exact ⟨hcalls, by decide +kernel, by decide +kernel, by decide +kernel,
    missing_of_parameter? (Option.isNone_iff_eq_none.mp (by decide +kernel)),
    numbers_stable "tool" hcalls⟩

end Parser

end CommandLine
