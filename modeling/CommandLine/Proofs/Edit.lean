import CommandLine.Proofs.Lookup
import Mathlib.Logic.Relation

/-!
# What declarations are made of

Whatever a declaration does to a schema, it does in a few elementary
changes (`Edit`), and each constructor carries what the declaration has
checked by then. `addParameter_edit`, `set_edit`, `replaceHelp_edits`
and the like take the declarations apart, those included that fail half
way. What holds of every schema is shown for one edit at a time, and is
never shown again for a declaration.
-/

namespace CommandLine

/-- A `do` block that succeeds went on from each of its bindings. -/
theorem ok_of_bind_ok {ε α β : Type} {first : Except ε α} {next : α → Except ε β} {b : β}
    (h : (first >>= next) = .ok b) : ∃ a, first = .ok a ∧ next a = .ok b :=
  match first, h with
  | .ok a, h => ⟨a, rfl, h⟩

/-- The parameter without the relations that it has been given since it was declared. -/
def Parameter.declared (p : Parameter) : Parameter := { p with requires := [], excludes := [] }

@[simp] theorem Parameter.declared_forget (p : Parameter) (other : ParameterId) :
    (p.forget other).declared = p.declared := rfl

@[simp] theorem Parameter.declared_relate (p : Parameter) (relation : Relation)
    (target : ParameterId) : (p.relate relation target).declared = p.declared := by
  cases relation <;> rfl

theorem Parameter.id_eq_of_declared {p q : Parameter} (h : p.declared = q.declared) :
    p.id = q.id := by
  have hid : p.declared.id = q.declared.id := by rw [h]
  exact hid

namespace Schema

/-! ## The changes -/

/-- The schema with one more parameter, the last of its command. -/
def withParameter (schema : Schema) (c : CommandId) (p : Parameter) : Schema :=
  { schema.modifyCommand c fun command =>
      { command with parameters := command.parameters ++ [p] } with
    nextParameter := schema.nextParameter + 1 }

/-- The schema with one more relation of the parameter `p`. -/
def withRelation (schema : Schema) (relation : Relation) (p q : ParameterId) : Schema :=
  { schema with
    commands := schema.commands.map fun command =>
      { command with
        parameters := command.parameters.map fun parameter =>
          if parameter.id = p then parameter.relate relation q else parameter } }

/-- The schema with a help flag for a command, and its declaration for sub-commands to come. -/
def withHelp (schema : Schema) (c : CommandId) (p : ParameterId) (declaration : String) : Schema :=
  schema.modifyCommand c fun command =>
    { command with
      help := some p
      settings := { command.settings with helpNames := some declaration } }

/-- The schema with one more command, which has its parent's settings. -/
def withChild (schema : Schema) (parent : CommandId) (name : String) : Schema :=
  { schema with
    commands := schema.commands ++
      [{ name, ancestors := parent :: (schema.command parent).ancestors
         settings := (schema.command parent).settings }] }

/-- Changes of a command that nothing refers to: its texts and the like. -/
structure IsNote (f : Command → Command) : Prop where
  name : ∀ command, (f command).name = command.name
  ancestors : ∀ command, (f command).ancestors = command.ancestors
  parameters : ∀ command, (f command).parameters = command.parameters
  settings : ∀ command, (f command).settings = command.settings
  help : ∀ command, (f command).help = command.help

/-- An elementary change of a schema. -/
inductive Edit (schema : Schema) : Schema → Prop
  | parameter {c : CommandId} {p : Parameter} (hc : schema.Issued c)
      (hid : p.id = ⟨schema.nextParameter⟩) (hrelated : ∀ relation, p.related relation = [])
      (hclash : (schema.command c).clash? p.names (schema.command c).parameters = none)
      (hflag : p.nargs.isFlag = true → p.names.isPositional = false)
      (hnames : ∃ declaration, Names.ofDeclaration declaration = .ok p.names) :
      Edit schema (schema.withParameter c p)
  | removal (p : ParameterId) : Edit schema (schema.without p)
  | relation (relation : Relation) {p q : ParameterId} {dependent : Parameter}
      (hp : schema.parameter? p = some dependent) (hsees : schema.sees p q = true) (hne : p ≠ q)
      (hnew : q ∉ dependent.related relation) : Edit schema (schema.withRelation relation p q)
  | note {c : CommandId} {f : Command → Command} (hf : IsNote f) :
      Edit schema (schema.modifyCommand c f)
  /-- Settings that fold names in another way are taken on only where no names clash. -/
  | settings {c : CommandId} {f : Settings → Settings}
      (hfold : (∀ s, (f s).ignoreCase = s.ignoreCase ∧
          (f s).ignoreUnderscore = s.ignoreUnderscore) ∨
        (schema.modifySettings c f).nameClash? c = none)
      (hhelp : ∀ s, (f s).helpNames = s.helpNames) : Edit schema (schema.modifySettings c f)
  | noHelp {c : CommandId} (hnone : (schema.command c).help = none) :
      Edit schema (schema.modifySettings c fun s => { s with helpNames := none })
  | help {c : CommandId} {p : Parameter} {declaration : String}
      (hp : p ∈ (schema.command c).parameters) (hflag : p.nargs.isFlag = true)
      (hnames : Names.ofDeclaration declaration = .ok p.names) :
      Edit schema (schema.withHelp c p.id declaration)
  | config {source : ConfigSource} (hp : source.parameter ∈ schema.idsOf .root) :
      Edit schema { schema with config := some source }
  | child {parent : CommandId} {name : String} (hparent : schema.Issued parent)
      (hname : isName name.toList = true) (hnew : schema.child? parent name = none) :
      Edit schema (schema.withChild parent name)

/-- Any number of elementary changes. -/
abbrev Edits : Schema → Schema → Prop := Relation.ReflTransGen Edit

variable {schema grown : Schema} {c d : CommandId}

/-! ## What a change shows -/

theorem proj_modifyCommand {α : Type} (proj : Command → α) {f : Command → Command}
    (hf : ∀ command, proj (f command) = proj command) :
    proj ((schema.modifyCommand c f).command d) = proj (schema.command d) := by
  simp only [modifyCommand, command, List.getD_eq_getElem?_getD, List.getElem?_modify]
  split
  · cases schema.commands[d.index]? with
    | none => rfl
    | some command => exact hf command
  · cases schema.commands[d.index]? <;> rfl

theorem command_modifyCommand_self {f : Command → Command} (hc : schema.Issued c) :
    (schema.modifyCommand c f).command c = f (schema.command c) := by
  simp only [modifyCommand, command, List.getD_eq_getElem?_getD, List.getElem?_modify_eq,
    List.getElem?_eq_getElem hc]
  rfl

theorem command_modifyCommand_of_ne {f : Command → Command} (hdc : d ≠ c) :
    (schema.modifyCommand c f).command d = schema.command d := by
  have hne : c.index ≠ d.index := fun h => hdc (by cases c; cases d; cases h; rfl)
  simp only [modifyCommand, command, List.getD_eq_getElem?_getD, List.getElem?_modify_ne _ _ hne]

@[simp] theorem issued_modifyCommand {f : Command → Command} :
    (schema.modifyCommand c f).Issued d ↔ schema.Issued d := by
  simp only [Issued, modifyCommand, List.length_modify]

theorem command_withParameter_self {p : Parameter} (hc : schema.Issued c) :
    (schema.withParameter c p).command c =
      { schema.command c with parameters := (schema.command c).parameters ++ [p] } :=
  command_modifyCommand_self hc

theorem command_withParameter_of_ne {p : Parameter} (hdc : d ≠ c) :
    (schema.withParameter c p).command d = schema.command d :=
  command_modifyCommand_of_ne hdc

@[simp] theorem issued_withParameter {p : Parameter} :
    (schema.withParameter c p).Issued d ↔ schema.Issued d :=
  issued_modifyCommand

theorem command_withHelp_self (p : ParameterId) (declaration : String) (hc : schema.Issued c) :
    (schema.withHelp c p declaration).command c =
      { schema.command c with
        help := some p
        settings := { (schema.command c).settings with helpNames := some declaration } } :=
  command_modifyCommand_self hc

theorem command_without (p : ParameterId) :
    (schema.without p).command c =
      { schema.command c with
        parameters := ((schema.command c).parameters.filter (·.id ≠ p)).map (Parameter.forget p)
        help := (schema.command c).help.filter (· ≠ p) } := by
  simp only [without, command, List.getD_eq_getElem?_getD, List.getElem?_map]
  cases schema.commands[c.index]? <;> rfl

@[simp] theorem issued_without {p : ParameterId} :
    (schema.without p).Issued c ↔ schema.Issued c := by
  simp only [Issued, without, List.length_map]

theorem command_withRelation (relation : Relation) (p q : ParameterId) :
    (schema.withRelation relation p q).command c =
      { schema.command c with
        parameters := (schema.command c).parameters.map fun parameter =>
          if parameter.id = p then parameter.relate relation q else parameter } := by
  simp only [withRelation, command, List.getD_eq_getElem?_getD, List.getElem?_map]
  cases schema.commands[c.index]? <;> rfl

@[simp] theorem issued_withRelation {relation : Relation} {p q : ParameterId} :
    (schema.withRelation relation p q).Issued c ↔ schema.Issued c := by
  simp only [Issued, withRelation, List.length_map]

theorem issued_withChild {parent : CommandId} {name : String} :
    (schema.withChild parent name).Issued d ↔
      schema.Issued d ∨ d = ⟨schema.commands.length⟩ := by
  simp only [Issued, withChild, List.length_append, List.length_singleton]
  constructor
  · intro hd
    rcases Nat.lt_succ_iff_lt_or_eq.mp hd with hlt | heq
    · exact Or.inl hlt
    · exact Or.inr (by cases d; cases heq; rfl)
  · rintro (hlt | rfl)
    · exact Nat.lt_succ_of_lt hlt
    · exact Nat.lt_succ_self _

theorem command_withChild_of_issued {parent : CommandId} {name : String} (hd : schema.Issued d) :
    (schema.withChild parent name).command d = schema.command d := by
  simp only [withChild, command, List.getD_eq_getElem?_getD, List.getElem?_append_left hd]

theorem command_withChild_new {parent : CommandId} {name : String} :
    (schema.withChild parent name).command ⟨schema.commands.length⟩ =
      { name, ancestors := parent :: (schema.command parent).ancestors
        settings := (schema.command parent).settings } := by
  simp only [withChild, command, List.getD_eq_getElem?_getD, List.getElem?_concat_length,
    Option.getD_some]

/-- A new command shows nothing but its name, its ancestors and its settings. -/
theorem proj_withChild {α : Type} (proj : Command → α) {parent : CommandId} {name : String}
    (hproj : ∀ ancestors settings, proj { name, ancestors, settings } = proj { name := "" }) :
    proj ((schema.withChild parent name).command d) = proj (schema.command d) := by
  by_cases hd : schema.Issued d
  · rw [command_withChild_of_issued hd]
  · rw [command_of_not_issued hd]
    by_cases hnew : d = ⟨schema.commands.length⟩
    · subst hnew
      rw [command_withChild_new]
      exact hproj _ _
    · rw [command_of_not_issued fun h => (issued_withChild.mp h).elim hd hnew]

/-! ## What declarations do -/

/-- A parameter is added if its names can be read, do not contradict the rest of its
declaration, and are free. -/
theorem addParameter_eq_ok {p : ParameterId} {declaration : Declaration} :
    schema.addParameter c declaration = .ok (p, grown) ↔
      ∃ names, Names.ofDeclaration declaration.names = .ok names ∧
        declaration.misuse? names = none ∧
        (schema.command c).clash? names (schema.command c).parameters = none ∧
        p = ⟨schema.nextParameter⟩ ∧
        grown = schema.withParameter c (declaration.toParameter p names) := by
  constructor
  · intro h
    obtain ⟨names, hnames, h⟩ := ok_of_bind_ok h
    refine ⟨names, hnames, ?_⟩
    cases hmisuse : declaration.misuse? names with
    | some misuse =>
        rw [hmisuse] at h
        cases h
    | none =>
        cases hclash : (schema.command c).clash? names (schema.command c).parameters with
        | some error =>
            simp only [hmisuse, hclash] at h
            cases h
        | none =>
            simp only [hmisuse, hclash] at h
            cases h
            exact ⟨rfl, rfl, rfl, rfl⟩
  · rintro ⟨names, hnames, hmisuse, hclash, rfl, rfl⟩
    simp only [addParameter, hnames, bind, Except.bind, hmisuse, hclash]
    rfl

/-- A flag has no place among the values. -/
theorem isPositional_of_misuse? {declaration : Declaration} {names : Names}
    (h : declaration.misuse? names = none) (hflag : declaration.nargs.isFlag = true) :
    names.isPositional = false := by
  simp only [Declaration.misuse?, Option.orElse_eq_orElse, Option.orElse_eq_or,
    Option.or_eq_none_iff] at h
  cases hpositional : names.isPositional with
  | false => rfl
  | true => simp [hflag, hpositional] at h

theorem addParameter_edit {p : ParameterId} {declaration : Declaration} (hc : schema.Issued c)
    (h : schema.addParameter c declaration = .ok (p, grown)) : Edit schema grown := by
  obtain ⟨names, hnames, hmisuse, hclash, rfl, rfl⟩ := addParameter_eq_ok.mp h
  exact .parameter hc rfl (fun relation => by cases relation <;> rfl) hclash
    (isPositional_of_misuse? hmisuse) ⟨declaration.names, hnames⟩

theorem getParameter_eq_ok {p : ParameterId} {parameter : Parameter} :
    schema.getParameter p = .ok parameter ↔ schema.parameter? p = some parameter := by
  unfold getParameter
  cases schema.parameter? p <;> simp

/-- A relation is added to another parameter that is seen and not related yet. -/
theorem withRelation_of_addRelation {relation : Relation} {p q : ParameterId}
    (h : schema.addRelation relation p q = .ok grown) :
    ∃ dependent, schema.parameter? p = some dependent ∧ schema.sees p q = true ∧ p ≠ q ∧
      q ∉ dependent.related relation ∧ grown = schema.withRelation relation p q := by
  obtain ⟨dependent, hp, h⟩ := ok_of_bind_ok h
  obtain ⟨target, -, h⟩ := ok_of_bind_ok h
  by_cases hne : p = q
  · rw [if_pos hne] at h
    cases h
  cases hsees : schema.sees p q with
  | false =>
      simp only [if_neg hne, hsees] at h
      cases h
  | true =>
      cases hnew : (dependent.related relation).contains q with
      | true =>
          simp only [if_neg hne, hsees, hnew] at h
          cases h
      | false =>
          simp only [if_neg hne, hsees, hnew] at h
          cases h
          exact ⟨dependent, getParameter_eq_ok.mp hp, rfl, hne, by simpa using hnew, rfl⟩

theorem addRelation_edit {relation : Relation} {p q : ParameterId}
    (h : schema.addRelation relation p q = .ok grown) : Edit schema grown := by
  obtain ⟨dependent, hp, hsees, hne, hnew, rfl⟩ := withRelation_of_addRelation h
  exact .relation relation hp hsees hne hnew

/-- A sub-command is added if its name is valid and free. -/
theorem addChild_eq_ok {parent child : CommandId} {name : String} :
    schema.addChild parent name = .ok (child, grown) ↔
      isName name.toList = true ∧ schema.child? parent name = none ∧
        child = ⟨schema.commands.length⟩ ∧ grown = schema.withChild parent name := by
  unfold addChild
  cases hname : isName name.toList with
  | false =>
      refine ⟨fun h => ?_, fun h => by cases h.1⟩
      cases h
  | true =>
      cases hnew : schema.child? parent name with
      | some other =>
          refine ⟨fun h => ?_, fun h => by cases h.2.1⟩
          cases h
      | none =>
          refine ⟨fun h => ?_, ?_⟩
          · cases h
            exact ⟨rfl, rfl, rfl, rfl⟩
          · rintro ⟨-, -, rfl, rfl⟩
            rfl

theorem addChild_edit {parent child : CommandId} {name : String} (hparent : schema.Issued parent)
    (h : schema.addChild parent name = .ok (child, grown)) :
    child = ⟨schema.commands.length⟩ ∧ grown = schema.withChild parent name ∧
      Edit schema grown := by
  obtain ⟨hname, hnew, rfl, rfl⟩ := addChild_eq_ok.mp h
  exact ⟨rfl, rfl, .child hparent hname hnew⟩

/-- The schema without the help flag of a command. -/
def withoutHelp (schema : Schema) (c : CommandId) : Schema :=
  match (schema.command c).help with
  | some p => schema.without p
  | none => schema

/-- The schema without the parameter that names the configuration file. -/
def withoutConfig (schema : Schema) : Schema :=
  match schema.config with
  | some source => schema.without source.parameter
  | none => schema

theorem withoutHelp_edits : Edits schema (schema.withoutHelp c) := by
  unfold withoutHelp
  split
  · exact .single (.removal _)
  · exact .refl

theorem issued_withoutHelp : (schema.withoutHelp c).Issued d ↔ schema.Issued d := by
  unfold withoutHelp
  split
  · exact issued_without
  · exact Iff.rfl

theorem help_withoutHelp : ((schema.withoutHelp c).command c).help = none := by
  unfold withoutHelp
  split
  · next hhelp =>
      rw [command_without]
      exact Option.filter_eq_none_iff.mpr fun a ha => by
        simp [Option.some.inj (hhelp.symm.trans ha)]
  · next hhelp => exact hhelp

theorem withoutConfig_edits : Edits schema schema.withoutConfig := by
  unfold withoutConfig
  split
  · exact .single (.removal _)
  · exact .refl

theorem issued_withoutConfig : schema.withoutConfig.Issued d ↔ schema.Issued d := by
  unfold withoutConfig
  split
  · exact issued_without
  · exact Iff.rfl

theorem replaceHelp_none :
    schema.replaceHelp c none =
      ((schema.withoutHelp c).modifySettings c fun s => { s with helpNames := none }, .ok ()) :=
  rfl

theorem replaceHelp_some (declaration : String) :
    schema.replaceHelp c (some declaration) =
      match (schema.withoutHelp c).addParameter c (helpDeclaration declaration) with
      | Except.ok (p, grown) => (grown.withHelp c p declaration, Except.ok ())
      | Except.error error => (schema.withoutHelp c, Except.error error) :=
  rfl

theorem replaceHelp_edits (hc : schema.Issued c) (names : Option String) :
    Edits schema (schema.replaceHelp c names).1 := by
  cases names with
  | none =>
      rw [replaceHelp_none]
      exact withoutHelp_edits.tail (.noHelp help_withoutHelp)
  | some declaration =>
      cases hadd : (schema.withoutHelp c).addParameter c (helpDeclaration declaration) with
      | error error =>
          rw [replaceHelp_some, hadd]
          exact withoutHelp_edits
      | ok added =>
          obtain ⟨p, grown⟩ := added
          rw [replaceHelp_some, hadd]
          have hcleared : (schema.withoutHelp c).Issued c := issued_withoutHelp.mpr hc
          refine (withoutHelp_edits.tail (addParameter_edit hcleared hadd)).tail ?_
          obtain ⟨names, hnames, -, -, rfl, rfl⟩ := addParameter_eq_ok.mp hadd
          refine Edit.help (p := (helpDeclaration declaration).toParameter _ names) ?_ rfl hnames
          rw [command_withParameter_self hcleared]
          exact List.mem_append_right _ (List.mem_singleton.mpr rfl)

theorem replaceConfig_eq (names : String) (default : Option String) (required : Bool) :
    schema.replaceConfig names default required =
      match schema.withoutConfig.addParameter .root (configDeclaration names) with
      | Except.ok (p, grown) =>
        ({ grown with config := some { parameter := p, default, required } }, Except.ok p)
      | Except.error error => (schema.withoutConfig, Except.error error) :=
  rfl

theorem replaceConfig_edits (hroot : schema.Issued .root) (names : String)
    (default : Option String) (required : Bool) :
    Edits schema (schema.replaceConfig names default required).1 := by
  cases hadd : schema.withoutConfig.addParameter .root (configDeclaration names) with
  | error error =>
      rw [replaceConfig_eq, hadd]
      exact withoutConfig_edits
  | ok added =>
      obtain ⟨p, grown⟩ := added
      rw [replaceConfig_eq, hadd]
      have hcleared : schema.withoutConfig.Issued .root := issued_withoutConfig.mpr hroot
      refine (withoutConfig_edits.tail (addParameter_edit hcleared hadd)).tail (.config ?_)
      obtain ⟨names, -, -, -, rfl, rfl⟩ := addParameter_eq_ok.mp hadd
      rw [mem_idsOf, command_withParameter_self hcleared]
      exact ⟨_, List.mem_append_right _ (List.mem_singleton.mpr rfl), rfl⟩

theorem addSubcommand_edits {parent : CommandId} (hparent : schema.Issued parent) (name : String) :
    Edits schema (schema.addSubcommand parent name).1 := by
  unfold addSubcommand
  cases hadd : schema.addChild parent name with
  | error error => exact .refl
  | ok added =>
      obtain ⟨child, grown⟩ := added
      obtain ⟨rfl, rfl, hchild⟩ := addChild_edit hparent hadd
      cases (schema.command parent).settings.helpNames with
      | none => exact .single hchild
      | some declaration =>
          have hnew : (schema.withChild parent name).Issued ⟨schema.commands.length⟩ :=
            issued_withChild.mpr (Or.inr rfl)
          exact (Relation.ReflTransGen.single hchild).trans (replaceHelp_edits hnew _)

theorem without_of_remove {p : ParameterId} (h : schema.remove p = .ok grown) :
    grown = schema.without p := by
  unfold remove at h
  split at h
  · cases h
    rfl
  · cases h

theorem remove_edit {p : ParameterId} (h : schema.remove p = .ok grown) : Edit schema grown :=
  without_of_remove h ▸ .removal p

theorem eq_of_unlessClash (h : schema.unlessClash c = .ok grown) :
    grown = schema ∧ schema.nameClash? c = none := by
  unfold unlessClash at h
  split at h
  · cases h
  · next hnone =>
      cases h
      exact ⟨rfl, hnone⟩

theorem set_edit {setting : Setting} {value : Bool} (h : schema.set c setting value = .ok grown) :
    Edit schema grown := by
  cases setting with
  | allowExtras | allowConfigExtras | prefixCommand | fallthrough =>
      cases h
      exact .settings (Or.inl fun s => ⟨rfl, rfl⟩) (fun s => rfl)
  | ignoreCase | ignoreUnderscore =>
      obtain ⟨rfl, hclash⟩ := eq_of_unlessClash h
      exact .settings (Or.inr hclash) (fun s => rfl)
  | requireSubcommand =>
      cases h
      exact .note ⟨fun _ => rfl, fun _ => rfl, fun _ => rfl, fun _ => rfl, fun _ => rfl⟩

/-! ## Where a schema starts -/

/-- A program without a help flag. -/
def bare (program : String) : Schema := { commands := [{ name := program }] }

theorem issued_bare (program : String) : (bare program).Issued .root := Nat.zero_lt_one

theorem ofProgram_edits (program : String) : Edits (bare program) (ofProgram program) :=
  replaceHelp_edits (issued_bare program) (some defaultHelp)

/-- No command is ever taken back. -/
theorem Edit.issued (h : Edit schema grown) (hc : schema.Issued c) : grown.Issued c := by
  cases h with
  | parameter => exact issued_withParameter.mpr hc
  | removal p => exact issued_without.mpr hc
  | relation relation => exact issued_withRelation.mpr hc
  | note => exact issued_modifyCommand.mpr hc
  | settings | noHelp => exact issued_modifyCommand.mpr hc
  | help => exact issued_modifyCommand.mpr hc
  | config => exact hc
  | child => exact issued_withChild.mpr (Or.inl hc)

theorem Edits.issued (h : Edits schema grown) (hc : schema.Issued c) : grown.Issued c := by
  induction h with
  | refl => exact hc
  | tail _ hedit ih => exact hedit.issued ih

theorem Edit.nextParameter_le (h : Edit schema grown) :
    schema.nextParameter ≤ grown.nextParameter := by
  cases h with
  | parameter => exact Nat.le_succ _
  | removal | relation | note | settings | noHelp | help | config | child => exact Nat.le_refl _

/-- A parameter that is there after an edit has been there before, with other relations at most, or
it is new and its names have been read from a declaration. -/
theorem Edit.declared_cases (h : Edit schema grown) {p : Parameter}
    (hp : p ∈ (grown.command d).parameters) :
    (∃ old ∈ (schema.command d).parameters, p.declared = old.declared) ∨
      p.id = ⟨schema.nextParameter⟩ ∧ grown.nextParameter = schema.nextParameter + 1 ∧
        (p.nargs.isFlag = true → p.names.isPositional = false) ∧
        ∃ declaration, Names.ofDeclaration declaration = .ok p.names := by
  have hsame : (grown.command d).parameters = (schema.command d).parameters →
      ∃ old ∈ (schema.command d).parameters, p.declared = old.declared :=
    fun heq => ⟨p, heq ▸ hp, rfl⟩
  cases h with
  | @parameter c parameter hc hid _ _ hflag hnames =>
      by_cases hdc : d = c
      · subst hdc
        rw [command_withParameter_self hc] at hp
        rcases List.mem_append.mp hp with hold | hnew
        · exact Or.inl ⟨p, hold, rfl⟩
        · rw [List.mem_singleton.mp hnew]
          exact Or.inr ⟨hid, rfl, hflag, hnames⟩
      · exact Or.inl (hsame (by rw [command_withParameter_of_ne hdc]))
  | removal =>
      rw [command_without] at hp
      obtain ⟨old, hold, rfl⟩ := List.mem_map.mp hp
      exact Or.inl ⟨old, List.mem_of_mem_filter hold, old.declared_forget _⟩
  | relation relation =>
      rw [command_withRelation] at hp
      obtain ⟨old, hold, rfl⟩ := List.mem_map.mp hp
      refine Or.inl ⟨old, hold, ?_⟩
      split
      · exact old.declared_relate relation _
      · rfl
  | note hf => exact Or.inl (hsame (proj_modifyCommand Command.parameters hf.parameters))
  | settings | noHelp | help =>
      exact Or.inl (hsame (proj_modifyCommand Command.parameters fun _ => rfl))
  | config => exact Or.inl (hsame rfl)
  | child => exact Or.inl (hsame (proj_withChild Command.parameters fun _ _ => rfl))

/-- A parameter that is there after an edit has been there before, with the same names and the
same number of values, or it is new and its names have been read from a declaration. -/
theorem Edit.parameter_cases (h : Edit schema grown) {p : Parameter}
    (hp : p ∈ (grown.command d).parameters) :
    (∃ old ∈ (schema.command d).parameters,
      p.id = old.id ∧ p.names = old.names ∧ p.nargs = old.nargs) ∨
      p.id = ⟨schema.nextParameter⟩ ∧ (p.nargs.isFlag = true → p.names.isPositional = false) ∧
        ∃ declaration, Names.ofDeclaration declaration = .ok p.names := by
  rcases h.declared_cases hp with ⟨old, hold, heq⟩ | ⟨hid, -, hnew⟩
  · have hsame : p.declared.id = old.declared.id ∧ p.declared.names = old.declared.names ∧
        p.declared.nargs = old.declared.nargs := by
      rw [heq]
      exact ⟨rfl, rfl, rfl⟩
    exact Or.inl ⟨old, hold, hsame⟩
  · exact Or.inr ⟨hid, hnew⟩

/-- The names that a command passes on after an edit have been passed on before, or they are
those of one of its flags. -/
theorem Edit.helpNames_cases (h : Edit schema grown) {declaration : String}
    (hnames : (grown.command d).settings.helpNames = some declaration) :
    (∃ c, (schema.command c).settings.helpNames = some declaration) ∨
      ∃ p ∈ (schema.command d).parameters, p.nargs.isFlag = true ∧
        Names.ofDeclaration declaration = .ok p.names := by
  have hsame : (grown.command d).settings = (schema.command d).settings →
      ∃ c, (schema.command c).settings.helpNames = some declaration :=
    fun heq => ⟨d, heq ▸ hnames⟩
  cases h with
  | parameter => exact Or.inl (hsame (proj_modifyCommand Command.settings fun _ => rfl))
  | removal => exact Or.inl (hsame (by rw [command_without]))
  | relation => exact Or.inl (hsame (by rw [command_withRelation]))
  | note hf => exact Or.inl (hsame (proj_modifyCommand Command.settings hf.settings))
  | settings _ hhelp =>
      rw [modifySettings, proj_modifyCommand (fun command => command.settings.helpNames)
        fun command => hhelp command.settings] at hnames
      exact Or.inl ⟨d, hnames⟩
  | @noHelp c =>
      rw [modifySettings] at hnames
      by_cases hdc : d = c
      · subst hdc
        by_cases hd : schema.Issued d
        · rw [command_modifyCommand_self hd] at hnames
          cases hnames
        · rw [command_of_not_issued (mt issued_modifyCommand.mp hd)] at hnames
          cases hnames
      · rw [command_modifyCommand_of_ne hdc] at hnames
        exact Or.inl ⟨d, hnames⟩
  | @help c p declaration hp hflag hread =>
      by_cases hdc : d = c
      · subst hdc
        rw [command_withHelp_self _ _ (issued_of_mem_parameters hp)] at hnames
        cases hnames
        exact Or.inr ⟨p, hp, hflag, hread⟩
      · rw [withHelp, command_modifyCommand_of_ne hdc] at hnames
        exact Or.inl ⟨d, hnames⟩
  | config => exact Or.inl ⟨d, hnames⟩
  | @child parent name =>
      by_cases hd : schema.Issued d
      · rw [command_withChild_of_issued hd] at hnames
        exact Or.inl ⟨d, hnames⟩
      · by_cases hnew : d = ⟨schema.commands.length⟩
        · subst hnew
          rw [command_withChild_new] at hnames
          exact Or.inl ⟨parent, hnames⟩
        · rw [command_of_not_issued fun hd' => (issued_withChild.mp hd').elim hd hnew] at hnames
          cases hnames

end Schema

end CommandLine
