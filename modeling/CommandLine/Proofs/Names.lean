import CommandLine.Proofs.Path

/-!
# Names are told apart

Within a command no two parameters share a name of one kind, and no two
sub-commands share their name, as the settings of the command fold names
(`Schema.Distinct`). A name that is looked up therefore means at most one
of them, and the order in which they were declared does not matter.

Every name that is added is compared with those that are there, and
settings that fold more names together are taken on only after all names
have been compared again (`nameClash?_eq_none`). Nothing else
touches names or the way they are folded (`Distinct.of_sublist`).
-/

namespace CommandLine

namespace Settings

variable {settings other : Settings} {a b : Names}

/-- Both fold names in the same way. -/
def FoldsLike (settings other : Settings) : Prop :=
  settings.ignoreCase = other.ignoreCase ∧ settings.ignoreUnderscore = other.ignoreUnderscore

theorem FoldsLike.foldName (h : settings.FoldsLike other) (name : String) :
    settings.foldName name = other.foldName name := by
  simp only [Settings.foldName, h.1, h.2]

theorem FoldsLike.foldShort (h : settings.FoldsLike other) (c : Char) :
    settings.foldShort c = other.foldShort c := by
  simp only [Settings.foldShort, h.1]

/-- No name of the one is among the other's. -/
structure Apart (settings : Settings) (a b : Names) : Prop where
  shorts : ∀ s ∈ a.shorts, ∀ t ∈ b.shorts, settings.foldShort s ≠ settings.foldShort t
  longs : ∀ s ∈ a.longs, ∀ t ∈ b.longs, settings.foldName s ≠ settings.foldName t
  positional : ∀ s, a.positional = some s → ∀ t, b.positional = some t →
    settings.foldName s ≠ settings.foldName t

theorem Apart.symm (h : settings.Apart a b) : settings.Apart b a where
  shorts s hs t ht := (h.shorts t ht s hs).symm
  longs s hs t ht := (h.longs t ht s hs).symm
  positional s hs t ht := (h.positional t ht s hs).symm

theorem Apart.of_foldsLike (h : settings.Apart a b) (hlike : other.FoldsLike settings) :
    other.Apart a b where
  shorts s hs t ht := by
    rw [hlike.foldShort, hlike.foldShort]
    exact h.shorts s hs t ht
  longs s hs t ht := by
    rw [hlike.foldName, hlike.foldName]
    exact h.longs s hs t ht
  positional s hs t ht := by
    rw [hlike.foldName, hlike.foldName]
    exact h.positional s hs t ht

/-- Names are apart if none of them clashes. -/
theorem clash?_eq_none : settings.clash? a b = none ↔ settings.Apart a b := by
  unfold clash?
  simp only [Option.or_eq_none_iff, Option.orElse_eq_orElse, Option.orElse_eq_or,
    Option.map_eq_none_iff, List.find?_eq_none, List.any_eq_true, not_exists, not_and]
  constructor
  · rintro ⟨hshort, hlong, hpositional⟩
    refine ⟨fun s hs t ht heq => ?_, fun s hs t ht heq => ?_, fun s hs t ht heq => ?_⟩
    · exact hshort s hs t ht (by simp [sameShort, heq])
    · exact hlong s hs t ht (by simp [sameName, heq])
    · simp [hs, ht, sameName, heq] at hpositional
  · intro h
    refine ⟨fun s hs t ht hsame => ?_, fun s hs t ht hsame => ?_, ?_⟩
    · exact h.shorts s hs t ht (eq_of_beq hsame).symm
    · exact h.longs s hs t ht (eq_of_beq hsame).symm
    · rw [Option.filter_eq_none_iff]
      intro s hs hany
      obtain ⟨t, ht, hsame⟩ := (Option.any_eq_true _ _).mp hany
      exact h.positional s hs t ht (eq_of_beq hsame).symm

end Settings

/-! ## What the comparisons find -/

theorem Command.clash?_eq_none {command : Command} {names : Names} {among : List Parameter} :
    command.clash? names among = none ↔ ∀ q ∈ among, command.settings.Apart names q.names := by
  simp only [Command.clash?, List.findSome?_eq_none_iff, Settings.clash?_eq_none]

theorem Command.clashAfter?_eq_none {command : Command} {before ps : List Parameter} :
    command.clashAfter? before ps = none ↔
      (ps.map (·.names)).Pairwise command.settings.Apart ∧
        ∀ p ∈ ps, ∀ q ∈ before, command.settings.Apart p.names q.names := by
  induction ps generalizing before with
  | nil => simp [Command.clashAfter?]
  | cons p rest ih =>
      simp only [Command.clashAfter?, Option.orElse_eq_orElse, Option.orElse_eq_or,
        Option.or_eq_none_iff, Command.clash?_eq_none, ih, List.map_cons, List.pairwise_cons,
        List.forall_mem_cons, List.forall_mem_append, List.forall_mem_map, List.not_mem_nil,
        false_implies, implies_true, and_true]
      constructor
      · rintro ⟨hp, hpairwise, hall⟩
        exact ⟨⟨fun q hq => (hall q hq).2.symm, hpairwise⟩, hp, fun q hq => (hall q hq).1⟩
      · rintro ⟨⟨hfirst, hpairwise⟩, hp, hbefore⟩
        exact ⟨hp, hpairwise, fun q hq => ⟨hbefore q hq, (hfirst q hq).symm⟩⟩

theorem Settings.childClash?_eq_none {settings : Settings} {before names : List String} :
    settings.childClash? before names = none ↔
      (names.map settings.foldName).Nodup ∧
        ∀ name ∈ names, ∀ other ∈ before, settings.foldName name ≠ settings.foldName other := by
  induction names generalizing before with
  | nil => simp [Settings.childClash?]
  | cons name rest ih =>
      have hname : before.any (settings.sameName · name) = true ↔
          ¬∀ other ∈ before, settings.foldName name ≠ settings.foldName other := by
        simp only [List.any_eq_true, Settings.sameName, beq_iff_eq, ne_eq, not_forall, not_not,
          exists_prop, @eq_comm _ (settings.foldName name)]
      rw [Settings.childClash?]
      split
      · next hclash =>
          simp only [reduceCtorEq, false_iff]
          exact fun h => hname.mp hclash (h.2 name List.mem_cons_self)
      · next hclash =>
          rw [hname, not_not] at hclash
          simp only [ih, List.map_cons, List.nodup_cons, List.mem_map, not_exists, not_and,
            List.forall_mem_cons, List.forall_mem_append, List.not_mem_nil, false_implies,
            implies_true, and_true]
          constructor
          · rintro ⟨hnodup, hall⟩
            exact ⟨⟨fun other hother => (hall other hother).2, hnodup⟩, hclash,
              fun other hother => (hall other hother).1⟩
          · rintro ⟨⟨hfirst, hnodup⟩, -, hall⟩
            exact ⟨hnodup, fun other hother => ⟨hall other hother, hfirst other hother⟩⟩

namespace Schema

variable {schema grown : Schema} {c d : CommandId}

/-- The names of a command's parameters. -/
def namesOf (schema : Schema) (c : CommandId) : List Names :=
  (schema.command c).parameters.map (·.names)

/-- The names of a command's sub-commands. -/
def childNames (schema : Schema) (c : CommandId) : List String :=
  (schema.children c).map fun child => (schema.command child).name

/-- The command's settings tell its parameters apart, and its sub-commands. -/
structure Distinct (schema : Schema) (c : CommandId) : Prop where
  parameters : (schema.namesOf c).Pairwise (schema.command c).settings.Apart
  children : ((schema.childNames c).map (schema.command c).settings.foldName).Nodup

/-- The comparison of all names finds whether they are told apart. -/
theorem nameClash?_eq_none : schema.nameClash? c = none ↔ schema.Distinct c := by
  simp only [nameClash?, Option.orElse_eq_orElse, Option.orElse_eq_or, Option.or_eq_none_iff,
    Command.clashAfter?_eq_none, Settings.childClash?_eq_none, List.not_mem_nil, false_implies,
    implies_true, and_true]
  exact ⟨fun h => ⟨h.1, h.2⟩, fun h => ⟨h.parameters, h.children⟩⟩

/-- Names stay apart where none is added and they are folded as before. -/
theorem Distinct.of_sublist (h : schema.Distinct c)
    (hlike : (grown.command c).settings.FoldsLike (schema.command c).settings)
    (hnames : (grown.namesOf c).Sublist (schema.namesOf c))
    (hchildren : (grown.childNames c).Sublist (schema.childNames c)) : grown.Distinct c where
  parameters := (h.parameters.sublist hnames).imp fun hab => hab.of_foldsLike hlike
  children := by
    have hfold : (grown.command c).settings.foldName = (schema.command c).settings.foldName :=
      funext hlike.foldName
    rw [hfold]
    exact (hchildren.map _).nodup h.children

/-! ## Names after an edit -/

theorem children_congr (hlength : grown.commands.length = schema.commands.length)
    (hancestors : ∀ d, (grown.command d).ancestors = (schema.command d).ancestors) :
    grown.children c = schema.children c := by
  simp only [children, commandIds, hlength]
  refine List.filter_congr fun d _ => decide_eq_decide.mpr ?_
  rw [Command.parent, hancestors, Command.parent]

theorem childNames_congr (hlength : grown.commands.length = schema.commands.length)
    (hancestors : ∀ d, (grown.command d).ancestors = (schema.command d).ancestors)
    (hname : ∀ d, (grown.command d).name = (schema.command d).name) :
    grown.childNames c = schema.childNames c := by
  simp only [childNames, children_congr hlength hancestors, hname]

theorem childNames_modifyCommand {f : Command → Command}
    (hancestors : ∀ command, (f command).ancestors = command.ancestors)
    (hname : ∀ command, (f command).name = command.name) :
    (schema.modifyCommand c f).childNames d = schema.childNames d :=
  childNames_congr (List.length_modify ..)
    (fun _ => proj_modifyCommand Command.ancestors hancestors)
    (fun _ => proj_modifyCommand Command.name hname)

theorem childNames_withChild {parent : CommandId} {name : String} :
    (schema.withChild parent name).childNames c =
      schema.childNames c ++ if c = parent then [name] else [] := by
  have hids : (schema.withChild parent name).commandIds =
      schema.commandIds ++ [⟨schema.commands.length⟩] := by
    simp only [commandIds, withChild, List.length_append, List.length_singleton,
      List.range_succ, List.map_append, List.map_cons, List.map_nil]
  have hold : ∀ d ∈ schema.commandIds,
      (schema.withChild parent name).command d = schema.command d := fun d hd =>
    command_withChild_of_issued (mem_commandIds.mp hd)
  have hchildren : (schema.withChild parent name).children c =
      schema.children c ++ if c = parent then [⟨schema.commands.length⟩] else [] := by
    rw [children, hids, List.filter_append]
    congr 1
    · exact List.filter_congr fun d hd => by rw [hold d hd]
    · rw [List.filter_singleton, command_withChild_new, Command.parent, List.head?_cons]
      by_cases hc : c = parent
      · simp [hc]
      · simp [hc, Ne.symm hc]
  rw [childNames, hchildren, List.map_append]
  congr 1
  · refine List.map_congr_left fun d hd => ?_
    rw [command_withChild_of_issued (mem_children.mp hd).1]
  · split
    · rw [List.map_singleton, command_withChild_new]
    · rfl

theorem namesOf_without {p : ParameterId} :
    ((schema.without p).namesOf c).Sublist (schema.namesOf c) := by
  rw [namesOf, command_without, List.map_map]
  exact List.filter_sublist.map Parameter.names

theorem namesOf_withRelation {relation : Relation} {p q : ParameterId} :
    (schema.withRelation relation p q).namesOf c = schema.namesOf c := by
  rw [namesOf, command_withRelation, List.map_map, namesOf]
  refine List.map_congr_left fun parameter _ => ?_
  simp only [Function.comp_apply]
  split
  · cases relation <;> rfl
  · rfl

/-! ## Every edit keeps names apart -/

theorem distinct_bare (program : String) (c : CommandId) : (bare program).Distinct c := by
  have hnames : (bare program).namesOf c = [] := by
    obtain ⟨i⟩ := c
    cases i <;> rfl
  have hchildren : (bare program).childNames c = [] := rfl
  exact ⟨hnames ▸ .nil, hchildren ▸ .nil⟩

theorem Distinct.modifyCommand (h : schema.Distinct d) {f : Command → Command}
    (hname : ∀ command, (f command).name = command.name)
    (hancestors : ∀ command, (f command).ancestors = command.ancestors)
    (hparameters : ∀ command, (f command).parameters = command.parameters)
    (hlike : ((schema.modifyCommand c f).command d).settings.FoldsLike
      (schema.command d).settings) : (schema.modifyCommand c f).Distinct d := by
  refine h.of_sublist hlike ?_ ?_
  · rw [namesOf, proj_modifyCommand Command.parameters hparameters]
    exact List.Sublist.refl _
  · rw [childNames_modifyCommand hancestors hname]

theorem Distinct.withParameter (h : schema.Distinct d) {p : Parameter} (hc : schema.Issued c)
    (hclash : (schema.command c).clash? p.names (schema.command c).parameters = none) :
    (schema.withParameter c p).Distinct d := by
  have hchildren : (schema.withParameter c p).childNames d = schema.childNames d :=
    childNames_modifyCommand (fun _ => rfl) (fun _ => rfl)
  by_cases hdc : d = c
  · subst hdc
    have hapart : ∀ q ∈ (schema.command d).parameters,
        (schema.command d).settings.Apart p.names q.names := Command.clash?_eq_none.mp hclash
    refine ⟨?_, ?_⟩
    · rw [namesOf, command_withParameter_self hc]
      show (((schema.command d).parameters ++ [p]).map (·.names)).Pairwise _
      rw [List.map_append, List.map_singleton, List.pairwise_append]
      refine ⟨h.parameters, List.pairwise_singleton _ _, fun names hnames other hother => ?_⟩
      obtain ⟨q, hq, rfl⟩ := List.mem_map.mp hnames
      rw [List.mem_singleton.mp hother]
      exact (hapart q hq).symm
    · rw [hchildren, command_withParameter_self hc]
      exact h.children
  · refine h.of_sublist ?_ ?_ ?_
    · rw [command_withParameter_of_ne hdc]
      exact ⟨rfl, rfl⟩
    · rw [namesOf, command_withParameter_of_ne hdc]
      exact List.Sublist.refl _
    · rw [hchildren]

/-- No command stands under a number that was not given out. -/
theorem WellFormed.childNames_of_not_issued (h : schema.WellFormed) (hc : ¬schema.Issued c) :
    schema.childNames c = [] := by
  rw [childNames, List.map_eq_nil_iff, List.eq_nil_iff_forall_not_mem]
  intro d hd
  exact hc ((h.index_lt_of_mem_children hd).trans (mem_children.mp hd).1)

theorem Distinct.withChild (hwf : schema.WellFormed) (h : ∀ c, schema.Distinct c)
    {parent : CommandId} {name : String} (hparent : schema.Issued parent)
    (hnew : schema.child? parent name = none) : (schema.withChild parent name).Distinct d := by
  have hnames : (schema.withChild parent name).namesOf d = schema.namesOf d := by
    rw [namesOf, proj_withChild Command.parameters fun _ _ => rfl, namesOf]
  by_cases hd : schema.Issued d
  · have hcommand : (schema.withChild parent name).command d = schema.command d :=
      command_withChild_of_issued hd
    refine ⟨?_, ?_⟩
    · rw [hnames, hcommand]
      exact (h d).parameters
    · rw [hcommand, childNames_withChild]
      by_cases hdp : d = parent
      · subst hdp
        rw [if_pos rfl, List.map_append, List.nodup_append]
        refine ⟨(h d).children, List.nodup_singleton _, ?_⟩
        intro a ha b hb heq
        rw [List.map_singleton, List.mem_singleton] at hb
        obtain ⟨other, hother, rfl⟩ := List.mem_map.mp ha
        obtain ⟨child, hchild, rfl⟩ := List.mem_map.mp hother
        refine List.find?_eq_none.mp hnew child hchild ?_
        simp [Settings.sameName, heq, hb]
      · rw [if_neg hdp, List.append_nil]
        exact (h d).children
  · refine ⟨?_, ?_⟩
    · rw [hnames, namesOf, command_of_not_issued hd]
      exact .nil
    · have hdp : d ≠ parent := fun heq => hd (heq ▸ hparent)
      rw [childNames_withChild, hwf.childNames_of_not_issued hd, if_neg hdp]
      exact .nil

theorem distinct_edit (hwf : schema.WellFormed) (h : ∀ c, schema.Distinct c)
    (hedit : Edit schema grown) : ∀ c, grown.Distinct c := by
  intro d
  cases hedit with
  | parameter hc _ _ hclash => exact (h d).withParameter hc hclash
  | removal p =>
      refine (h d).of_sublist ?_ namesOf_without ?_
      · rw [command_without]
        exact ⟨rfl, rfl⟩
      · rw [childNames_congr (List.length_map _) (fun d => by rw [command_without])
          (fun d => by rw [command_without])]
  | relation relation =>
      refine (h d).of_sublist ?_ ?_ ?_
      · rw [command_withRelation]
        exact ⟨rfl, rfl⟩
      · rw [namesOf_withRelation]
      · rw [childNames_congr (List.length_map _) (fun d => by rw [command_withRelation])
          (fun d => by rw [command_withRelation])]
  | note hf =>
      refine (h d).modifyCommand hf.name hf.ancestors hf.parameters ?_
      rw [proj_modifyCommand Command.settings hf.settings]
      exact ⟨rfl, rfl⟩
  | @settings c f hfold _ =>
      by_cases hdc : d = c
      · subst hdc
        -- Settings that fold names in another way have been compared with all names.
        rcases hfold with hkeeps | hclash
        · refine (h d).modifyCommand (fun _ => rfl) (fun _ => rfl) (fun _ => rfl) ?_
          by_cases hd : schema.Issued d
          · rw [command_modifyCommand_self hd]
            exact hkeeps _
          · rw [command_of_not_issued hd, command_of_not_issued (mt issued_modifyCommand.mp hd)]
            exact ⟨rfl, rfl⟩
        · exact nameClash?_eq_none.mp hclash
      · refine (h d).modifyCommand (fun _ => rfl) (fun _ => rfl) (fun _ => rfl) ?_
        rw [command_modifyCommand_of_ne hdc]
        exact ⟨rfl, rfl⟩
  | help | noHelp =>
      refine (h d).modifyCommand (fun _ => rfl) (fun _ => rfl) (fun _ => rfl) ?_
      exact ⟨proj_modifyCommand (fun command => command.settings.ignoreCase) fun _ => rfl,
        proj_modifyCommand (fun command => command.settings.ignoreUnderscore) fun _ => rfl⟩
  | config => exact (h d).of_sublist ⟨rfl, rfl⟩ (List.Sublist.refl _) (List.Sublist.refl _)
  | child hparent _ hnew => exact Distinct.withChild hwf h hparent hnew

end Schema

/-! ## Looking names up -/

namespace Command

/-- The parameter has that name, as the command folds names. -/
def answers (command : Command) : NamePart → Parameter → Bool
  | .short name => fun p => p.names.shorts.any (command.settings.sameShort · name)
  | .long name => fun p => p.names.longs.any (command.settings.sameName · name)
  | .positional name => fun p => p.names.positional.any (command.settings.sameName · name)

/-- The parameter of that name. -/
def lookup? (command : Command) : NamePart → Option Parameter
  | .short name => command.short? name
  | .long name => command.long? name
  | .positional name => command.positional? name

theorem lookup?_eq_find? (command : Command) (name : NamePart) :
    command.lookup? name = command.parameters.find? (command.answers name) := by
  cases name <;> rfl

/-- Parameters whose names are apart do not answer to the same name. -/
theorem not_answers_of_apart {command : Command} {name : NamePart} {p q : Parameter}
    (h : command.settings.Apart p.names q.names) (hp : command.answers name p = true)
    (hq : command.answers name q = true) : False := by
  cases name with
  | short name =>
      obtain ⟨s, hs, hsame⟩ := List.any_eq_true.mp hp
      obtain ⟨t, ht, hsame'⟩ := List.any_eq_true.mp hq
      exact h.shorts s hs t ht ((eq_of_beq hsame).trans (eq_of_beq hsame').symm)
  | long name =>
      obtain ⟨s, hs, hsame⟩ := List.any_eq_true.mp hp
      obtain ⟨t, ht, hsame'⟩ := List.any_eq_true.mp hq
      exact h.longs s hs t ht ((eq_of_beq hsame).trans (eq_of_beq hsame').symm)
  | positional name =>
      obtain ⟨s, hs, hsame⟩ := (Option.any_eq_true _ _).mp hp
      obtain ⟨t, ht, hsame'⟩ := (Option.any_eq_true _ _).mp hq
      exact h.positional s hs t ht ((eq_of_beq hsame).trans (eq_of_beq hsame').symm)

/-- Where no two parameters answer to a name, whoever answers to it is found. -/
theorem lookup?_eq_some_iff {command : Command} {p : Parameter}
    (hunique : ∀ name, ∀ p ∈ command.parameters, ∀ q ∈ command.parameters,
      command.answers name p = true → command.answers name q = true → p = q) (name : NamePart) :
    command.lookup? name = some p ↔ p ∈ command.parameters ∧ command.answers name p = true := by
  rw [lookup?_eq_find?]
  constructor
  · exact fun h => ⟨List.mem_of_find?_eq_some h, List.find?_some h⟩
  · rintro ⟨hp, hanswers⟩
    exact find?_eq_some_of_unique hp hanswers fun q hq hq' => hunique name q hq p hp hq' hanswers

end Command

namespace Schema

variable {schema : Schema} {c : CommandId}

/-- The child has that name, as its parent folds names. -/
def childAnswers (schema : Schema) (c : CommandId) (name : String) (child : CommandId) : Bool :=
  (schema.command c).settings.sameName (schema.command child).name name

/-- A name means one thing in a command, whatever the order of declaration. -/
structure Unambiguous (schema : Schema) (c : CommandId) : Prop where
  parameters : ∀ p ∈ (schema.command c).parameters, ∀ q ∈ (schema.command c).parameters,
    p.id ≠ q.id → (schema.command c).settings.Apart p.names q.names
  children : ∀ d ∈ schema.children c, ∀ e ∈ schema.children c, d ≠ e →
    (schema.command c).settings.foldName (schema.command d).name ≠
      (schema.command c).settings.foldName (schema.command e).name
  answer : ∀ name, ∀ p ∈ (schema.command c).parameters, ∀ q ∈ (schema.command c).parameters,
    (schema.command c).answers name p = true → (schema.command c).answers name q = true → p = q
  lookup : ∀ name (order : List Parameter), order.Perm (schema.command c).parameters →
    { schema.command c with parameters := order }.lookup? name = (schema.command c).lookup? name
  childAnswer : ∀ name, ∀ d ∈ schema.children c, ∀ e ∈ schema.children c,
    schema.childAnswers c name d = true → schema.childAnswers c name e = true → d = e
  childLookup : ∀ name (order : List CommandId), order.Perm (schema.children c) →
    order.find? (schema.childAnswers c name) = schema.child? c name

theorem Distinct.parameters_apart (h : schema.Distinct c) :
    ∀ p ∈ (schema.command c).parameters, ∀ q ∈ (schema.command c).parameters,
      p.id ≠ q.id → (schema.command c).settings.Apart p.names q.names := by
  intro p hp q hq hne
  have hsymm : Std.Symm fun p q : Parameter =>
      (schema.command c).settings.Apart p.names q.names := ⟨fun _ _ => Settings.Apart.symm⟩
  have hpairwise := List.pairwise_map.mp h.parameters
  exact hpairwise.forall hp hq fun heq => hne (congrArg Parameter.id heq)

theorem Distinct.children_apart (h : schema.Distinct c) :
    ∀ d ∈ schema.children c, ∀ e ∈ schema.children c, d ≠ e →
      (schema.command c).settings.foldName (schema.command d).name ≠
        (schema.command c).settings.foldName (schema.command e).name := by
  intro d hd e he hne heq
  have hnodup := h.children
  rw [childNames, List.map_map] at hnodup
  exact hne (List.inj_on_of_nodup_map hnodup hd he heq)

theorem Distinct.answers_unique (h : schema.Distinct c) (hids : schema.NodupIds) (name : NamePart) :
    ∀ p ∈ (schema.command c).parameters, ∀ q ∈ (schema.command c).parameters,
      (schema.command c).answers name p = true → (schema.command c).answers name q = true →
      p = q := by
  intro p hp q hq hpname hqname
  by_cases hid : p.id = q.id
  · exact (hids.unique hp hq hid).2
  · exact (Command.not_answers_of_apart (h.parameters_apart p hp q hq hid) hpname hqname).elim

theorem Distinct.childAnswers_unique (h : schema.Distinct c) (name : String) :
    ∀ d ∈ schema.children c, ∀ e ∈ schema.children c, schema.childAnswers c name d = true →
      schema.childAnswers c name e = true → d = e := by
  intro d hd e he hdname hename
  by_contra hne
  exact h.children_apart d hd e he hne ((eq_of_beq hdname).trans (eq_of_beq hename).symm)

theorem Distinct.child?_eq_some (h : schema.Distinct c) {name : String} {d : CommandId} :
    schema.child? c name = some d ↔
      d ∈ schema.children c ∧ schema.childAnswers c name d = true := by
  constructor
  · intro hfound
    exact ⟨List.mem_of_find?_eq_some hfound,
      List.find?_some (p := schema.childAnswers c name) hfound⟩
  · rintro ⟨hd, hanswers⟩
    exact find?_eq_some_of_unique hd hanswers fun e he heanswers =>
      h.childAnswers_unique name e he d hd heanswers hanswers

end Schema

namespace Parser

variable {parser : Parser}

theorem Reachable.distinct (h : Reachable parser) (c : CommandId) : parser.schema.Distinct c := by
  have hboth : parser.schema.WellFormed ∧ ∀ c, parser.schema.Distinct c :=
    h.schema_induction (P := fun schema => schema.WellFormed ∧ ∀ c, schema.Distinct c)
      (fun program => ⟨Schema.wellFormed_bare program, Schema.distinct_bare program⟩)
      (fun _ _ h hedit => ⟨h.1.edit hedit, Schema.distinct_edit h.1 h.2 hedit⟩)
  exact hboth.2 c

/-- Whatever calls have been made, and whether they failed or not, each name means
one thing in each command under its present settings. -/
theorem Reachable.unambiguous (h : Reachable parser) (c : CommandId) :
    parser.schema.Unambiguous c := by
  have hdistinct := h.distinct c
  have hanswer := hdistinct.answers_unique h.wellFormed.nodup
  have hchildAnswer := hdistinct.childAnswers_unique
  refine ⟨hdistinct.parameters_apart, hdistinct.children_apart, hanswer, ?_, hchildAnswer, ?_⟩
  · intro name order hperm
    rw [Command.lookup?_eq_find?, Command.lookup?_eq_find?]
    refine (List.find?_eq_find?_of_perm hperm.symm ?_).symm
    intro p hp q hq
    exact hanswer name p hp.1 q hq.1 hp.2 hq.2
  · intro name order hperm
    refine (List.find?_eq_find?_of_perm hperm.symm ?_).symm
    intro d hd e he
    exact hchildAnswer name d hd.1 e he.1 hd.2 he.2

theorem unambiguous_mixedCalls :
    Reachable ((ofProgram "tool").afterAll mixedCalls) ∧
      ((ofProgram "tool").afterAll mixedCalls).schema.idsOf ⟨1⟩ = [⟨2⟩, ⟨5⟩] ∧
      ((ofProgram "tool").afterAll mixedCalls).schema.Unambiguous ⟨1⟩ :=
  ⟨reachable_mixedCalls, by decide +kernel, reachable_mixedCalls.unambiguous ⟨1⟩⟩

end Parser

end CommandLine
