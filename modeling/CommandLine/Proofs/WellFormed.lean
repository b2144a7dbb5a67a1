import CommandLine.Proofs.Edit

/-!
# References within a schema

A schema refers to its parts by number: a command to its ancestors and
its help flag, a parameter to those it requires or excludes, and the
schema to the parameter that names the configuration file. `WellFormed`
says that all of these lead somewhere, and that numbers are told apart.
It holds of a bare program and every edit keeps it
(`WellFormed.edit`).

Most edits leave the references alone, and these are settled together by
`WellFormed.of_same`. The four that do not are the new parameter, the
removal, the relation and the new command.
-/

namespace CommandLine

namespace Schema

variable {schema grown : Schema} {c d : CommandId} {p q : ParameterId}

/-! ## Numbers after an edit -/

theorem parameters_modifyCommand {f : Command → Command}
    (hf : ∀ command, (f command).parameters = command.parameters) :
    (schema.modifyCommand c f).parameters = schema.parameters := by
  by_cases hc : c.index < schema.commands.length
  · obtain ⟨before, command, behind, heq, -, hmodify⟩ := List.exists_of_modify f hc
    simp only [parameters, modifyCommand, hmodify]
    rw [heq]
    simp only [List.flatMap_append, List.flatMap_cons, hf]
  · have hself : schema.commands.modify c.index f = schema.commands :=
      List.modify_eq_self (Nat.le_of_not_lt hc)
    simp only [parameters, modifyCommand, hself]

theorem ids_modifyCommand {f : Command → Command}
    (hf : ∀ command, (f command).parameters = command.parameters) :
    (schema.modifyCommand c f).ids = schema.ids := by
  rw [ids, parameters_modifyCommand hf, ids]

theorem ids_withParameter_perm {parameter : Parameter} (hc : schema.Issued c) :
    (schema.withParameter c parameter).ids.Perm (parameter.id :: schema.ids) := by
  obtain ⟨before, command, behind, heq, -, hmodify⟩ := List.exists_of_modify
    (fun command : Command => { command with parameters := command.parameters ++ [parameter] }) hc
  have hbefore : schema.parameters = before.flatMap (·.parameters) ++
      (command.parameters ++ behind.flatMap (·.parameters)) := by
    simp only [parameters, heq, List.flatMap_append, List.flatMap_cons]
  have hafter : (schema.withParameter c parameter).parameters = before.flatMap (·.parameters) ++
      (command.parameters ++ parameter :: behind.flatMap (·.parameters)) := by
    simp only [parameters, withParameter, modifyCommand, hmodify, List.flatMap_append,
      List.flatMap_cons, List.append_assoc, List.singleton_append]
  rw [ids, ids, hbefore, hafter, ← List.map_cons]
  refine List.Perm.map _ ?_
  rw [← List.append_assoc, ← List.append_assoc]
  exact List.perm_middle

theorem idsOf_withParameter_self {parameter : Parameter} (hc : schema.Issued c) :
    (schema.withParameter c parameter).idsOf c = schema.idsOf c ++ [parameter.id] := by
  rw [idsOf, command_withParameter_self hc]
  exact List.map_append

theorem idsOf_withParameter_of_ne {parameter : Parameter} (hdc : d ≠ c) :
    (schema.withParameter c parameter).idsOf d = schema.idsOf d := by
  rw [idsOf, command_withParameter_of_ne hdc, idsOf]

theorem mem_idsOf_withParameter {parameter : Parameter} (hc : schema.Issued c)
    (hp : p ∈ schema.idsOf d) : p ∈ (schema.withParameter c parameter).idsOf d := by
  by_cases hdc : d = c
  · subst hdc
    rw [idsOf_withParameter_self hc]
    exact List.mem_append_left _ hp
  · rwa [idsOf_withParameter_of_ne hdc]

theorem parameters_without :
    (schema.without p).parameters =
      (schema.parameters.filter (·.id ≠ p)).map (Parameter.forget p) := by
  simp only [parameters, without, List.flatMap_map, List.filter_flatMap, List.map_flatMap]

theorem ids_without : (schema.without p).ids = schema.ids.filter (· ≠ p) := by
  rw [ids, parameters_without, List.map_map, ids, List.filter_map]
  rfl

theorem idsOf_without : (schema.without p).idsOf c = (schema.idsOf c).filter (· ≠ p) := by
  rw [idsOf, command_without, List.map_map, idsOf, List.filter_map]
  rfl

theorem mem_idsOf_without : q ∈ (schema.without p).idsOf c ↔ q ∈ schema.idsOf c ∧ q ≠ p := by
  rw [idsOf_without, List.mem_filter, decide_eq_true_eq]

theorem id_relate (relation : Relation) (parameter : Parameter) :
    (parameter.relate relation q).id = parameter.id := by
  cases relation <;> rfl

theorem ids_withRelation (relation : Relation) :
    (schema.withRelation relation p q).ids = schema.ids := by
  simp only [ids, parameters, withRelation, List.flatMap_map, List.map_flatMap, List.map_map]
  congr 1
  funext command
  refine List.map_congr_left fun parameter _ => ?_
  simp only [Function.comp_apply]
  split
  · rw [id_relate]
  · rfl

theorem idsOf_withRelation (relation : Relation) :
    (schema.withRelation relation p q).idsOf c = schema.idsOf c := by
  rw [idsOf, command_withRelation, List.map_map, idsOf]
  refine List.map_congr_left fun parameter _ => ?_
  simp only [Function.comp_apply]
  split
  · rw [id_relate]
  · rfl

theorem ids_withChild {parent : CommandId} {name : String} :
    (schema.withChild parent name).ids = schema.ids := by
  simp only [ids, parameters, withChild, List.flatMap_append, List.flatMap_cons, List.flatMap_nil,
    List.append_nil]

/-! ## Well-formed schemas -/

/-- All references of a schema lead somewhere. -/
structure WellFormed (schema : Schema) : Prop where
  root : schema.Issued .root
  root_ancestors : (schema.command .root).ancestors = []
  ancestors : ∀ c, schema.Issued c → c ≠ .root → ∃ parent : CommandId, parent.index < c.index ∧
    (schema.command c).ancestors = parent :: (schema.command parent).ancestors
  nodup : schema.NodupIds
  fresh : ∀ p ∈ schema.ids, p.number < schema.nextParameter
  help : ∀ c p, (schema.command c).help = some p →
    ∃ flag ∈ (schema.command c).parameters, flag.id = p ∧ flag.nargs.isFlag = true
  config : ∀ source, schema.config = some source → source.parameter ∈ schema.idsOf .root
  related : ∀ c, ∀ p ∈ (schema.command c).parameters, ∀ relation,
    (p.related relation).Nodup ∧ ∀ q ∈ p.related relation,
      q ≠ p.id ∧ ∃ d ∈ c :: (schema.command c).ancestors, q ∈ schema.idsOf d

theorem wellFormed_bare (program : String) : (bare program).WellFormed where
  root := issued_bare program
  root_ancestors := rfl
  ancestors := by
    intro c hc hroot
    have hzero : c.index = 0 := Nat.lt_one_iff.mp hc
    exact absurd (by cases c; cases hzero; rfl) hroot
  nodup := List.nodup_nil
  fresh := by
    intro p hp
    exact absurd hp List.not_mem_nil
  help := by
    intro c p hp
    obtain ⟨i⟩ := c
    cases i <;> cases hp
  config := by
    intro source hsource
    cases hsource
  related := by
    intro c p hp
    obtain ⟨i⟩ := c
    cases i <;> exact absurd hp List.not_mem_nil

namespace WellFormed

/-- A schema with the same commands, parameters and numbers is well-formed if its
help flags and its configuration file are. -/
theorem of_same (h : schema.WellFormed) (hissued : ∀ d, grown.Issued d ↔ schema.Issued d)
    (hancestors : ∀ d, (grown.command d).ancestors = (schema.command d).ancestors)
    (hparameters : ∀ d, (grown.command d).parameters = (schema.command d).parameters)
    (hids : grown.ids = schema.ids) (hnext : grown.nextParameter = schema.nextParameter)
    (hhelp : ∀ c p, (grown.command c).help = some p →
      ∃ flag ∈ (schema.command c).parameters, flag.id = p ∧ flag.nargs.isFlag = true)
    (hconfig : ∀ source, grown.config = some source → source.parameter ∈ schema.idsOf .root) :
    grown.WellFormed := by
  have hidsOf : ∀ d, grown.idsOf d = schema.idsOf d := fun d => by
    rw [idsOf, hparameters, idsOf]
  refine ⟨(hissued _).mpr h.root, ?_, ?_, ?_, ?_, ?_, ?_, ?_⟩
  · rw [hancestors]
    exact h.root_ancestors
  · intro c hc hroot
    obtain ⟨parent, hlt, heq⟩ := h.ancestors c ((hissued c).mp hc) hroot
    exact ⟨parent, hlt, by rw [hancestors, hancestors, heq]⟩
  · rw [NodupIds, hids]
    exact h.nodup
  · rw [hids, hnext]
    exact h.fresh
  · intro c p hp
    rw [hparameters]
    exact hhelp c p hp
  · intro source hsource
    rw [hidsOf]
    exact hconfig source hsource
  · intro c p hp relation
    rw [hparameters] at hp
    obtain ⟨hnodup, hall⟩ := h.related c p hp relation
    refine ⟨hnodup, fun q hq => ?_⟩
    obtain ⟨hne, d, hd, hqd⟩ := hall q hq
    exact ⟨hne, d, by rwa [hancestors], by rwa [hidsOf]⟩

/-- Changes of a command that keep its parameters and its help flag. -/
theorem modifyCommand (h : schema.WellFormed) {f : Command → Command}
    (hancestors : ∀ command, (f command).ancestors = command.ancestors)
    (hparameters : ∀ command, (f command).parameters = command.parameters)
    (hhelp : ∀ command, (f command).help = command.help) :
    (schema.modifyCommand c f).WellFormed := by
  refine h.of_same (fun d => issued_modifyCommand)
    (fun d => proj_modifyCommand Command.ancestors hancestors)
    (fun d => proj_modifyCommand Command.parameters hparameters)
    (ids_modifyCommand hparameters) rfl ?_ h.config
  intro d p hp
  rw [proj_modifyCommand Command.help hhelp] at hp
  exact h.help d p hp

theorem withHelp (h : schema.WellFormed) {flag : Parameter} {declaration : String}
    (hflag : flag ∈ (schema.command c).parameters) (hnargs : flag.nargs.isFlag = true) :
    (schema.withHelp c flag.id declaration).WellFormed := by
  have hc := issued_of_mem_parameters hflag
  refine h.of_same (fun d => issued_modifyCommand)
    (fun d => proj_modifyCommand Command.ancestors fun _ => rfl)
    (fun d => proj_modifyCommand Command.parameters fun _ => rfl)
    (ids_modifyCommand fun _ => rfl) rfl ?_ h.config
  intro d p hp
  by_cases hdc : d = c
  · subst hdc
    rw [Schema.withHelp, command_modifyCommand_self hc] at hp
    cases hp
    exact ⟨flag, hflag, rfl, hnargs⟩
  · rw [Schema.withHelp, command_modifyCommand_of_ne hdc] at hp
    exact h.help d p hp

theorem withParameter (h : schema.WellFormed) {parameter : Parameter} (hc : schema.Issued c)
    (hid : parameter.id = ⟨schema.nextParameter⟩)
    (hrelated : ∀ relation, parameter.related relation = []) :
    (schema.withParameter c parameter).WellFormed := by
  have hperm : (schema.withParameter c parameter).ids.Perm (parameter.id :: schema.ids) :=
    ids_withParameter_perm hc
  have hancestors : ∀ d, ((schema.withParameter c parameter).command d).ancestors =
      (schema.command d).ancestors := fun d =>
    proj_modifyCommand Command.ancestors fun _ => rfl
  -- Only `c` gets another parameter, and that one has no relations yet.
  have hmem : ∀ d, ∀ p ∈ ((schema.withParameter c parameter).command d).parameters,
      p ∈ (schema.command d).parameters ∨ p = parameter := by
    intro d p hp
    by_cases hdc : d = c
    · subst hdc
      rw [command_withParameter_self hc, List.mem_append, List.mem_singleton] at hp
      exact hp
    · rw [command_withParameter_of_ne hdc] at hp
      exact Or.inl hp
  refine ⟨issued_withParameter.mpr h.root, ?_, ?_, ?_, ?_, ?_, ?_, ?_⟩
  · rw [hancestors]
    exact h.root_ancestors
  · intro d hd hroot
    obtain ⟨parent, hlt, heq⟩ := h.ancestors d (issued_withParameter.mp hd) hroot
    exact ⟨parent, hlt, by rw [hancestors, hancestors, heq]⟩
  · rw [NodupIds, hperm.nodup_iff, List.nodup_cons]
    refine ⟨fun hold => ?_, h.nodup⟩
    have hlt := h.fresh _ hold
    rw [hid] at hlt
    exact Nat.lt_irrefl _ hlt
  · intro p hp
    show p.number < schema.nextParameter + 1
    rcases List.mem_cons.mp (hperm.mem_iff.mp hp) with rfl | hold
    · rw [hid]
      exact Nat.lt_succ_self _
    · exact Nat.lt_succ_of_lt (h.fresh p hold)
  · intro d p hp
    rw [show ((schema.withParameter c parameter).command d).help = (schema.command d).help from
      proj_modifyCommand Command.help fun _ => rfl] at hp
    obtain ⟨flag, hflag, heq, hnargs⟩ := h.help d p hp
    refine ⟨flag, ?_, heq, hnargs⟩
    by_cases hdc : d = c
    · subst hdc
      rw [command_withParameter_self hc]
      exact List.mem_append_left _ hflag
    · rwa [command_withParameter_of_ne hdc]
  · intro source hsource
    exact mem_idsOf_withParameter hc (h.config source hsource)
  · intro d p hp relation
    rcases hmem d p hp with hold | rfl
    · obtain ⟨hnodup, hall⟩ := h.related d p hold relation
      refine ⟨hnodup, fun q hq => ?_⟩
      obtain ⟨hne, e, he, hqe⟩ := hall q hq
      exact ⟨hne, e, by rwa [hancestors], mem_idsOf_withParameter hc hqe⟩
    · rw [hrelated]
      exact ⟨List.nodup_nil, fun q hq => absurd hq List.not_mem_nil⟩

theorem without (h : schema.WellFormed) (p : ParameterId) : (schema.without p).WellFormed := by
  have hancestors : ∀ d, ((schema.without p).command d).ancestors =
      (schema.command d).ancestors := fun d => by rw [command_without]
  refine ⟨issued_without.mpr h.root, ?_, ?_, ?_, ?_, ?_, ?_, ?_⟩
  · rw [hancestors]
    exact h.root_ancestors
  · intro d hd hroot
    obtain ⟨parent, hlt, heq⟩ := h.ancestors d (issued_without.mp hd) hroot
    exact ⟨parent, hlt, by rw [hancestors, hancestors, heq]⟩
  · rw [NodupIds, ids_without]
    exact List.Nodup.filter _ h.nodup
  · intro r hr
    rw [ids_without, List.mem_filter] at hr
    exact h.fresh r hr.1
  · intro d r hr
    rw [command_without] at hr ⊢
    obtain ⟨hhelp, hne⟩ := Option.filter_eq_some_iff.mp hr
    obtain ⟨flag, hflag, rfl, hnargs⟩ := h.help d r hhelp
    refine ⟨flag.forget p, List.mem_map_of_mem ?_, rfl, hnargs⟩
    exact List.mem_filter.mpr ⟨hflag, hne⟩
  · intro source hsource
    obtain ⟨hconfig, hne⟩ := Option.filter_eq_some_iff.mp hsource
    exact mem_idsOf_without.mpr ⟨h.config source hconfig, of_decide_eq_true hne⟩
  · intro d r hr relation
    rw [command_without] at hr
    obtain ⟨old, hold, rfl⟩ := List.mem_map.mp hr
    obtain ⟨hnodup, hall⟩ := h.related d old (List.mem_of_mem_filter hold) relation
    have hforget : (old.forget p).related relation = (old.related relation).filter (· ≠ p) := by
      cases relation <;> rfl
    rw [hforget]
    refine ⟨hnodup.filter _, fun q hq => ?_⟩
    obtain ⟨hq, hqp⟩ := List.mem_filter.mp hq
    obtain ⟨hne, e, he, hqe⟩ := hall q hq
    exact ⟨hne, e, by rwa [hancestors], mem_idsOf_without.mpr ⟨hqe, of_decide_eq_true hqp⟩⟩

theorem withRelation (h : schema.WellFormed) (relation : Relation) {dependent : Parameter}
    (hp : schema.parameter? p = some dependent) (hsees : schema.sees p q = true) (hne : p ≠ q)
    (hnew : q ∉ dependent.related relation) : (schema.withRelation relation p q).WellFormed := by
  have hancestors : ∀ d, ((schema.withRelation relation p q).command d).ancestors =
      (schema.command d).ancestors := fun d => by rw [command_withRelation]
  obtain ⟨rfl, c, hc⟩ := exists_of_parameter? hp
  obtain ⟨c', e, hpc, hqe, he⟩ := exists_of_sees hsees
  obtain ⟨other, hother, hid⟩ := mem_idsOf.mp hpc
  obtain ⟨rfl, rfl⟩ := h.nodup.unique hother hc hid
  refine ⟨issued_withRelation.mpr h.root, ?_, ?_, ?_, ?_, ?_, ?_, ?_⟩
  · rw [hancestors]
    exact h.root_ancestors
  · intro d hd hroot
    obtain ⟨parent, hlt, heq⟩ := h.ancestors d (issued_withRelation.mp hd) hroot
    exact ⟨parent, hlt, by rw [hancestors, hancestors, heq]⟩
  · rw [NodupIds, ids_withRelation]
    exact h.nodup
  · rw [ids_withRelation]
    exact h.fresh
  · intro d r hr
    rw [command_withRelation] at hr ⊢
    obtain ⟨flag, hflag, heq, hnargs⟩ := h.help d r hr
    refine ⟨_, List.mem_map_of_mem hflag, ?_⟩
    split
    · cases relation <;> exact ⟨heq, hnargs⟩
    · exact ⟨heq, hnargs⟩
  · intro source hsource
    rw [idsOf_withRelation]
    exact h.config source hsource
  · intro d r hr kind
    rw [command_withRelation] at hr
    obtain ⟨old, hold, rfl⟩ := List.mem_map.mp hr
    obtain ⟨hnodup, hall⟩ := h.related d old hold kind
    have hold' : ∀ r ∈ old.related kind, r ≠ old.id ∧
        ∃ f ∈ d :: ((schema.withRelation relation other.id q).command d).ancestors,
          r ∈ (schema.withRelation relation other.id q).idsOf f := by
      intro r hr
      obtain ⟨hr, f, hf, hrf⟩ := hall r hr
      exact ⟨hr, f, by rwa [hancestors], by rwa [idsOf_withRelation]⟩
    split
    · next hsame =>
        obtain ⟨rfl, rfl⟩ := h.nodup.unique hold hc hsame
        rw [id_relate]
        by_cases hkind : kind = relation
        · subst hkind
          have happend : (old.relate kind q).related kind = old.related kind ++ [q] := by
            cases kind <;> rfl
          rw [happend]
          refine ⟨List.nodup_append.mpr ⟨hnodup, List.nodup_singleton q, ?_⟩, fun r hr => ?_⟩
          · intro a ha b hb heq
            rw [List.mem_singleton.mp hb] at heq
            exact hnew (heq ▸ ha)
          · rcases List.mem_append.mp hr with hr | hr
            · exact hold' r hr
            · rw [List.mem_singleton.mp hr]
              exact ⟨hne.symm, e, by rwa [hancestors], by rwa [idsOf_withRelation]⟩
        · have hother : (old.relate relation q).related kind = old.related kind := by
            cases kind <;> cases relation <;> first | rfl | exact absurd rfl hkind
          rw [hother]
          exact ⟨hnodup, hold'⟩
    · exact ⟨hnodup, hold'⟩

theorem withChild (h : schema.WellFormed) {parent : CommandId} {name : String}
    (hparent : schema.Issued parent) : (schema.withChild parent name).WellFormed := by
  have hparameters : ∀ d, ((schema.withChild parent name).command d).parameters =
      (schema.command d).parameters := fun d =>
    proj_withChild Command.parameters fun _ _ => rfl
  have hidsOf : ∀ d, (schema.withChild parent name).idsOf d = schema.idsOf d := fun d => by
    rw [idsOf, hparameters, idsOf]
  refine ⟨issued_withChild.mpr (Or.inl h.root), ?_, ?_, ?_, ?_, ?_, ?_, ?_⟩
  · rw [command_withChild_of_issued h.root]
    exact h.root_ancestors
  · intro d hd hroot
    rcases issued_withChild.mp hd with hold | rfl
    · obtain ⟨above, hlt, heq⟩ := h.ancestors d hold hroot
      refine ⟨above, hlt, ?_⟩
      rw [command_withChild_of_issued hold, command_withChild_of_issued (hlt.trans hold), heq]
    · refine ⟨parent, hparent, ?_⟩
      rw [command_withChild_new, command_withChild_of_issued hparent]
  · rw [NodupIds, ids_withChild]
    exact h.nodup
  · rw [ids_withChild]
    exact h.fresh
  · intro d p hp
    rw [proj_withChild Command.help fun _ _ => rfl] at hp
    rw [hparameters]
    exact h.help d p hp
  · intro source hsource
    rw [hidsOf]
    exact h.config source hsource
  · intro d p hp relation
    rw [hparameters] at hp
    have hd := issued_of_mem_parameters hp
    obtain ⟨hnodup, hall⟩ := h.related d p hp relation
    refine ⟨hnodup, fun q hq => ?_⟩
    obtain ⟨hne, e, he, hqe⟩ := hall q hq
    exact ⟨hne, e, by rwa [command_withChild_of_issued hd], by rwa [hidsOf]⟩

theorem edit (h : schema.WellFormed) (hedit : Edit schema grown) : grown.WellFormed := by
  cases hedit with
  | parameter hc hid hrelated => exact h.withParameter hc hid hrelated
  | removal p => exact h.without p
  | relation relation hp hsees hne hnew => exact h.withRelation relation hp hsees hne hnew
  | note hf => exact h.modifyCommand hf.ancestors hf.parameters hf.help
  | settings | noHelp => exact h.modifyCommand (fun _ => rfl) (fun _ => rfl) (fun _ => rfl)
  | help hp hflag => exact h.withHelp hp hflag
  | config hp =>
      refine h.of_same (fun d => Iff.rfl) (fun d => rfl) (fun d => rfl) rfl rfl h.help ?_
      intro source hsource
      cases hsource
      exact hp
  | child hparent => exact h.withChild hparent

end WellFormed

end Schema

end CommandLine
