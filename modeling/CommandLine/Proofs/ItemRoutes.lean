import CommandLine.Proofs.DeclaredNames
import CommandLine.Proofs.Items

/-!
# Where the items of a parser lead

The item that is written for a parameter names the sub-commands on the way
to its command, and leads there again (`routeFrom_trail`). It names the
parameter without dashes: by a long name, else by the positional one, else
by a short one. Read without dashes, though, a name is a positional one
first, then a long one, and last a short one. So the item leads to the
parameter unless another one of the command comes before it
(`Command.Outranked`), and then it leads to that one
(`Reachable.item_routes_back_iff`).

No declared name starts with a dash, so that what is written is read as a
name without dashes.
-/

namespace CommandLine

namespace Names

variable {names : Names}

/-- The name on an item is one of the parameter's, and a short one only if there is no other. -/
theorem exists_configName (h : names.parts ≠ []) :
    ∃ part ∈ names.parts, part.text = Parser.configName names ∧
      ∀ c, part = .short c → names.longs = [] ∧ names.positional = none := by
  obtain ⟨shorts, longs, positional⟩ := names
  cases longs with
  | cons name longs => exact ⟨.long name, by simp [parts], rfl, fun c hc => by cases hc⟩
  | nil =>
      cases positional with
      | some name => exact ⟨.positional name, by simp [parts], rfl, fun c hc => by cases hc⟩
      | none =>
          cases shorts with
          | cons c shorts => exact ⟨.short c, by simp [parts], rfl, fun _ _ => ⟨rfl, rfl⟩⟩
          | nil => exact absurd rfl h

end Names

/-! ## Names without dashes -/

namespace Command

variable {command : Command} {p : Parameter} {name : String}

theorem named?_of_undashed (h : name.toList.head? ≠ some '-') :
    command.named? name =
      (command.positional? name <|> command.long? name <|> command.shortText? name.toList) := by
  unfold named?
  split
  · next hlist => simp [hlist] at h
  · next hlist => simp [hlist] at h
  · rfl

/-- The parameter is written by a name that another one answers to before it does: as a positional
name, or as a long one where the parameter is written by a short one. -/
def Outranked (command : Command) (p : Parameter) : Prop :=
  ∃ q ∈ command.parameters, q ≠ p ∧
    (command.answers (.positional (Parser.configName p.names)) q = true ∨
      (p.names.longs = [] ∧ p.names.positional = none) ∧
        command.answers (.long (Parser.configName p.names)) q = true)

theorem answers_of_mem_parts {part : NamePart} (h : part ∈ p.names.parts) :
    command.answers part p = true := by
  have hname : ∀ name, command.settings.sameName name name = true := fun _ => beq_self_eq_true _
  have hshort : ∀ c, command.settings.sameShort c c = true := fun _ => beq_self_eq_true _
  cases part with
  | short c => exact List.any_eq_true.mpr ⟨c, by simpa [Names.parts] using h, hshort c⟩
  | long name => exact List.any_eq_true.mpr ⟨name, by simpa [Names.parts] using h, hname name⟩
  | positional name =>
      have hpositional : p.names.positional = some name := by simpa [Names.parts] using h
      exact (Option.any_eq_true _ _).mpr ⟨name, hpositional, hname name⟩

section Unique

variable (hunique : ∀ name, ∀ p ∈ command.parameters, ∀ q ∈ command.parameters,
  command.answers name p = true → command.answers name q = true → p = q)
include hunique

/-- The name on the item of a parameter that is outranked finds another parameter. -/
theorem exists_named?_of_outranked {name : String} (hname : Parser.configName p.names = name)
    (hundashed : name.toList.head? ≠ some '-') (h : command.Outranked p) :
    ∃ q ∈ command.parameters, q ≠ p ∧ command.named? name = some q := by
  rw [named?_of_undashed hundashed]
  obtain ⟨q, hq, hne, hbefore⟩ := h
  rw [hname] at hbefore
  rcases hbefore with hpositional | ⟨⟨-, hnone⟩, hlong⟩
  · have hfound : command.positional? name = some q :=
      (lookup?_eq_some_iff hunique (.positional name)).mpr ⟨hq, hpositional⟩
    exact ⟨q, hq, hne, by rw [hfound]; rfl⟩
  · cases hfirst : command.positional? name with
    | some r =>
        obtain ⟨hr, hanswers⟩ :=
          (lookup?_eq_some_iff hunique (.positional name)).mp hfirst
        refine ⟨r, hr, ?_, rfl⟩
        rintro rfl
        simp [answers, hnone] at hanswers
    | none =>
        have hfound : command.long? name = some q :=
          (lookup?_eq_some_iff hunique (.long name)).mpr ⟨hq, hlong⟩
        exact ⟨q, hq, hne, by rw [hfound]; rfl⟩

/-- The name on the item of any other parameter finds that parameter. -/
theorem named?_of_not_outranked {name : String} (hname : Parser.configName p.names = name)
    (hundashed : name.toList.head? ≠ some '-') (hp : p ∈ command.parameters)
    (hnamed : p.names.parts ≠ []) (h : ¬command.Outranked p) :
    command.named? name = some p := by
  rw [named?_of_undashed hundashed]
  obtain ⟨part, hpart, htext, hshort⟩ := Names.exists_configName hnamed
  rw [hname] at htext
  have hanswers : command.answers part p = true := answers_of_mem_parts hpart
  have hfound : command.lookup? part = some p :=
    (lookup?_eq_some_iff hunique part).mpr ⟨hp, hanswers⟩
  cases hfirst : command.positional? name with
  | some q =>
      obtain ⟨hq, hbefore⟩ :=
        (lookup?_eq_some_iff hunique (.positional name)).mp hfirst
      have hqp : q = p := by_contra fun hne => h ⟨q, hq, hne, Or.inl (hname ▸ hbefore)⟩
      rw [hqp]
      rfl
  | none =>
      cases part with
      | positional written =>
          rw [← htext, NamePart.text] at hfirst
          cases hfirst.symm.trans hfound
      | long written =>
          rw [← htext, NamePart.text, show command.long? written = some p from hfound]
          rfl
      | short c =>
          cases hsecond : command.long? name with
          | some q =>
              obtain ⟨hq, hbefore⟩ :=
                (lookup?_eq_some_iff hunique (.long name)).mp hsecond
              have hqp : q = p := by_contra fun hne =>
                h ⟨q, hq, hne, Or.inr ⟨hshort c rfl, hname ▸ hbefore⟩⟩
              rw [hqp]
              rfl
          | none =>
              rw [← htext, NamePart.text, String.toList_singleton]
              exact hfound

end Unique

end Command

/-! ## The way to a command -/

namespace Schema

variable {schema : Schema} {path : List CommandId} {c d : CommandId}

theorem child?_of_mem_children (h : schema.Distinct c) (hd : d ∈ schema.children c) :
    schema.child? c (schema.command d).name = some d :=
  h.child?_eq_some.mpr ⟨hd, beq_self_eq_true _⟩

/-- The names on the way to an active command lead there. -/
theorem routeFrom_trail (hwf : schema.WellFormed) (hdistinct : ∀ c, schema.Distinct c)
    {c : CommandId} (hc : schema.Issued c)
    (hpath : ∀ d ∈ c :: (schema.command c).ancestors, d ∈ path) (name : String)
    (below : List String) :
    schema.routeFrom path name .root ((schema.trail c).drop 1 ++ below) =
      schema.routeFrom path name c below := by
  by_cases hroot : c = .root
  · subst hroot
    rw [trail, hwf.root_ancestors]
    rfl
  · obtain ⟨parent, hlt, hancestors⟩ := hwf.ancestors c hc hroot
    have hchild : c ∈ schema.children parent :=
      mem_children.mpr ⟨hc, by rw [Command.parent, hancestors]; rfl⟩
    have htrail : (schema.trail c).drop 1 =
        (schema.trail parent).drop 1 ++ [(schema.command c).name] := by
      have hne : schema.trail parent ≠ [] := by simp [trail]
      have hlast : schema.trail c = schema.trail parent ++ [(schema.command c).name] := by
        rw [trail, hancestors, List.reverse_cons, List.map_append]
        rfl
      rw [hlast, List.drop_append_of_le_length (List.length_pos_iff.mpr hne)]
    rw [hancestors] at hpath
    obtain ⟨hmem, hpath⟩ := List.forall_mem_cons.mp hpath
    rw [htrail, List.append_assoc, routeFrom_trail hwf hdistinct (hlt.trans hc) hpath,
      List.singleton_append, routeFrom, child?_of_mem_children (hdistinct parent) hchild]
    dsimp only
    rw [if_pos (List.contains_iff_mem.mpr hmem)]
termination_by c.index

end Schema

namespace Parser

variable {parser : Parser} {c : CommandId} {p : Parameter} {item : ConfigItem}

/-- Whatever the last parse was, the item that is written for a parameter of an active command leads
to its command, and there to the parameter or to one that outranks it. Where none does, the item
gives the parameter its values, to which no others have been given. -/
theorem Reachable.item_routes_back_iff (h : Reachable parser) (hc : c ∈ parser.scan.path)
    (hp : p ∈ (parser.schema.command c).parameters)
    (hitem : parser.configItem? ((parser.schema.trail c).drop 1) p = some item) :
    item ∈ parser.configItems ∧
      ∃ q ∈ (parser.schema.command c).parameters,
        parser.schema.route parser.scan.path item = .parameter q ∧
        (q = p ↔ ¬(parser.schema.command c).Outranked p) ∧
        (q = p → ∀ b, parser.schema.addItem parser.scan.path {} item b =
          .ok (b.push p.id item.inputs)) := by
  have hwf := h.wellFormed
  have hdeclared := h.declared c p hp
  have hunique := (h.distinct c).answers_unique hwf.nodup
  obtain ⟨⟨hconfigurable, -⟩, heq⟩ := configItem?_eq_some.mp hitem
  obtain ⟨part, hpart, htext, -⟩ := Names.exists_configName hdeclared.named
  have hundashed := htext ▸ hdeclared.undashed part hpart
  have hway : ∀ q, (parser.schema.command c).named? (configName p.names) = some q →
      parser.schema.route parser.scan.path item = .parameter q := by
    intro q hfound
    have htrail := Schema.routeFrom_trail hwf h.distinct (Schema.issued_of_mem_parameters hp)
      (Schema.ancestors_mem_path hwf h.descends hc) item.name []
    rw [List.append_nil, heq] at htrail
    rw [Schema.route, heq, htrail, Schema.routeFrom, hfound]
  refine ⟨List.mem_flatMap.mpr ⟨c, hc, List.mem_filterMap.mpr ⟨p, hp, hitem⟩⟩, ?_⟩
  by_cases hranks : (parser.schema.command c).Outranked p
  · obtain ⟨q, hq, hne, hfound⟩ :=
      Command.exists_named?_of_outranked hunique rfl hundashed hranks
    exact ⟨q, hq, hway q hfound, iff_of_false hne (not_not.mpr hranks), fun hqp => absurd hqp hne⟩
  · have hfound :=
      Command.named?_of_not_outranked hunique rfl hundashed hp hdeclared.named hranks
    refine ⟨p, hp, hway p hfound, iff_of_true rfl hranks, fun _ b => ?_⟩
    have hsingle : p.nargs.isFlag = true → item.inputs.length = 1 := by
      intro hflag
      rw [heq, hflag, if_pos rfl]
      rfl
    exact Schema.addItem_eq_ok.mpr
      (Or.inr (Or.inr ⟨p, hway p hfound, hconfigurable, Or.inr ⟨rfl, hsingle, rfl⟩⟩))

/-- The flag is written by its long name, although `f` is the name of a positional parameter. -/
def routedCalls : List Call :=
  [.addSubcommand .root "run", .add ⟨1⟩ { names := "f", binding := .values .any },
    .add ⟨1⟩ { names := "-f,--force", binding := .values (.exactly 0) },
    .parse {} ["run", "-f", "x"]]

theorem item_routes_back_force :
    let parser := (ofProgram "tool").afterAll routedCalls
    let item : ConfigItem := { parents := ["run"], name := "force", inputs := ["true"] }
    ∃ p ∈ (parser.schema.command ⟨1⟩).parameters,
      parser.schema.route parser.scan.path item = .parameter p ∧ item ∈ parser.configItems ∧
        parser.schema.addItem parser.scan.path {} item {} = .ok ⟨[(p.id, ["true"])]⟩ := by
  intro parser item
  have hreachable : Reachable parser := (reachable_ofProgram "tool").afterAll (by decide +kernel)
  let p := (parser.schema.command ⟨1⟩).parameters.get ⟨2, by decide +kernel⟩
  have hp : p ∈ (parser.schema.command ⟨1⟩).parameters := List.get_mem _ _
  have hitem : parser.configItem? ((parser.schema.trail ⟨1⟩).drop 1) p = some item := by
    decide +kernel
  have hfree : ∀ q ∈ (parser.schema.command ⟨1⟩).parameters,
      (parser.schema.command ⟨1⟩).answers (.positional (configName p.names)) q = false := by
    decide +kernel
  have hlong : p.names.longs ≠ [] := by decide +kernel
  have hranks : ¬(parser.schema.command ⟨1⟩).Outranked p := by
    rintro ⟨q, hq, -, hbefore | ⟨⟨hnil, -⟩, -⟩⟩
    · rw [hfree q hq] at hbefore
      cases hbefore
    · exact hlong hnil
  obtain ⟨hwritten, q, -, hroute, hback, hadds⟩ :=
    hreachable.item_routes_back_iff (by decide +kernel) hp hitem
  obtain rfl := hback.mpr hranks
  exact ⟨_, hp, hroute, hwritten, hadds rfl {}⟩

/-- The long name is written without its dashes, and then it is the positional one. -/
def levelCalls : List Call :=
  [.add .root { names := "--level", binding := .values (.exactly 1) },
    .add .root { names := "level", binding := .values (.exactly 1) }]

/-- The item that is written for `--level` leads to the other parameter. -/
theorem long_name_outranked :
    let parser := (ofProgram "tool").afterAll levelCalls
    let after := (parser.parse {} ["--level", "3"]).1
    (parser.parse {} ["--level", "3"]).2.result = .ok .complete ∧
      after.scan.bindings.of ⟨1⟩ = [["3"]] ∧ after.scan.bindings.of ⟨2⟩ = [] ∧
      after.configItems = [{ name := "level", inputs := ["3"] }] ∧
      ∀ item ∈ after.configItems, after.schema.leadsTo after.scan.path ⟨1⟩ item = false ∧
        after.schema.leadsTo after.scan.path ⟨2⟩ item = true := by
  decide +kernel

end Parser

end CommandLine
