import CommandLine.Proofs.Items

/-!
# Which layer a value comes from

The command line comes before the configuration file, and that before
the environment: when a parse has gathered its values, each parameter
has them from exactly one of the three, or has none
(`Reachable.one_layer`). A layer that comes later only adds to
parameters that are still open, and each layer adds for active commands
only. So a command that was not entered has no values at all, and
whatever is said about it in a configuration file has no effect.
-/

namespace CommandLine

/-! ## The environment -/

def Parameter.fromEnvironment (world : World) (p : Parameter) : List (List String) :=
  match p.variable? world with
  | some value => [[value]]
  | none => []

namespace Bindings

variable {b : Bindings} {p : Parameter}

theorem of_addVariable (world : World) (b : Bindings) (q : Parameter) (p : ParameterId) :
    (b.addVariable world q).of p =
      if q.id = p ∧ b.of p = [] then q.fromEnvironment world else b.of p := by
  unfold addVariable Parameter.fromEnvironment
  by_cases hq : q.id = p
  · subst hq
    cases hinvoked : b.invoked q.id with
    | true =>
        have hne : b.of q.id ≠ [] := by simpa [invoked] using hinvoked
        simp [hne]
    | false =>
        have hnil := invoked_eq_false.mp hinvoked
        cases q.variable? world <;> simp [hnil]
  · simp only [hq, false_and, if_false]
    split
    · rfl
    · split
      · rw [of_push_of_ne _ _ hq]
      · rfl

/-- A parameter that is open takes the value of its variable, and only then. -/
theorem of_foldl_addVariable (world : World) {ps : List Parameter}
    (huniq : ∀ q ∈ ps, q.id = p.id → q = p) :
    (ps.foldl (addVariable world) b).of p.id =
      if p.id ∈ ps.map (·.id) ∧ b.of p.id = [] then p.fromEnvironment world else b.of p.id := by
  induction ps generalizing b with
  | nil => simp
  | cons q ps ih =>
      obtain ⟨hq, hps⟩ := List.forall_mem_cons.mp huniq
      rw [List.foldl_cons, ih hps, of_addVariable]
      by_cases hqp : q.id = p.id
      · -- Once it has its value the parameter is not open any more, should it come again.
        rw [hq hqp]
        by_cases hnil : b.of p.id = []
        · simp +contextual [hnil]
        · simp [hnil]
      · simp [hqp, Ne.symm hqp]

end Bindings

namespace Parser

variable {parser : Parser} {world : World} {tokens : List String} {scan : Scan}
  {c : CommandId} {p : Parameter} {invocations : List (List String)}

/-- Where the values of a parameter come from. -/
inductive Layer where
  | commandLine
  | configuration
  | environment
  | nowhere
  deriving DecidableEq, Repr

/-- What the configuration file of a parse says about a parameter. -/
def fileInputs (parser : Parser) (world : World) (tokens : List String) (p : ParameterId) :
    List (List String) :=
  let given := parser.schema.settle tokens
  parser.schema.inputsFor given.path
    (parser.schema.fileItems parser.format world.files given.bindings) p

/-- The layer is the first that has values for the parameter `p` of the command `c`, and the
invocations are those values. -/
def Supplies (parser : Parser) (world : World) (tokens : List String) (c : CommandId)
    (p : Parameter) (invocations : List (List String)) : Layer → Prop
  | .commandLine =>
    (parser.schema.settle tokens).bindings.invoked p.id = true ∧
      invocations = (parser.schema.settle tokens).bindings.of p.id
  | .configuration =>
    (parser.schema.settle tokens).bindings.invoked p.id = false ∧
      parser.fileInputs world tokens p.id ≠ [] ∧
      invocations = parser.fileInputs world tokens p.id
  | .environment =>
    (parser.schema.settle tokens).bindings.invoked p.id = false ∧
      parser.fileInputs world tokens p.id = [] ∧
      c ∈ (parser.schema.settle tokens).path ∧
      ∃ value, p.variable? world = some value ∧ invocations = [[value]]
  | .nowhere =>
    (parser.schema.settle tokens).bindings.invoked p.id = false ∧
      parser.fileInputs world tokens p.id = [] ∧
      (c ∈ (parser.schema.settle tokens).path → p.variable? world = none) ∧
      invocations = []

theorem Supplies.unique {layer other : Layer}
    (h : parser.Supplies world tokens c p invocations layer)
    (hother : parser.Supplies world tokens c p invocations other) : layer = other := by
  cases layer <;> cases other <;> simp_all [Supplies]

theorem Gathers.of_eq (h : parser.Gathers world tokens scan) (hids : parser.schema.NodupIds)
    (hp : p ∈ (parser.schema.command c).parameters) {filed : List (List String)}
    (hfiled : filed = (parser.schema.settle tokens).bindings.of p.id ++
      if (parser.schema.settle tokens).bindings.invoked p.id then []
      else parser.fileInputs world tokens p.id) :
    scan.bindings.of p.id =
      if c ∈ (parser.schema.settle tokens).path ∧ filed = [] then p.fromEnvironment world
      else filed := by
  obtain ⟨b, hconfig, rfl⟩ := h.layered
  have hb : b.of p.id = filed := by
    rw [hfiled, Schema.of_layerConfig hconfig]
    rfl
  have huniq : ∀ q ∈ (parser.schema.settle tokens).path.flatMap fun c =>
      (parser.schema.command c).parameters, q.id = p.id → q = p := by
    intro q hq hid
    obtain ⟨d, -, hmem⟩ := List.mem_flatMap.mp hq
    exact (hids.unique hmem hp hid).2
  have hmem : p.id ∈ ((parser.schema.settle tokens).path.flatMap fun c =>
      (parser.schema.command c).parameters).map (·.id) ↔
        c ∈ (parser.schema.settle tokens).path := by
    rw [List.map_flatMap]
    exact Schema.mem_idsOn_iff hids hp
  show (parser.schema.layerEnvironment world _ b).of p.id = _
  rw [Schema.layerEnvironment, Bindings.of_foldl_addVariable world huniq]
  simp only [hmem, hb]

theorem Gathers.supplied (h : parser.Gathers world tokens scan) (hids : parser.schema.NodupIds)
    (hp : p ∈ (parser.schema.command c).parameters) :
    ∃ layer, parser.Supplies world tokens c p (scan.bindings.of p.id) layer := by
  have hof := h.of_eq hids hp rfl
  cases hinvoked : (parser.schema.settle tokens).bindings.invoked p.id with
  | true =>
      have hne : (parser.schema.settle tokens).bindings.of p.id ≠ [] := by
        simpa [Bindings.invoked] using hinvoked
      refine ⟨.commandLine, hinvoked, ?_⟩
      simpa [hinvoked, hne] using hof
  | false =>
      have hnil := Bindings.invoked_eq_false.mp hinvoked
      simp only [hinvoked, hnil, List.nil_append, Bool.false_eq_true, if_false] at hof
      by_cases hfile : parser.fileInputs world tokens p.id = []
      · by_cases hc : c ∈ (parser.schema.settle tokens).path
        · cases hvariable : p.variable? world with
          | some value =>
              refine ⟨.environment, hinvoked, hfile, hc, value, hvariable, ?_⟩
              simpa [hc, hfile, Parameter.fromEnvironment, hvariable] using hof
          | none =>
              refine ⟨.nowhere, hinvoked, hfile, fun _ => hvariable, ?_⟩
              simpa [hc, hfile, Parameter.fromEnvironment, hvariable] using hof
        · refine ⟨.nowhere, hinvoked, hfile, fun hpath => absurd hpath hc, ?_⟩
          simpa [hc, hfile] using hof
      · refine ⟨.configuration, hinvoked, hfile, ?_⟩
        simpa [hfile] using hof

theorem root_mem_path (hwf : parser.schema.WellFormed) (tokens : List String) :
    .root ∈ (parser.schema.settle tokens).path :=
  Schema.root_mem_path hwf (Schema.within_settle hwf tokens).1

theorem supplies_nowhere (hwf : parser.schema.WellFormed)
    (hp : p ∈ (parser.schema.command c).parameters)
    (hc : c ∉ (parser.schema.settle tokens).path) {layer : Layer}
    (h : parser.Supplies world tokens c p invocations layer) : layer = .nowhere := by
  have hoff : p.id ∉ parser.schema.idsOn (parser.schema.settle tokens).path := fun hmem =>
    hc ((Schema.mem_idsOn_iff hwf.nodup hp).mp hmem)
  cases layer with
  | commandLine =>
      have hnil := (Schema.within_settle hwf tokens).2.of_eq_nil hoff
      rw [Supplies, Bindings.invoked, hnil] at h
      cases h.1
  | configuration =>
      exact absurd (Schema.inputsFor_of_inactive (root_mem_path hwf tokens) hoff) h.2.1
  | environment => exact absurd h.2.2.1 hc
  | nowhere => rfl

theorem Gathers.mem_path_of_invoked (h : parser.Gathers world tokens scan)
    (hwf : parser.schema.WellFormed) (hp : p ∈ (parser.schema.command c).parameters)
    (hinvoked : scan.bindings.invoked p.id = true) : c ∈ scan.path := by
  by_contra hc
  obtain ⟨layer, hlayer⟩ := h.supplied hwf.nodup hp
  have hnowhere := supplies_nowhere hwf hp (h.path_eq ▸ hc) hlayer
  rw [hnowhere] at hlayer
  rw [Bindings.invoked, hlayer.2.2.2] at hinvoked
  cases hinvoked

theorem finish_format (parser : Parser) (world : World) (format : ConfigFormat) :
    ({ parser with format } : Parser).finish world =
      ({ (parser.finish world).1 with format }, (parser.finish world).2) := by
  unfold finish
  dsimp only
  split <;> rfl

theorem layer_format (parser : Parser) {format : ConfigFormat}
    (h : parser.schema.layerConfig format world.files parser.scan.path =
      parser.schema.layerConfig parser.format world.files parser.scan.path) :
    ({ parser with format } : Parser).layer world =
      ({ (parser.layer world).1 with format }, (parser.layer world).2) := by
  unfold layer
  dsimp only
  rw [h]
  generalize parser.schema.layerConfig parser.format world.files parser.scan.path
    parser.scan.bindings = outcome
  obtain ⟨b, error | ⟨⟨⟩⟩⟩ := outcome
  · rfl
  · exact finish_format { parser with scan := { parser.scan with
      bindings := parser.schema.layerEnvironment world parser.scan.path b } } world format

/-- Formats that put the same values into the layer give the same parse. -/
theorem parse_format {format : ConfigFormat}
    (h : parser.schema.layerConfig format world.files (parser.schema.settle tokens).path =
      parser.schema.layerConfig parser.format world.files (parser.schema.settle tokens).path) :
    ({ parser with format } : Parser).parse world tokens =
      ({ (parser.parse world tokens).1 with format }, (parser.parse world tokens).2) := by
  cases hhelp : parser.schema.helpRequested? (parser.schema.read .start tokens).scan with
  | some c => simp only [parse, hhelp]
  | none =>
      cases hread : (parser.schema.read .start tokens).failure with
      | some error => simp only [parse, hhelp, hread, fail]
      | none =>
          have hother : ({ parser with format } : Parser).parse world tokens =
              ({ parser with format, scan := parser.schema.settle tokens } : Parser).layer world :=
            parse_of_reads hread hhelp
          rw [parse_of_reads hread hhelp, hother]
          exact layer_format { parser with scan := parser.schema.settle tokens } h

/-- Each parameter has its values from one layer, the first that has any: the command line, then
the items of the configuration file that lead to it, then its environment variable. A command
off the active path has none, and items that are addressed to it change nothing about the
parse. -/
theorem Reachable.one_layer (h : Reachable parser) (world : World) (tokens : List String) :
    (∀ scan, parser.Gathers world tokens scan →
      ∀ c, ∀ p ∈ (parser.schema.command c).parameters,
        (∃! layer, parser.Supplies world tokens c p (scan.bindings.of p.id) layer) ∧
        (c ∉ scan.path →
          parser.Supplies world tokens c p (scan.bindings.of p.id) .nowhere)) ∧
    ∀ format, parser.schema.DropsStrays (parser.schema.settle tokens).path parser.format format →
      ({ parser with format } : Parser).parse world tokens =
        ({ (parser.parse world tokens).1 with format }, (parser.parse world tokens).2) := by
  have hwf := h.wellFormed
  refine ⟨fun scan hgathers c p hp => ?_, fun format hdrops => ?_⟩
  · obtain ⟨layer, hlayer⟩ := hgathers.supplied hwf.nodup hp
    refine ⟨⟨layer, hlayer, fun other hother => hother.unique hlayer⟩, fun hc => ?_⟩
    rw [hgathers.path_eq] at hc
    exact supplies_nowhere hwf hp hc hlayer ▸ hlayer
  · exact parse_format (hdrops.layerConfig_eq (root_mem_path hwf tokens) world.files)

/-- A parser with values in all layers. The command `stop` is not entered. -/
def layeredCalls : List Call :=
  [.replaceConfig "--config" (some "conf") false,
    .add .root { names := "--level", binding := .values (.exactly 1), env := some "LEVEL" },
    .add .root { names := "--tag", binding := .values .any },
    .add .root { names := "--user", binding := .values (.exactly 1), env := some "USER" },
    .addSubcommand .root "run", .addSubcommand .root "stop",
    .add ⟨2⟩ { names := "--force", binding := .values (.exactly 0), env := some "FORCE" }]

def layeredWorld : World where
  files := ({} : FileStore).writeFile "conf"
    "level = 2\ntag = a b\ntag = c\n[stop]\nforce\n[stop.now]\nsoon = 1\n".toUTF8
  environment := [("LEVEL", "3"), ("USER", "me"), ("FORCE", "on")]

/-- The format without the sections for `stop` and for what is below it. -/
def formatWithoutStop : ConfigFormat where
  read text := (Ini.format.read text).filter (·.parents.head? ≠ some "stop")
  write := Ini.format.write

/-- The level is taken from the command line, the tags from the file, and the user from the
environment. Nothing is said about `stop`. -/
theorem one_layer_layered :
    ∃ scan, ((ofProgram "tool").afterAll layeredCalls).Gathers layeredWorld
        ["--level", "1", "run"] scan ∧
      (scan.bindings.of ⟨2⟩ = [["1"]] ∧ scan.bindings.of ⟨3⟩ = [["a", "b"], ["c"]] ∧
        scan.bindings.of ⟨4⟩ = [["me"]]) ∧
      (∀ p ∈ (((ofProgram "tool").afterAll layeredCalls).schema.command .root).parameters,
        ∃! layer, ((ofProgram "tool").afterAll layeredCalls).Supplies layeredWorld
          ["--level", "1", "run"] .root p (scan.bindings.of p.id) layer) ∧
      (∀ p ∈ (((ofProgram "tool").afterAll layeredCalls).schema.command ⟨2⟩).parameters,
        ((ofProgram "tool").afterAll layeredCalls).Supplies layeredWorld ["--level", "1", "run"]
          ⟨2⟩ p (scan.bindings.of p.id) .nowhere) ∧
      (({ (ofProgram "tool").afterAll layeredCalls with format := formatWithoutStop } :
        Parser).parse layeredWorld ["--level", "1", "run"]).2 =
          (((ofProgram "tool").afterAll layeredCalls).parse layeredWorld
            ["--level", "1", "run"]).2 := by
  have hreachable : Reachable ((ofProgram "tool").afterAll layeredCalls) :=
    (reachable_ofProgram "tool").afterAll (by decide +kernel)
  have hgathers : ((ofProgram "tool").afterAll layeredCalls).Gathers layeredWorld
      ["--level", "1", "run"] _ :=
    gathers_gathered (by decide +kernel) (by decide +kernel) (by decide +kernel)
  obtain ⟨hlayer, hdropped⟩ := hreachable.one_layer layeredWorld ["--level", "1", "run"]
  refine ⟨_, hgathers, by decide +kernel, fun p hp => (hlayer _ hgathers _ p hp).1, fun p hp =>
    (hlayer _ hgathers _ p hp).2 (by decide +kernel), ?_⟩
  have hdrops : ((ofProgram "tool").afterAll layeredCalls).schema.DropsStrays
      (((ofProgram "tool").afterAll layeredCalls).schema.settle ["--level", "1", "run"]).path
      ((ofProgram "tool").afterAll layeredCalls).format formatWithoutStop := by
    refine fun text => ⟨_, rfl, fun item _ hitem => ?_⟩
    have hhead : item.parents.head? = some "stop" := by simpa using hitem
    obtain ⟨below, hparents⟩ := List.head?_eq_some_iff.mp hhead
    exact ⟨["stop"], below, ⟨2⟩, hparents, by decide +kernel, by decide +kernel⟩
  rw [hdropped _ hdrops]

end Parser

end CommandLine
