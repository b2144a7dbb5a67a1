import CommandLine.Proofs.Conservation

/-!
# What a parse gathers

A parse first gathers values: from the command line, from the
configuration file and from the environment. `Gathers` says that it gets
past all three, and with what. A parse that does not has not touched any
variable and does not end well (`gathers_or_unfinished`); one that does
goes on to deliver what it has (`Gathers.parse_eq`).

The commands for which it gathers are those of the active path, each of
them once (`Schema.nodup_frames`), and only their parameters can have got
values from the command line (`Schema.within_settle`).
-/

namespace CommandLine

namespace Schema

variable {schema : Schema} {scan after : Scan} {text : String} {rest left tokens : List String}
  {c d : CommandId}

/-! ## The active path -/

theorem WellFormed.nodup_ancestors (h : schema.WellFormed) (hc : schema.Issued c) :
    (c :: (schema.command c).ancestors).Nodup := by
  have hchain : List.IsChain (fun d e : CommandId => e.index < d.index)
      (c :: (schema.command c).ancestors) :=
    (h.chain_ancestors hc).imp fun _ _ => h.index_lt_of_mem_children
  have htrans : IsTrans CommandId fun d e => e.index < d.index :=
    ⟨fun _ _ _ hab hbc => Nat.lt_trans hbc hab⟩
  refine (List.isChain_iff_pairwise.mp hchain).imp ?_
  rintro d e hlt rfl
  exact Nat.lt_irrefl _ hlt

theorem commands_frames (h : scan.Descends schema) :
    scan.frames.map (·.command) =
      scan.current.command :: (schema.command scan.current.command).ancestors := by
  rw [← h.2]
  rfl

theorem nodup_frames (hwf : schema.WellFormed) (h : scan.Descends schema) :
    (scan.frames.map (·.command)).Nodup := by
  rw [commands_frames h]
  exact hwf.nodup_ancestors h.1

theorem mem_path : c ∈ scan.path ↔ ∃ frame ∈ scan.frames, frame.command = c := by
  simp [Scan.path]

/-- The commands around an active one are active. -/
theorem ancestors_mem_path (hwf : schema.WellFormed) (h : scan.Descends schema)
    (hc : c ∈ scan.path) : ∀ d ∈ c :: (schema.command c).ancestors, d ∈ scan.path := by
  rw [Scan.path, List.mem_reverse, commands_frames h] at hc
  obtain ⟨inner, outer, hframes⟩ := List.append_of_mem hc
  intro d hd
  rw [hwf.ancestors_of_append h.1 hframes] at hd
  rw [Scan.path, List.mem_reverse, commands_frames h, hframes]
  exact List.mem_append_right inner hd

theorem root_mem_path (hwf : schema.WellFormed) (h : scan.Descends schema) :
    .root ∈ scan.path := by
  rw [Scan.path, List.mem_reverse, commands_frames h]
  exact hwf.root_mem h.1

/-! ## Only active commands have values -/

/-- The numbers of the parameters of some commands. -/
def idsOn (schema : Schema) (path : List CommandId) : List ParameterId := path.flatMap schema.idsOf

theorem mem_idsOn {path : List CommandId} {p : ParameterId} :
    p ∈ schema.idsOn path ↔ ∃ c ∈ path, p ∈ schema.idsOf c :=
  List.mem_flatMap

/-- Numbers of parameters on a path tell whose they are. -/
theorem mem_idsOn_iff (hids : schema.NodupIds) {path : List CommandId} {p : Parameter}
    (hp : p ∈ (schema.command c).parameters) : p.id ∈ schema.idsOn path ↔ c ∈ path := by
  rw [mem_idsOn]
  constructor
  · rintro ⟨d, hd, hmem⟩
    obtain ⟨q, hq, hid⟩ := mem_idsOf.mp hmem
    exact (hids.unique hq hp hid).1 ▸ hd
  · intro hc
    exact ⟨c, hc, List.mem_map_of_mem hp⟩

theorem mem_idsOn_of_meant? (h : scan.Descends schema) {name : Dashed} {p : Parameter}
    (hp : schema.meant? scan.current.command name = some p) : p.id ∈ schema.idsOn scan.path := by
  obtain ⟨d, hd, hmem⟩ := exists_of_meant? hp
  rw [← commands_frames h] at hd
  obtain ⟨frame, hframe, rfl⟩ := List.mem_map.mp hd
  exact mem_idsOn.mpr ⟨_, mem_path.mpr ⟨frame, hframe, rfl⟩, List.mem_map_of_mem hmem⟩

theorem within_path_move (hdescends : scan.Descends schema)
    (h : scan.bindings.Within (schema.idsOn scan.path))
    (hmove : Move schema scan text rest after left) :
    after.bindings.Within (schema.idsOn after.path) := by
  cases hmove with
  | mark | aside | stop | wait => exact h
  | flag _ hp | values _ hp => exact h.push (mem_idsOn_of_meant? hdescends hp) _
  | enter =>
      intro entry hentry
      obtain ⟨c, hc, hmem⟩ := mem_idsOn.mp (h entry hentry)
      obtain ⟨frame, hframe, rfl⟩ := mem_path.mp hc
      exact mem_idsOn.mpr ⟨_, mem_path.mpr ⟨frame, List.mem_cons_of_mem _ hframe, rfl⟩, hmem⟩

theorem path_place : (schema.place scan).path = scan.path := by
  rw [Scan.path, commands_place, Scan.path]

theorem within_path_place (h : scan.bindings.Within (schema.idsOn scan.path)) :
    (schema.place scan).bindings.Within (schema.idsOn (schema.place scan).path) := by
  rw [path_place]
  refine place_invariant (motive := fun b => b.Within (schema.idsOn scan.path))
    (fun frame hframe p hp b values hb => hb.pushEach ?_ values) h
  exact mem_idsOn.mpr ⟨_, mem_path.mpr ⟨frame, hframe, rfl⟩,
    List.mem_map_of_mem (List.mem_of_mem_filter hp)⟩

/-- The command line gives values to parameters of active commands only. -/
theorem within_read (hwf : schema.WellFormed) (tokens : List String) :
    (schema.read .start tokens).scan.Descends schema ∧
      (schema.read .start tokens).scan.bindings.Within
        (schema.idsOn (schema.read .start tokens).scan.path) := by
  have hmove : ∀ scan text rest after left,
      scan.Descends schema ∧ scan.bindings.Within (schema.idsOn scan.path) →
      Move schema scan text rest after left →
      after.Descends schema ∧ after.bindings.Within (schema.idsOn after.path) :=
    fun _ _ _ _ _ h hmove => ⟨descends_move hwf h.1 hmove, within_path_move h.1 h.2 hmove⟩
  have hstart : Scan.start.Descends schema ∧
      Scan.start.bindings.Within (schema.idsOn Scan.start.path) :=
    ⟨descends_start hwf, fun _ hentry => absurd hentry List.not_mem_nil⟩
  obtain ⟨-, hread, -⟩ := read_invariant (motive := fun scan _ => scan.Descends schema ∧
    scan.bindings.Within (schema.idsOn scan.path)) hmove hstart
  exact hread

theorem within_settle (hwf : schema.WellFormed) (tokens : List String) :
    (schema.settle tokens).Descends schema ∧
      (schema.settle tokens).bindings.Within (schema.idsOn (schema.settle tokens).path) :=
  (within_read hwf tokens).imp descends_place within_path_place

end Schema

namespace Bindings

variable {b : Bindings} {ids : List ParameterId} {p : ParameterId}

theorem Within.of_eq_nil (h : b.Within ids) (hp : p ∉ ids) : b.of p = [] := by
  rw [of, List.map_eq_nil_iff, List.filter_eq_nil_iff]
  intro entry hentry heq
  exact hp (of_decide_eq_true heq ▸ h entry hentry)

theorem invoked_eq_false : b.invoked p = false ↔ b.of p = [] := by
  simp [invoked]

end Bindings

namespace Parser

variable {parser : Parser} {world : World} {tokens : List String} {scan : Scan}

/-- The parse gets past the command line, the configuration file and the environment, and
`scan` is what they give. -/
structure Gathers (parser : Parser) (world : World) (tokens : List String) (scan : Scan) :
    Prop where
  reads : (parser.schema.read .start tokens).failure = none
  unasked : parser.schema.helpRequested? (parser.schema.read .start tokens).scan = none
  layered : ∃ b, parser.schema.layerConfig parser.format world.files
      (parser.schema.settle tokens).path (parser.schema.settle tokens).bindings = (b, .ok ()) ∧
    scan = { parser.schema.settle tokens with
      bindings := parser.schema.layerEnvironment world (parser.schema.settle tokens).path b }

/-- What the three layers give, up to the first item of the configuration file that is refused. -/
def gathered (parser : Parser) (world : World) (tokens : List String) : Scan :=
  let settled := parser.schema.settle tokens
  let (b, _) := parser.schema.layerConfig parser.format world.files settled.path settled.bindings
  { settled with bindings := parser.schema.layerEnvironment world settled.path b }

theorem gathers_gathered (hreads : (parser.schema.read .start tokens).failure = none)
    (hunasked : parser.schema.helpRequested? (parser.schema.read .start tokens).scan = none)
    (hlayered : (parser.schema.layerConfig parser.format world.files
      (parser.schema.settle tokens).path (parser.schema.settle tokens).bindings).2 = .ok ()) :
    parser.Gathers world tokens (parser.gathered world tokens) :=
  ⟨hreads, hunasked, _, Prod.ext rfl hlayered, rfl⟩

theorem Gathers.frames_eq (h : parser.Gathers world tokens scan) :
    scan.frames = (parser.schema.settle tokens).frames := by
  obtain ⟨b, -, rfl⟩ := h.layered
  rfl

theorem Gathers.path_eq (h : parser.Gathers world tokens scan) :
    scan.path = (parser.schema.settle tokens).path := by
  rw [Scan.path, h.frames_eq, Scan.path]

theorem Gathers.descends (h : parser.Gathers world tokens scan)
    (hwf : parser.schema.WellFormed) : scan.Descends parser.schema := by
  obtain ⟨b, -, rfl⟩ := h.layered
  exact (Schema.within_settle hwf tokens).1

theorem Gathers.nodup_frames (h : parser.Gathers world tokens scan)
    (hwf : parser.schema.WellFormed) : (scan.frames.map (·.command)).Nodup :=
  Schema.nodup_frames hwf (h.descends hwf)

/-! ## Where a parse can end -/

theorem parse_of_reads (hread : (parser.schema.read .start tokens).failure = none)
    (hhelp : parser.schema.helpRequested? (parser.schema.read .start tokens).scan = none) :
    parser.parse world tokens =
      ({ parser with scan := parser.schema.settle tokens } : Parser).layer world := by
  rw [parse, hhelp, hread]
  rfl

theorem layer_of_ok {b : Bindings}
    (h : parser.schema.layerConfig parser.format world.files parser.scan.path
      parser.scan.bindings = (b, .ok ())) :
    parser.layer world = ({ parser with scan := { parser.scan with
      bindings := parser.schema.layerEnvironment world parser.scan.path b } } : Parser).finish
        world := by
  rw [layer, h]

theorem layer_of_error {b : Bindings} {error : ParseError}
    (h : parser.schema.layerConfig parser.format world.files parser.scan.path
      parser.scan.bindings = (b, .error error)) :
    parser.layer world =
      ({ parser with scan := { parser.scan with bindings := b } } : Parser).fail error := by
  rw [layer, h]

/-- What has been gathered is delivered. -/
theorem Gathers.parse_eq (h : parser.Gathers world tokens scan) :
    parser.parse world tokens = ({ parser with scan } : Parser).finish world := by
  obtain ⟨b, hconfig, rfl⟩ := h.layered
  rw [parse_of_reads h.reads h.unasked]
  exact layer_of_ok hconfig

/-- The values that a parse finds, as far as it comes: all that it has before it delivers any. -/
def found (parser : Parser) (world : World) (tokens : List String) : Bindings :=
  let reading := parser.schema.read .start tokens
  if parser.schema.helpRequested? reading.scan = none ∧ reading.failure = none then
    let settled := parser.schema.settle tokens
    match parser.schema.layerConfig parser.format world.files settled.path settled.bindings with
    | (b, .ok _) => parser.schema.layerEnvironment world settled.path b
    | (b, .error _) => b
  else reading.scan.bindings

theorem Gathers.found_eq (h : parser.Gathers world tokens scan) :
    parser.found world tokens = scan.bindings := by
  obtain ⟨b, hconfig, rfl⟩ := h.layered
  simp only [found, h.reads, h.unasked, hconfig, and_self, if_true]

/-- A parse that does not come to the end of its layers ends with what it has found, and changes
nothing else. -/
theorem gathers_or_ends (parser : Parser) (world : World) (tokens : List String) :
    (∃ scan, parser.Gathers world tokens scan) ∨ ∃ scan result,
      parser.parse world tokens = ({ parser with scan }, { result }) ∧
        result ≠ .ok .complete ∧ scan.bindings = parser.found world tokens ∧
        scan.completed = (parser.schema.read .start tokens).scan.completed := by
  cases hhelp : parser.schema.helpRequested? (parser.schema.read .start tokens).scan with
  | some c => exact Or.inr ⟨_, _, by rw [parse, hhelp], by simp, by simp [found, hhelp], rfl⟩
  | none =>
      cases hread : (parser.schema.read .start tokens).failure with
      | some error =>
          refine Or.inr ⟨_, .error error, ?_, by simp, by simp [found, hread], rfl⟩
          rw [parse, hhelp, hread]
          rfl
      | none =>
          rcases hconfig : parser.schema.layerConfig parser.format world.files
            (parser.schema.settle tokens).path (parser.schema.settle tokens).bindings
            with ⟨b, error | ⟨⟨⟩⟩⟩
          · refine Or.inr ⟨{ parser.schema.settle tokens with bindings := b }, .error error, ?_,
              by simp, by simp [found, hhelp, hread, hconfig], rfl⟩
            rw [parse_of_reads hread hhelp, layer_of_error hconfig]
            rfl
          · exact Or.inl ⟨_, hread, hhelp, b, hconfig, rfl⟩

/-- In particular, it leaves the variables as they are. -/
theorem gathers_or_unfinished (parser : Parser) (world : World) (tokens : List String) :
    (∃ scan, parser.Gathers world tokens scan) ∨
      (parser.parse world tokens).1.vars = parser.vars ∧
        (parser.parse world tokens).2.result ≠ .ok .complete := by
  rcases parser.gathers_or_ends world tokens with hgathers | ⟨scan, result, hparse, hresult, -⟩
  · exact Or.inl hgathers
  · rw [hparse]
    exact Or.inr ⟨rfl, hresult⟩

theorem exists_gathers (hcomplete : (parser.parse world tokens).2.result = .ok .complete) :
    ∃ scan, parser.Gathers world tokens scan :=
  (parser.gathers_or_unfinished world tokens).resolve_right fun hunfinished =>
    hunfinished.2 hcomplete

end Parser

end CommandLine
