import CommandLine.Proofs.HelpFirst
import CommandLine.Proofs.References
import CommandLine.Proofs.Writing

/-!
# Completion is all or nothing

The last stage of a parse delivers the commands of the active path, the
innermost first, and then completes them, the root first: a command reports
what it was told to and is marked. Here this is done act by act
(`Closing.Act`, `Schema.close`), and the parser does the same all at once
(`Parser.finish_eq_close`).

A command is completed only where delivering went well for all of them, so at
its turn the commands above it have been completed, in their order, and
there is nothing left to be written (`Parser.Completing`). A parse that
ends in any other way completes no command, whatever an earlier one has
done (`Reachable.completion_all_or_nothing`).
-/

namespace CommandLine

/-- What the last stage of a parse has done. -/
structure Closing where
  delivery : Delivery
  /-- The commands that have been completed. -/
  marked : List CommandId := []
  /-- What they have reported. -/
  reported : List String := []

/-- One act of the last stage. -/
inductive Closing.Act where
  | deliver (frame : Frame)
  | complete (c : CommandId)

/-- The acts of the last stage, in their order. -/
def Scan.acts (scan : Scan) : List Closing.Act :=
  scan.frames.map .deliver ++ scan.path.map .complete

/-- Before a command is completed, all commands are delivered and those above it completed. -/
theorem Closing.acts_eq_append {frames : List Frame} {path : List CommandId}
    {done rest : List Closing.Act} {c : CommandId}
    (h : frames.map .deliver ++ path.map .complete = done ++ .complete c :: rest) :
    ∃ above below, path = above ++ c :: below ∧
      done = frames.map .deliver ++ above.map .complete := by
  induction frames generalizing done with
  | nil =>
      obtain ⟨above, behind, hpath, rfl, hbehind⟩ := List.map_eq_append_iff.mp h
      obtain ⟨d, below, rfl, hd, -⟩ := List.map_eq_cons_iff.mp hbehind
      cases hd
      exact ⟨above, below, hpath, rfl⟩
  | cons frame frames ih =>
      cases done with
      | nil => cases h
      | cons act done =>
          obtain ⟨rfl, hrest⟩ := List.cons_eq_cons.mp h
          obtain ⟨above, below, hpath, rfl⟩ := ih hrest
          exact ⟨above, below, hpath, rfl⟩

namespace Schema

variable {schema : Schema} {files : FileStore} {scan : Scan} {c : CommandId}

def perform (schema : Schema) (files : FileStore) (scan : Scan) :
    Closing.Act → Attempt Closing ParseError
  | .deliver frame => fun s =>
    let (delivery, outcome) := schema.deliverIn files scan frame s.delivery
    ({ s with delivery }, outcome)
  | .complete c => fun s =>
    ({ s with
        marked := s.marked ++ [c]
        reported := s.reported ++ (schema.command c).onComplete.toList }, .ok ())

/-- The last stage of a parse, act by act. -/
def close (schema : Schema) (files : FileStore) (scan : Scan) : Attempt Closing ParseError :=
  Attempt.each (schema.perform files scan) scan.acts

/-- What the commands report when they are completed. -/
def reports (schema : Schema) (path : List CommandId) : List String :=
  path.filterMap fun c => (schema.command c).onComplete

/-- Delivering completes nothing. -/
theorem each_deliver (frames : List Frame) (s : Closing) :
    Attempt.each (schema.perform files scan) (frames.map .deliver) s =
      ({ s with delivery := (Attempt.each (schema.deliverIn files scan) frames s.delivery).1 },
        (Attempt.each (schema.deliverIn files scan) frames s.delivery).2) := by
  induction frames generalizing s with
  | nil => rfl
  | cons frame frames ih =>
      rw [List.map_cons, Attempt.each, Attempt.each, Attempt.andThen, Attempt.andThen, perform]
      dsimp only
      rcases schema.deliverIn files scan frame s.delivery with ⟨d, error | ⟨⟨⟩⟩⟩
      · rfl
      · exact ih _

/-- Completing writes nothing and cannot fail. -/
theorem each_complete (path : List CommandId) (s : Closing) :
    Attempt.each (schema.perform files scan) (path.map .complete) s =
      ({ s with
          marked := s.marked ++ path
          reported := s.reported ++ schema.reports path }, .ok ()) := by
  induction path generalizing s with
  | nil => simp [Attempt.each, reports]
  | cons c path ih =>
      have hreports : schema.reports (c :: path) =
          (schema.command c).onComplete.toList ++ schema.reports path := by
        rw [reports, List.filterMap_cons]
        cases (schema.command c).onComplete <;> rfl
      rw [List.map_cons, Attempt.each, Attempt.andThen, perform]
      dsimp only
      rw [ih, hreports, List.append_assoc, List.append_assoc, List.singleton_append]

/-- Where delivering goes well, any part of the path can be completed after it. -/
theorem each_perform (hnodup : (scan.frames.map (·.command)).Nodup) (path : List CommandId)
    {d e : Delivery} (h : schema.deliver files scan d = (e, .ok ())) :
    Attempt.each (schema.perform files scan) (scan.frames.map .deliver ++ path.map .complete)
        { delivery := d } =
      ({ delivery := e, marked := path, reported := schema.reports path }, .ok ()) := by
  rw [Schema.deliver_eq_each hnodup] at h
  rw [Attempt.each_append, Attempt.andThen, each_deliver, h]
  exact each_complete path _

theorem close_of_ok (hnodup : (scan.frames.map (·.command)).Nodup) {d e : Delivery}
    (h : schema.deliver files scan d = (e, .ok ())) :
    schema.close files scan { delivery := d } =
      ({ delivery := e, marked := scan.path, reported := schema.reports scan.path }, .ok ()) :=
  each_perform hnodup scan.path h

/-- Where it does not, nothing is completed. -/
theorem close_of_fails (hnodup : (scan.frames.map (·.command)).Nodup) {d e : Delivery}
    {error : ParseError} (h : schema.deliver files scan d = (e, .error error)) :
    schema.close files scan { delivery := d } = ({ delivery := e }, .error error) := by
  rw [Schema.deliver_eq_each hnodup] at h
  rw [close, Scan.acts, Attempt.each_append, Attempt.andThen, each_deliver, h]

end Schema

/-! ## The active path -/

/-- The path leads from the root down to one command, and to no command twice. -/
structure Schema.LeadsDown (schema : Schema) (path : List CommandId) : Prop where
  root : path.head? = some .root
  children : path.IsChain fun c d => d ∈ schema.children c
  nodup : path.Nodup

theorem Scan.Descends.leadsDown {schema : Schema} {scan : Scan} (h : scan.Descends schema)
    (hwf : schema.WellFormed) : schema.LeadsDown scan.path where
  root := by
    obtain ⟨below, above, hpath⟩ := List.append_of_mem (hwf.root_mem h.1)
    have habove : above = [] := by
      rw [← hwf.ancestors_of_append h.1 hpath, hwf.root_ancestors]
    rw [Scan.path, Schema.commands_frames h, hpath, habove, List.reverse_append]
    rfl
  children := h.chain_path hwf
  nodup := List.nodup_reverse.mpr (Schema.nodup_frames hwf h)

/-! ## The parse -/

namespace Parser

variable {parser after : Parser} {report : Report} {world : World} {tokens : List String}
  {scan : Scan}

/-- The parser does at once what its last stage does act by act. -/
theorem finish_eq_close (hnodup : (parser.scan.frames.map (·.command)).Nodup)
    (hopen : parser.scan.completed = false) :
    let (closing, outcome) := parser.schema.close world.files parser.scan
      { delivery := ⟨parser.scan.bindings, parser.vars⟩ }
    (parser.finish world).2 = ⟨outcome.map fun _ => .complete, closing.reported⟩ ∧
      (parser.finish world).1.vars = closing.delivery.vars ∧
      (parser.finish world).1.scan.bindings = closing.delivery.bindings ∧
      ∀ c, (parser.finish world).1.isParsed c = closing.marked.contains c := by
  rcases hdeliver : parser.schema.deliver world.files parser.scan
    ⟨parser.scan.bindings, parser.vars⟩ with ⟨e, error | ⟨⟨⟩⟩⟩
  · rw [Schema.close_of_fails hnodup hdeliver, finish, hdeliver]
    refine ⟨rfl, rfl, rfl, fun c => ?_⟩
    show (parser.scan.completed && _) = _
    rw [hopen]
    rfl
  · rw [Schema.close_of_ok hnodup hdeliver, finish, hdeliver]
    exact ⟨rfl, rfl, rfl, fun c => Bool.true_and _⟩

theorem Gathers.not_completed (h : parser.Gathers world tokens scan) : scan.completed = false := by
  obtain ⟨b, -, rfl⟩ := h.layered
  exact Schema.not_completed_read parser.schema tokens

theorem Gathers.parse_eq_close (h : parser.Gathers world tokens scan)
    (hwf : parser.schema.WellFormed) :
    let (closing, outcome) := parser.schema.close world.files scan
      { delivery := ⟨scan.bindings, parser.vars⟩ }
    (parser.parse world tokens).2 = ⟨outcome.map fun _ => .complete, closing.reported⟩ ∧
      (parser.parse world tokens).1.vars = closing.delivery.vars ∧
      (parser.parse world tokens).1.scan.bindings = closing.delivery.bindings ∧
      ∀ c, (parser.parse world tokens).1.isParsed c = closing.marked.contains c := by
  rw [h.parse_eq]
  exact @finish_eq_close { parser with scan } world (h.nodup_frames hwf) h.not_completed

/-- A parse that does not end well has completed nothing. -/
theorem completes_nothing (hwf : parser.schema.WellFormed)
    (hresult : (parser.parse world tokens).2.result ≠ .ok .complete) :
    (parser.parse world tokens).2.completed = [] ∧
      ∀ c, (parser.parse world tokens).1.isParsed c = false := by
  rcases parser.gathers_or_ends world tokens with
    ⟨scan, hgathers⟩ | ⟨scan, result, hparse, -, -, hopen⟩
  · have hnodup := hgathers.nodup_frames hwf
    have hclose := hgathers.parse_eq_close hwf
    rcases hdeliver : parser.schema.deliver world.files scan ⟨scan.bindings, parser.vars⟩ with
      ⟨e, error | ⟨⟨⟩⟩⟩
    · rw [Schema.close_of_fails hnodup hdeliver] at hclose
      obtain ⟨hreport, -, -, hmarked⟩ := hclose
      exact ⟨by rw [hreport], hmarked⟩
    · rw [Schema.close_of_ok hnodup hdeliver] at hclose
      rw [hclose.1] at hresult
      exact absurd rfl hresult
  · rw [Schema.not_completed_read] at hopen
    rw [hparse]
    refine ⟨rfl, fun c => ?_⟩
    rw [isParsed, Scan.isParsed, hopen, Bool.false_and]

theorem Gathers.deliver_eq (h : parser.Gathers world tokens scan)
    (hcomplete : (parser.parse world tokens).2.result = .ok .complete) :
    parser.schema.deliver world.files scan ⟨scan.bindings, parser.vars⟩ =
      (⟨(parser.parse world tokens).1.scan.bindings, (parser.parse world tokens).1.vars⟩,
        .ok ()) := by
  rw [h.parse_eq] at hcomplete ⊢
  obtain ⟨e, hdeliver⟩ := Attempt.ok_iff.mp (finish_complete.mp hcomplete)
  rw [vars_finish, bindings_finish, hdeliver]

/-- A complete parse has completed the commands of the active path. -/
theorem Gathers.completes (h : parser.Gathers world tokens scan) (hwf : parser.schema.WellFormed)
    (hcomplete : (parser.parse world tokens).2.result = .ok .complete) :
    (parser.parse world tokens).2.completed = parser.schema.reports scan.path ∧
      ∀ c, (parser.parse world tokens).1.isParsed c = true ↔ c ∈ scan.path := by
  have hclose := h.parse_eq_close hwf
  rw [Schema.close_of_ok (h.nodup_frames hwf) (h.deliver_eq hcomplete)] at hclose
  obtain ⟨hreport, -, -, hmarked⟩ := hclose
  exact ⟨by rw [hreport], fun c => by rw [hmarked, List.contains_iff_mem]⟩

/-- The turn of the command `c` to be completed, after the acts `done`: those above it have been
completed and no others, and all that the parse writes has been written. -/
structure Completing (parser : Parser) (files : FileStore) (scan : Scan) (after : Parser)
    (done : List Closing.Act) (c : CommandId) (s : Closing) : Prop where
  reached : Attempt.each (parser.schema.perform files scan) done
    { delivery := ⟨scan.bindings, parser.vars⟩ } = (s, .ok ())
  above : ∃ below, scan.path = s.marked ++ c :: below
  reported : s.reported = parser.schema.reports s.marked
  written : s.delivery = ⟨after.scan.bindings, after.vars⟩
  updated : ∀ d, ∀ p ∈ (parser.schema.command d).parameters,
    scan.bindings.invoked p.id = true → ∀ field, parser.vars.find? p.id = some field →
      ∃ new, s.delivery.vars.find? p.id = some new ∧
        p.Updates (s.delivery.bindings.of p.id) field new

theorem Gathers.completing (h : parser.Gathers world tokens scan) (hreachable : Reachable parser)
    (hcomplete : (parser.parse world tokens).2.result = .ok .complete)
    {done rest : List Closing.Act} {c : CommandId}
    (hacts : scan.acts = done ++ .complete c :: rest) :
    ∃ s, parser.Completing world.files scan (parser.parse world tokens).1 done c s := by
  have hwf := hreachable.wellFormed
  obtain ⟨above, below, hpath, rfl⟩ := Closing.acts_eq_append hacts
  refine ⟨_, Schema.each_perform (h.nodup_frames hwf) above (h.deliver_eq hcomplete),
    ⟨below, hpath⟩, rfl, rfl, ?_⟩
  intro d p hp hinvoked field hfield
  exact (h.updates hwf hcomplete hp hinvoked).2 field hfield
    (hreachable.fits.nargs d p hp field hfield)

/-- A complete parse has every command of the active path report once, the root first and when all
has been written, and marks these commands. Any other parse has none report and marks none. -/
theorem Reachable.completion_all_or_nothing (h : Reachable parser)
    (hparse : parser.parse world tokens = (after, report)) :
    (report.result = .ok .complete →
      parser.schema.LeadsDown after.scan.path ∧
        report.completed = parser.schema.reports after.scan.path ∧
        (∀ c, after.isParsed c = true ↔ c ∈ after.scan.path) ∧
        ∃ scan, parser.Gathers world tokens scan ∧ scan.path = after.scan.path ∧
          parser.schema.close world.files scan { delivery := ⟨scan.bindings, parser.vars⟩ } =
            (⟨⟨after.scan.bindings, after.vars⟩, scan.path, report.completed⟩, .ok ()) ∧
          ∀ done c rest, scan.acts = done ++ .complete c :: rest →
            ∃ s, parser.Completing world.files scan after done c s) ∧
      (report.result ≠ .ok .complete →
        report.completed = [] ∧ ∀ c, after.isParsed c = false) := by
  have hwf := h.wellFormed
  have hafter : (parser.parse world tokens).1 = after := by rw [hparse]
  have hreport : (parser.parse world tokens).2 = report := by rw [hparse]
  subst hafter hreport
  refine ⟨fun hcomplete => ?_, completes_nothing hwf⟩
  obtain ⟨scan, hgathers⟩ := exists_gathers hcomplete
  obtain ⟨hreported, hmarked⟩ := hgathers.completes hwf hcomplete
  have hclose := Schema.close_of_ok (hgathers.nodup_frames hwf) (hgathers.deliver_eq hcomplete)
  rw [← hreported] at hclose
  rw [hgathers.path_parse]
  exact ⟨(hgathers.descends hwf).leadsDown hwf, hreported, hmarked, scan, hgathers, rfl, hclose,
    fun _ _ _ hacts => hgathers.completing h hcomplete hacts⟩

/-- Two of three commands report, and a parse has completed them all. -/
def reportingCalls : List Call :=
  let level : Field := .scalar (.integer .i64) (.integer 0)
  [.add .root { names := "-n", binding := .option level }, .addSubcommand .root "run",
    .addSubcommand ⟨1⟩ "fast", .onComplete .root "done", .onComplete ⟨2⟩ "done fast",
    .parse {} ["-n", "1", "run", "fast"]]

/-- The next parse completes all but the innermost one, or fails and completes none. -/
theorem completion_all_or_nothing_again :
    let parser := (ofProgram "tool").afterAll reportingCalls
    (∀ c ∈ [.root, ⟨1⟩, ⟨2⟩], parser.isParsed c = true) ∧
      ((parser.parse {} ["-n", "2", "run"]).2.completed = ["done"] ∧
        ∀ c, (parser.parse {} ["-n", "2", "run"]).1.isParsed c = true ↔ c ∈ [.root, ⟨1⟩]) ∧
      ((parser.parse {} ["-n", "two", "run"]).2.completed = [] ∧
        ∀ c, (parser.parse {} ["-n", "two", "run"]).1.isParsed c = false) := by
  intro parser
  have hreachable : Reachable parser := (reachable_ofProgram "tool").afterAll (by decide +kernel)
  have hpath : (parser.parse {} ["-n", "2", "run"]).1.scan.path = [.root, ⟨1⟩] := by
    decide +kernel
  have hreports : parser.schema.reports [.root, ⟨1⟩] = ["done"] := by decide +kernel
  obtain ⟨hcompletes, -⟩ := hreachable.completion_all_or_nothing
    (parser.parse {} ["-n", "2", "run"]).eta.symm
  obtain ⟨-, hnothing⟩ := hreachable.completion_all_or_nothing
    (parser.parse {} ["-n", "two", "run"]).eta.symm
  obtain ⟨-, hreported, hmarked, -⟩ := hcompletes (by decide +kernel)
  rw [hpath] at hreported hmarked
  exact ⟨by decide +kernel, ⟨hreported.trans hreports, hmarked⟩, hnothing (by decide +kernel)⟩

end Parser

end CommandLine
