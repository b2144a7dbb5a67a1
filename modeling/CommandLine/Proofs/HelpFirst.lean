import CommandLine.Proofs.History
import CommandLine.Proofs.Move

/-!
# Help comes first

Reading looks at the names of commands and at the numbers, names and
arities of their parameters, and at nothing else that is declared
(`Schema.LooksLike.read_eq`). After it a parse asks for one thing: whether
the help flag of an active command was mentioned. If so the parse is over,
and what it leaves is what reading has found (`Parser.help_first`).

So neither the checks, the required parameters and the relations, nor the
configuration file, the environment and the variables have any part in a
parse that shows help, be it one that reading could not go on with.
-/

namespace CommandLine

/-! ## What reading looks at -/

/-- The parameters are mentioned alike. -/
structure Parameter.LooksLike (p q : Parameter) : Prop where
  id : p.id = q.id
  names : p.names = q.names
  nargs : p.nargs = q.nargs

/-- Tokens cannot tell the commands apart, and help is asked for by the same flag. -/
structure Command.LooksLike (command other : Command) : Prop where
  name : command.name = other.name
  ancestors : command.ancestors = other.ancestors
  settings : command.settings = other.settings
  help : command.help = other.help
  parameters : List.Forall₂ Parameter.LooksLike command.parameters other.parameters

/-- Tokens cannot tell the schemas apart. -/
def Schema.LooksLike (schema other : Schema) : Prop :=
  List.Forall₂ Command.LooksLike schema.commands other.commands

theorem Schema.LooksLike.refl (schema : Schema) : schema.LooksLike schema :=
  List.forall₂_same.mpr fun _ _ => ⟨rfl, rfl, rfl, rfl, List.forall₂_same.mpr fun _ _ =>
    ⟨rfl, rfl, rfl⟩⟩

section Find

variable {α β ι : Type} {R : α → β → Prop}

theorem rel_find? {l : List α} {m : List β} (h : List.Forall₂ R l m) {f : α → Bool} {g : β → Bool}
    (hfg : ∀ a b, R a b → f a = g b) : Option.Rel R (l.find? f) (m.find? g) := by
  induction h with
  | nil => exact .none
  | @cons a b l m hab _ ih =>
      rw [List.find?_cons, List.find?_cons, hfg a b hab]
      split
      · exact .some hab
      · exact ih

theorem rel_findSome? {f : ι → Option α} {g : ι → Option β} (h : ∀ i, Option.Rel R (f i) (g i))
    (l : List ι) : Option.Rel R (l.findSome? f) (l.findSome? g) := by
  induction l with
  | nil => exact .none
  | cons i l ih =>
      rw [List.findSome?_cons, List.findSome?_cons]
      have hi := h i
      revert hi
      rcases f i with _ | a <;> rcases g i with _ | b <;> intro hi
      · exact ih
      · cases hi
      · cases hi
      · exact hi

end Find

namespace Bindings

theorem room_eq (b : Bindings) {ps qs : List Parameter}
    (h : List.Forall₂ Parameter.LooksLike ps qs) : b.room ps = b.room qs := by
  induction h with
  | nil => rfl
  | cons hpq _ ih => simp only [room, hpq.nargs, hpq.id, ih]

end Bindings

namespace Schema.LooksLike

variable {schema other : Schema} {scan : Scan} {text : String} {rest : List String}
  {p q : Parameter}

theorem command (h : schema.LooksLike other) (c : CommandId) :
    (schema.command c).LooksLike (other.command c) := by
  by_cases hc : schema.Issued c
  · have hother : other.Issued c := hc.trans_eq h.length_eq
    rw [command_eq_get hc, command_eq_get hother]
    exact (List.forall₂_iff_get.mp h).2 c.index hc hother
  · have hother : ¬other.Issued c := fun hother => hc (hother.trans_eq h.length_eq.symm)
    rw [command_of_not_issued hc, command_of_not_issued hother]
    exact ⟨rfl, rfl, rfl, rfl, .nil⟩

theorem children (h : schema.LooksLike other) (c : CommandId) :
    schema.children c = other.children c := by
  have hlength := h.length_eq
  have hparent : ∀ d, (schema.command d).parent = (other.command d).parent := fun d => by
    rw [Command.parent, Command.parent, (h.command d).ancestors]
  simp only [Schema.children, commandIds, hlength, hparent]

theorem child? (h : schema.LooksLike other) (c : CommandId) (name : String) :
    schema.child? c name = other.child? c name := by
  have hname : ∀ d, (schema.command d).name = (other.command d).name := fun d =>
    (h.command d).name
  simp only [Schema.child?, h.children c, (h.command c).settings, hname]

theorem reach (h : schema.LooksLike other) (c : CommandId) : schema.reach c = other.reach c := by
  rw [Schema.reach, Schema.reach, (h.command c).ancestors]
  generalize (other.command c).ancestors = above
  induction above generalizing c with
  | nil => rfl
  | cons parent above ih => rw [reachThrough, reachThrough, (h.command c).settings, ih]

theorem meant? (h : schema.LooksLike other) (c : CommandId) (name : Dashed) :
    Option.Rel Parameter.LooksLike (schema.meant? c name) (other.meant? c name) := by
  cases name with
  | long name value =>
      simp only [Schema.meant?, longFrom?, h.reach c]
      refine rel_findSome? (fun d => ?_) _
      exact rel_find? (h.command d).parameters fun p q hpq => by
        rw [hpq.names, (h.command d).settings]
  | short name attached =>
      simp only [Schema.meant?, shortFrom?, h.reach c]
      refine rel_findSome? (fun d => ?_) _
      exact rel_find? (h.command d).parameters fun p q hpq => by
        rw [hpq.names, (h.command d).settings]

theorem token (h : schema.LooksLike other) (scan : Scan) (text : String) :
    schema.token scan text = other.token scan text := by
  simp only [Schema.token, h.child?]

theorem settings (h : schema.LooksLike other) (scan : Scan) :
    (schema.reader scan).settings = (other.reader scan).settings :=
  (h.command scan.current.command).settings

theorem isFull (h : schema.LooksLike other) (scan : Scan) :
    schema.isFull scan = other.isFull scan := by
  have hpositionals : List.Forall₂ Parameter.LooksLike (schema.reader scan).positionals
      (other.reader scan).positionals :=
    List.rel_filter (fun p q hpq => by simp only [hpq.names])
      (h.command scan.current.command).parameters
  simp only [Schema.isFull, Bindings.room_eq scan.bindings hpositionals]

theorem mention (h : schema.LooksLike other) (hpq : p.LooksLike q) (first : Option String) :
    schema.mention scan p first rest = other.mention scan q first rest := by
  have hplain : schema.isPlain scan = other.isPlain scan := by
    funext text
    rw [isPlain, isPlain, h.token]
  simp only [Schema.mention, hpq.nargs, hpq.id, Parameter.label, hpq.names, hplain]

theorem setAside (h : schema.LooksLike other) (scan : Scan) (text : String) (rest : List String) :
    schema.setAside scan text rest = other.setAside scan text rest := by
  rw [Schema.setAside, Schema.setAside, h.settings]

theorem mentionShort (h : schema.LooksLike other) (hpq : p.LooksLike q) (attached : List Char) :
    schema.mentionShort scan p attached rest = other.mentionShort scan q attached rest := by
  simp only [Schema.mentionShort, hpq.nargs, hpq.id, h.mention hpq]

theorem step (h : schema.LooksLike other) (scan : Scan) (text : String) (rest : List String) :
    schema.step scan text rest = other.step scan text rest := by
  rw [Schema.step, Schema.step, h.token]
  cases other.token scan text with
  | mark | subcommand => rfl
  | dashed name =>
      have hmeant := h.meant? scan.current.command name
      cases name with
      | long name value =>
          simp only [Schema.meant?] at hmeant ⊢
          generalize schema.longFrom? scan.current.command name = mine,
            other.longFrom? scan.current.command name = theirs at hmeant ⊢
          cases hmeant with
          | none => exact h.setAside scan text rest
          | some hpq => exact h.mention hpq value
      | short name attached =>
          simp only [Schema.meant?] at hmeant ⊢
          generalize schema.shortFrom? scan.current.command name = mine,
            other.shortFrom? scan.current.command name = theirs at hmeant ⊢
          cases hmeant with
          | none => exact h.setAside scan text rest
          | some hpq => exact h.mentionShort hpq attached
  | plain => simp only [h.settings, h.isFull]

theorem read_eq (h : schema.LooksLike other) (scan : Scan) (tokens : List String) :
    schema.read scan tokens = other.read scan tokens := by
  match tokens with
  | [] => rw [read_nil, read_nil]
  | text :: rest =>
      match hstep : schema.step scan text rest with
      | .next after left =>
          have hlt : weight left < weight (text :: rest) := weight_lt_of_step hstep
          rw [read_of_next hstep, read_of_next ((h.step scan text rest).symm.trans hstep)]
          exact read_eq h after left
      | .stuck error left =>
          rw [read_of_stuck hstep, read_of_stuck ((h.step scan text rest).symm.trans hstep)]
termination_by weight tokens

end Schema.LooksLike

/-! ## Who is asked about -/

namespace Schema

variable {schema other : Schema} {scan : Scan} {c : CommandId}

/-- The command's own help flag was mentioned. -/
def AsksForHelp (schema : Schema) (scan : Scan) (c : CommandId) : Prop :=
  ∃ p, (schema.command c).help = some p ∧ scan.bindings.invoked p = true

/-- Of all active commands whose help flag was mentioned, this is the innermost. -/
def InnermostAsking (schema : Schema) (scan : Scan) (c : CommandId) : Prop :=
  ∃ above below, scan.path = above ++ c :: below ∧ schema.AsksForHelp scan c ∧
    ∀ d ∈ below, ¬schema.AsksForHelp scan d

theorem asksForHelp_iff :
    (schema.command c).help.any (fun p => scan.bindings.invoked p) = true ↔
      schema.AsksForHelp scan c := by
  rw [Option.any_eq_true]
  rfl

theorem helpRequested?_eq_some :
    schema.helpRequested? scan = some c ↔ schema.InnermostAsking scan c := by
  have hnot : ∀ d, (!(schema.command d).help.any fun p => scan.bindings.invoked p) = true ↔
      ¬schema.AsksForHelp scan d := fun d => by
    rw [← asksForHelp_iff, Bool.not_eq_true', Bool.not_eq_true]
  rw [helpRequested?, List.find?_eq_some_iff_append, asksForHelp_iff]
  simp only [hnot]
  constructor
  · rintro ⟨hasks, below, above, hframes, hbelow⟩
    refine ⟨above.reverse, below.reverse, ?_, hasks, fun d hd =>
      hbelow d (List.mem_reverse.mp hd)⟩
    rw [Scan.path, hframes]
    simp
  · rintro ⟨above, below, hpath, hasks, hbelow⟩
    refine ⟨hasks, below.reverse, above.reverse, ?_, fun d hd =>
      hbelow d (List.mem_reverse.mp hd)⟩
    rw [← List.reverse_reverse (scan.frames.map _), ← Scan.path, hpath]
    simp

theorem LooksLike.helpRequested? (h : schema.LooksLike other) (scan : Scan) :
    schema.helpRequested? scan = other.helpRequested? scan := by
  have hhelp : ∀ d, (schema.command d).help = (other.command d).help := fun d => (h.command d).help
  simp only [Schema.helpRequested?, hhelp]

/-- Reading completes nothing. -/
theorem not_completed_read (schema : Schema) (tokens : List String) :
    (schema.read .start tokens).scan.completed = false := by
  have hmove : ∀ scan text rest after left, scan.completed = false →
      Move schema scan text rest after left → after.completed = false := by
    intro scan text rest after left hscan hmove
    cases hmove <;> exact hscan
  have hstart : Scan.start.completed = false := rfl
  obtain ⟨-, hread, -⟩ :=
    read_invariant (motive := fun scan _ => scan.completed = false) hmove hstart
  exact hread

end Schema

/-! ## Help before all else -/

namespace Parser

variable {parser : Parser} {world : World} {tokens : List String} {c : CommandId}

theorem parse_of_helpRequested
    (h : parser.schema.helpRequested? (parser.schema.read .start tokens).scan = some c) :
    parser.parse world tokens =
      ({ parser with scan := (parser.schema.read .start tokens).scan },
        { result := .ok (.help c) }) := by
  rw [parse, h]

theorem finish_ne_help (parser : Parser) (world : World) (c : CommandId) :
    (parser.finish world).2.result ≠ .ok (.help c) := by
  unfold finish
  dsimp only
  split
  · exact nofun
  · exact nofun

theorem layer_ne_help (parser : Parser) (world : World) (c : CommandId) :
    (parser.layer world).2.result ≠ .ok (.help c) := by
  unfold layer
  dsimp only
  split
  · exact nofun
  · exact finish_ne_help _ world c

theorem parse_eq_help_iff :
    (parser.parse world tokens).2.result = .ok (.help c) ↔
      parser.schema.helpRequested? (parser.schema.read .start tokens).scan = some c := by
  constructor
  · intro h
    cases hasked : parser.schema.helpRequested? (parser.schema.read .start tokens).scan with
    | some d =>
        rw [parse_of_helpRequested hasked] at h
        cases h
        rfl
    | none =>
        rw [parse, hasked] at h
        dsimp only at h
        split at h
        · cases h
        · exact absurd h (layer_ne_help _ world c)
  · intro h
    rw [parse_of_helpRequested h]

/-- A parse answers with help if the help flag of an active command was mentioned by the end of
reading, be it a good one or not; it is about the innermost such command. The parse has then done
nothing but read: it leaves everything else as it was, completes no command, and would have ended
like this under any configuration, environment and variables, and whatever is checked, required or
related. -/
theorem help_first (parser : Parser) (world : World) (tokens : List String) (c : CommandId) :
    ((parser.parse world tokens).2.result = .ok (.help c) ↔
      parser.schema.InnermostAsking (parser.schema.read .start tokens).scan c) ∧
    (parser.schema.InnermostAsking (parser.schema.read .start tokens).scan c →
      (parser.parse world tokens).1 =
        { parser with scan := (parser.schema.read .start tokens).scan } ∧
      (parser.parse world tokens).2.completed = [] ∧
      (∀ d, (parser.parse world tokens).1.isParsed d = false) ∧
      ∀ (other : Parser) (elsewhere : World), parser.schema.LooksLike other.schema →
        (other.parse elsewhere tokens).2 = (parser.parse world tokens).2 ∧
        (other.parse elsewhere tokens).1.scan = (parser.parse world tokens).1.scan) := by
  refine ⟨parse_eq_help_iff.trans Schema.helpRequested?_eq_some, fun hasks => ?_⟩
  have hrequested := Schema.helpRequested?_eq_some.mpr hasks
  rw [parse_of_helpRequested hrequested]
  refine ⟨rfl, rfl, fun d => ?_, fun other elsewhere hlike => ?_⟩
  · rw [isParsed, Scan.isParsed, Schema.not_completed_read, Bool.false_and]
  · have hread := hlike.read_eq .start tokens
    have hother : other.schema.helpRequested? (other.schema.read .start tokens).scan = some c := by
      rw [← hread, ← hlike.helpRequested?, hrequested]
    rw [parse_of_helpRequested hother, hread]
    exact ⟨rfl, rfl⟩

/-- A configuration file and a pair that are both required, and a sub-command without a help flag
of its own. -/
def starvingCalls : List Call :=
  [.replaceConfig "--config" (some "absent") true,
    .add .root { names := "-p", binding := .values (.exactly 2), required := true },
    .add .root { names := "-v", binding := .option (.counter 0) }, .addSubcommand .root "run",
    .replaceHelp ⟨1⟩ none, .set ⟨1⟩ .fallthrough true, .onComplete .root "done"]

/-- From within the sub-command the root is asked for help, behind another flag and ahead of a
pair that lacks a value; there is no configuration file. -/
theorem help_first_starved :
    let parser := (ofProgram "tool").afterAll starvingCalls
    let reading := parser.schema.read .start ["run", "-vh", "-p", "1"]
    let ended := parser.parse {} ["run", "-vh", "-p", "1"]
    reading.failure = some (.argumentMismatch "-p" (.exactly 2) 1) ∧
      ended.2.result = .ok (.help .root) ∧ ended.1 = { parser with scan := reading.scan } ∧
      ended.2.completed = [] ∧ (∀ d, ended.1.isParsed d = false) ∧
      (({ parser with vars := {} } : Parser).parse {} ["run", "-vh", "-p", "1"]).2 = ended.2 ∧
      (({ parser with vars := {} } : Parser).parse {} ["run", "-vh", "-p", "1"]).1.scan =
        ended.1.scan := by
  intro parser reading ended
  have hresult : ended.2.result = .ok (.help .root) := by decide +kernel
  obtain ⟨hiff, hleaves⟩ := help_first parser {} ["run", "-vh", "-p", "1"] .root
  obtain ⟨hparser, hcompleted, hparsed, hsame⟩ := hleaves (hiff.mp hresult)
  have hfailure : reading.failure = some (.argumentMismatch "-p" (.exactly 2) 1) := by
    decide +kernel
  exact ⟨hfailure, hresult, hparser, hcompleted, hparsed,
    hsame { parser with vars := {} } {} (.refl _)⟩

end Parser

end CommandLine
