import CommandLine.Proofs.Gathering
import CommandLine.Proofs.Names

/-!
# What a command can change

A command reads its tokens, and those of the sub-commands that are entered
from it, without touching the commands outside of its subtree
(`Schema.Confined`). There is one way out: a name that it does not know may
be left to its parent, from there to the next one, and so on, as long as
each of them has `fallthrough` (`Schema.LeavesTo`). What is found on this way
gets an invocation wherever it was declared, and it is always the nearest
declaration that is found (`Schema.meant?_eq_some_iff`).

Every command that has been entered lies below the first one, so all that it
can leave names to lies below that one too, or is something the first one
could leave names to itself (`Schema.WellFormed.isAbove_or_leavesTo`). This carries
the induction over the moves (`Schema.Ranges`).
-/

namespace CommandLine

/-! ## The state of one command -/

/-- What there is in a state about one command. -/
structure CommandState where
  /-- The command with its tokens, if it has been entered. -/
  frame : Option Frame
  selected : Option CommandId
  /-- Whether the command reads its tokens as plain values only. -/
  positionalOnly : Bool
  deriving DecidableEq, Repr

/-- The name without its dashes. -/
def Dashed.part : Dashed → NamePart
  | .long name _ => .long name
  | .short name _ => .short name

namespace Scan

variable {c d : CommandId} {before behind : List CommandId}

def frame? (scan : Scan) (c : CommandId) : Option Frame := scan.frames.find? (·.command = c)

def stateOf (scan : Scan) (c : CommandId) : CommandState where
  frame := scan.frame? c
  selected := scan.selected? c
  positionalOnly := scan.positionalOnly && scan.current.command = c

/-- The values that there is no place for in a command. -/
def overflowOf (scan : Scan) (c : CommandId) : List String :=
  ((scan.frame? c).map (·.overflow)).getD []

theorem overflowOf_eq_nil {scan : Scan} (h : ∀ f ∈ scan.frames, f.command = c → f.overflow = []) :
    scan.overflowOf c = [] := by
  unfold overflowOf frame?
  cases hfound : scan.frames.find? (·.command = c) with
  | none => rfl
  | some f =>
      exact h f (List.mem_of_find?_eq_some hfound) (by simpa using List.find?_some hfound)

theorem selectedAfter_of_not_mem {path : List CommandId} (h : d ∉ path) :
    selectedAfter d path = none := by
  induction path with
  | nil => rfl
  | cons e path ih =>
      obtain ⟨hne, hpath⟩ := List.ne_and_not_mem_of_not_mem_cons h
      cases path with
      | nil => rfl
      | cons f path => rw [selectedAfter, if_neg (Ne.symm hne), ih hpath]

/-- What is entered from a command says nothing about the selection of others. -/
theorem selectedAfter_append_of_not_mem (hc : d ≠ c) (hbehind : d ∉ behind) :
    selectedAfter d (before ++ c :: behind) = selectedAfter d (before ++ [c]) := by
  induction before with
  | nil =>
      rw [List.nil_append, List.nil_append, selectedAfter_of_not_mem, selectedAfter_of_not_mem]
      · simpa using hc
      · exact List.not_mem_cons_of_ne_of_not_mem hc hbehind
  | cons e before ih => cases before <;> simp_all [selectedAfter]

end Scan

namespace Schema

variable {schema : Schema} {scan after : Scan} {c d e : CommandId} {text : String}
  {rest left : List String}

/-! ## Names that are left to the parent -/

/-- What the command does not know is left to the other one, since it and all commands between the
two have `fallthrough`. -/
def LeavesTo (schema : Schema) (c d : CommandId) : Prop :=
  ∃ between above, c :: (schema.command c).ancestors = between ++ d :: above ∧
    ∀ e ∈ between, (schema.command e).settings.fallthrough = true

/-- A name comes to a command where all those before it leave it to their parents. -/
theorem reachThrough_eq_append {ancestors nearer : List CommandId} :
    (∃ further, schema.reachThrough c ancestors = nearer ++ d :: further) ↔
      ∃ above, c :: ancestors = nearer ++ d :: above ∧
        ∀ e ∈ nearer, (schema.command e).settings.fallthrough = true := by
  induction ancestors generalizing c nearer with
  | nil => cases nearer <;> simp [reachThrough]
  | cons parent ancestors ih =>
      rw [reachThrough]
      cases nearer with
      | nil => split <;> simp
      | cons first nearer =>
          cases hfalls : (schema.command c).settings.fallthrough with
          | true =>
              simp only [if_true, List.cons_append, List.cons_eq_cons, exists_and_left, ih,
                List.forall_mem_cons]
              constructor
              · rintro ⟨rfl, above, heq, hall⟩
                exact ⟨above, ⟨rfl, heq⟩, hfalls, hall⟩
              · rintro ⟨above, ⟨rfl, heq⟩, -, hall⟩
                exact ⟨rfl, above, heq, hall⟩
          | false =>
              simp only [Bool.false_eq_true, if_false]
              constructor
              · rintro ⟨further, heq⟩
                simp at heq
              · rintro ⟨above, heq, hall⟩
                rw [(List.cons_eq_cons.mp heq).1, hall first List.mem_cons_self] at hfalls
                cases hfalls

theorem mem_reach : d ∈ schema.reach c ↔ schema.LeavesTo c d := by
  rw [List.mem_iff_append]
  exact exists_congr fun nearer => reachThrough_eq_append

theorem ancestors_of_not_issued (h : ¬schema.Issued c) : (schema.command c).ancestors = [] := by
  rw [command_of_not_issued h]

theorem WellFormed.not_mem_ancestors (h : schema.WellFormed) (c : CommandId) :
    c ∉ (schema.command c).ancestors := by
  by_cases hc : schema.Issued c
  · exact (List.nodup_cons.mp (h.nodup_ancestors hc)).1
  · rw [ancestors_of_not_issued hc]
    exact List.not_mem_nil

theorem isAbove_iff : schema.isAbove c d = true ↔ c ∈ d :: (schema.command d).ancestors := by
  rw [isAbove, Bool.or_eq_true, decide_eq_true_eq, List.contains_iff_mem, List.mem_cons]

theorem isAbove_self (schema : Schema) (c : CommandId) : schema.isAbove c c = true :=
  isAbove_iff.mpr List.mem_cons_self

theorem isAbove_of_mem_ancestors (h : c ∈ (schema.command d).ancestors) :
    schema.isAbove c d = true :=
  isAbove_iff.mpr (List.mem_cons_of_mem d h)

theorem ne_of_isAbove (hd : schema.isAbove c d = true) (he : schema.isAbove c e = false) :
    d ≠ e := by
  rintro rfl
  cases hd.symm.trans he

/-- What a command of the subtree can leave names to lies in the subtree, or above it where the
command at the top could leave names to it too. -/
theorem WellFormed.isAbove_or_leavesTo (h : schema.WellFormed)
    (hc : c ∈ e :: (schema.command e).ancestors) (hd : schema.LeavesTo e d) :
    schema.isAbove c d = true ∨ schema.LeavesTo c d := by
  rcases List.mem_cons.mp hc with rfl | hbelow
  · exact Or.inr hd
  · have he : schema.Issued e := by
      by_contra hnot
      rw [ancestors_of_not_issued hnot] at hbelow
      exact List.not_mem_nil hbelow
    obtain ⟨between, above, heq, hall⟩ := hd
    obtain ⟨below, upper, hcut⟩ := List.append_of_mem hc
    have hupper := h.ancestors_of_append he hcut
    -- Going up from `e`, either `d` comes first and has `c` above it, or `c` comes first.
    rcases List.append_eq_append_iff.mp (hcut.symm.trans heq) with
      ⟨more, rfl, hmore⟩ | ⟨more, rfl, hmore⟩
    · right
      cases more with
      | nil =>
          obtain ⟨rfl, -⟩ := List.cons_eq_cons.mp hmore
          exact ⟨[], _, rfl, fun _ h => absurd h List.not_mem_nil⟩
      | cons first more =>
          obtain ⟨rfl, hrest⟩ := List.cons_eq_cons.mp hmore
          refine ⟨c :: more, above, by rw [hupper, hrest]; rfl, fun f hf => hall f ?_⟩
          exact List.mem_append_right below hf
    · left
      rw [isAbove_iff]
      cases more with
      | nil =>
          obtain ⟨rfl, -⟩ := List.cons_eq_cons.mp hmore
          exact List.mem_cons_self
      | cons first more =>
          obtain ⟨rfl, rfl⟩ := List.cons_eq_cons.mp hmore
          rw [h.ancestors_of_append he heq]
          exact List.mem_cons_of_mem _ (List.mem_append_right more List.mem_cons_self)

/-! ## What a name means -/

theorem meant?_eq_findSome? (schema : Schema) (c : CommandId) (name : Dashed) :
    schema.meant? c name =
      (schema.reach c).findSome? fun d => (schema.command d).lookup? name.part := by
  cases name <;> rfl

/-- A name means the parameter that is declared nearest among those that it could mean. -/
theorem meant?_eq_some_iff (hdistinct : ∀ c, schema.Distinct c) (hids : schema.NodupIds)
    {name : Dashed} {p : Parameter} :
    schema.meant? c name = some p ↔ ∃ nearer d above,
      c :: (schema.command c).ancestors = nearer ++ d :: above ∧
        (∀ e ∈ nearer, (schema.command e).settings.fallthrough = true ∧
          ∀ q ∈ (schema.command e).parameters, (schema.command e).answers name.part q = false) ∧
        p ∈ (schema.command d).parameters ∧ (schema.command d).answers name.part p = true := by
  have hlookup : ∀ d, (schema.command d).lookup? name.part = some p ↔
      p ∈ (schema.command d).parameters ∧ (schema.command d).answers name.part p = true :=
    fun d => Command.lookup?_eq_some_iff (fun name => (hdistinct d).answers_unique hids name) _
  have hnone : ∀ e, (schema.command e).lookup? name.part = none ↔
      ∀ q ∈ (schema.command e).parameters, (schema.command e).answers name.part q = false := by
    intro e
    rw [Command.lookup?_eq_find?, List.find?_eq_none]
    simp only [Bool.not_eq_true]
  rw [meant?_eq_findSome?, List.findSome?_eq_some_iff]
  constructor
  · rintro ⟨nearer, d, further, hreach, hp, hnearer⟩
    obtain ⟨above, heq, hfalls⟩ := reachThrough_eq_append.mp ⟨further, hreach⟩
    exact ⟨nearer, d, above, heq, fun e he => ⟨hfalls e he, (hnone e).mp (hnearer e he)⟩,
      (hlookup d).mp hp⟩
  · rintro ⟨nearer, d, above, heq, hnearer, hp⟩
    obtain ⟨further, hreach⟩ :=
      reachThrough_eq_append.mpr ⟨above, heq, fun e he => (hnearer e he).1⟩
    exact ⟨nearer, d, further, hreach, (hlookup d).mpr hp,
      fun e he => (hnone e).mpr (hnearer e he).2⟩

/-! ## The subtree -/

/-- The commands that were entered since lie below the first one, and only their parameters and
those that names can be left to have got invocations. -/
structure Ranges (schema : Schema) (scan after : Scan) : Prop where
  frames : ∃ inner frame, after.frames = inner ++ frame :: scan.outer ∧
    (frame.command = scan.current.command ∧ frame.overflow = scan.current.overflow) ∧
    ∀ f ∈ inner, scan.current.command ∈ (schema.command f.command).ancestors ∧ f.overflow = []
  invoked : ∀ q, after.bindings.of q ≠ scan.bindings.of q → ∃ d, q ∈ schema.idsOf d ∧
    (schema.isAbove scan.current.command d = true ∨ schema.LeavesTo scan.current.command d)
  completed : after.completed = scan.completed

theorem Ranges.refl (schema : Schema) (scan : Scan) : schema.Ranges scan scan where
  frames := ⟨[], scan.current, rfl, ⟨rfl, rfl⟩, fun _ h => absurd h List.not_mem_nil⟩
  invoked _ h := absurd rfl h
  completed := rfl

/-- The innermost command lies below the first one. -/
theorem Ranges.current (h : schema.Ranges scan after) : scan.current.command ∈
    after.current.command :: (schema.command after.current.command).ancestors := by
  obtain ⟨inner, frame, hframes, ⟨hcommand, -⟩, hinner⟩ := h.frames
  cases inner with
  | nil =>
      rw [(List.cons_eq_cons.mp hframes).1, hcommand]
      exact List.mem_cons_self
  | cons f inner =>
      rw [(List.cons_eq_cons.mp hframes).1]
      exact List.mem_cons_of_mem _ (hinner f List.mem_cons_self).1

/-- The innermost command may have more tokens than before. -/
theorem Ranges.withCurrent (h : schema.Ranges scan after) {frame : Frame}
    (hcommand : frame.command = after.current.command)
    (hoverflow : frame.overflow = after.current.overflow) :
    schema.Ranges scan { after with current := frame } := by
  obtain ⟨inner, outermost, hframes, hfirst, hinner⟩ := h.frames
  refine ⟨?_, h.invoked, h.completed⟩
  cases inner with
  | nil =>
      obtain ⟨hcurrent, houter⟩ := List.cons_eq_cons.mp hframes
      rw [← hcurrent, ← hcommand, ← hoverflow] at hfirst
      exact ⟨[], frame, congrArg _ houter, hfirst, hinner⟩
  | cons f inner =>
      obtain ⟨hcurrent, houter⟩ := List.cons_eq_cons.mp hframes
      refine ⟨frame :: inner, outermost, congrArg _ houter, hfirst, ?_⟩
      rw [List.forall_mem_cons, ← hcurrent, ← hcommand, ← hoverflow] at hinner
      exact List.forall_mem_cons.mpr hinner

/-- A parameter that is mentioned belongs to the subtree, or to a command that the name was left
to. -/
theorem Ranges.record (hwf : schema.WellFormed) (h : schema.Ranges scan after) {name : Dashed}
    {p : Parameter} (hp : schema.meant? after.current.command name = some p)
    (values : List String) : schema.Ranges scan (after.record p.id values) := by
  refine ⟨h.frames, fun q hq => ?_, h.completed⟩
  by_cases hid : p.id = q
  · rw [meant?_eq_findSome?] at hp
    obtain ⟨d, hd, hfound⟩ := List.exists_of_findSome?_eq_some hp
    rw [Command.lookup?_eq_find?] at hfound
    have hmem : q ∈ schema.idsOf d := mem_idsOf.mpr ⟨p, List.mem_of_find?_eq_some hfound, hid⟩
    exact ⟨d, hmem, hwf.isAbove_or_leavesTo h.current (mem_reach.mp hd)⟩
  · refine h.invoked q ?_
    rwa [Scan.record, Bindings.of_push_of_ne _ _ hid] at hq

theorem Ranges.move (hwf : schema.WellFormed) (h : schema.Ranges scan after) {next : Scan}
    (hmove : Move schema after text rest next left) : schema.Ranges scan next := by
  cases hmove with
  | mark => exact ⟨h.frames, h.invoked, h.completed⟩
  | flag _ hp | values _ hp => exact h.record hwf hp _
  | aside | stop | wait => exact h.withCurrent rfl rfl
  | @enter child htoken =>
      obtain ⟨inner, frame, hframes, hfirst, hinner⟩ := h.frames
      have hchild : scan.current.command ∈ (schema.command child).ancestors := by
        rw [hwf.ancestors_of_mem_children (mem_children_of_child? (child?_of_token htoken))]
        exact h.current
      refine ⟨⟨{ command := child } :: inner, frame, congrArg _ hframes, hfirst, ?_⟩, h.invoked,
        h.completed⟩
      exact List.forall_mem_cons.mpr ⟨⟨hchild, rfl⟩, hinner⟩

theorem ranges_read (hwf : schema.WellFormed) (scan : Scan) (tokens : List String) :
    schema.Ranges scan (schema.read scan tokens).scan := by
  obtain ⟨-, hread, -⟩ := read_invariant (motive := fun after _ => schema.Ranges scan after)
    (fun _ _ _ _ _ h hmove => h.move hwf hmove) (Ranges.refl schema scan)
  exact hread

/-! ## What is outside -/

/-- What has happened between the two states is confined to the subtree of the command, and to the
invocations of parameters that names can be left to from there. -/
structure Confined (schema : Schema) (c : CommandId) (before after : Scan) : Prop where
  outside : ∀ d, schema.isAbove c d = false → after.stateOf d = before.stateOf d
  overflow : ∀ d, after.overflowOf d = before.overflowOf d
  invoked : ∀ q, after.bindings.of q ≠ before.bindings.of q →
    ∃ d, q ∈ schema.idsOf d ∧ (schema.isAbove c d = true ∨ schema.LeavesTo c d)
  completed : after.completed = before.completed

/-- A command outside of the subtree has its tokens among those around the first command. -/
theorem Ranges.frame?_eq (h : schema.Ranges scan after)
    (hd : schema.isAbove scan.current.command d = false) : after.frame? d = scan.frame? d := by
  obtain ⟨inner, frame, hframes, ⟨hcommand, -⟩, hinner⟩ := h.frames
  have hself : scan.current.command ≠ d := ne_of_isAbove (schema.isAbove_self _) hd
  have hnone : inner.find? (·.command = d) = none := by
    refine List.find?_eq_none.mpr fun f hf => ?_
    rw [decide_eq_true_eq]
    exact ne_of_isAbove (isAbove_of_mem_ancestors (hinner f hf).1) hd
  rw [Scan.frame?, Scan.frame?, hframes, List.find?_append, hnone, Option.none_or, Scan.frames,
    List.find?_cons_of_neg (by simpa [hcommand] using hself),
    List.find?_cons_of_neg (by simpa using hself)]

theorem Ranges.selected?_eq (h : schema.Ranges scan after)
    (hd : schema.isAbove scan.current.command d = false) :
    after.selected? d = scan.selected? d := by
  obtain ⟨inner, frame, hframes, ⟨hcommand, -⟩, hinner⟩ := h.frames
  have hpath : after.path = (scan.outer.map (·.command)).reverse ++
      scan.current.command :: (inner.map (·.command)).reverse := by
    rw [Scan.path, hframes, ← hcommand]
    simp
  have hbefore : scan.path = (scan.outer.map (·.command)).reverse ++ [scan.current.command] := by
    simp [Scan.path, Scan.frames]
  rw [Scan.selected?, Scan.selected?, hpath, hbefore]
  refine Scan.selectedAfter_append_of_not_mem (ne_of_isAbove (schema.isAbove_self _) hd).symm ?_
  rw [List.mem_reverse, List.mem_map]
  rintro ⟨f, hf, hfd⟩
  exact ne_of_isAbove (isAbove_of_mem_ancestors (hinner f hf).1) hd hfd

theorem Ranges.stateOf_eq (h : schema.Ranges scan after)
    (hd : schema.isAbove scan.current.command d = false) : after.stateOf d = scan.stateOf d := by
  have hself : scan.current.command ≠ d := ne_of_isAbove (schema.isAbove_self _) hd
  have hlast : after.current.command ≠ d := ne_of_isAbove (isAbove_iff.mpr h.current) hd
  rw [Scan.stateOf, Scan.stateOf, h.frame?_eq hd, h.selected?_eq hd]
  simp [hself, hlast]

/-- Values are found to be too many only when all tokens have been read. -/
theorem Ranges.overflowOf_eq (hwf : schema.WellFormed) (h : schema.Ranges scan after)
    (hfresh : ∀ f ∈ scan.outer, schema.isAbove scan.current.command f.command = false)
    (d : CommandId) : after.overflowOf d = scan.overflowOf d := by
  cases hd : schema.isAbove scan.current.command d with
  | false => rw [Scan.overflowOf, Scan.overflowOf, h.frame?_eq hd]
  | true =>
      obtain ⟨inner, frame, hframes, ⟨hcommand, hoverflow⟩, hinner⟩ := h.frames
      by_cases hdc : d = scan.current.command
      · subst hdc
        have hnone : inner.find? (·.command = scan.current.command) = none := by
          refine List.find?_eq_none.mpr fun f hf => ?_
          rw [decide_eq_true_eq]
          intro heq
          exact hwf.not_mem_ancestors f.command (heq ▸ (hinner f hf).1)
        rw [Scan.overflowOf, Scan.overflowOf, Scan.frame?, Scan.frame?, hframes,
          List.find?_append, hnone, Option.none_or, Scan.frames,
          List.find?_cons_of_pos (by simpa using hcommand), List.find?_cons_of_pos (by simp)]
        exact hoverflow
      · -- It has been entered since, or not at all.
        have houter : ∀ f ∈ scan.outer, f.command ≠ d := fun f hf =>
          (ne_of_isAbove hd (hfresh f hf)).symm
        rw [Scan.overflowOf_eq_nil, Scan.overflowOf_eq_nil]
        · intro f hf hfd
          rcases List.mem_cons.mp hf with rfl | hf
          · exact absurd hfd.symm hdc
          · exact absurd hfd (houter f hf)
        · intro f hf hfd
          rw [hframes] at hf
          rcases List.mem_append.mp hf with hf | hf
          · exact (hinner f hf).2
          · rcases List.mem_cons.mp hf with rfl | hf
            · exact absurd (hfd.symm.trans hcommand) hdc
            · exact absurd hfd (houter f hf)

end Schema

namespace Parser

variable {parser : Parser} {scan : Scan}

/-- What a command reads changes nothing outside of its subtree but the invocations of parameters
that it could leave names to, whether the reading fails or not. Of the parameters that a name could
mean, it means the one declared nearest. The rest of the parser is as before where the parse
ends with the reading. -/
theorem Reachable.read_confined (h : Reachable parser)
    (hfresh : ∀ f ∈ scan.outer, parser.schema.isAbove scan.current.command f.command = false)
    (tokens : List String) :
    parser.schema.Confined scan.current.command scan (parser.schema.read scan tokens).scan ∧
      (∀ c name p, parser.schema.meant? c name = some p ↔
        ∃ nearer d further, c :: (parser.schema.command c).ancestors = nearer ++ d :: further ∧
          (∀ e ∈ nearer, (parser.schema.command e).settings.fallthrough = true ∧
            ∀ q ∈ (parser.schema.command e).parameters,
              (parser.schema.command e).answers name.part q = false) ∧
          p ∈ (parser.schema.command d).parameters ∧
            (parser.schema.command d).answers name.part p = true) ∧
      ∀ world, (parser.schema.read .start tokens).failure ≠ none ∨
          parser.schema.helpRequested? (parser.schema.read .start tokens).scan ≠ none →
        (parser.parse world tokens).1 =
          { parser with scan := (parser.schema.read .start tokens).scan } := by
  have hwf := h.wellFormed
  refine ⟨?_, fun c name p => Schema.meant?_eq_some_iff h.distinct hwf.nodup,
    fun world hends => ?_⟩
  · have hranges := Schema.ranges_read hwf scan tokens
    exact ⟨fun d hd => hranges.stateOf_eq hd, hranges.overflowOf_eq hwf hfresh, hranges.invoked,
      hranges.completed⟩
  · cases hhelp : parser.schema.helpRequested? (parser.schema.read .start tokens).scan with
    | some c => rw [parse, hhelp]
    | none =>
        obtain ⟨error, hfailure⟩ :=
          Option.ne_none_iff_exists'.mp (hends.resolve_right (not_not_intro hhelp))
        rw [parse, hhelp, hfailure]
        rfl

/-- Three commands below each other, of which only the innermost leaves names to its parent. -/
def nestedCalls : List Call :=
  [.add .root { names := "-r", binding := .values (.exactly 0) }, .addSubcommand .root "run",
    .add ⟨1⟩ { names := "-q", binding := .values (.exactly 0) },
    .add ⟨1⟩ { names := "-n", binding := .values (.exactly 2) }, .addSubcommand ⟨1⟩ "deep",
    .set ⟨2⟩ .fallthrough true]

/-- The middle one reads its flag where the innermost does not know it, but not the flag of the
root, and fails at the option that lacks a value. -/
theorem read_confined_nested :
    let schema := ((ofProgram "tool").afterAll nestedCalls).schema
    let scan := (Scan.start.addPending "first").enter ⟨1⟩
    let reading := schema.read scan ["deep", "-q", "-r", "-n", "x"]
    schema.Confined ⟨1⟩ scan reading.scan ∧ reading.failure.isSome = true ∧
      reading.scan.bindings.entries = [(⟨3⟩, [""])] ∧ reading.scan.current.missing = ["-r"] := by
  intro schema scan reading
  have hreachable : Reachable ((ofProgram "tool").afterAll nestedCalls) :=
    (reachable_ofProgram "tool").afterAll (by decide +kernel)
  have hfresh : ∀ f ∈ scan.outer, schema.isAbove scan.current.command f.command = false := by
    decide +kernel
  exact ⟨(hreachable.read_confined hfresh ["deep", "-q", "-r", "-n", "x"]).1, by decide +kernel,
    by decide +kernel, by decide +kernel⟩

end Parser

end CommandLine
