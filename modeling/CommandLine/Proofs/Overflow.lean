import CommandLine.Proofs.Dealing
import CommandLine.Proofs.Delivering
import CommandLine.Proofs.Failure

/-!
# What overflows in a prefix command

A command with `prefixCommand` lets a value wait only if its positional
parameters have room for it, and stops reading otherwise. The room is
looked up when the value is read, though, and a parameter that is mentioned
by name later on takes some of it away. What no longer fits when the values
are placed is the surplus (`Bindings.surplus`), and it goes where surplus
values of any command go: it overflows unless it is handed on or extras are
allowed (`Reachable.surplus_spills`).

There is no surplus while none of the parameters with a limit was mentioned
by name (`Schema.fits_read`), since the room is then the same all along
(`Bindings.room_of_unnamed`).
-/

namespace CommandLine

/-- The values that the parameters have no room for. -/
def Bindings.surplus (b : Bindings) (parameters : List Parameter) (queue : List String) :
    List String :=
  match b.room parameters with
  | some room => queue.drop room
  | none => []

/-- One of the parameters that hold a limited number of values has got some. -/
def Bindings.Named (b : Bindings) (parameters : List Parameter) : Prop :=
  ∃ p ∈ parameters, p.nargs.isUnlimited = false ∧ b.invoked p.id = true

variable {b : Bindings} {parameters : List Parameter} {queue left : List String}

namespace Bindings

theorem room_cons (b : Bindings) (p : Parameter) (parameters : List Parameter) :
    b.room (p :: parameters) = p.nargs.capacity.bind fun capacity =>
      (b.room parameters).map ((capacity - b.count p.id) + ·) := by
  rw [room]
  cases p.nargs.capacity with
  | none => rfl
  | some capacity => cases b.room parameters <;> rfl

@[simp] theorem surplus_nil (b : Bindings) (parameters : List Parameter) :
    b.surplus parameters [] = [] := by
  unfold surplus
  split
  · exact List.drop_nil
  · rfl

theorem surplus_eq_nil_iff :
    b.surplus parameters queue = [] ↔
      ∀ room, b.room parameters = some room → queue.length ≤ room := by
  unfold surplus
  cases b.room parameters <;> simp

/-- Where none of the parameters with a limit has values, they have all their room. -/
theorem room_of_unnamed (h : ¬b.Named parameters) :
    b.room parameters = ({} : Bindings).room parameters := by
  induction parameters with
  | nil => rfl
  | cons p parameters ih =>
      have hrest : ¬b.Named parameters := fun ⟨q, hq, hnamed⟩ =>
        h ⟨q, List.mem_cons_of_mem p hq, hnamed⟩
      rw [room_cons, room_cons, ih hrest]
      cases hcapacity : p.nargs.capacity with
      | none => rfl
      | some capacity =>
          have hlimited : p.nargs.isUnlimited = false := by
            rw [← Bool.not_eq_true, Nargs.isUnlimited_iff, hcapacity]
            exact Option.some_ne_none _
          have hempty : b.of p.id = [] := by
            rw [← invoked_eq_false, ← Bool.not_eq_true]
            exact fun hinvoked => h ⟨p, List.mem_cons_self, hlimited, hinvoked⟩
          have hcount : b.count p.id = ({} : Bindings).count p.id := by
            rw [count, values, hempty]
            rfl
          rw [hcount]

theorem Named.push (h : b.Named parameters) (q : ParameterId) (values : List String) :
    (b.push q values).Named parameters := by
  obtain ⟨p, hp, hlimited, hinvoked⟩ := h
  refine ⟨p, hp, hlimited, ?_⟩
  by_cases hq : q = p.id
  · simp [hq, invoked]
  · rwa [invoked, of_push_of_ne b values hq]

end Bindings

/-- What is left over when values are dealt out is the surplus. -/
theorem Dealt.left_eq {slices : List (List String)} (h : Dealt b parameters queue slices left) :
    left = b.surplus parameters queue := by
  induction h with
  | done => rfl
  | @deal p parameters slice queue left slices hsize hrest ih =>
      rw [ih, Bindings.surplus, Bindings.surplus, Bindings.room_cons]
      rw [Parameter.room] at hsize
      cases hcapacity : p.nargs.capacity with
      | none =>
          -- A parameter without a limit takes the whole queue.
          rw [hcapacity, min_top_right, Nat.cast_inj, List.length_append] at hsize
          obtain rfl : queue = [] := List.eq_nil_of_length_eq_zero (by omega)
          cases b.room parameters <;> simp
      | some capacity =>
          simp only [hcapacity] at hsize
          rw [← Nat.mono_cast.map_min, Nat.cast_inj, List.length_append] at hsize
          cases b.room parameters with
          | none => rfl
          | some more =>
              have hfits : slice.length ≤ capacity - b.count p.id + more := by omega
              simp only [Option.bind_some, Option.map_some, List.drop_append,
                List.drop_of_length_le hfits, List.nil_append]
              cases queue with
              | nil => simp
              | cons first others =>
                  have hfull : slice.length = capacity - b.count p.id := by
                    rw [List.length_cons] at hsize
                    omega
                  rw [hfull, Nat.add_sub_cancel_left]

namespace Schema

variable {schema : Schema} {scan after : Scan} {text : String} {rest left tokens : List String}

/-! ## While reading -/

/-- Nothing overflows in the frame, and there is no surplus in a prefix command unless one of its
parameters with a limit has values. -/
structure Fits (schema : Schema) (b : Bindings) (frame : Frame) : Prop where
  overflow : frame.overflow = []
  surplus : (schema.command frame.command).settings.prefixCommand = true →
    ¬b.Named (schema.command frame.command).positionals →
    b.surplus (schema.command frame.command).positionals frame.pending = []

/-- A value that is bound by name takes away room from a parameter that was named, or from none. -/
theorem Fits.push {b : Bindings} {frame : Frame} (h : schema.Fits b frame) (q : ParameterId)
    (values : List String) : schema.Fits (b.push q values) frame where
  overflow := h.overflow
  surplus := by
    intro hstopping hunnamed
    have hbefore := h.surplus hstopping fun hnamed => hunnamed (hnamed.push q values)
    rw [Bindings.surplus_eq_nil_iff] at hbefore ⊢
    rwa [Bindings.room_of_unnamed hunnamed,
      ← Bindings.room_of_unnamed fun hnamed => hunnamed (hnamed.push q values)]

theorem fits_move (h : ∀ frame ∈ scan.frames, schema.Fits scan.bindings frame)
    (hmove : Move schema scan text rest after left) :
    ∀ frame ∈ after.frames, schema.Fits after.bindings frame := by
  obtain ⟨hcurrent, houter⟩ := List.forall_mem_cons.mp h
  cases hmove with
  | mark => exact h
  | enter => exact List.forall_mem_cons.mpr ⟨⟨rfl, fun _ _ => Bindings.surplus_nil _ _⟩, h⟩
  | flag | values => exact fun frame hframe => (h frame hframe).push _ _
  | aside | stop =>
      exact List.forall_mem_cons.mpr ⟨⟨hcurrent.overflow, hcurrent.surplus⟩, houter⟩
  | wait _ hroom =>
      refine List.forall_mem_cons.mpr ⟨⟨hcurrent.overflow, fun hstopping _ => ?_⟩, houter⟩
      rw [Bindings.surplus_eq_nil_iff]
      intro room hsome
      have hfull : schema.isFull scan = false := hroom.resolve_left fun hoff => by
        cases hstopping.symm.trans hoff
      have hsome : scan.bindings.room (schema.reader scan).positionals = some room := hsome
      simp only [isFull, hsome, decide_eq_false_iff_not, Nat.not_le] at hfull
      simpa [Scan.addPending] using hfull

/-- While a command line is read nothing overflows, and all values that wait in a prefix command
have room unless one of its parameters with a limit was mentioned by name. -/
theorem fits_read (schema : Schema) (tokens : List String) :
    ∀ frame ∈ (schema.read .start tokens).scan.frames,
      schema.Fits (schema.read .start tokens).scan.bindings frame := by
  have hstart : ∀ frame ∈ Scan.start.frames, schema.Fits Scan.start.bindings frame :=
    List.forall_mem_singleton.mpr ⟨rfl, fun _ _ => Bindings.surplus_nil _ _⟩
  obtain ⟨-, hread, -⟩ := read_invariant
    (motive := fun scan _ => ∀ frame ∈ scan.frames, schema.Fits scan.bindings frame)
    (fun _ _ _ _ _ => fits_move) hstart
  exact hread

/-! ## Placing -/

/-- The values that wait in a command are its queue, unless the sub-command that was entered
hands something on. -/
theorem queue_eq_pending {deals : List Deal} {deal : Deal} (h : Dealing schema scan after deals)
    (hnodup : (scan.frames.map (·.command)).Nodup) (hdeal : deal ∈ deals)
    (hselected : ∀ child, scan.selected? deal.frame.command = some child →
      (schema.command child).settings.fallthrough = false) :
    deal.queue = deal.frame.pending := by
  obtain ⟨below, above, rfl⟩ := List.append_of_mem hdeal
  rcases List.eq_nil_or_concat below with rfl | ⟨below, inner, rfl⟩
  · exact h.innermost deal rfl
  · have hframes := h.frames
    rw [List.concat_eq_append, List.append_assoc, List.singleton_append] at hframes
    have haround := h.around
    rw [List.concat_eq_append, List.append_assoc, List.singleton_append] at haround
    have hqueue := (List.isChain_append_cons_cons.mp haround).2.1
    have hinner := hselected _ (Scan.selected?_of_frames (by simpa using hframes.symm) hnodup)
    have hplace : schema.destination inner.frame.command ≠ .parent := by
      rw [destination, hinner, Bool.false_and]
      simp only [Bool.false_eq_true, if_false]
      split <;> exact Destination.noConfusion
    rw [hqueue, Deal.leftFor, if_neg hplace, List.append_nil]

/-- The parse of the tokens comes to placing the values that wait. -/
def Settles (schema : Schema) (tokens : List String) : Prop :=
  (schema.read .start tokens).failure = none ∧
    schema.helpRequested? (schema.read .start tokens).scan = none

/-- The values of a frame that its command has no room for once all tokens are read. -/
def surplus (schema : Schema) (tokens : List String) (frame : Frame) : List String :=
  (schema.read .start tokens).scan.bindings.surplus (schema.command frame.command).positionals
    frame.pending

/-- What a parse makes of the values that wait in a frame. The surplus overflows if it has nowhere
else to go, and is there only if a parameter with a limit was mentioned by name. -/
structure Spills (schema : Schema) (tokens : List String) (frame placed : Frame) : Prop where
  overflow : placed.overflow = [] ∨ placed.overflow = schema.surplus tokens frame
  overflow_iff : placed.overflow ≠ [] ↔ schema.Settles tokens ∧
    schema.destination frame.command = .overflow ∧ schema.surplus tokens frame ≠ []
  refused : ∀ innermost b values, schema.violation? placed innermost b =
      some (.positionalOverflow values) → placed.overflow ≠ [] ∧ values = placed.overflow
  missing : schema.Settles tokens → placed.missing = frame.missing ++
    if schema.destination frame.command = .missing then schema.surplus tokens frame else []
  named : schema.surplus tokens frame ≠ [] →
    (schema.read .start tokens).scan.bindings.Named (schema.command frame.command).positionals

theorem overflow_of_violation? {frame : Frame} {innermost : Bool} {b : Bindings}
    {values : List String}
    (h : schema.violation? frame innermost b = some (.positionalOverflow values)) :
    frame.overflow ≠ [] ∧ values = frame.overflow := by
  rcases violation?_cases h with ⟨_, -, -, -, heq⟩ | ⟨hsome, heq⟩ | ⟨-, heq⟩ |
    ⟨_, -, _, -, -, heq⟩ | ⟨_, -, _, -, -, heq⟩ | ⟨-, heq⟩
  · cases heq
  · exact ⟨hsome, ParseError.positionalOverflow.inj heq⟩
  all_goals cases heq

/-- A frame that nothing is handed on to spills its surplus when its values are placed. -/
theorem spills_of_dealing {deals : List Deal} {deal : Deal} (hsettles : schema.Settles tokens)
    (hdealing : Dealing schema (schema.read .start tokens).scan (schema.settle tokens) deals)
    (hdeal : deal ∈ deals) (hempty : deal.frame.overflow = [])
    (hqueue : deal.queue = deal.frame.pending)
    (hnamed : schema.surplus tokens deal.frame ≠ [] →
      (schema.read .start tokens).scan.bindings.Named
        (schema.command deal.frame.command).positionals) :
    schema.Spills tokens deal.frame deal.placed := by
  have hfair := hdealing.fair deal hdeal
  have hleft : deal.left = schema.surplus tokens deal.frame := by
    rw [hfair.dealt.left_eq, hqueue, surplus]
  have hoverflow : deal.placed.overflow =
      if schema.destination deal.frame.command = .overflow then schema.surplus tokens deal.frame
      else [] := by
    rw [hfair.placed, ← hleft]
    show deal.frame.overflow ++ _ = _
    rw [hempty, List.nil_append, Deal.leftFor]
  have hmissing : deal.placed.missing = deal.frame.missing ++
      if schema.destination deal.frame.command = .missing then schema.surplus tokens deal.frame
      else [] := by
    rw [hfair.placed, ← hleft]
    rfl
  refine ⟨?_, ?_, fun _ _ _ => overflow_of_violation?, fun _ => hmissing, hnamed⟩
  · rw [hoverflow]
    split
    · exact Or.inr rfl
    · exact Or.inl rfl
  · rw [hoverflow]
    split
    · next hplace => exact ⟨fun hsurplus => ⟨hsettles, hplace, hsurplus⟩, fun hall => hall.2.2⟩
    · next hplace => exact iff_of_false (not_not_intro rfl) fun hall => hplace hall.2.1

/-- A parse that does not come to placing values leaves the frames as they are. -/
theorem spills_of_not_settles {frame : Frame} (hsettles : ¬schema.Settles tokens)
    (hempty : frame.overflow = [])
    (hnamed : schema.surplus tokens frame ≠ [] →
      (schema.read .start tokens).scan.bindings.Named (schema.command frame.command).positionals) :
    schema.Spills tokens frame frame where
  overflow := Or.inl hempty
  overflow_iff := iff_of_false (not_not_intro hempty) fun hall => hsettles hall.1
  refused := fun _ _ _ => overflow_of_violation?
  missing := fun hyes => absurd hyes hsettles
  named := hnamed

end Schema

namespace Parser

variable {parser : Parser} {world : World} {tokens : List String}

theorem frames_layer : (parser.layer world).1.scan.frames = parser.scan.frames := by
  unfold layer
  dsimp only
  split
  · rfl
  · exact frames_finish

/-- The frames after a parse are those of the settled command line, or those that were read. -/
theorem frames_parse (parser : Parser) (world : World) (tokens : List String) :
    parser.schema.Settles tokens ∧
        (parser.parse world tokens).1.scan.frames = (parser.schema.settle tokens).frames ∨
      ¬parser.schema.Settles tokens ∧ (parser.parse world tokens).1.scan.frames =
        (parser.schema.read .start tokens).scan.frames := by
  unfold Schema.Settles
  cases hhelp : parser.schema.helpRequested? (parser.schema.read .start tokens).scan with
  | some c =>
      refine Or.inr ⟨by simp, ?_⟩
      rw [parse, hhelp]
  | none =>
      cases hread : (parser.schema.read .start tokens).failure with
      | some error =>
          refine Or.inr ⟨by simp, ?_⟩
          rw [parse, hhelp, hread]
          rfl
      | none =>
          refine Or.inl ⟨⟨rfl, rfl⟩, ?_⟩
          rw [parse_of_reads hread hhelp, frames_layer]

theorem commands_parse (parser : Parser) (world : World) (tokens : List String) :
    (parser.parse world tokens).1.scan.frames.map (·.command) =
      (parser.schema.read .start tokens).scan.frames.map (·.command) := by
  rcases parser.frames_parse world tokens with ⟨-, h⟩ | ⟨-, h⟩
  · rw [h, Schema.settle, Schema.commands_place]
  · rw [h]

/-- In a prefix command that nothing is handed on to, values overflow exactly if there is a
surplus when they are placed and it has nowhere else to go. -/
theorem Reachable.surplus_spills (h : Reachable parser) (world : World) (tokens : List String)
    {placed : Frame} (hplaced : placed ∈ (parser.parse world tokens).1.scan.frames)
    (hstopping : (parser.schema.command placed.command).settings.prefixCommand = true)
    (hselected : ∀ child, (parser.parse world tokens).1.selected? placed.command = some child →
      (parser.schema.command child).settings.fallthrough = false) :
    ∃ frame ∈ (parser.schema.read .start tokens).scan.frames,
      frame.command = placed.command ∧ parser.schema.Spills tokens frame placed := by
  have hwf := h.wellFormed
  have hpath := Schema.descends_read hwf (Schema.descends_start hwf) tokens
  have hfits := parser.schema.fits_read tokens
  have hselects : ∀ c, (parser.parse world tokens).1.selected? c =
      (parser.schema.read .start tokens).scan.selected? c := fun c => by
    rw [selected?, Scan.selected?, Scan.path, commands_parse, Scan.selected?, Scan.path]
  have hnamed : ∀ frame ∈ (parser.schema.read .start tokens).scan.frames,
      frame.command = placed.command → parser.schema.surplus tokens frame ≠ [] →
      (parser.schema.read .start tokens).scan.bindings.Named
        (parser.schema.command frame.command).positionals := by
    intro frame hframe hcommand hsurplus
    by_contra hunnamed
    exact hsurplus ((hfits frame hframe).surplus (hcommand ▸ hstopping) hunnamed)
  rcases parser.frames_parse world tokens with ⟨hsettles, hframes⟩ | ⟨hsettles, hframes⟩
  · obtain ⟨deals, hdealing⟩ := Schema.place_dealing hwf hpath
    rw [hframes, Schema.settle, ← hdealing.placed] at hplaced
    obtain ⟨deal, hdeal, rfl⟩ := List.mem_map.mp hplaced
    have hframe : deal.frame ∈ (parser.schema.read .start tokens).scan.frames :=
      hdealing.frames ▸ List.mem_map_of_mem hdeal
    have hcommand : deal.frame.command = deal.placed.command := by
      rw [(hdealing.fair deal hdeal).placed]
    have hqueue : deal.queue = deal.frame.pending :=
      Schema.queue_eq_pending hdealing (Schema.nodup_frames hwf hpath) hdeal fun child hchild =>
        hselected child (by rw [hselects, ← hcommand, hchild])
    exact ⟨deal.frame, hframe, hcommand, Schema.spills_of_dealing hsettles hdealing hdeal
      (hfits _ hframe).overflow hqueue (hnamed _ hframe hcommand)⟩
  · rw [hframes] at hplaced
    exact ⟨placed, hplaced, rfl, Schema.spills_of_not_settles hsettles
      (hfits placed hplaced).overflow (hnamed placed hplaced rfl)⟩

/-- A wrapper of other commands, with a file that is given by name or by position. -/
def overtakingCalls : List Call :=
  [.set .root .prefixCommand true,
    .add .root { names := "-f,FILE", binding := .values (.exactly 1) }]

theorem reachable_overtakingCalls : Reachable ((ofProgram "tool").afterAll overtakingCalls) :=
  (reachable_ofProgram "tool").afterAll (by decide +kernel)

/-- The first value waits, and then the file is mentioned. -/
theorem surplus_spills_overtaken :
    let parser := (ofProgram "tool").afterAll overtakingCalls
    ∃ frame ∈ (parser.schema.read .start ["a", "-f", "b"]).scan.frames,
      parser.schema.surplus ["a", "-f", "b"] frame = ["a"] ∧
        parser.schema.Spills ["a", "-f", "b"] frame { command := .root, overflow := ["a"] } := by
  intro parser
  have hplaced : { command := .root, overflow := ["a"] } ∈
      (parser.parse {} ["a", "-f", "b"]).1.scan.frames := by decide +kernel
  have hselected : (parser.parse {} ["a", "-f", "b"]).1.selected? .root = none := by decide +kernel
  obtain ⟨frame, hframe, -, hspills⟩ :=
    reachable_overtakingCalls.surplus_spills {} ["a", "-f", "b"] hplaced (by decide +kernel)
      (fun child hchild => by cases hselected.symm.trans hchild)
  have hsurplus := hspills.overflow.resolve_left (List.cons_ne_nil _ _)
  exact ⟨frame, hframe, hsurplus.symm, hspills⟩

/-- The mention comes too late for the value that waits: it overflows. -/
theorem value_overtaken :
    ¬∀ parser, Reachable parser → ∀ world tokens,
      ∀ frame ∈ (parser.parse world tokens).1.scan.frames,
        (parser.schema.command frame.command).settings.prefixCommand = true →
        (∀ child, (parser.parse world tokens).1.selected? frame.command = some child →
          (parser.schema.command child).settings.fallthrough = false) →
        frame.overflow = [] := by
  intro hclaim
  have hframes : (((ofProgram "tool").afterAll overtakingCalls).parse {} ["a", "-f", "b"]).1.scan =
      { current := { command := .root, overflow := ["a"] }, bindings := ⟨[(⟨1⟩, ["b"])]⟩ } := by
    decide +kernel
  have hempty := hclaim _ reachable_overtakingCalls {} ["a", "-f", "b"]
    { command := .root, overflow := ["a"] } (by rw [hframes]; exact List.mem_cons_self)
    (by decide +kernel) (fun child hchild => by
      rw [selected?, hframes] at hchild
      cases hchild)
  cases hempty

end Parser

end CommandLine
