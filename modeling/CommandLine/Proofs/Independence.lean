import CommandLine.Proofs.Kinds

/-!
# Parsing again

A parse starts from what has been declared, and not from what an earlier
parse has found. Only the variables remember earlier parses, since
collections and counters go on from what they hold; but of a variable a
parse sees no more than the type that its texts are converted to
(`Variables.Alike`), and that never changes.

So two parsers that agree up to the contents of their variables go
through a parse in lockstep, with the same result and the same commands
and values found (`Parser.Alike.parse`). Any number of parses and resets
leaves such a parser, whatever has become of each of them
(`Reachable.alike`).
-/

namespace CommandLine

/-! ## Variables -/

namespace Field

variable {field other : Field}

/-- The type of a variable decides which texts it refuses, and why. -/
theorem map_store (text : String) (field : Field) :
    (field.store text).map type? =
      match field.type? with
      | some type => (store.convert text type).map fun _ => some type
      | none => .ok none := by
  cases field with
  | switch | counter => rfl
  | scalar type | optional type | collection type =>
      simp only [store, type?]
      cases store.convert text type <;> rfl

theorem lockstep_storeAll (texts : List String) :
    Attempt.Lockstep (fun field other : Field => field.type? = other.type?)
      (storeAll texts) (storeAll texts) := by
  refine Attempt.lockstep_each fun text _ field other htype => ?_
  have hstore : (field.store text).map type? = (other.store text).map type? := by
    rw [map_store, map_store, htype]
  rcases hfield : field.store text with fault | stored <;>
    rcases hother : other.store text with fault' | stored' <;> rw [hfield, hother] at hstore
  · exact ⟨htype, congrArg Except.error (Except.error.inj hstore)⟩
  · cases hstore
  · cases hstore
  · exact ⟨Except.ok.inj hstore, rfl⟩

end Field

namespace Variables

variable {vs ws : Variables} {p : ParameterId} {field other new new' : Field}

/-- The same variables are bound, to values of the same types. -/
abbrev Alike : Variables → Variables → Prop := SameBy Field.type?

theorem Alike.symm (h : vs.Alike ws) : ws.Alike vs := fun q => (h q).symm

theorem Alike.set (h : vs.Alike ws) (hnew : new.type? = new'.type?) :
    (vs.set p new).Alike (ws.set p new') := by
  intro q
  by_cases hq : q = p
  · subst hq
    have hbound : (ws.find? q).isSome = (vs.find? q).isSome := by
      simpa using congrArg Option.isSome (h q)
    rw [find?_set_self, find?_set_self, Option.map_map, Option.map_map]
    cases hvs : vs.find? q <;> cases hws : ws.find? q <;> simp_all
  · rw [find?_set_of_ne hq, find?_set_of_ne hq]
    exact h q

/-- The variable of a parameter in one list and in the other. -/
theorem Alike.cases (h : vs.Alike ws) (p : ParameterId) :
    vs.find? p = none ∧ ws.find? p = none ∨
      ∃ field other, vs.find? p = some field ∧ ws.find? p = some other ∧
        field.type? = other.type? := by
  have heq := h p
  cases hvs : vs.find? p with
  | none =>
      rw [hvs, Option.map_none, Option.map_eq_none_iff] at heq
      exact Or.inl ⟨rfl, heq⟩
  | some field =>
      rw [hvs, Option.map_some, Option.map_eq_some_iff] at heq
      obtain ⟨other, hother, htype⟩ := heq
      exact Or.inr ⟨field, other, rfl, hother, htype.symm⟩

end Variables

/-! ## Delivering -/

/-- The same values have been found, for variables of the same types. -/
def Delivery.Alike (d e : Delivery) : Prop := d.bindings = e.bindings ∧ d.vars.Alike e.vars

namespace Parameter

theorem lockstep_write (p : Parameter) (values : List String) :
    Attempt.Lockstep Variables.Alike (p.write values) (p.write values) := by
  intro vs ws h
  rw [write, write]
  rcases h.cases p.id with ⟨hvs, hws⟩ | ⟨field, other, hvs, hws, htype⟩
  · rw [hvs, hws]
    exact ⟨h, rfl⟩
  · rw [hvs, hws]
    obtain ⟨hnew, hend⟩ := Field.lockstep_storeAll values field other htype
    exact ⟨h.set hnew, by simp only [hend]⟩

theorem alike_writeFlag (p : Parameter) (n : Int) {vs ws : Variables} (h : vs.Alike ws) :
    (p.writeFlag n vs).Alike (p.writeFlag n ws) := by
  rw [writeFlag, writeFlag]
  rcases h.cases p.id with ⟨hvs, hws⟩ | ⟨field, other, hvs, hws, htype⟩
  · rw [hvs, hws]
    exact h
  · rw [hvs, hws]
    have hsteady := Field.steady_type?.mentionTimes n
    exact h.set ((hsteady field).trans (htype.trans (hsteady other).symm))

theorem lockstep_deliver (files : FileStore) (p : Parameter) :
    Attempt.Lockstep Delivery.Alike (p.deliver files) (p.deliver files) := by
  rintro ⟨b, vs⟩ ⟨_, ws⟩ ⟨rfl, h⟩
  rw [deliver, deliver]
  dsimp only
  split
  · exact ⟨⟨rfl, h⟩, rfl⟩
  · split
    · rw [deliverFlag, deliverFlag]
      dsimp only
      split
      · exact ⟨⟨rfl, alike_writeFlag p _ h⟩, rfl⟩
      · exact ⟨⟨rfl, h⟩, rfl⟩
    · rw [deliverValues, deliverValues]
      dsimp only
      split
      · exact ⟨⟨rfl, h⟩, rfl⟩
      · split
        · exact ⟨⟨rfl, h⟩, rfl⟩
        · next texts _ =>
            obtain ⟨hvars, hend⟩ := lockstep_write p texts vs ws h
            exact ⟨⟨rfl, hvars⟩, hend⟩

end Parameter

namespace Schema

variable (schema : Schema) (files : FileStore)

theorem lockstep_deliverFrame (frame : Frame) (innermost : Bool) :
    Attempt.Lockstep Delivery.Alike (schema.deliverFrame files frame innermost)
      (schema.deliverFrame files frame innermost) := by
  refine (Attempt.lockstep_each fun p _ => p.lockstep_deliver files).andThen ?_
  -- A command is judged by its values, and these are the same.
  rintro ⟨b, vs⟩ ⟨_, ws⟩ ⟨rfl, h⟩
  exact Attempt.lockstep_failIf _ _ _ ⟨rfl, h⟩

theorem lockstep_deliver (scan : Scan) :
    Attempt.Lockstep Delivery.Alike (schema.deliver files scan) (schema.deliver files scan) :=
  (schema.lockstep_deliverFrame files _ _).andThen
    (Attempt.lockstep_each fun _ _ => schema.lockstep_deliverFrame files _ _)

end Schema

/-! ## The parse -/

namespace Parser

variable {parser later : Parser} {vars : Variables} {world : World} {tokens : List String}

/-- The reports are the same, and so is what has been found. -/
def SameOutcome (outcome other : Parser × Report) : Prop :=
  other.2 = outcome.2 ∧ other.1.scan = outcome.1.scan

theorem finish_alike (scan : Scan) (h : parser.vars.Alike vars) (world : World) :
    SameOutcome (({ parser with scan } : Parser).finish world)
      (({ parser with scan, vars } : Parser).finish world) := by
  have hdeliver := parser.schema.lockstep_deliver world.files scan
    ⟨scan.bindings, parser.vars⟩ ⟨scan.bindings, vars⟩ ⟨rfl, h⟩
  obtain ⟨⟨hbindings, -⟩, hend⟩ := hdeliver
  unfold finish
  dsimp only
  rw [← hbindings, ← hend]
  split
  · exact ⟨rfl, rfl⟩
  · exact ⟨rfl, rfl⟩

theorem layer_alike (scan : Scan) (h : parser.vars.Alike vars) (world : World) :
    SameOutcome (({ parser with scan } : Parser).layer world)
      (({ parser with scan, vars } : Parser).layer world) := by
  unfold layer
  dsimp only
  split
  · exact ⟨rfl, rfl⟩
  · exact finish_alike _ h world

/-- The two differ at most in what they last found and in the contents of their variables. -/
def Alike (parser later : Parser) : Prop :=
  ∃ scan vars, later = { parser with scan, vars } ∧ parser.vars.Alike vars

theorem Alike.refl (parser : Parser) : parser.Alike parser := ⟨_, _, rfl, .refl _⟩

theorem Alike.trans {between : Parser} (h : parser.Alike between) (hrest : between.Alike later) :
    parser.Alike later := by
  obtain ⟨scan, vars, rfl, hvars⟩ := h
  obtain ⟨scan', vars', rfl, hvars'⟩ := hrest
  exact ⟨scan', vars', rfl, hvars.trans hvars'⟩

theorem Alike.parse (h : parser.Alike later) (world : World) (tokens : List String) :
    SameOutcome (parser.parse world tokens) (later.parse world tokens) := by
  obtain ⟨scan, vars, rfl, hvars⟩ := h
  unfold Parser.parse
  dsimp only
  split
  · exact ⟨rfl, rfl⟩
  · split
    · exact ⟨rfl, rfl⟩
    · exact layer_alike _ hvars world

/-! ## Any number of parses -/

/-- A parse leaves all declarations as they are. -/
theorem parse_eq (parser : Parser) (world : World) (tokens : List String) :
    (parser.parse world tokens).1 =
      { parser with
        scan := (parser.parse world tokens).1.scan, vars := (parser.parse world tokens).1.vars } := by
  unfold Parser.parse
  dsimp only
  split
  · rfl
  · split
    · rfl
    · unfold layer finish
      dsimp only
      split
      · rfl
      · split <;> rfl

/-- The parser before and after a call that parses, or that forgets the last parse. -/
inductive Again (parser : Parser) : Parser → Prop
  | parse (world : World) (tokens : List String) : Again parser (parser.parse world tokens).1
  | reset : Again parser parser.reset

theorem Again.alike (h : Again parser later) (hwf : parser.schema.WellFormed) :
    parser.Alike later := by
  cases h with
  | parse world tokens =>
      exact ⟨_, _, parse_eq parser world tokens, sameBy_parse Field.steady_type? hwf world tokens⟩
  | reset => exact ⟨_, _, rfl, .refl _⟩

theorem Reachable.alike (h : Reachable parser) (hagain : Relation.ReflTransGen Again parser later) :
    parser.Alike later := by
  induction hagain with
  | refl => exact .refl parser
  | tail _ hlast ih =>
      have ⟨_, _, heq, _⟩ := ih
      exact ih.trans (hlast.alike (heq ▸ h.wellFormed))

/-- However often a parser has parsed and been reset, and however that ended: the next parse
reports and finds what it would have done at first. Nothing but the contents of the variables is
handed on from one parse to another. -/
theorem Reachable.parse_again (h : Reachable parser)
    (hagain : Relation.ReflTransGen Again parser later) (world : World) (tokens : List String) :
    (later.parse world tokens).2 = (parser.parse world tokens).2 ∧
      (later.parse world tokens).1.scan = (parser.parse world tokens).1.scan :=
  (h.alike hagain).parse world tokens

/-- A level that is checked and changed, files that are collected, and a flag that is counted. -/
def gatheringCalls : List Call :=
  [.add .root { names := "-l", binding := .option (.scalar .string (.string "low"))
                checks := [.append "er", .member ["lower", "higher"] false] },
    .add .root { names := "files", binding := .argument (.collection .string .sequence .any []) },
    .addSubcommand .root "run", .add ⟨1⟩ { names := "-v", binding := .option (.counter 0) }]

/-- Parses that end in every way: without a value, with help, at a check that comes after values
have been changed, and well. -/
def earlierParses : List Call :=
  [.parse {} ["a", "-l"], .parse {} ["run", "-h", "--", "-v"],
    .parse {} ["-l", "wide", "b"], .parse {} ["-l", "low", "c", "run", "-vv"], .reset,
    .parse {} ["d", "run", "--unknown"]]

/-- The count goes on from the earlier parses, and nothing else does. -/
theorem parse_again_gathering :
    let fresh := (ofProgram "tool").afterAll gatheringCalls
    let used := fresh.afterAll earlierParses
    (used.parse {} ["-l", "high", "e", "run", "-v"]).2 =
        (fresh.parse {} ["-l", "high", "e", "run", "-v"]).2 ∧
      (used.parse {} ["-l", "high", "e", "run", "-v"]).1.scan =
        (fresh.parse {} ["-l", "high", "e", "run", "-v"]).1.scan ∧
      (fresh.parse {} ["-l", "high", "e", "run", "-v"]).2.result = .ok .complete ∧
      ((fresh.parse {} ["-l", "high", "e", "run", "-v"]).1.vars.find? ⟨4⟩,
        (used.parse {} ["-l", "high", "e", "run", "-v"]).1.vars.find? ⟨4⟩) =
          (some (.counter 1), some (.counter 3)) := by
  have hreachable : Reachable ((ofProgram "tool").afterAll gatheringCalls) :=
    (reachable_ofProgram "tool").afterAll (by decide +kernel)
  have hagain : Relation.ReflTransGen Again ((ofProgram "tool").afterAll gatheringCalls)
      (((ofProgram "tool").afterAll gatheringCalls).afterAll earlierParses) :=
    .head (.parse _ _) (.head (.parse _ _) (.head (.parse _ _) (.head (.parse _ _)
      (.head .reset (.head (.parse _ _) .refl)))))
  obtain ⟨hreport, hscan⟩ :=
    hreachable.parse_again hagain {} ["-l", "high", "e", "run", "-v"]
  exact ⟨hreport, hscan, by decide +kernel, by decide +kernel⟩

end Parser

end CommandLine
