import CommandLine.Proofs.Consumption
import CommandLine.Proofs.Conversion
import CommandLine.Proofs.Path

/-!
# What a parse can fail at

Every error of a parse says something about the command line, the
configuration file or the values; a contradiction within the parser
itself (`ParseError.internal`) is never reported, by no stage of a parse
(`Parser.result_ne_internal`).

`Parser.consumption_ends` is the same about the first stage, in full:
how reading a command line comes to its end, and the only error there is.
-/

namespace CommandLine

/-! ## Attempts -/

namespace Attempt

variable {σ ε α : Type} {P : ε → Prop} {f : α → Attempt σ ε} {first second : Attempt σ ε}

/-- All errors that an attempt can end with have the property. -/
def FailsOnly (P : ε → Prop) (attempt : Attempt σ ε) : Prop :=
  ∀ s error, (attempt s).2 = .error error → P error

theorem failsOnly_failIf {error : Option ε} (h : ∀ e, error = some e → P e) {s : σ} {e : ε}
    (he : (failIf error s).2 = .error e) : P e := by
  cases error with
  | none => cases he
  | some error =>
      cases he
      exact h _ rfl

theorem FailsOnly.andThen (hfirst : FailsOnly P first) (hsecond : FailsOnly P second) :
    FailsOnly P (first.andThen second) := by
  intro s error h
  unfold Attempt.andThen at h
  rcases hs : first s with ⟨t, refusal | ⟨⟨⟩⟩⟩ <;> rw [hs] at h
  · exact hfirst s error (by rw [hs]; exact h)
  · exact hsecond t error h

theorem failsOnly_each {l : List α} (h : ∀ a ∈ l, FailsOnly P (f a)) : FailsOnly P (each f l) := by
  induction l with
  | nil =>
      intro s error hnone
      cases hnone
  | cons a l ih =>
      obtain ⟨ha, hl⟩ := List.forall_mem_cons.mp h
      exact ha.andThen (ih hl)

end Attempt

/-! ## The stages of a parse -/

/-- The error says something about what has been given to the program. -/
def ParseError.IsOutward : ParseError → Prop
  | .internal _ => False
  | _ => True

namespace Parameter

variable {files : FileStore} {p : Parameter}

theorem outward_of_finalValues {invocations : List (List String)} {error : ParseError}
    (h : p.finalValues invocations = .error error) : error.IsOutward := by
  obtain ⟨expected, received, rfl⟩ := mismatch_of_finalValues h
  trivial

theorem failsOnly_write (p : Parameter) (values : List String) :
    Attempt.FailsOnly ParseError.IsOutward (p.write values) := by
  intro vs error h
  obtain ⟨text, fault, rfl⟩ := conversion_of_write h
  trivial

theorem failsOnly_deliver (files : FileStore) (p : Parameter) :
    Attempt.FailsOnly ParseError.IsOutward (p.deliver files) := by
  intro d error h
  unfold deliver at h
  split at h
  · cases h
  · split at h
    · unfold deliverFlag at h
      split at h <;> cases h
      trivial
    · unfold deliverValues at h
      dsimp only at h
      split at h
      · cases h
        trivial
      · split at h
        · next hfinal =>
            cases h
            exact outward_of_finalValues hfinal
        · exact failsOnly_write p _ _ _ h

end Parameter

namespace Schema

variable {schema : Schema} {frame : Frame} {innermost : Bool} {b : Bindings} {error : ParseError}

/-- What a command can be refused for. -/
theorem violation?_cases (h : schema.violation? frame innermost b = some error) :
    (∃ p ∈ (schema.command frame.command).parameters,
      p.required = true ∧ b.invoked p.id = false ∧ error = .required p.label) ∨
    (frame.overflow ≠ [] ∧ error = .positionalOverflow frame.overflow) ∨
    (frame.missing ≠ [] ∧ error = .extras frame.missing) ∨
    (∃ p ∈ (schema.command frame.command).parameters, ∃ q ∈ p.requires,
      b.invoked q = false ∧ error = .requires p.label (schema.labelOf q)) ∨
    (∃ p ∈ (schema.command frame.command).parameters, ∃ q ∈ p.excludes,
      b.invoked q = true ∧ error = .excludes p.label (schema.labelOf q)) ∨
    innermost = true ∧
      error = .requiredSubcommand (" ".intercalate (schema.trail frame.command)) := by
  unfold violation? at h
  simp only [Option.orElse_eq_orElse, Option.orElse_eq_or, Option.or_eq_some_iff,
    Option.map_eq_some_iff] at h
  rcases h with ⟨p, hp, rfl⟩ | ⟨-, h | ⟨-, h | ⟨-, h | ⟨-, h⟩⟩⟩⟩
  · have hlacking := List.find?_some hp
    simp only [Bool.and_eq_true, Bool.not_eq_true'] at hlacking
    exact Or.inl ⟨p, List.mem_of_find?_eq_some hp, hlacking.1, hlacking.2, rfl⟩
  · split at h
    · cases h
    · next hsome =>
        cases h
        exact Or.inr (Or.inl ⟨by simpa using hsome, rfl⟩)
  · split at h
    · cases h
    · next hsome =>
        cases h
        simp only [Bool.or_eq_true, List.isEmpty_iff, not_or] at hsome
        exact Or.inr (Or.inr (Or.inl ⟨hsome.1.1, rfl⟩))
  · obtain ⟨p, hmem, hp⟩ := List.exists_of_findSome?_eq_some h
    unfold relationViolation? at hp
    split at hp
    · cases hp
    · simp only [Option.orElse_eq_orElse, Option.orElse_eq_or, Option.or_eq_some_iff,
        Option.map_eq_some_iff] at hp
      rcases hp with ⟨q, hq, rfl⟩ | ⟨-, q, hq, rfl⟩
      · exact Or.inr (Or.inr (Or.inr (Or.inl ⟨p, hmem, q, List.mem_of_find?_eq_some hq,
          by simpa using List.find?_some hq, rfl⟩)))
      · exact Or.inr (Or.inr (Or.inr (Or.inr (Or.inl ⟨p, hmem, q, List.mem_of_find?_eq_some hq,
          List.find?_some hq, rfl⟩))))
  · split at h
    · next hinnermost =>
        cases h
        simp only [Bool.and_eq_true] at hinnermost
        exact Or.inr (Or.inr (Or.inr (Or.inr (Or.inr ⟨hinnermost.2, rfl⟩))))
    · cases h

theorem outward_of_violation? (h : schema.violation? frame innermost b = some error) :
    error.IsOutward := by
  obtain ⟨_, -, -, -, rfl⟩ | ⟨-, rfl⟩ | ⟨-, rfl⟩ | ⟨_, -, _, -, -, rfl⟩ | ⟨_, -, _, -, -, rfl⟩ |
    ⟨-, rfl⟩ := violation?_cases h
  all_goals trivial

theorem failsOnly_deliverFrame (schema : Schema) (files : FileStore) (frame : Frame)
    (innermost : Bool) :
    Attempt.FailsOnly ParseError.IsOutward (schema.deliverFrame files frame innermost) :=
  (Attempt.failsOnly_each fun p _ => p.failsOnly_deliver files).andThen fun _ _ h =>
    Attempt.failsOnly_failIf (fun _ => outward_of_violation?) h

theorem failsOnly_deliver (schema : Schema) (files : FileStore) (scan : Scan) :
    Attempt.FailsOnly ParseError.IsOutward (schema.deliver files scan) :=
  (schema.failsOnly_deliverFrame files _ _).andThen
    (Attempt.failsOnly_each fun _ _ => schema.failsOnly_deliverFrame files _ _)

theorem outward_of_addItem {path : List CommandId} {given : Bindings} {item : ConfigItem}
    (h : schema.addItem path given item b = .error error) : error.IsOutward := by
  unfold addItem at h
  split at h
  · cases h
  · split at h <;> cases h
    trivial
  · split at h
    · cases h
      trivial
    · split at h
      · cases h
      · split at h <;> cases h
        trivial

theorem failsOnly_layerConfig (schema : Schema) (format : ConfigFormat) (files : FileStore)
    (path : List CommandId) :
    Attempt.FailsOnly ParseError.IsOutward (schema.layerConfig format files path) := by
  intro b error h
  unfold layerConfig at h
  split at h
  · cases h
  · split at h
    · refine Attempt.failsOnly_each (fun item _ b error h => ?_) b error h
      split at h
      · cases h
      · next hadd =>
          cases h
          exact outward_of_addItem hadd
    · split at h <;> cases h
      trivial

end Schema

namespace Parser

variable {parser : Parser} {world : World} {tokens : List String} {error : ParseError}

theorem outward_of_finish (h : (parser.finish world).2.result = .error error) :
    error.IsOutward := by
  unfold finish at h
  dsimp only at h
  split at h
  · next houtcome =>
      cases h
      exact parser.schema.failsOnly_deliver world.files parser.scan _ _ houtcome
  · cases h

theorem outward_of_layer (h : (parser.layer world).2.result = .error error) :
    error.IsOutward := by
  unfold layer at h
  dsimp only at h
  split at h
  · next houtcome =>
      cases h
      exact parser.schema.failsOnly_layerConfig parser.format world.files _ _ _ houtcome
  · exact outward_of_finish h

/-- No stage of a parse fails at the parser itself. -/
theorem result_ne_internal (parser : Parser) (world : World) (tokens : List String)
    (detail : String) : (parser.parse world tokens).2.result ≠ .error (.internal detail) := by
  suffices houtward : ∀ error, (parser.parse world tokens).2.result = .error error →
      error.IsOutward from fun h => houtward _ h
  intro error h
  unfold parse at h
  dsimp only at h
  split at h
  · cases h
  · split at h
    · next hfailure =>
        cases h
        obtain ⟨-, hends⟩ := parser.schema.read_ends .start tokens
        obtain ⟨text, rest, hstep⟩ := hends _ hfailure
        obtain ⟨-, name, p, n, -, rfl⟩ := Schema.stuck_of_step hstep
        trivial
    · exact outward_of_layer h

/-- To read a command line, from whatever command on, is to take all of its tokens in; it fails
only at a parameter that takes a fixed number of values, more than its token brings and than there
are tokens behind it. What the kinds of tokens promise is always there, and so no parse ends with
an internal failure. -/
theorem consumption_ends (parser : Parser) :
    (∀ scan tokens,
      parser.schema.consume scan tokens = parser.schema.read scan tokens ∧
      (parser.schema.consume scan tokens).rest = [] ∧
      ∀ error, (parser.schema.consume scan tokens).failure = some error →
        ∃ text rest name p n, p ∈ parser.schema.parameters ∧
          parser.schema.Starves (parser.schema.consume scan tokens).scan text rest name p n ∧
          error = .argumentMismatch p.label (.exactly n) (name.value?.toList ++ rest).length) ∧
    ∀ world tokens detail, (parser.parse world tokens).2.result ≠ .error (.internal detail) := by
  refine ⟨fun scan tokens => ?_, fun world tokens => parser.result_ne_internal world tokens⟩
  obtain ⟨hrest, hfails⟩ := parser.schema.read_ends scan tokens
  have hsame := parser.schema.consume_eq_read scan tokens
  refine ⟨hsame, hsame ▸ hrest, fun error hfailure => ?_⟩
  rw [hsame] at hfailure ⊢
  obtain ⟨text, rest, hstep⟩ := hfails error hfailure
  obtain ⟨-, name, p, n, hstarves, herror⟩ := Schema.stuck_of_step hstep
  obtain ⟨c, -, hp⟩ := Schema.exists_of_meant? hstarves.meant
  exact ⟨text, rest, name, p, n, Schema.mem_parameters.mpr ⟨c, hp⟩, hstarves, herror⟩

/-- A sub-command that leaves the flag `-v` to the root and takes pairs. -/
def pairCalls : List Call :=
  [.add .root { names := "-v", binding := .values (.exactly 0) }, .addSubcommand .root "run",
    .set ⟨1⟩ .fallthrough true, .add ⟨1⟩ { names := "-p", binding := .values (.exactly 2) }]

/-- What is left of the last token when its flag has been read brings one value of a pair. -/
theorem consumption_ends_halfPair :
    ∃ reading, ((ofProgram "tool").afterAll pairCalls).schema.consume .start ["run", "-vp=1"] =
        reading ∧
      reading.rest = [] ∧ reading.failure = some (.argumentMismatch "-p" (.exactly 2) 1) ∧
      ∃ text rest name p n, p ∈ ((ofProgram "tool").afterAll pairCalls).schema.parameters ∧
        ((ofProgram "tool").afterAll pairCalls).schema.Starves reading.scan text rest name p n ∧
        ParseError.argumentMismatch "-p" (.exactly 2) 1 =
          .argumentMismatch p.label (.exactly n) (name.value?.toList ++ rest).length := by
  obtain ⟨hreads, -⟩ := consumption_ends ((ofProgram "tool").afterAll pairCalls)
  obtain ⟨hsame, hrest, hfails⟩ := hreads .start ["run", "-vp=1"]
  have hfailure : (((ofProgram "tool").afterAll pairCalls).schema.consume .start
      ["run", "-vp=1"]).failure = some (.argumentMismatch "-p" (.exactly 2) 1) := by
    rw [hsame]
    decide +kernel
  exact ⟨_, rfl, hrest, hfailure, hfails _ hfailure⟩

end Parser

end CommandLine
