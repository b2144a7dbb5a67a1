import CommandLine.Proofs.Confinement
import CommandLine.Proofs.Consumption
import CommandLine.Proofs.ItemRoutes
import CommandLine.Proofs.Spelling

/-!
# Declared names lead to their parameters

A name is looked at four times: when it is declared, when a token is taken
apart, when a mention is looked up from the command that reads it, and when
somebody asks for the parameter later. All four agree on the names that
have been declared.

- **queries** (`Command.named?_written`): written with its dashes, a name is
  looked up among the names of its kind only, and no other parameter of the
  command answers to it.
- **tokens** (`Dashed.ofChars?_written`): what a declared name may hold lets a
  token be taken apart just where it was put together.
- **mentions** (`Schema.meant?_of_mem_parts`): the command that reads the token
  comes before all those that it could leave the name to.

So the mention is recorded where the name was declared, unless it starves
(`Schema.Mentions`, `Reachable.declared_names_lead`).
-/

namespace CommandLine

variable {schema : Schema} {c : CommandId} {p : Parameter} {part : NamePart}

/-! ## Queries -/

namespace Command

variable {command : Command}

/-- With its dashes, a name is looked up among the names of its kind. A positional name has none,
but comes first among all those without. -/
theorem named?_written (hpart : part.Valid) (h : command.lookup? part = some p) :
    command.named? part.written = some p := by
  cases part with
  | short c =>
      have hdash : c ≠ '-' := ne_dash_of_canStartName hpart
      rw [← h, named?, NamePart.toList_written_short]
      split
      · next heq =>
          cases heq
          exact absurd rfl hdash
      · next heq =>
          cases heq
          rfl
      · next hplain => exact absurd rfl (hplain [c])
  | long name =>
      rw [← h, named?, NamePart.toList_written_long]
      exact congrArg command.long? String.ofList_toList
  | positional name =>
      have hfound : command.positional? name = some p := h
      rw [NamePart.written, named?_of_undashed hpart, hfound]
      rfl

end Command

/-! ## Tokens -/

namespace Dashed

/-- The token that mentions the name, with what stands behind it. -/
def written : Dashed → String
  | .long name none => s!"--{name}"
  | .long name (some value) => s!"--{name}={value}"
  | .short name attached => String.ofList ('-' :: name :: attached)

/-- A token is taken apart where it was put together. -/
theorem ofChars?_written {name : Dashed} (h : name.part.Valid) :
    ofChars? name.written.toList = some name := by
  cases name with
  | long name value =>
      have hname : isName name.toList = true := h
      have hstart := canStartName_of_isName hname
      have hequals := equals_not_mem_of_isName hname
      cases value with
      | none => simpa [written, toString] using ofChars?_long hstart hequals
      | some value =>
          simpa [written, toString] using ofChars?_long_equals value.toList hstart hequals
  | short name attached =>
      rw [written, String.toList_ofList]
      exact ofChars?_eq_short.mpr ⟨rfl, h⟩

end Dashed

namespace Schema

variable {scan : Scan} {rest : List String} {name : Dashed}

/-- What comes of a token that mentions a parameter: this is recorded for it, once, with the values
that the token and those behind it give, or there are too few of them. -/
inductive Mentions (schema : Schema) (scan : Scan) (name : Dashed) (p : Parameter)
    (rest : List String) : Step → Prop
  | flag (hflag : p.nargs.isFlag = true) :
      Mentions schema scan name p rest
        (.next (scan.record p.id [name.flagValue]) (name.pushedBack ++ rest))
  | values {taken left : List String} (hflag : p.nargs.isFlag = false)
      (hrest : rest = taken ++ left)
      (hsize : ∀ n, p.nargs.capacity = some n → (name.value?.toList ++ taken).length = n)
      (hplain : p.nargs.capacity = none → ∀ t ∈ taken, schema.isPlain scan t = true) :
      Mentions schema scan name p rest (.next (scan.record p.id (name.value?.toList ++ taken)) left)
  | lacking {n : Nat} (hnargs : p.nargs = .exactly n)
      (hfew : (name.value?.toList ++ rest).length < n) :
      Mentions schema scan name p rest
        (.stuck (.argumentMismatch p.label (.exactly n) (name.value?.toList ++ rest).length) [])

theorem mentions_of_meant {text : String} (htoken : schema.token scan text = .dashed name)
    (hp : schema.meant? scan.current.command name = some p) :
    schema.Mentions scan name p rest (schema.step scan text rest) := by
  rw [step_of_meant rest htoken hp]
  split
  · next hflag => exact .flag hflag
  · next hflag =>
      rw [Bool.not_eq_true] at hflag
      match hmention : schema.mention scan p name.value? rest with
      | .next after left =>
          obtain ⟨taken, hrest, rfl, hsize, hplain⟩ := eq_of_mention hflag hmention
          exact .values hflag hrest hsize hplain
      | .stuck error left =>
          obtain ⟨rfl, n, hnargs, hfew, rfl⟩ := stuck_of_mention hmention
          exact .lacking hnargs hfew

/-- A command reads its own names before any that it could leave to its parent. -/
theorem meant?_of_mem_parts (hdistinct : ∀ c, schema.Distinct c) (hids : schema.NodupIds)
    (hp : p ∈ (schema.command c).parameters) (hpart : name.part ∈ p.names.parts) :
    schema.meant? c name = some p :=
  (meant?_eq_some_iff hdistinct hids).mpr
    ⟨[], c, (schema.command c).ancestors, rfl, nofun, hp, Command.answers_of_mem_parts hpart⟩

end Schema

namespace Parser

variable {parser : Parser}

/-- Every name that a parameter was declared with finds it, and tells how often it was mentioned.
A token that mentions it by one of its dashed names, with anything behind the name, is taken apart
into the two again where the command reads it, and recorded for the parameter. -/
theorem Reachable.declared_names_lead (h : Reachable parser)
    (hp : p ∈ (parser.schema.command c).parameters) :
    (∀ part ∈ p.names.parts,
        (parser.schema.command c).named? part.written = some p ∧
          parser.count c part.written = .ok (parser.scan.bindings.count p.id)) ∧
      ∀ scan : Scan, scan.current.command = c → scan.positionalOnly = false →
        ∀ name : Dashed, name.part ∈ p.names.parts →
          parser.schema.child? c name.written = none →
            parser.schema.token scan name.written = .dashed name ∧
              parser.schema.meant? c name = some p ∧
                ∀ rest, parser.schema.Mentions scan name p rest
                  (parser.schema.step scan name.written rest) := by
  have hids := h.wellFormed.nodup
  obtain ⟨-, hvalid⟩ := h.valid_parts c p hp
  constructor
  · intro part hpart
    have hfound : (parser.schema.command c).lookup? part = some p :=
      (Command.lookup?_eq_some_iff (fun name => (h.distinct c).answers_unique hids name) part).mpr
        ⟨hp, Command.answers_of_mem_parts hpart⟩
    have hnamed := Command.named?_written (hvalid part hpart) hfound
    refine ⟨hnamed, ?_⟩
    rw [count, hnamed]
  · rintro scan rfl hmark name hpart hchild
    have htoken : parser.schema.token scan name.written = .dashed name :=
      Schema.token_of_ofChars? hmark hchild (Dashed.ofChars?_written (hvalid _ hpart))
    have hmeant : parser.schema.meant? scan.current.command name = some p :=
      Schema.meant?_of_mem_parts h.distinct hids hp hpart
    exact ⟨htoken, hmeant, fun rest => Schema.mentions_of_meant htoken hmeant⟩

/-- A sub-command that leaves names to the root, and has one of its names for another parameter. -/
def shadowingCalls : List Call :=
  [.add .root { names := "-v", binding := .values (.exactly 0) }, .addSubcommand .root "run",
    .set ⟨1⟩ .fallthrough true,
    .add ⟨1⟩ { names := "-v,--größe,ZIEL", binding := .values (.exactly 1) }]

theorem declared_names_lead_shadowing :
    let parser := (ofProgram "tool").afterAll shadowingCalls
    let p := (parser.schema.command ⟨1⟩).parameters.get ⟨1, by decide +kernel⟩
    let inside := Scan.start.enter ⟨1⟩
    let mention := Dashed.long "größe" (some "a=b")
    (p.names.shorts = ['v'] ∧ p.names.longs = ["größe"] ∧ p.names.positional = some "ZIEL") ∧
      (parser.schema.command ⟨1⟩).named? "-v" = some p ∧ parser.count ⟨1⟩ "ZIEL" = .ok 0 ∧
      mention.written = "--größe=a=b" ∧ parser.schema.token inside "--größe=a=b" = .dashed mention ∧
      parser.schema.meant? ⟨1⟩ mention = some p ∧
      parser.schema.Mentions inside mention p ["-v"]
        (parser.schema.step inside "--größe=a=b" ["-v"]) := by
  intro parser p inside mention
  have hreachable : Reachable parser := (reachable_ofProgram "tool").afterAll (by decide +kernel)
  have hp : p ∈ (parser.schema.command ⟨1⟩).parameters := List.get_mem _ _
  obtain ⟨hqueries, hmentions⟩ := hreachable.declared_names_lead hp
  have hparts : p.names.parts = [.short 'v', .long "größe", .positional "ZIEL"] := by
    decide +kernel
  have hwritten : mention.written = "--größe=a=b" := by decide +kernel
  obtain ⟨htoken, hmeant, hmentions⟩ := hmentions inside rfl rfl mention
    (by rw [hparts]; decide) (by decide +kernel)
  rw [hwritten] at htoken hmentions
  refine ⟨by decide +kernel, ?_, ?_, hwritten, htoken, hmeant, hmentions _⟩
  · exact (hqueries (.short 'v') (by rw [hparts]; decide)).1
  · exact (hqueries (.positional "ZIEL") (by rw [hparts]; decide)).2

end Parser

end CommandLine
