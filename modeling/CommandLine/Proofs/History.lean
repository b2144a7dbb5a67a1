import CommandLine.Parser
import CommandLine.Proofs.Edit

/-!
# Histories of a parser

A parser is built and used by calls of its interface (`Call`), which may
come in any order and may fail. `Leads` is any number of them, and
`Reachable` is said of the parsers that a program can have at all.

A call may name any parameter, but only commands that the parser has
given out. To the schema it does nothing but edits (`Next.edits`), so
that a property that edits keep holds of all reachable schemas
(`Reachable.schema_induction`).
-/

namespace CommandLine

namespace Parser

/-- A call that can change a parser. -/
inductive Call where
  | add (c : CommandId) (declaration : Declaration)
  | addSubcommand (c : CommandId) (name : String)
  | setAbout (c : CommandId) (text : String)
  | setFooter (c : CommandId) (text : String)
  | onComplete (c : CommandId) (label : String)
  | set (c : CommandId) (setting : Setting) (value : Bool)
  | replaceHelp (c : CommandId) (names : Option String)
  | relate (relation : Relation) (p q : ParameterId)
  | remove (p : ParameterId)
  | replaceConfig (names : String) (default : Option String) (required : Bool)
  | useFormat (format : ConfigFormat)
  | useFormatter (formatter : Formatter)
  | parse (world : World) (tokens : List String)
  | reset

/-- The command that a call is about. -/
def Call.command? : Call → Option CommandId
  | .add c _ | .addSubcommand c _ | .setAbout c _ | .setFooter c _ | .onComplete c _
  | .set c _ _ | .replaceHelp c _ => some c
  | .relate .. | .remove _ | .replaceConfig .. | .useFormat _ | .useFormatter _ | .parse ..
  | .reset => none

/-- The parser that a call leaves, be it one that fails. -/
def after (parser : Parser) : Call → Parser
  | .add c declaration => (parser.add c declaration).1
  | .addSubcommand c name => (parser.addSubcommand c name).1
  | .setAbout c text => parser.setAbout c text
  | .setFooter c text => parser.setFooter c text
  | .onComplete c label => parser.onComplete c label
  | .set c setting value => (parser.set c setting value).1
  | .replaceHelp c names => (parser.replaceHelp c names).1
  | .relate relation p q => (parser.relate relation p q).1
  | .remove p => (parser.remove p).1
  | .replaceConfig names default required => (parser.replaceConfig names default required).1
  | .useFormat format => { parser with format }
  | .useFormatter formatter => { parser with formatter }
  | .parse world tokens => (parser.parse world tokens).1
  | .reset => parser.reset

/-- The parser that calls leave which are made one after the other. -/
def afterAll (parser : Parser) : List Call → Parser
  | [] => parser
  | call :: calls => (parser.after call).afterAll calls

/-- Each of the calls is about a command that has been given out by then. -/
def admits (parser : Parser) : List Call → Bool
  | [] => true
  | call :: calls =>
    (call.command?.all fun c => decide (parser.schema.Issued c)) && (parser.after call).admits calls

/-- The parser before and after a call that is about a command it has given out. -/
inductive Next (parser : Parser) : Parser → Prop
  | call (call : Call) (hc : ∀ c, call.command? = some c → parser.schema.Issued c) :
      Next parser (parser.after call)

/-- Any number of calls. -/
abbrev Leads : Parser → Parser → Prop := Relation.ReflTransGen Next

/-- The parsers that calls lead to, from the start of a program on. -/
def Reachable (parser : Parser) : Prop := ∃ program, Leads (.ofProgram program) parser

variable {parser next : Parser}

theorem reachable_ofProgram (program : String) : Reachable (.ofProgram program) :=
  ⟨program, .refl⟩

theorem admits_cons {call : Call} {calls : List Call} :
    parser.admits (call :: calls) = true ↔
      (∀ c, call.command? = some c → parser.schema.Issued c) ∧
        (parser.after call).admits calls = true := by
  simp only [admits, Bool.and_eq_true, Option.all_eq_true, decide_eq_true_eq]

theorem leads_afterAll {calls : List Call} (hcalls : parser.admits calls = true) :
    Leads parser (parser.afterAll calls) := by
  induction calls generalizing parser with
  | nil => exact .refl
  | cons call calls ih =>
      obtain ⟨hc, hrest⟩ := admits_cons.mp hcalls
      exact .head (.call call hc) (ih hrest)

theorem Reachable.leads (h : Reachable parser) (hleads : Leads parser next) : Reachable next :=
  h.imp fun _ hstart => hstart.trans hleads

theorem Reachable.afterAll (h : Reachable parser) {calls : List Call}
    (hcalls : parser.admits calls = true) : Reachable (parser.afterAll calls) :=
  h.leads (leads_afterAll hcalls)

/-! ## What calls do to the schema -/

@[simp] theorem schema_finish (world : World) : (parser.finish world).1.schema = parser.schema := by
  unfold finish
  dsimp only
  split <;> rfl

@[simp] theorem schema_layer (world : World) : (parser.layer world).1.schema = parser.schema := by
  unfold layer
  dsimp only
  split
  · rfl
  · rw [schema_finish]

@[simp] theorem schema_parse (world : World) (tokens : List String) :
    (parser.parse world tokens).1.schema = parser.schema := by
  unfold parse
  dsimp only
  split
  · rfl
  · split
    · rfl
    · rw [schema_layer]

theorem edits_commit {outcome : Except DeclarationError Schema}
    (h : ∀ grown, outcome = .ok grown → Schema.Edit parser.schema grown) :
    Schema.Edits parser.schema (parser.commit outcome).1.schema := by
  cases outcome with
  | error error => exact .refl
  | ok grown => exact .single (h grown rfl)

theorem edits_add {c : CommandId} (hc : parser.schema.Issued c) (declaration : Declaration) :
    Schema.Edits parser.schema (parser.add c declaration).1.schema := by
  unfold add
  cases hadd : parser.schema.addParameter c declaration with
  | error error => exact .refl
  | ok added => exact .single (Schema.addParameter_edit hc hadd)

theorem Next.edits (h : Next parser next) (hroot : parser.schema.Issued .root) :
    Schema.Edits parser.schema next.schema := by
  obtain ⟨call, hc⟩ := h
  cases call with
  | add c declaration => exact edits_add (hc c rfl) declaration
  | addSubcommand c name => exact Schema.addSubcommand_edits (hc c rfl) name
  | setAbout c text | setFooter c text | onComplete c label =>
      exact .single
        (.note ⟨fun _ => rfl, fun _ => rfl, fun _ => rfl, fun _ => rfl, fun _ => rfl⟩)
  | set c setting value => exact edits_commit fun _ => Schema.set_edit
  | replaceHelp c names => exact Schema.replaceHelp_edits (hc c rfl) names
  | relate relation p q => exact edits_commit fun _ => Schema.addRelation_edit
  | remove p => exact edits_commit fun _ => Schema.remove_edit
  | replaceConfig names default required =>
      exact Schema.replaceConfig_edits hroot names default required
  | useFormat | useFormatter | reset => exact .refl
  | parse world tokens =>
      rw [after, schema_parse]

theorem Leads.edits (h : Leads parser next) (hroot : parser.schema.Issued .root) :
    Schema.Edits parser.schema next.schema := by
  induction h with
  | refl => exact .refl
  | tail _ hnext ih => exact ih.trans (hnext.edits (ih.issued hroot))

theorem Reachable.edits (h : Reachable parser) :
    ∃ program, Schema.Edits (.bare program) parser.schema := by
  obtain ⟨program, hleads⟩ := h
  have hstart := Schema.ofProgram_edits program
  have hroot : (Schema.ofProgram program).Issued .root :=
    hstart.issued (Schema.issued_bare program)
  exact ⟨program, hstart.trans (hleads.edits hroot)⟩

/-- What holds of a bare program and is kept by every edit holds of all schemas. -/
theorem Reachable.schema_induction {P : Schema → Prop} (hbare : ∀ program, P (.bare program))
    (hedit : ∀ schema grown, P schema → Schema.Edit schema grown → P grown)
    (h : Reachable parser) : P parser.schema := by
  obtain ⟨program, hedits⟩ := h.edits
  generalize parser.schema = schema at hedits ⊢
  induction hedits with
  | refl => exact hbare program
  | tail _ hlast ih => exact hedit _ _ ih hlast

/-! ## A history -/

/-- Calls some of which are refused: names are taken, once because of the case that the
root ignores, and there is no parameter 9. The help flag of `run` is lost on the way. -/
def mixedCalls : List Call :=
  [.addSubcommand .root "run", .set .root .ignoreCase true, .addSubcommand .root "RUN",
    .add ⟨1⟩ { names := "-f,--force", binding := .values (.exactly 0) },
    .add .root { names := "-q,--quiet", binding := .values (.exactly 0) },
    .relate .requires ⟨2⟩ ⟨3⟩, .replaceConfig "--config" none false,
    .add ⟨1⟩ { names := "-F", binding := .values (.exactly 1) }, .set ⟨1⟩ .ignoreCase true,
    .replaceHelp ⟨1⟩ (some "-f"), .remove ⟨9⟩, .parse {} ["Run", "-f", "-q"]]

theorem reachable_mixedCalls : Reachable ((ofProgram "tool").afterAll mixedCalls) :=
  (reachable_ofProgram "tool").afterAll (by decide +kernel)

end Parser

end CommandLine
