import CommandLine.Proofs.Delivering
import CommandLine.Proofs.Layers

/-!
# Flags that are set by a text

The configuration file and the environment set a flag by a text, and the
text says how many mentions it stands for (`FlagText.count`). A flag that
has its one value from there is delivered as the text says, with a single
exception: the empty text, which says nothing and would have to be
refused, is taken for a mention on the command line
(`Reachable.flag_text_delivered`).

What is said here about one flag does not depend on what is delivered
besides (`Schema.ComesTo`).
-/

namespace CommandLine

theorem FlagText.count_empty : FlagText.count "" = .error (.notAFlagValue "") := by decide +kernel

/-- A value that is not empty stands for as many mentions as its text says. -/
theorem mentions_of_ne {text : String} (h : text ≠ "") : mentions text = FlagText.count text := by
  rw [mentions, if_neg (by simpa using h)]

namespace Parameter

variable {p : Parameter} {text : String} {files : FileStore} {u : Delivery}

/-- Delivers a flag whose text stands for that number of mentions, or for none. -/
def deliverCount (p : Parameter) (text : String) (count : Except ConversionFault Int) :
    Attempt Delivery ParseError := fun d =>
  match count with
  | .ok n => ({ d with vars := p.writeFlag n d.vars }, .ok ())
  | .error fault => (d, .error (.conversion p.label text fault))

/-- A flag with one value is delivered as often as the value stands for. -/
theorem deliver_of_text (hflag : p.nargs.isFlag = true) (hof : u.bindings.of p.id = [[text]]) :
    p.deliver files u = p.deliverCount text (mentions text) u := by
  have hinvoked : u.bindings.invoked p.id = true := by rw [Bindings.invoked, hof]; rfl
  have hvalues : u.bindings.values p.id = [text] := by rw [Bindings.values, hof]; rfl
  rw [deliver, hinvoked, hflag]
  simp only [Bool.not_true, Bool.false_eq_true, if_false, if_true, deliverFlag, hvalues,
    deliverCount]
  cases hcount : mentions text with
  | error fault => rw [mentionSum, hcount]
  | ok n =>
      obtain ⟨total, hsum, rfl⟩ := mentionSum_singleton hcount
      rw [hsum]

/-- It is delivered as its text says unless that is empty, and else like a mention. -/
theorem deliver_eq_deliverCount (hflag : p.nargs.isFlag = true)
    (hof : u.bindings.of p.id = [[text]]) :
    (p.deliver files u = p.deliverCount text (FlagText.count text) u ↔ text ≠ "") ∧
      (text = "" → p.deliver files u = p.deliverCount text (.ok 1) u) := by
  have hdeliver := @deliver_of_text p text files u hflag hof
  refine ⟨⟨?_, fun hne => ?_⟩, ?_⟩
  · rintro heq rfl
    rw [hdeliver, FlagText.count_empty] at heq
    cases congrArg Prod.snd heq
  · rw [hdeliver, mentions_of_ne hne]
  · rintro rfl
    exact hdeliver

end Parameter

namespace Parser

variable {parser : Parser} {world : World} {tokens : List String} {scan : Scan} {c : CommandId}
  {p : Parameter} {text : String} {u : Delivery}

/-- A text is all that the parameter `p` of the command `c` is supplied with: by one input of one
item of the configuration file, or by its environment variable. -/
def SuppliesText (parser : Parser) (world : World) (tokens : List String) (c : CommandId)
    (p : Parameter) (text : String) : Prop :=
  parser.Supplies world tokens c p [[text]] .configuration ∨
    parser.Supplies world tokens c p [[text]] .environment

/-- The turn of the parameter `p` of the command `c` comes when `u` has been delivered. -/
def Turn (parser : Parser) (world : World) (scan : Scan) (c : CommandId) (p : Parameter)
    (u : Delivery) : Prop :=
  parser.schema.ComesTo world.files scan ⟨scan.bindings, parser.vars⟩ c p u

theorem Gathers.of_suppliesText (h : parser.Gathers world tokens scan)
    (hids : parser.schema.NodupIds) (hp : p ∈ (parser.schema.command c).parameters)
    (htext : parser.SuppliesText world tokens c p text) : scan.bindings.of p.id = [[text]] := by
  have hof := h.of_eq hids hp rfl
  rcases htext with ⟨hopen, -, hinputs⟩ | ⟨hopen, hinputs, hpath, value, hvalue, hone⟩
  · simpa [hopen, Bindings.invoked_eq_false.mp hopen, ← hinputs] using hof
  · obtain rfl : text = value := by simpa using hone
    simpa [hopen, Bindings.invoked_eq_false.mp hopen, hinputs, hpath, Parameter.fromEnvironment,
      hvalue] using hof

/-- Before the turn of a parameter comes nothing has happened to it, and after it nothing does. -/
theorem Gathers.turn (h : parser.Gathers world tokens scan) (hwf : parser.schema.WellFormed)
    (hturn : parser.Turn world scan c p u) :
    u.bindings.of p.id = scan.bindings.of p.id ∧ u.vars.find? p.id = parser.vars.find? p.id ∧
      (parser.parse world tokens).1.vars.find? p.id =
        (p.deliver world.files u).1.vars.find? p.id := by
  obtain ⟨hbefore, hafter⟩ := hturn.cell_eq hwf.nodup (h.nodup_frames hwf)
  rw [h.parse_eq, vars_finish]
  exact ⟨congrArg Prod.fst hbefore, congrArg Prod.snd hbefore, congrArg Prod.snd hafter⟩

/-- An error at the turn of a parameter is the result of the parse. -/
theorem Gathers.turn_error (h : parser.Gathers world tokens scan) (hwf : parser.schema.WellFormed)
    (hturn : parser.Turn world scan c p u) {error : ParseError}
    (hfails : (p.deliver world.files u).2 = .error error) :
    (parser.parse world tokens).2.result = .error error := by
  have hdeliver := hturn.deliver_eq (h.nodup_frames hwf) (by simp [hfails])
  rw [h.parse_eq]
  exact finish_error ((congrArg Prod.snd hdeliver).trans hfails)

theorem Gathers.exists_turn (h : parser.Gathers world tokens scan) (hwf : parser.schema.WellFormed)
    (hcomplete : (parser.parse world tokens).2.result = .ok .complete)
    (hp : p ∈ (parser.schema.command c).parameters) (hc : c ∈ scan.path) :
    ∃ u, parser.Turn world scan c p u := by
  obtain ⟨frame, hframe, rfl⟩ := Schema.mem_path.mp hc
  rw [h.parse_eq] at hcomplete
  obtain ⟨e, he⟩ := Attempt.ok_iff.mp (finish_complete.mp hcomplete)
  obtain ⟨u, -, hturn, -⟩ := Schema.exists_comesTo (h.nodup_frames hwf) he hframe hp
  exact ⟨u, hturn⟩

/-- A flag whose one value is the text of an item or of a variable is delivered as the text says,
if and only if the text is not empty; an empty one counts like a mention. Such a text that says
nothing ends the parse, which is never complete. The variable of the flag is told once how often
it was mentioned, and nothing that is delivered before or behind changes that. -/
theorem Reachable.flag_text_delivered (h : Reachable parser)
    (hgathers : parser.Gathers world tokens scan) (hp : p ∈ (parser.schema.command c).parameters)
    (hflag : p.nargs.isFlag = true) (htext : parser.SuppliesText world tokens c p text) :
    (∀ u, parser.Turn world scan c p u →
      (p.deliver world.files u = p.deliverCount text (FlagText.count text) u ↔ text ≠ "") ∧
      (text = "" → p.deliver world.files u = p.deliverCount text (.ok 1) u)) ∧
    (∀ fault, FlagText.count text = .error fault → text ≠ "" →
      (parser.parse world tokens).2.result ≠ .ok .complete ∧
      ∀ u, parser.Turn world scan c p u →
        (parser.parse world tokens).2.result = .error (.conversion p.label text fault)) ∧
    (∀ n, FlagText.count text = .ok n ∨ text = "" ∧ n = 1 → ∀ u, parser.Turn world scan c p u →
      (parser.parse world tokens).1.vars.find? p.id =
        (parser.vars.find? p.id).map (·.mentionTimes n)) ∧
    ((parser.parse world tokens).2.result = .ok .complete →
      ∃ u, parser.Turn world scan c p u) := by
  have hwf := h.wellFormed
  have hof := hgathers.of_suppliesText hwf.nodup hp htext
  have hpath : c ∈ scan.path := hgathers.mem_path_of_invoked hwf hp (by
    rw [Bindings.invoked, hof]
    rfl)
  have hdeliver : ∀ u, parser.Turn world scan c p u →
      (p.deliver world.files u = p.deliverCount text (FlagText.count text) u ↔ text ≠ "") ∧
        (text = "" → p.deliver world.files u = p.deliverCount text (.ok 1) u) := fun u hturn =>
    p.deliver_eq_deliverCount hflag ((hgathers.turn hwf hturn).1.trans hof)
  have hcomes := fun hcomplete => hgathers.exists_turn hwf hcomplete hp hpath
  have hrefused : ∀ fault, FlagText.count text = .error fault → text ≠ "" →
      ∀ u, parser.Turn world scan c p u →
        (parser.parse world tokens).2.result = .error (.conversion p.label text fault) := by
    intro fault hcount hne u hturn
    refine hgathers.turn_error hwf hturn ?_
    rw [(hdeliver u hturn).1.mpr hne, hcount]
    rfl
  refine ⟨hdeliver, fun fault hcount hne => ⟨fun hcomplete => ?_, hrefused fault hcount hne⟩,
    fun n hcount u hturn => ?_, hcomes⟩
  · obtain ⟨u, hturn⟩ := hcomes hcomplete
    rw [hrefused fault hcount hne u hturn] at hcomplete
    cases hcomplete
  · obtain ⟨-, hold, hnew⟩ := hgathers.turn hwf hturn
    have hcounted : p.deliver world.files u = p.deliverCount text (.ok n) u := by
      rcases hcount with hcount | ⟨hempty, rfl⟩
      · have hne : text ≠ "" := by
          rintro rfl
          cases hcount.symm.trans FlagText.count_empty
        rw [(hdeliver u hturn).1.mpr hne, hcount]
      · exact (hdeliver u hturn).2 hempty
    rw [hnew, hcounted, ← hold]
    exact Parameter.find?_writeFlag_self

/-- A counter that can be set in all three ways. -/
def counterCalls : List Call :=
  [.replaceConfig "--config" none false,
    .add .root { names := "-v,--verbose", binding := .option (.counter 0), env := some "VERBOSE" }]

/-- A numeral in the file, which is the more that the counter gets, and a variable that says
nothing. -/
theorem flag_text_delivered_counter :
    let parser := (ofProgram "tool").afterAll counterCalls
    let filed : World := { files := ({} : FileStore).writeFile "saved" "verbose = 3".toUTF8 }
    let often : World := { environment := [("VERBOSE", "often")] }
    (parser.parse filed ["--config", "saved"]).1.vars.find? ⟨2⟩ = some (.counter 3) ∧
      (parser.parse often []).2.result =
        .error (.conversion "--verbose" "often" (.notAFlagValue "often")) := by
  intro parser filed often
  have hreachable : Reachable parser := (reachable_ofProgram "tool").afterAll (by decide +kernel)
  let p := (parser.schema.command .root).parameters.get ⟨2, by decide +kernel⟩
  have hp : p ∈ (parser.schema.command .root).parameters := List.get_mem _ _
  have hflag : p.nargs.isFlag = true := by decide +kernel
  constructor
  · have hgathers : parser.Gathers filed ["--config", "saved"] _ :=
      gathers_gathered (by decide +kernel) (by decide +kernel) (by decide +kernel)
    have htext : parser.SuppliesText filed ["--config", "saved"] .root p "3" :=
      Or.inl ⟨by decide +kernel, by decide +kernel, by decide +kernel⟩
    obtain ⟨-, -, hcounted, hturn⟩ :=
      hreachable.flag_text_delivered hgathers hp hflag htext
    obtain ⟨u, hturn⟩ := hturn (by decide +kernel)
    have hcount : FlagText.count "3" = .ok 3 := by decide +kernel
    exact (hcounted 3 (Or.inl hcount) u hturn).trans (by decide +kernel)
  · let scan := parser.gathered often []
    have hgathers : parser.Gathers often [] scan :=
      gathers_gathered (by decide +kernel) (by decide +kernel) (by decide +kernel)
    have htext : parser.SuppliesText often [] .root p "often" :=
      Or.inr ⟨by decide +kernel, by decide +kernel, by decide +kernel, "often", by decide +kernel,
        rfl⟩
    obtain ⟨-, hrefused, -, -⟩ :=
      hreachable.flag_text_delivered hgathers hp hflag htext
    have hcount : FlagText.count "often" = .error (.notAFlagValue "often") := by decide +kernel
    have hframes : scan.frames = [] ++ scan.current :: scan.outer := rfl
    have hturn : parser.Turn often scan .root p ⟨scan.bindings, parser.vars⟩ :=
      .intro hframes (by decide +kernel)
        (List.take_append_drop 2 (parser.schema.command .root).parameters).symm rfl
        (by decide +kernel)
    exact (hrefused _ hcount (by decide)).2 _ hturn

/-- A variable or an item with an empty text counts like a mention, though such a text is none that
a flag could have. -/
theorem empty_text_counted :
    let parser := (ofProgram "tool").afterAll counterCalls
    let unset : World := { environment := [("VERBOSE", "")] }
    let filed : World := { files := ({} : FileStore).writeFile "saved" "verbose = \"\"".toUTF8 }
    FlagText.count "" = .error (.notAFlagValue "") ∧
      ∃ p ∈ (parser.schema.command .root).parameters, p.nargs.isFlag = true ∧
        (parser.SuppliesText unset [] .root p "" ∧
          (parser.parse unset []).2.result = .ok .complete ∧
          (parser.parse unset []).1.vars.find? p.id = some (.counter 1)) ∧
        parser.SuppliesText filed ["--config", "saved"] .root p "" ∧
        (parser.parse filed ["--config", "saved"]).2.result = .ok .complete ∧
        (parser.parse filed ["--config", "saved"]).1.vars.find? p.id = some (.counter 1) := by
  intro parser unset filed
  refine ⟨FlagText.count_empty, (parser.schema.command .root).parameters.get ⟨2, by decide +kernel⟩,
    List.get_mem _ _, by decide +kernel, ⟨Or.inr ?_, by decide +kernel⟩, Or.inl ?_,
    by decide +kernel⟩
  · exact ⟨by decide +kernel, by decide +kernel, by decide +kernel, "", by decide +kernel, rfl⟩
  · exact ⟨by decide +kernel, by decide +kernel, by decide +kernel⟩

end Parser

end CommandLine
