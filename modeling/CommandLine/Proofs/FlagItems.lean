import CommandLine.Proofs.Minimum

/-!
# What a configuration item keeps of a flag

Every invocation of a flag has one value (`Gathers.single`): nothing for a
plain mention on the command line, else a text. The variable is told the
sum of all of them, which is taken on 64 bits. The item that is written for
the flag has the text of one, the last that has any (`writtenValue`), or
the word for a plain mention. Read again it stands for that one invocation,
so that what the others add up to is lost (`Reachable.flag_item_keeps`).
-/

namespace CommandLine

namespace Bindings

variable {b : Bindings} {p q : ParameterId}

/-- Every invocation of the parameter has one value. -/
abbrev Single (b : Bindings) (p : ParameterId) : Prop := b.Sized p 1

theorem Single.pushEach (h : b.Single p) (q : ParameterId) (values : List String) :
    (b.pushEach q values).Single p := by
  rw [Single, Sized, of_pushEach, List.forall_mem_append]
  refine ⟨h, fun invocation hmem => ?_⟩
  split at hmem
  · obtain ⟨value, -, rfl⟩ := List.mem_map.mp hmem
    rfl
  · cases hmem

theorem Single.values_ne_nil (h : b.Single p) (hinvoked : b.invoked p = true) :
    b.values p ≠ [] := by
  intro hnil
  have hof : b.of p ≠ [] := by simpa [invoked] using hinvoked
  obtain ⟨values, hvalues⟩ := List.exists_mem_of_ne_nil _ hof
  have hlength := h values hvalues
  rw [List.flatten_eq_nil_iff.mp hnil values hvalues] at hlength
  cases hlength

end Bindings

/-! ## One value for each invocation -/

namespace Schema

variable {schema : Schema} {c : CommandId} {p : Parameter}

theorem single_settle (hids : schema.NodupIds) (hp : p ∈ (schema.command c).parameters)
    (hflag : p.nargs.isFlag = true) (tokens : List String) :
    (schema.settle tokens).bindings.Single p.id :=
  place_invariant (motive := fun b => b.Single p.id)
    (fun _ _ q _ _ values h => h.pushEach q.id values)
    (sized_read hids hp (of_decide_eq_true hflag) tokens)

end Schema

namespace Parser

variable {parser after : Parser} {world : World} {tokens : List String} {scan : Scan}
  {c : CommandId} {p : Parameter}

theorem Gathers.single (h : parser.Gathers world tokens scan) (hwf : parser.schema.WellFormed)
    (hp : p ∈ (parser.schema.command c).parameters) (hflag : p.nargs.isFlag = true) :
    scan.bindings.Single p.id := by
  obtain ⟨b, hconfig, rfl⟩ := h.layered
  have hkeep : parser.schema.LayersKeep (parser.schema.settle tokens).path (·.Single p.id) :=
    fun _ _ q hq b values hone hb =>
      hb.push fun hid => hone ((hwf.nodup.unique hq hp hid).2 ▸ hflag)
  have hlayer := hkeep.layerConfig (root_mem_path hwf tokens)
    (Schema.single_settle hwf.nodup hp hflag tokens) parser.format world.files
  rw [hconfig] at hlayer
  exact hkeep.layerEnvironment hlayer world

end Parser

/-! ## The value that is written -/

section Written

variable {value : String} {values : List String} {n : Int64}

/-- The value of a flag that is written to its item: the last with a text, or a plain mention. -/
def writtenValue (values : List String) : String := (values.filter (!·.isEmpty)).getLast?.getD ""

theorem writtenValue_mem (h : values ≠ []) : writtenValue values ∈ values := by
  unfold writtenValue
  cases hlast : (values.filter (!·.isEmpty)).getLast? with
  | some value => exact List.mem_of_mem_filter (List.mem_of_getLast? hlast)
  | none =>
      obtain ⟨value, hvalue⟩ := List.exists_mem_of_ne_nil _ h
      have hempty := List.filter_eq_nil_iff.mp (List.getLast?_eq_none_iff.mp hlast) value hvalue
      have hnil : value = "" := by simpa using hempty
      exact hnil ▸ hvalue

/-- The text on the item stands for as many mentions as the value. -/
theorem mentions_flagInput (values : List String) :
    mentions (Parser.flagInput values) = mentions (writtenValue values) := by
  unfold Parser.flagInput writtenValue
  cases (values.filter (!·.isEmpty)).getLast? with
  | some value => rfl
  | none => decide +kernel

/-- The sum of the mentions is that of one value and that of all others. -/
theorem mentionSum_erase (hmem : value ∈ values) (h : mentionSum values = .ok n) :
    ∃ kept lost, mentions value = .ok kept ∧ mentionSum (values.erase value) = .ok lost ∧
      n = Int64.ofInt kept + lost := by
  induction values generalizing n with
  | nil => cases hmem
  | cons first values ih =>
      obtain ⟨count, more, hfirst, hmore, rfl⟩ := mentionSum_cons_eq_ok.mp h
      by_cases heq : first = value
      · subst heq
        exact ⟨count, more, hfirst, by rwa [List.erase_cons_head], rfl⟩
      · obtain ⟨kept, lost, hkept, hlost, rfl⟩ :=
          ih ((List.mem_cons.mp hmem).resolve_left (Ne.symm heq)) hmore
        refine ⟨kept, Int64.ofInt count + lost, hkept, ?_, by ac_rfl⟩
        rw [List.erase_cons_tail (by simpa using heq)]
        exact mentionSum_cons_eq_ok.mpr ⟨count, lost, hfirst, hlost, rfl⟩

end Written

namespace Parser

variable {parser after : Parser} {world : World} {tokens : List String} {c : CommandId}
  {p : Parameter} {report : Report}

/-- What a complete parse has done about a flag that has invocations. -/
theorem Gathers.flag_delivered {scan : Scan} (h : parser.Gathers world tokens scan)
    (hwf : parser.schema.WellFormed)
    (hcomplete : (parser.parse world tokens).2.result = .ok .complete)
    (hp : p ∈ (parser.schema.command c).parameters) (hflag : p.nargs.isFlag = true)
    (hinvoked : scan.bindings.invoked p.id = true) :
    (parser.parse world tokens).1.scan.bindings.of p.id = scan.bindings.of p.id ∧
      ∃ total, mentionSum (scan.bindings.values p.id) = .ok total ∧
        (parser.parse world tokens).1.vars.find? p.id =
          (parser.vars.find? p.id).map (·.mentionTimes total.toInt) := by
  obtain ⟨u, v, hdeliver, ⟨huOf, huFind⟩, hvOf, hvFind⟩ := h.delivered hwf hcomplete hp hinvoked
  have hu : u.bindings.invoked p.id = true := by rwa [Bindings.invoked, huOf]
  obtain ⟨total, hsum, rfl⟩ := (Parameter.deliver_eq_ok_of_flag hu hflag).mp hdeliver
  refine ⟨hvOf.trans huOf, total, ?_, ?_⟩
  · rwa [Bindings.values, ← huOf]
  · rw [hvFind, ← huFind]
    exact Parameter.find?_writeFlag_self

/-- After a complete parse the variable of a flag has been told the sum of its mentions. The item
that is written for the flag has one input, which stands for what one of the values adds to the
sum; so the sum is kept if and only if the other values add up to nothing. -/
theorem Reachable.flag_item_keeps (h : Reachable parser)
    (hparse : parser.parse world tokens = (after, report))
    (hcomplete : report.result = .ok .complete)
    (hp : p ∈ (parser.schema.command c).parameters) (hflag : p.nargs.isFlag = true)
    {parents : List String} {item : ConfigItem} (hitem : after.configItem? parents p = some item) :
    let values := after.scan.bindings.values p.id
    ∃ total lost, mentionSum values = .ok total ∧
      after.vars.find? p.id = (parser.vars.find? p.id).map (·.mentionTimes total.toInt) ∧
      mentionSum (values.erase (writtenValue values)) = .ok lost ∧
      item.inputs.length = 1 ∧ mentionSum item.inputs = .ok (total - lost) ∧
      (mentionSum item.inputs = mentionSum values ↔ lost = 0) := by
  intro values
  have hwf := h.wellFormed
  have hafter : (parser.parse world tokens).1 = after := by rw [hparse]
  have hreport : (parser.parse world tokens).2 = report := by rw [hparse]
  subst hafter hreport
  obtain ⟨scan, hgathers⟩ := (parser.gathers_or_unfinished world tokens).resolve_right
    fun hunfinished => hunfinished.2 hcomplete
  obtain ⟨⟨-, hinvoked⟩, heq⟩ := configItem?_eq_some.mp hitem
  have hinputs : item.inputs = [flagInput values] := by rw [heq, hflag, if_pos rfl]
  have hinvoked : scan.bindings.invoked p.id = true :=
    ((hgathers.touches hwf).invoked p.id).symm.trans hinvoked
  obtain ⟨hof, total, hsum, hfield⟩ :=
    hgathers.flag_delivered hwf hcomplete hp hflag hinvoked
  have hvalues : values = scan.bindings.values p.id := congrArg List.flatten hof
  have hne : values ≠ [] :=
    hvalues ▸ (hgathers.single hwf hp hflag).values_ne_nil hinvoked
  rw [← hvalues] at hsum
  obtain ⟨kept, lost, hkept, hlost, rfl⟩ := mentionSum_erase (writtenValue_mem hne) hsum
  have hread : mentionSum item.inputs = .ok (Int64.ofInt kept) := by
    rw [hinputs]
    exact mentionSum_cons_eq_ok.mpr
      ⟨kept, 0, by rw [mentions_flagInput, hkept], rfl, (Int64.add_zero _).symm⟩
  refine ⟨Int64.ofInt kept + lost, lost, hsum, hfield, hlost, by rw [hinputs]; rfl, ?_, ?_⟩
  · rw [hread, Int64.add_sub_cancel]
  · rw [hread, hsum, Except.ok.injEq, Int64.left_eq_add]

def countingCalls : List Call :=
  [.replaceConfig "--config" none false,
    .add .root { names := "-v,--verbose", binding := .option (.counter 0) }]

/-- The first two mentions cancel each other, so that the text of the last says it all. -/
theorem flag_item_keeps_last :
    let parser := (ofProgram "tool").afterAll countingCalls
    let after := (parser.parse {} ["--verbose=on", "--verbose=off", "--verbose=3"]).1
    ∃ p ∈ (parser.schema.command .root).parameters, ∃ item, after.configItem? [] p = some item ∧
      item.inputs = ["3"] ∧
      mentionSum item.inputs = mentionSum (after.scan.bindings.values p.id) ∧
      after.vars.find? p.id = some (.counter 3) := by
  intro parser after
  have hreachable : Reachable parser := (reachable_ofProgram "tool").afterAll (by decide +kernel)
  have hcomplete : (parser.parse {} ["--verbose=on", "--verbose=off", "--verbose=3"]).2.result =
      .ok .complete := by decide +kernel
  let p := (parser.schema.command .root).parameters.get ⟨2, by decide +kernel⟩
  have hp : p ∈ (parser.schema.command .root).parameters := List.get_mem _ _
  have hitem : after.configItem? [] p = some ⟨[], "verbose", ["3"]⟩ := by decide +kernel
  obtain ⟨total, lost, -, -, hlost, -, -, hkept⟩ :=
    hreachable.flag_item_keeps Prod.mk.eta.symm hcomplete hp (by decide +kernel) hitem
  have hothers : mentionSum ((after.scan.bindings.values p.id).erase
      (writtenValue (after.scan.bindings.values p.id))) = .ok 0 := by decide +kernel
  exact ⟨p, hp, _, hitem, rfl, hkept.mpr (Except.ok.inj (hlost.symm.trans hothers)),
    by decide +kernel⟩

/-- Two mentions are written as if there had been one, and the counter that is reloaded from that
file shows it. -/
theorem repeated_flag_lost :
    let parser := (ofProgram "tool").afterAll countingCalls
    let after := (parser.parse {} ["-vv"]).1
    let reloading : World := { files := ({} : FileStore).writeFile "saved" after.toConfig.toUTF8 }
    (parser.parse {} ["-vv"]).2.result = .ok .complete ∧
      after.configItems = [{ name := "verbose", inputs := ["true"] }] ∧
      mentionSum (after.scan.bindings.values ⟨2⟩) = .ok 2 ∧ mentionSum ["true"] = .ok 1 ∧
      after.vars.find? ⟨2⟩ = some (.counter 2) ∧
      (parser.parse reloading ["--config", "saved"]).1.vars.find? ⟨2⟩ = some (.counter 1) := by
  decide +kernel

end Parser

end CommandLine
