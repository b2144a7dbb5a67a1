import CommandLine.Proofs.Kinds
import CommandLine.Proofs.Layers
import CommandLine.Proofs.ValueSet
import Mathlib.Data.Prod.Basic

/-!
# What a parse does to variables

A parse writes to the variables of the parameters that have invocations,
and to no others. A complete one has written to each of them what its
final values make of the old content (`Parameter.Updates`): every value
is converted once and stored, and a flag's variable is told the sum of
its mentions, on 64 bits. One that fails at some command has not come to the commands
around it (`FailsAt`). This is `Reachable.variables_written`.

That a flag is bound to a variable that counts mentions, and any other
parameter to one that holds values, is a matter of history
(`Reachable.fits`).
-/

namespace CommandLine

/-! ## What becomes of a variable -/

theorem ValueType.Reads.owns {type : ValueType} {texts : List String} {values : List Value}
    (h : type.Reads texts values) : ∀ v ∈ values, type.Owns v := by
  induction h with
  | nil => exact fun _ hv => absurd hv List.not_mem_nil
  | cons hread _ ih => exact List.forall_mem_cons.mpr ⟨owns_of_read? hread, ih⟩

namespace Field

variable {type : ValueType} {values : List Value} {texts : List String} {field : Field}

theorem foldl_put_scalar (value : Value) :
    values.foldl (fun field value => field.put value) (scalar type value) =
      scalar type (values.foldl (fun _ value => value) value) := by
  induction values generalizing value with
  | nil => rfl
  | cons first values ih => exact ih first

theorem foldl_put_optional (value : Option Value) :
    values.foldl (fun field value => field.put value) (optional type value) =
      optional type (values.foldl (fun _ value => some value) value) := by
  induction values generalizing value with
  | nil => rfl
  | cons first values ih => exact ih (some first)

theorem foldl_put_collection (container : Container) (nargs : Nargs) (old : List Value) :
    values.foldl (fun field value => field.put value) (collection type container nargs old) =
      collection type container nargs
        (values.foldl (fun contents value => container.insert value contents) old) := by
  induction values generalizing old with
  | nil => rfl
  | cons first values ih => exact ih (container.insert first old)

theorem foldl_insert_sequence (old : List Value) :
    values.foldl (fun contents value => Container.sequence.insert value contents) old =
      old ++ values := by
  induction values generalizing old with
  | nil => rw [List.foldl_nil, List.append_nil]
  | cons first values ih =>
      rw [List.foldl_cons, ih, Container.insert, List.append_assoc, List.singleton_append]

end Field

namespace Parameter

variable {files : FileStore} {p : Parameter} {d e : Delivery} {field : Field}
  {invocations : List (List String)}

/-- The texts that are converted for the parameter, once its invocations are checked. A flag has
none. -/
def texts (p : Parameter) (invocations : List (List String)) : Except ParseError (List String) :=
  if p.nargs.isFlag then .ok [] else p.finalValues invocations

/-- What the checks make of the invocations. Those of a flag are not checked. -/
def Rewrites (files : FileStore) (p : Parameter) (before after : List (List String)) : Prop :=
  if p.nargs.isFlag then after = before else Passes files p.checks before after

/-- What the invocations of a parameter make of the content of its variable. -/
inductive Updates (p : Parameter) (invocations : List (List String)) : Field → Field → Prop
  | scalar {type : ValueType} {old : Value} {texts : List String} {values : List Value}
      (htexts : p.texts invocations = .ok texts)
      (hvalues : type.Reads texts values) :
      Updates p invocations (.scalar type old)
        (.scalar type (values.foldl (fun _ value => value) old))
  | optional {type : ValueType} {old : Option Value} {texts : List String} {values : List Value}
      (htexts : p.texts invocations = .ok texts)
      (hvalues : type.Reads texts values) :
      Updates p invocations (.optional type old)
        (.optional type (values.foldl (fun _ value => some value) old))
  | sequence {type : ValueType} {nargs : Nargs} {old : List Value} {texts : List String}
      {values : List Value} (htexts : p.texts invocations = .ok texts)
      (hvalues : type.Reads texts values) :
      Updates p invocations (.collection type .sequence nargs old)
        (.collection type .sequence nargs (old ++ values))
  | sorted {type : ValueType} {nargs : Nargs} {old new : List Value} {texts : List String}
      {values : List Value} (htexts : p.texts invocations = .ok texts)
      (hvalues : type.Reads texts values)
      (hunion : type.IsSet old → type.IsSet new ∧ ∀ v, v ∈ new ↔ v ∈ old ∨ v ∈ values) :
      Updates p invocations (.collection type .sorted nargs old)
        (.collection type .sorted nargs new)
  | switch {old target : Value} {counts : List Int}
      (hcounts : List.Forall₂ (fun value count => mentions value = .ok count)
        invocations.flatten counts) :
      Updates p invocations (.switch old target)
        (.switch (if 0 < signedSum counts then target else old) target)
  | counter {old : UInt64} {counts : List Int}
      (hcounts : List.Forall₂ (fun value count => mentions value = .ok count)
        invocations.flatten counts) :
      Updates p invocations (.counter old)
        (.counter (Field.addToCount old (signedSum counts)))

/-- A flag tells its variable the sum of its mentions. -/
theorem updates_mentionTimes (hflag : p.nargs.isFlag = true) (hnargs : field.nargs = p.nargs)
    {n : Int64} (hsum : mentionSum invocations.flatten = .ok n) :
    p.Updates invocations field (field.mentionTimes n.toInt) := by
  have htexts : p.texts invocations = .ok [] := by rw [texts, hflag, if_pos rfl]
  obtain ⟨counts, hcounts, rfl⟩ := mentionSum_eq_ok.mp hsum
  change p.Updates invocations field (field.mentionTimes (signedSum counts))
  cases field with
  | scalar | optional =>
      rw [← hnargs] at hflag
      cases hflag
  | switch old target =>
      have heq : (Field.switch old target).mentionTimes (signedSum counts) =
          .switch (if 0 < signedSum counts then target else old) target := by
        simp only [Field.mentionTimes]
        split <;> rfl
      exact heq ▸ .switch hcounts
  | counter old => exact .counter hcounts
  | collection type container nargs old =>
      have heq : (Field.collection type container nargs old).mentionTimes (signedSum counts) =
          .collection type container nargs old := by
        simp only [Field.mentionTimes]
        split <;> rfl
      rw [heq]
      cases container with
      | sequence =>
          have hsame := @Updates.sequence p invocations type nargs old [] [] htexts .nil
          rwa [List.append_nil] at hsame
      | sorted => exact .sorted htexts .nil fun hset => ⟨hset, by simp⟩

/-- A parameter that is no flag has its texts converted and stored. -/
theorem updates_storeAll (hflag : p.nargs.isFlag = false) (hnargs : field.nargs = p.nargs)
    {texts : List String} {new : Field} (hfinal : p.finalValues invocations = .ok texts)
    (hstored : Field.storeAll texts field = (new, .ok ())) : p.Updates invocations field new := by
  have htexts : p.texts invocations = .ok texts := by
    rw [Parameter.texts, hflag]
    exact hfinal
  cases field with
  | switch | counter =>
      rw [← hnargs] at hflag
      cases hflag
  | scalar type old =>
      obtain ⟨values, hvalues, rfl⟩ := (Field.storeAll_eq_ok rfl).mp hstored
      rw [Field.foldl_put_scalar]
      exact .scalar htexts hvalues
  | optional type old =>
      obtain ⟨values, hvalues, rfl⟩ := (Field.storeAll_eq_ok rfl).mp hstored
      rw [Field.foldl_put_optional]
      exact .optional htexts hvalues
  | collection type container nargs old =>
      obtain ⟨values, hvalues, rfl⟩ := (Field.storeAll_eq_ok rfl).mp hstored
      rw [Field.foldl_put_collection]
      cases container with
      | sequence =>
          rw [Field.foldl_insert_sequence]
          exact .sequence htexts hvalues
      | sorted =>
          exact .sorted htexts hvalues fun hset => hset.foldl_insertSorted hvalues.owns

/-- What a delivered parameter has done to its variable. -/
theorem updates_of_deliver (hinvoked : d.bindings.invoked p.id = true)
    (h : p.deliver files d = (e, .ok ())) :
    p.Rewrites files (d.bindings.of p.id) (e.bindings.of p.id) ∧
      ∀ field, d.vars.find? p.id = some field → field.nargs = p.nargs →
        ∃ new, e.vars.find? p.id = some new ∧ p.Updates (e.bindings.of p.id) field new := by
  cases hflag : p.nargs.isFlag with
  | true =>
      obtain ⟨n, hsum, rfl⟩ := (deliver_eq_ok_of_flag hinvoked hflag).mp h
      refine ⟨by rw [Rewrites, hflag, if_pos rfl], fun field hfield hnargs => ?_⟩
      refine ⟨field.mentionTimes n.toInt, ?_, updates_mentionTimes hflag hnargs hsum⟩
      simp only [writeFlag, hfield, Variables.find?_set_self, Option.map_some]
  | false =>
      obtain ⟨checked, texts, vars, hpasses, hfinal, hwrite, rfl⟩ :=
        (deliver_eq_ok_of_values hinvoked hflag).mp h
      simp only [Bindings.of_set_self]
      refine ⟨by simpa [Rewrites, hflag] using hpasses, fun field hfield hnargs => ?_⟩
      rcases write_eq_ok.mp hwrite with ⟨hnone, -⟩ | ⟨_, new, hbound, hstored, rfl⟩
      · rw [hfield] at hnone
        cases hnone
      · rw [hfield] at hbound
        cases hbound
        refine ⟨new, ?_, updates_storeAll hflag hnargs hfinal hstored⟩
        rw [Variables.find?_set_self, hfield, Option.map_some]

end Parameter

namespace Parser

variable {parser : Parser} {world : World} {tokens : List String} {scan : Scan} {c : CommandId}

/-! ## The parse -/

/-- Delivering fails at the command: those below it have been delivered, and it cannot be. -/
def FailsAt (parser : Parser) (files : FileStore) (scan : Scan) (c : CommandId) : Prop :=
  ∃ inner frame outer d, scan.frames = inner ++ frame :: outer ∧ frame.command = c ∧
    Attempt.each (parser.schema.deliverIn files scan) inner ⟨scan.bindings, parser.vars⟩ =
      (d, .ok ()) ∧
    (parser.schema.deliverIn files scan frame d).2 ≠ .ok ()

theorem Gathers.touches (h : parser.Gathers world tokens scan) (hwf : parser.schema.WellFormed) :
    Delivery.Touches (parser.schema.idsOn scan.path) ⟨scan.bindings, parser.vars⟩
      ⟨(parser.parse world tokens).1.scan.bindings, (parser.parse world tokens).1.vars⟩ := by
  rw [h.parse_eq, vars_finish, bindings_finish, Schema.deliver_eq_each (h.nodup_frames hwf)]
  refine (Schema.touches_frames parser.schema world.files scan scan.frames _).mono fun p hp => ?_
  obtain ⟨c, hc, hmem⟩ := Schema.mem_idsOn.mp hp
  exact Schema.mem_idsOn.mpr ⟨c, List.mem_reverse.mpr hc, hmem⟩

theorem Gathers.path_parse (h : parser.Gathers world tokens scan) :
    (parser.parse world tokens).1.scan.path = scan.path := by
  rw [h.parse_eq, Scan.path, frames_finish, Scan.path]

theorem Gathers.exists_failsAt (h : parser.Gathers world tokens scan)
    (hwf : parser.schema.WellFormed)
    (hresult : (parser.parse world tokens).2.result ≠ .ok .complete) :
    ∃ c, parser.FailsAt world.files scan c := by
  rw [h.parse_eq, Ne, finish_complete, Schema.deliver_eq_each (h.nodup_frames hwf)] at hresult
  obtain ⟨inner, frame, outer, d, hframes, hinner, hframe⟩ := Attempt.exists_of_each_fails hresult
  exact ⟨frame.command, inner, frame, outer, d, hframes, rfl, hinner, hframe⟩

/-- A command at which delivering fails keeps it from those around. -/
theorem FailsAt.find?_eq {c d : CommandId} {p : ParameterId}
    (h : parser.FailsAt world.files scan c) (hgathers : parser.Gathers world tokens scan)
    (hwf : parser.schema.WellFormed) (hd : d ∈ (parser.schema.command c).ancestors)
    (hp : p ∈ parser.schema.idsOf d) :
    (parser.parse world tokens).1.vars.find? p = parser.vars.find? p := by
  obtain ⟨inner, frame, outer, e, hframes, rfl, hinner, hfails⟩ := h
  obtain ⟨q, hq, rfl⟩ := Schema.mem_idsOf.mp hp
  have hdescends := hgathers.descends hwf
  have hnodup := hgathers.nodup_frames hwf
  have hpath := Schema.commands_frames hdescends
  rw [hgathers.parse_eq, vars_finish, Schema.deliver_eq_each hnodup, hframes,
    Attempt.each_eq_of_fails hinner hfails]
  rw [hframes, List.map_append, List.map_cons] at hpath hnodup
  rw [hwf.ancestors_of_append hdescends.1 hpath.symm] at hd
  obtain ⟨-, hupper, hdisjoint⟩ := List.nodup_append.mp hnodup
  -- What has been delivered so far are commands below `d`, and none of them is `d` itself.
  have hbelow : d ∉ inner.map (·.command) := fun hmem =>
    hdisjoint d hmem d (List.mem_cons_of_mem _ hd) rfl
  have hself : q.id ∉ parser.schema.idsOf frame.command := by
    intro hmem
    obtain ⟨r, hr, hid⟩ := Schema.mem_idsOf.mp hmem
    rw [← (hwf.nodup.unique hr hq hid).1] at hd
    exact (List.nodup_cons.mp hupper).1 hd
  have hfirst := Schema.touches_frames parser.schema world.files scan inner
    ⟨scan.bindings, parser.vars⟩
  rw [hinner] at hfirst
  have hlast := Schema.touches_deliverFrame parser.schema world.files frame
    (scan.selected? frame.command).isNone e
  calc (parser.schema.deliverIn world.files scan frame e).1.vars.find? q.id
      = e.vars.find? q.id := hlast.find? q.id (Or.inl hself)
    _ = parser.vars.find? q.id :=
        hfirst.find? q.id (Or.inl (mt (Schema.mem_idsOn_iff hwf.nodup hq).mp hbelow))

/-- A complete parse has delivered each parameter that has invocations, from what was gathered
for it to what there is of it in the end. -/
theorem Gathers.delivered (h : parser.Gathers world tokens scan) (hwf : parser.schema.WellFormed)
    (hcomplete : (parser.parse world tokens).2.result = .ok .complete) {p : Parameter}
    (hp : p ∈ (parser.schema.command c).parameters)
    (hinvoked : scan.bindings.invoked p.id = true) :
    ∃ u v, p.deliver world.files u = (v, .ok ()) ∧
      (u.bindings.of p.id = scan.bindings.of p.id ∧
        u.vars.find? p.id = parser.vars.find? p.id) ∧
      (parser.parse world tokens).1.scan.bindings.of p.id = v.bindings.of p.id ∧
      (parser.parse world tokens).1.vars.find? p.id = v.vars.find? p.id := by
  obtain ⟨frame, hframe, rfl⟩ := Schema.mem_path.mp (h.mem_path_of_invoked hwf hp hinvoked)
  rw [h.parse_eq] at hcomplete ⊢
  obtain ⟨e, he⟩ := Attempt.ok_iff.mp (finish_complete.mp hcomplete)
  obtain ⟨u, v, hdeliver, hu, hv⟩ :=
    Schema.exists_deliver hwf.nodup (h.nodup_frames hwf) he hframe hp
  rw [vars_finish, bindings_finish, he]
  exact ⟨u, v, hdeliver, Prod.mk.inj hu, Prod.mk.inj hv⟩

/-- What a complete parse has done about a parameter that has invocations. -/
theorem Gathers.updates (h : parser.Gathers world tokens scan) (hwf : parser.schema.WellFormed)
    (hcomplete : (parser.parse world tokens).2.result = .ok .complete) {p : Parameter}
    (hp : p ∈ (parser.schema.command c).parameters)
    (hinvoked : scan.bindings.invoked p.id = true) :
    p.Rewrites world.files (scan.bindings.of p.id)
        ((parser.parse world tokens).1.scan.bindings.of p.id) ∧
      ∀ field, parser.vars.find? p.id = some field → field.nargs = p.nargs →
        ∃ new, (parser.parse world tokens).1.vars.find? p.id = some new ∧
          p.Updates ((parser.parse world tokens).1.scan.bindings.of p.id) field new := by
  obtain ⟨u, v, hdeliver, ⟨huOf, huFind⟩, hvOf, hvFind⟩ := h.delivered hwf hcomplete hp hinvoked
  rw [hvOf, hvFind, ← huOf, ← huFind]
  refine Parameter.updates_of_deliver ?_ hdeliver
  rw [Bindings.invoked, huOf]
  exact hinvoked

/-- A parse writes to no variable of a parameter without invocations or off the active path, and
to none of a command around the one at which it fails. A complete parse has updated each variable
once, from the final values of its parameter. -/
theorem Reachable.variables_written (h : Reachable parser) {after : Parser} {report : Report}
    (hparse : parser.parse world tokens = (after, report)) :
    (∀ p, after.scan.bindings.invoked p = false ∨ p ∉ parser.schema.idsOn after.scan.path →
      after.vars.find? p = parser.vars.find? p) ∧
    (∀ scan, parser.Gathers world tokens scan →
      (report.result ≠ .ok .complete → ∃ c, parser.FailsAt world.files scan c) ∧
      ∀ c, parser.FailsAt world.files scan c → ∀ d ∈ (parser.schema.command c).ancestors,
        ∀ p ∈ parser.schema.idsOf d, after.vars.find? p = parser.vars.find? p) ∧
    (report.result = .ok .complete → ∃ scan, parser.Gathers world tokens scan ∧
      ∀ c, ∀ p ∈ (parser.schema.command c).parameters, scan.bindings.invoked p.id = true →
        p.Rewrites world.files (scan.bindings.of p.id) (after.scan.bindings.of p.id) ∧
        ∀ field, parser.vars.find? p.id = some field →
          ∃ new, after.vars.find? p.id = some new ∧
            p.Updates (after.scan.bindings.of p.id) field new) := by
  have hwf := h.wellFormed
  have hafter : (parser.parse world tokens).1 = after := by rw [hparse]
  have hreport : (parser.parse world tokens).2 = report := by rw [hparse]
  subst hafter hreport
  refine ⟨fun p hp => ?_, fun scan hgathers => ?_, fun hcomplete => ?_⟩
  · rcases parser.gathers_or_unfinished world tokens with ⟨scan, hgathers⟩ | ⟨hvars, -⟩
    · have htouches := hgathers.touches hwf
      rcases hp with hopen | hoff
      · exact htouches.find? p (Or.inr ((htouches.invoked p).symm.trans hopen))
      · rw [hgathers.path_parse] at hoff
        exact htouches.find? p (Or.inl hoff)
    · rw [hvars]
  · exact ⟨hgathers.exists_failsAt hwf, fun c hfails d hd p hp =>
      hfails.find?_eq hgathers hwf hd hp⟩
  · rcases parser.gathers_or_unfinished world tokens with ⟨scan, hgathers⟩ | ⟨-, hresult⟩
    · refine ⟨scan, hgathers, fun c p hp hinvoked => ?_⟩
      obtain ⟨hrewrites, hupdates⟩ := hgathers.updates hwf hcomplete hp hinvoked
      exact ⟨hrewrites, fun field hfield =>
        hupdates field hfield (h.fits.nargs c p hp field hfield)⟩
    · exact absurd hcomplete hresult

/-- Variables of all kinds, those of the flags in the sub-command. -/
def boundCalls : List Call :=
  let level : Field := .scalar (.integer .i64) (.integer 0)
  let seen : Field := .collection (.integer .u64) .sorted (.exactly 1) [.integer 3]
  let items : Field := .collection .string .sequence .any [.string "old"]
  [.add .root { names := "-n", binding := .option level, repetition := .takeLast },
    .add .root { names := "-s", binding := .option seen },
    .add .root { names := "items", binding := .argument items }, .addSubcommand .root "run",
    .add ⟨1⟩ { names := "-v", binding := .option (.counter 1) },
    .add ⟨1⟩ { names := "-q", binding := .option (.switch (.bool false) (.bool true)) }]

def boundTokens : List String := ["-n", "1", "-n", "2", "-s", "5", "-s", "1", "new", "run", "-vv"]

/-- The variables after a complete parse, and the level after one that fails in `run`. -/
theorem variables_written_bound :
    (∃ scan, ((ofProgram "tool").afterAll boundCalls).Gathers {} boundTokens scan ∧
      ∀ c, ∀ p ∈ (((ofProgram "tool").afterAll boundCalls).schema.command c).parameters,
        scan.bindings.invoked p.id = true →
          p.Rewrites {} (scan.bindings.of p.id)
            ((((ofProgram "tool").afterAll boundCalls).parse {} boundTokens).1.scan.bindings.of
              p.id) ∧
          ∀ field, ((ofProgram "tool").afterAll boundCalls).vars.find? p.id = some field →
            ∃ new, (((ofProgram "tool").afterAll boundCalls).parse {} boundTokens).1.vars.find?
                p.id = some new ∧
              p.Updates
                ((((ofProgram "tool").afterAll boundCalls).parse {}
                  boundTokens).1.scan.bindings.of p.id) field new) ∧
      (((ofProgram "tool").afterAll boundCalls).parse {} boundTokens).1.vars.entries.map (·.2) =
        [.scalar (.integer .i64) (.integer 2),
          .collection (.integer .u64) .sorted (.exactly 1) [.integer 1, .integer 3, .integer 5],
          .collection .string .sequence .any [.string "old", .string "new"], .counter 3,
          .switch (.bool false) (.bool true)] ∧
      (((ofProgram "tool").afterAll boundCalls).parse {}
        ["-n", "1", "run", "-q", "--no"]).1.vars.find? ⟨1⟩ =
          ((ofProgram "tool").afterAll boundCalls).vars.find? ⟨1⟩ := by
  have hreachable : Reachable ((ofProgram "tool").afterAll boundCalls) :=
    (reachable_ofProgram "tool").afterAll (by decide +kernel)
  refine ⟨?_, by decide +kernel, ?_⟩
  · obtain ⟨-, -, hcomplete⟩ := hreachable.variables_written Prod.mk.eta.symm
    exact hcomplete (by decide +kernel)
  · have hgathers : ((ofProgram "tool").afterAll boundCalls).Gathers {}
        ["-n", "1", "run", "-q", "--no"] _ :=
      gathers_gathered (by decide +kernel) (by decide +kernel) (by decide +kernel)
    have hfails : ((ofProgram "tool").afterAll boundCalls).FailsAt {}
        (((ofProgram "tool").afterAll boundCalls).gathered {} ["-n", "1", "run", "-q", "--no"])
        ⟨1⟩ :=
      ⟨[], _, _, _, rfl, by decide +kernel, rfl, by decide +kernel⟩
    obtain ⟨-, hgathered, -⟩ := hreachable.variables_written Prod.mk.eta.symm
    exact (hgathered _ hgathers).2 ⟨1⟩ hfails .root (by decide +kernel) ⟨1⟩ (by decide +kernel)

end Parser

end CommandLine
