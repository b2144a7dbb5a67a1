import CommandLine.Proofs.Delivering

/-!
# When a parse is complete

A parse that has gathered its values is complete exactly if each command
of the active path accepts what there is for it (`Reachable.complete_iff`).
`Accepts` lists what that takes, and speaks of the gathered values only:
although commands are delivered and judged one after the other, and
checks change values on the way, no delivery can make another command
acceptable or spoil it.
-/

namespace CommandLine

/-! ## One parameter -/

theorem mentions_eq_ok {value : String} :
    (∃ n, mentions value = .ok n) ↔ (value ≠ "" → ∃ n, FlagText.count value = .ok n) := by
  unfold mentions
  by_cases hempty : value = ""
  · simp [hempty]
  · simp [hempty]

theorem Field.storeAll_ok {field : Field} {texts : List String} :
    (∃ new, Field.storeAll texts field = (new, .ok ())) ↔
      ∀ type, field.type? = some type → ∀ text ∈ texts, ∃ value, type.read? text = some value := by
  cases htype : field.type? with
  | none => exact ⟨fun _ _ h => (by cases h), fun _ => ⟨_, storeAll_of_flag htype texts⟩⟩
  | some type =>
      simp only [storeAll_eq_ok htype, ValueType.Reads, Option.some.injEq, forall_eq',
        ← exists_forall₂]
      constructor
      · rintro ⟨_, values, hvalues, -⟩
        exact ⟨values, hvalues⟩
      · rintro ⟨values, hvalues⟩
        exact ⟨_, values, hvalues, rfl⟩

namespace Parameter

variable {files : FileStore} {p : Parameter} {d : Delivery}

/-- The parameter can be delivered with these invocations, and what they give fits into its
variable, if it has one. -/
structure Deliverable (files : FileStore) (p : Parameter) (invocations : List (List String))
    (field? : Option Field) : Prop where
  flag : p.nargs.isFlag = true →
    ∀ value ∈ invocations.flatten, value ≠ "" → ∃ n, FlagText.count value = .ok n
  values : p.nargs.isFlag = false →
    ∃ checked texts, Passes files p.checks invocations checked ∧
      p.finalValues checked = .ok texts ∧
      ∀ field, field? = some field → ∀ type, field.type? = some type →
        ∀ text ∈ texts, ∃ value, type.read? text = some value

theorem deliver_ok :
    (p.deliver files d).2 = .ok () ↔
      (d.bindings.invoked p.id = true →
        p.Deliverable files (d.bindings.of p.id) (d.vars.find? p.id)) := by
  cases hinvoked : d.bindings.invoked p.id with
  | false => simp [deliver_of_not_invoked hinvoked]
  | true =>
      simp only [forall_const]
      rw [Attempt.ok_iff]
      cases hflag : p.nargs.isFlag with
      | true =>
          simp only [deliver_eq_ok_of_flag hinvoked hflag, mentionSum_eq_ok]
          have hsum : (∃ counts, List.Forall₂ (fun value count => mentions value = .ok count)
              (d.bindings.values p.id) counts) ↔
              ∀ value ∈ (d.bindings.of p.id).flatten,
                value ≠ "" → ∃ n, FlagText.count value = .ok n := by
            simp only [exists_forall₂, mentions_eq_ok]
            rfl
          constructor
          · rintro ⟨_, _, ⟨counts, hcounts, -⟩, -⟩
            exact ⟨fun _ => hsum.mp ⟨counts, hcounts⟩, fun h => absurd h (by simp [hflag])⟩
          · intro h
            obtain ⟨counts, hcounts⟩ := hsum.mpr (h.flag hflag)
            exact ⟨_, _, ⟨counts, hcounts, rfl⟩, rfl⟩
      | false =>
          simp only [deliver_eq_ok_of_values hinvoked hflag]
          constructor
          · rintro ⟨_, checked, texts, vars, hpasses, hfinal, hwrite, -⟩
            refine ⟨fun h => absurd h (by simp [hflag]), fun _ => ⟨checked, texts, hpasses, hfinal,
              fun field hfield => ?_⟩⟩
            rcases write_eq_ok.mp hwrite with ⟨hnone, -⟩ | ⟨_, new, hbound, hstored, -⟩
            · rw [hfield] at hnone
              cases hnone
            · rw [hfield] at hbound
              cases hbound
              exact Field.storeAll_ok.mp ⟨new, hstored⟩
          · intro h
            obtain ⟨checked, texts, hpasses, hfinal, hfits⟩ := h.values hflag
            cases hfield : d.vars.find? p.id with
            | none =>
                exact ⟨_, checked, texts, _, hpasses, hfinal,
                  write_eq_ok.mpr (Or.inl ⟨hfield, rfl⟩), rfl⟩
            | some field =>
                obtain ⟨new, hstored⟩ := Field.storeAll_ok.mpr (hfits field hfield)
                exact ⟨_, checked, texts, _, hpasses, hfinal,
                  write_eq_ok.mpr (Or.inr ⟨field, new, hfield, hstored, rfl⟩), rfl⟩

end Parameter

/-! ## One command -/

namespace Schema

variable {schema : Schema} {files : FileStore} {scan : Scan} {frame : Frame} {b : Bindings}
  {d : Delivery}

theorem relationViolation?_eq_none {p : Parameter} :
    schema.relationViolation? b p = none ↔
      (b.invoked p.id = true →
        (∀ q ∈ p.requires, b.invoked q = true) ∧ ∀ q ∈ p.excludes, b.invoked q = false) := by
  unfold relationViolation?
  cases b.invoked p.id <;> simp

theorem violation?_eq_none {innermost : Bool} :
    schema.violation? frame innermost b = none ↔
      (∀ p ∈ (schema.command frame.command).parameters, p.required = true →
        b.invoked p.id = true) ∧
      frame.overflow = [] ∧
      (frame.missing = [] ∨ (schema.command frame.command).settings.allowExtras = true ∨
        (schema.command frame.command).settings.prefixCommand = true) ∧
      (∀ p ∈ (schema.command frame.command).parameters, b.invoked p.id = true →
        (∀ q ∈ p.requires, b.invoked q = true) ∧ ∀ q ∈ p.excludes, b.invoked q = false) ∧
      ((schema.command frame.command).requireSubcommand = true → innermost = false) := by
  unfold violation?
  simp [Option.orElse_eq_orElse, relationViolation?_eq_none, or_iff_not_imp_left]

/-- A command is delivered exactly if its parameters can be delivered and nothing is wrong with
what it has been given. -/
theorem deliverIn_ok (hids : schema.NodupIds) :
    (schema.deliverIn files scan frame d).2 = .ok () ↔
      (∀ p ∈ (schema.command frame.command).parameters, d.bindings.invoked p.id = true →
        p.Deliverable files (d.bindings.of p.id) (d.vars.find? p.id)) ∧
      schema.violation? frame (scan.selected? frame.command).isNone d.bindings = none := by
  -- To deliver `p` first does not decide about `q`, which has another number.
  have hapart : (schema.command frame.command).parameters.Pairwise fun p q => ∀ d,
      (((p.deliver files d).1.bindings.invoked q.id = true →
        q.Deliverable files ((p.deliver files d).1.bindings.of q.id)
          ((p.deliver files d).1.vars.find? q.id)) ↔
      (d.bindings.invoked q.id = true →
        q.Deliverable files (d.bindings.of q.id) (d.vars.find? q.id))) := by
    refine (List.pairwise_map.mp (hids.idsOf frame.command)).imp fun {p q} hne d => ?_
    have hq : q.id ∉ [p.id] := fun h => hne (List.mem_singleton.mp h).symm
    have htouches := p.touches_deliver files d
    rw [htouches.invoked, htouches.of q.id hq, htouches.find? q.id (Or.inl hq)]
  have hparameter : ∀ p ∈ (schema.command frame.command).parameters, ∀ d,
      (p.deliver files d).2 = .ok () ↔
        (d.bindings.invoked p.id = true →
          p.Deliverable files (d.bindings.of p.id) (d.vars.find? p.id)) :=
    fun _ _ _ => Parameter.deliver_ok
  have heach := Attempt.each_ok hparameter hapart d
  rw [← heach, deliverIn, Attempt.ok_iff, Attempt.ok_iff]
  simp only [deliverFrame_eq_ok]
  -- The judgement comes after the checks have changed values, but looks at none of them.
  have hjudge : ∀ e, Attempt.each (Parameter.deliver files)
      (schema.command frame.command).parameters d = (e, .ok ()) →
      schema.violation? frame (scan.selected? frame.command).isNone e.bindings =
        schema.violation? frame (scan.selected? frame.command).isNone d.bindings := by
    intro e he
    have htouches := touches_parameters files (schema.command frame.command).parameters d
    rw [he] at htouches
    exact violation?_congr htouches.invoked
  constructor
  · rintro ⟨e, he, hviolation⟩
    exact ⟨⟨e, he⟩, hjudge e he ▸ hviolation⟩
  · rintro ⟨⟨e, he⟩, hviolation⟩
    exact ⟨e, he, (hjudge e he).trans hviolation⟩

/-! ## The active path -/

/-- All commands of the active path are delivered exactly if each of them would be at the
start. -/
theorem deliver_ok (hids : schema.NodupIds) (hnodup : (scan.frames.map (·.command)).Nodup) :
    (schema.deliver files scan d).2 = .ok () ↔
      ∀ frame ∈ scan.frames, (schema.deliverIn files scan frame d).2 = .ok () := by
  rw [deliver_eq_each hnodup]
  refine Attempt.each_ok (fun _ _ _ => Iff.rfl) ?_ d
  refine (List.pairwise_map.mp hnodup).imp fun {frame other} hne d => ?_
  have htouches := touches_deliverFrame schema files frame
    (scan.selected? frame.command).isNone d
  rw [deliverIn_ok hids, deliverIn_ok hids]
  refine and_congr (forall₂_congr fun p hp => ?_) ?_
  · have hq : p.id ∉ schema.idsOf frame.command := by
      intro hmem
      obtain ⟨q, hq, hid⟩ := mem_idsOf.mp hmem
      exact hne (hids.unique hq hp hid).1
    rw [deliverIn, htouches.invoked, htouches.of p.id hq, htouches.find? p.id (Or.inl hq)]
  · rw [deliverIn, violation?_congr htouches.invoked]

end Schema

/-! ## The parse -/

namespace Parser

variable {parser : Parser} {world : World} {tokens : List String} {scan : Scan}

/-- The command of the frame accepts what has been gathered for it. -/
structure Accepts (parser : Parser) (files : FileStore) (scan : Scan) (frame : Frame) : Prop where
  delivered : ∀ p ∈ (parser.schema.command frame.command).parameters,
    scan.bindings.invoked p.id = true →
      p.Deliverable files (scan.bindings.of p.id) (parser.vars.find? p.id)
  required : ∀ p ∈ (parser.schema.command frame.command).parameters, p.required = true →
    scan.bindings.invoked p.id = true
  placed : frame.overflow = []
  known : frame.missing = [] ∨
    (parser.schema.command frame.command).settings.allowExtras = true ∨
    (parser.schema.command frame.command).settings.prefixCommand = true
  related : ∀ p ∈ (parser.schema.command frame.command).parameters,
    scan.bindings.invoked p.id = true →
      (∀ q ∈ p.requires, scan.bindings.invoked q = true) ∧
        ∀ q ∈ p.excludes, scan.bindings.invoked q = false
  selected : (parser.schema.command frame.command).requireSubcommand = true →
    (scan.selected? frame.command).isSome = true

/-- A parse that has gathered its values is complete exactly if each command of the active path
accepts what there is for it. -/
theorem Reachable.complete_iff (h : Reachable parser)
    (hgathers : parser.Gathers world tokens scan) :
    (parser.parse world tokens).2.result = .ok .complete ↔
      ∀ frame ∈ scan.frames, parser.Accepts world.files scan frame := by
  have hwf := h.wellFormed
  rw [hgathers.parse_eq, finish_complete,
    Schema.deliver_ok hwf.nodup (hgathers.nodup_frames hwf)]
  refine forall₂_congr fun frame _ => ?_
  rw [Schema.deliverIn_ok hwf.nodup, Schema.violation?_eq_none]
  constructor
  · rintro ⟨hdelivered, hrequired, hplaced, hknown, hrelated, hselected⟩
    exact ⟨hdelivered, hrequired, hplaced, hknown, hrelated, fun hdemand => by
      simpa using hselected hdemand⟩
  · intro haccepts
    exact ⟨haccepts.delivered, haccepts.required, haccepts.placed, haccepts.known,
      haccepts.related, fun hdemand => by simpa using haccepts.selected hdemand⟩

/-- The flag `-v` of `run` needs the root's level, which is checked and converted. -/
def demandingCalls : List Call :=
  [.add .root { names := "-l,--level", binding := .option (.scalar .string (.string "low"))
                checks := [.member ["low", "high"] true] },
    .addSubcommand .root "run", .set .root .requireSubcommand true,
    .add ⟨1⟩ { names := "-v", binding := .option (.counter 0) }, .relate .requires ⟨3⟩ ⟨1⟩]

theorem complete_iff_demanding :
    (∀ frame ∈ (((ofProgram "tool").afterAll demandingCalls).gathered {}
        ["-l", "HIGH", "run", "-v"]).frames,
      ((ofProgram "tool").afterAll demandingCalls).Accepts {} (((ofProgram "tool").afterAll
        demandingCalls).gathered {} ["-l", "HIGH", "run", "-v"]) frame) ∧
    ¬∀ frame ∈ (((ofProgram "tool").afterAll demandingCalls).gathered {} ["run", "-v"]).frames,
      ((ofProgram "tool").afterAll demandingCalls).Accepts {} (((ofProgram "tool").afterAll
        demandingCalls).gathered {} ["run", "-v"]) frame := by
  have hreachable : Reachable ((ofProgram "tool").afterAll demandingCalls) :=
    (reachable_ofProgram "tool").afterAll (by decide +kernel)
  constructor
  · have hgathers : ((ofProgram "tool").afterAll demandingCalls).Gathers {}
        ["-l", "HIGH", "run", "-v"] _ :=
      gathers_gathered (by decide +kernel) (by decide +kernel) (by decide +kernel)
    exact (hreachable.complete_iff hgathers).mp (by decide +kernel)
  · have hgathers : ((ofProgram "tool").afterAll demandingCalls).Gathers {} ["run", "-v"] _ :=
      gathers_gathered (by decide +kernel) (by decide +kernel) (by decide +kernel)
    exact mt (hreachable.complete_iff hgathers).mpr (by decide +kernel)

end Parser

end CommandLine
