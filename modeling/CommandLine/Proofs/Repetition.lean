import CommandLine.Proofs.FlagTexts
import CommandLine.Proofs.Minimum
import Mathlib.Algebra.Group.Action.Defs

/-!
# What is kept of repeated mentions

A parameter that takes `n` values and is mentioned `k` times has `k * n`
of them, and its policy says which are kept: those of one mention, all of
them, or one text. The policies are carried out on the values alone, taken
or dropped from the front of one list, and never see where a mention
begins (`Parameter.finalValues_regrouped`). They still keep whole mentions
(`Parameter.finalValues_eq_kept`), since each mention by name has exactly
`n` values however it is spelled (`Schema.sized_read`).
-/

namespace CommandLine

namespace Parameter

variable {p : Parameter} {n : Nat} {invocations others : List (List String)} {files : FileStore}
  {u : Delivery}

/-- What is kept of the mentions of a parameter that takes `n` values. -/
def kept (p : Parameter) (n : Nat) (mentions : List (List String)) :
    Except ParseError (List String) :=
  match p.repetition with
  | .takeLast => .ok (mentions.getLast?.getD [])
  | .takeFirst => .ok (mentions.head?.getD [])
  | .joined => .ok [joinSeparator.intercalate mentions.flatten]
  | .strict =>
    if p.accumulates ∨ mentions.length = 1 then .ok mentions.flatten
    else .error (.argumentMismatch p.label (.exactly n) (mentions.length * n))

/-- Values are all that counts, and for a parameter that wants at least one whether some invocation
has none. -/
theorem finalValues_regrouped (hvalues : invocations.flatten = others.flatten)
    (hempty : p.nargs = .atLeastOne → invocations.any (·.isEmpty) = others.any (·.isEmpty)) :
    p.finalValues invocations = p.finalValues others := by
  rw [finalValues, finalValues, hvalues]
  by_cases hnargs : p.nargs = .atLeastOne
  · rw [hempty hnargs]
  · simp only [hnargs, false_and, if_false]

theorem length_flatten_of_sized (hsized : ∀ values ∈ invocations, values.length = n) :
    invocations.flatten.length = invocations.length * n := by
  have hlengths : invocations.map List.length = List.replicate invocations.length n :=
    List.eq_replicate_iff.mpr ⟨List.length_map _, by simpa using hsized⟩
  rw [List.length_flatten, hlengths, List.sum_replicate, smul_eq_mul]

/-- Where all mentions have their `n` values, to take `n` values from one end is to take a
mention. -/
theorem finalValues_eq_kept (hnargs : p.nargs = .exactly n) (hpos : 0 < n)
    (hne : invocations ≠ []) (hsized : ∀ values ∈ invocations, values.length = n) :
    p.finalValues invocations = p.kept n invocations := by
  have hlength := length_flatten_of_sized hsized
  simp only [finalValues, kept, hnargs, reduceCtorEq, false_and, if_false, Nargs.capacity,
    Option.getD_some]
  cases p.repetition with
  | takeLast =>
      obtain ⟨front, last, rfl⟩ := (List.eq_nil_or_concat' invocations).resolve_left hne
      have hlast : last.length = n := hsized last (by simp)
      simp [hlast]
  | takeFirst =>
      obtain ⟨first, behind, rfl⟩ := List.exists_cons_of_ne_nil hne
      have hfirst : first.length = n := hsized first List.mem_cons_self
      rw [List.flatten_cons, List.take_left' hfirst]
      rfl
  | joined => rfl
  | strict =>
      cases p.accumulates with
      | true => simp [hlength]
      | false =>
          have honce : invocations.length * n = n ↔ invocations.length = 1 :=
            Nat.mul_eq_right hpos.ne'
          simp only [Bool.false_eq_true, if_false, false_or, hlength, honce]

/-! ## Handing values over -/

/-- Writes the values to the variable of the parameter, unless there is an error in their place. -/
def handOver (p : Parameter) (values : Except ParseError (List String)) :
    Attempt Variables ParseError := fun vs =>
  match values with
  | .ok values => p.write values vs
  | .error error => (vs, .error error)

/-- Only the variable of the parameter itself matters. -/
theorem find?_handOver {vs others : Variables} (values : Except ParseError (List String))
    (h : vs.find? p.id = others.find? p.id) :
    (p.handOver values vs).1.find? p.id = (p.handOver values others).1.find? p.id := by
  cases values with
  | error error => exact h
  | ok values =>
      simp only [handOver, write, h]
      cases hfield : others.find? p.id with
      | none => exact h
      | some field =>
          show (vs.set p.id _).find? p.id = (others.set p.id _).find? p.id
          rw [Variables.find?_set_self, Variables.find?_set_self, h]

/-- A parameter without checks has the values that its policy keeps handed over to its variable. -/
theorem deliver_eq_handOver (hnargs : p.nargs = .exactly n) (hpos : 0 < n) (hchecks : p.checks = [])
    (hne : u.bindings.of p.id ≠ [])
    (hsized : ∀ values ∈ u.bindings.of p.id, values.length = n) :
    (p.deliver files u).1.vars = (p.handOver (p.kept n (u.bindings.of p.id)) u.vars).1 ∧
      (p.deliver files u).2 = (p.handOver (p.kept n (u.bindings.of p.id)) u.vars).2 := by
  have hinvoked : u.bindings.invoked p.id = true := by simpa [Bindings.invoked] using hne
  have hflag : p.nargs.isFlag = false := by
    rw [hnargs]
    exact decide_eq_false fun heq => hpos.ne' (Nargs.exactly.inj heq)
  rw [deliver, hinvoked, hflag, ← finalValues_eq_kept hnargs hpos hne hsized]
  simp only [Bool.not_true, Bool.false_eq_true, if_false, deliverValues, hchecks, runChecks]
  cases p.finalValues (u.bindings.of p.id) with
  | error error => exact ⟨rfl, rfl⟩
  | ok values => exact ⟨rfl, rfl⟩

end Parameter

namespace Parser

variable {parser : Parser} {world : World} {tokens : List String} {scan : Scan} {c : CommandId}
  {p : Parameter} {n : Nat} {mentions : List (List String)} {u : Delivery}

/-- Delivering has failed before the turn of the parameter: at a command below its own, or at a
parameter that was declared before it. -/
inductive FailsBefore (parser : Parser) (world : World) (scan : Scan) (c : CommandId)
    (p : Parameter) : Prop
  | below {d : CommandId} (hd : c ∈ (parser.schema.command d).ancestors)
      (hfails : parser.FailsAt world.files scan d)
  | sibling {q : Parameter} {u : Delivery} {before behind : List Parameter}
      (hparameters : (parser.schema.command c).parameters = before ++ p :: behind)
      (hq : q ∈ before) (hturn : parser.Turn world scan c q u)
      (hfails : (q.deliver world.files u).2 ≠ .ok ())

/-- The turn of a parameter of an active command comes, unless something fails before. -/
theorem Gathers.turn_or_failsBefore (h : parser.Gathers world tokens scan)
    (hwf : parser.schema.WellFormed) (hp : p ∈ (parser.schema.command c).parameters)
    (hc : c ∈ scan.path) :
    (∃ u, parser.Turn world scan c p u) ∨ parser.FailsBefore world scan c p := by
  obtain ⟨frame, hframe, rfl⟩ := Schema.mem_path.mp hc
  obtain ⟨inner, outer, hframes⟩ := List.append_of_mem hframe
  obtain ⟨before, behind, hparameters⟩ := List.append_of_mem hp
  by_cases hinner : (Attempt.each (parser.schema.deliverIn world.files scan) inner
    ⟨scan.bindings, parser.vars⟩).2 = .ok ()
  · obtain ⟨between, hinner⟩ := Attempt.ok_iff.mp hinner
    by_cases hbefore : (Attempt.each (Parameter.deliver world.files) before between).2 = .ok ()
    · obtain ⟨u, hbefore⟩ := Attempt.ok_iff.mp hbefore
      exact Or.inl ⟨u, .intro hframes rfl hparameters hinner hbefore⟩
    · obtain ⟨first, q, rest, v, rfl, hfirst, hfails⟩ := Attempt.exists_of_each_fails hbefore
      have hturn : parser.Turn world scan frame.command q v :=
        .intro hframes rfl (by rw [hparameters, List.append_assoc]; rfl) hinner hfirst
      exact Or.inr (.sibling hparameters (by simp) hturn hfails)
  · obtain ⟨first, failing, rest, d, rfl, hfirst, hfails⟩ := Attempt.exists_of_each_fails hinner
    have hcut : scan.frames = first ++ failing :: (rest ++ frame :: outer) := by simp [hframes]
    have hdescends := h.descends hwf
    have hpath := Schema.commands_frames hdescends
    rw [hcut, List.map_append, List.map_cons] at hpath
    refine Or.inr (.below ?_ ⟨first, failing, _, d, hcut, rfl, hfirst, hfails⟩)
    rw [hwf.ancestors_of_append hdescends.1 hpath.symm]
    simp

/-! ## Mentions on the command line -/

/-- A parameter that takes `n` values, and has no checks, is mentioned by name, and by its name
only. -/
structure Mentioned (parser : Parser) (tokens : List String) (c : CommandId) (p : Parameter)
    (n : Nat) (mentions : List (List String)) : Prop where
  mem : p ∈ (parser.schema.command c).parameters
  nargs : p.nargs = .exactly n
  pos : 0 < n
  checks : p.checks = []
  ne_nil : mentions ≠ []
  read : (parser.schema.read .start tokens).scan.bindings.of p.id = mentions
  /-- No plain values are placed in it. -/
  settled : (parser.schema.settle tokens).bindings.of p.id = mentions

namespace Mentioned

theorem sized (h : parser.Mentioned tokens c p n mentions) (hwf : parser.schema.WellFormed) :
    ∀ values ∈ mentions, values.length = n := by
  have hread := Schema.sized_read hwf.nodup h.mem h.nargs tokens
  rwa [Bindings.Sized, h.read, max_eq_left (Nat.succ_le_of_lt h.pos)] at hread

/-- No other layer gives it any values. -/
theorem gathered (h : parser.Mentioned tokens c p n mentions) (hwf : parser.schema.WellFormed)
    (hgathers : parser.Gathers world tokens scan) : scan.bindings.of p.id = mentions := by
  have hinvoked : (parser.schema.settle tokens).bindings.invoked p.id = true := by
    simpa [Bindings.invoked, h.settled] using h.ne_nil
  rw [hgathers.of_eq hwf.nodup h.mem rfl, if_pos hinvoked, h.settled, List.append_nil,
    if_neg fun hboth => h.ne_nil hboth.2]

theorem mem_path (h : parser.Mentioned tokens c p n mentions) (hwf : parser.schema.WellFormed)
    (hgathers : parser.Gathers world tokens scan) : c ∈ scan.path :=
  hgathers.mem_path_of_invoked hwf h.mem (by
    simpa [Bindings.invoked, h.gathered hwf hgathers] using h.ne_nil)

/-- When its turn comes, its variable is handed what the policy keeps, and no other parameter
changes that. -/
theorem handed (h : parser.Mentioned tokens c p n mentions) (hwf : parser.schema.WellFormed)
    (hgathers : parser.Gathers world tokens scan) (hturn : parser.Turn world scan c p u) :
    (p.deliver world.files u).1.vars = (p.handOver (p.kept n mentions) u.vars).1 ∧
      (p.deliver world.files u).2 = (p.handOver (p.kept n mentions) u.vars).2 ∧
      (parser.parse world tokens).1.vars.find? p.id =
        (p.handOver (p.kept n mentions) parser.vars).1.find? p.id := by
  obtain ⟨hof, hold, hnew⟩ := hgathers.turn hwf hturn
  rw [h.gathered hwf hgathers] at hof
  have hdeliver := @Parameter.deliver_eq_handOver p n world.files u h.nargs h.pos h.checks
    (hof ▸ h.ne_nil) (hof ▸ h.sized hwf)
  rw [hof] at hdeliver
  refine ⟨hdeliver.1, hdeliver.2, ?_⟩
  rw [hnew, hdeliver.1, Parameter.find?_handOver _ hold]

/-- A complete parse has handed values over. -/
theorem complete (h : parser.Mentioned tokens c p n mentions) (hwf : parser.schema.WellFormed)
    (hcomplete : (parser.parse world tokens).2.result = .ok .complete) :
    ∃ values, p.kept n mentions = .ok values ∧
      (parser.parse world tokens).1.vars.find? p.id =
        (p.write values parser.vars).1.find? p.id := by
  obtain ⟨scan, hgathers⟩ := exists_gathers hcomplete
  obtain ⟨u, hturn⟩ := hgathers.exists_turn hwf hcomplete h.mem (h.mem_path hwf hgathers)
  obtain ⟨-, hresult, hvar⟩ := h.handed hwf hgathers hturn
  cases hkept : p.kept n mentions with
  | error error =>
      rw [hkept] at hresult
      rw [hgathers.turn_error hwf hturn hresult] at hcomplete
      cases hcomplete
  | ok values =>
      rw [hkept] at hvar
      exact ⟨values, rfl, hvar⟩

end Mentioned

/-- A parameter that takes `n` values, and is only mentioned by name, has `n` values from each
mention, and what its policy keeps of the mentions is handed over to its variable. Where they
contradict each other the parse is never complete, and fails for that reason unless it has failed
before. How values are grouped does not matter to any policy. -/
theorem Reachable.repetition_kept (h : Reachable parser)
    (hmentioned : parser.Mentioned tokens c p n mentions) :
    (∀ values ∈ mentions, values.length = n) ∧
    p.finalValues mentions = p.kept n mentions ∧
    (∀ world scan u, parser.Gathers world tokens scan → parser.Turn world scan c p u →
      (p.deliver world.files u).1.vars = (p.handOver (p.kept n mentions) u.vars).1 ∧
      (p.deliver world.files u).2 = (p.handOver (p.kept n mentions) u.vars).2 ∧
      (parser.parse world tokens).1.vars.find? p.id =
        (p.handOver (p.kept n mentions) parser.vars).1.find? p.id) ∧
    (∀ world, (parser.parse world tokens).2.result = .ok .complete →
      ∃ values, p.kept n mentions = .ok values ∧
        (parser.parse world tokens).1.vars.find? p.id =
          (p.write values parser.vars).1.find? p.id) ∧
    (p.repetition = .strict → p.accumulates = false → mentions.length ≠ 1 →
      ∀ world, (parser.parse world tokens).2.result ≠ .ok .complete ∧
        ∀ scan, parser.Gathers world tokens scan →
          (∀ u, parser.Turn world scan c p u → (parser.parse world tokens).2.result =
            .error (.argumentMismatch p.label (.exactly n) (mentions.length * n))) ∧
          ((∃ u, parser.Turn world scan c p u) ∨ parser.FailsBefore world scan c p)) ∧
    ∀ (q : Parameter) (a b : List (List String)), a.flatten = b.flatten →
      (q.nargs = .atLeastOne → a.any (·.isEmpty) = b.any (·.isEmpty)) →
      q.finalValues a = q.finalValues b := by
  have hwf := h.wellFormed
  have hsized := hmentioned.sized hwf
  refine ⟨hsized, Parameter.finalValues_eq_kept hmentioned.nargs hmentioned.pos hmentioned.ne_nil
    hsized, fun world scan u => hmentioned.handed hwf,
    fun world => hmentioned.complete hwf, fun hstrict haccumulates htwice world => ?_,
    fun q a b => q.finalValues_regrouped⟩
  have hkept : p.kept n mentions =
      .error (.argumentMismatch p.label (.exactly n) (mentions.length * n)) := by
    simp [Parameter.kept, hstrict, haccumulates, htwice]
  refine ⟨fun hcomplete => ?_, fun scan hgathers => ⟨fun u hturn => ?_, ?_⟩⟩
  · obtain ⟨values, hvalues, -⟩ := hmentioned.complete hwf hcomplete
    cases hkept.symm.trans hvalues
  · refine hgathers.turn_error hwf hturn ?_
    rw [(hmentioned.handed hwf hgathers hturn).2.1, hkept]
    rfl
  · exact hgathers.turn_or_failsBefore hwf hmentioned.mem (hmentioned.mem_path hwf hgathers)

/-- A pair of which the last mention counts, a number that may be given once, and a flag. -/
def repeatedCalls : List Call :=
  let pair : Field := .collection .string .sequence (.exactly 2) []
  [.add .root { names := "-p,--pair", binding := .option pair, repetition := .takeLast },
    .add .root { names := "-n,--number", binding := .option (.scalar .string (.string "")) },
    .add .root { names := "-v", binding := .values (.exactly 0) }]

/-- The pair keeps its last mention, for which a name of the flag was taken, and the number that is
given twice ends the parse. -/
theorem repetition_kept_pair :
    let parser := (ofProgram "tool").afterAll repeatedCalls
    (parser.parse {} ["--pair=a", "b", "-v", "-p", "c", "-v"]).1.vars.find? ⟨1⟩ =
        some (.collection .string .sequence (.exactly 2) [.string "c", .string "-v"]) ∧
      (parser.parse {} ["-n1", "-v", "--number", "2"]).2.result =
        .error (.argumentMismatch "--number" (.exactly 1) 2) := by
  intro parser
  have hreachable : Reachable parser := (reachable_ofProgram "tool").afterAll (by decide +kernel)
  constructor
  · let p := (parser.schema.command .root).parameters.get ⟨1, by decide +kernel⟩
    have hmentioned : parser.Mentioned ["--pair=a", "b", "-v", "-p", "c", "-v"] .root p 2
        [["a", "b"], ["c", "-v"]] :=
      ⟨List.get_mem _ _, by decide +kernel, by decide, rfl, by decide, by decide +kernel,
        by decide +kernel⟩
    obtain ⟨-, -, -, hcomplete, -, -⟩ := hreachable.repetition_kept hmentioned
    obtain ⟨values, hkept, hvar⟩ := hcomplete {} (by decide +kernel)
    obtain rfl : ["c", "-v"] = values := Except.ok.inj hkept
    exact hvar.trans (by decide +kernel)
  · let p := (parser.schema.command .root).parameters.get ⟨2, by decide +kernel⟩
    have hmentioned : parser.Mentioned ["-n1", "-v", "--number", "2"] .root p 1 [["1"], ["2"]] :=
      ⟨List.get_mem _ _, by decide +kernel, by decide, rfl, by decide, by decide +kernel,
        by decide +kernel⟩
    obtain ⟨-, -, -, -, hcontradict, -⟩ := hreachable.repetition_kept hmentioned
    let scan := parser.gathered {} ["-n1", "-v", "--number", "2"]
    have hgathers : parser.Gathers {} ["-n1", "-v", "--number", "2"] scan :=
      gathers_gathered (by decide +kernel) (by decide +kernel) (by decide +kernel)
    have hframes : scan.frames = [] ++ scan.current :: scan.outer := rfl
    have hturn : parser.Turn {} scan .root p ⟨scan.bindings, parser.vars⟩ :=
      .intro hframes (by decide +kernel)
        (List.take_append_drop 2 (parser.schema.command .root).parameters).symm rfl
        (by decide +kernel)
    exact ((hcontradict rfl rfl (by decide) {}).2 scan hgathers).1 _ hturn

end Parser

end CommandLine
