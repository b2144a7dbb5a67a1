import CommandLine.Proofs.Repetition

/-!
# Checks stand in line

The checks of a parameter are run one after the other, each on all values
before the next one, and write what they make of a value in its place. This
comes to the same as passing each value through the line of checks
(`Passes`), as long as no check rejects a value. The first check that does
ends the run, with its message for the first value that it rejects, and
the checks before it have accepted all values (`runChecks_eq_some`). Until
then each value has come some way down the line, and no check has seen it
twice (`progress_runChecks`). The rejected value is left as the check that
rejects it has made it.

Values are gathered unchecked, from any layer, and the turn of a parameter
comes once in a parse. So all of this holds of whole parses
(`Reachable.checks_in_line`).
-/

namespace CommandLine

variable {files : FileStore} {check : Check} {checks : List Check} {values : List String}
  {invocations : List (List String)} {message : String}

/-! ## Rejections -/

/-- The check rejects one of the values with the message, and none of those before it. -/
def Check.RejectsFirst (check : Check) (files : FileStore) (values : List String)
    (message : String) : Prop :=
  ∃ before value after, values = before ++ value :: after ∧
    (∀ earlier ∈ before, ∃ accepted, check.run files earlier = .ok accepted) ∧
    check.run files value = .error message

/-- One check rejects one of the values that the checks before it have made, and it is the first
to reject any. -/
def Rejects (files : FileStore) (checks : List Check) (invocations : List (List String))
    (message : String) : Prop :=
  ∃ earlier check later between, checks = earlier ++ check :: later ∧
    Passes files earlier invocations between ∧ check.RejectsFirst files between.flatten message

theorem Check.rejectsFirst_cons {value : String} :
    check.RejectsFirst files (value :: values) message ↔
      check.run files value = .error message ∨
        (∃ accepted, check.run files value = .ok accepted) ∧
          check.RejectsFirst files values message := by
  constructor
  · rintro ⟨before, rejected, after, hvalues, hbefore, hrejected⟩
    cases before with
    | nil =>
        cases hvalues
        exact Or.inl hrejected
    | cons earlier before =>
        cases hvalues
        obtain ⟨hvalue, hbefore⟩ := List.forall_mem_cons.mp hbefore
        exact Or.inr ⟨hvalue, before, rejected, after, rfl, hbefore, hrejected⟩
  · rintro (hrejected | ⟨hvalue, before, rejected, after, rfl, hbefore, hrejected⟩)
    · exact ⟨[], value, values, rfl, nofun, hrejected⟩
    · exact ⟨value :: before, rejected, after, rfl,
        List.forall_mem_cons.mpr ⟨hvalue, hbefore⟩, hrejected⟩

theorem overValues_eq_some :
    (check.overValues files values).2 = some message ↔
      check.RejectsFirst files values message := by
  induction values with
  | nil => simp [Check.overValues, Check.RejectsFirst]
  | cons value values ih =>
      rw [Check.rejectsFirst_cons, ← ih, Check.overValues]
      simp only [Check.run_eq_ok, Check.run_eq_error]
      rcases check.apply files value with ⟨left, fault | ⟨⟨⟩⟩⟩ <;> simp

theorem snd_overValues_append (more : List String) :
    (check.overValues files (values ++ more)).2 =
      ((check.overValues files values).2 <|> (check.overValues files more).2) := by
  induction values with
  | nil => simp [Check.overValues]
  | cons value values ih =>
      rw [List.cons_append, Check.overValues, Check.overValues]
      rcases check.apply files value with ⟨left, fault | ⟨⟨⟩⟩⟩
      · rfl
      · exact ih

/-- Where one invocation ends and the next begins makes no difference to a check. -/
theorem snd_overInvocations :
    (check.overInvocations files invocations).2 =
      (check.overValues files invocations.flatten).2 := by
  induction invocations with
  | nil => rfl
  | cons values invocations ih =>
      rw [Check.overInvocations, List.flatten_cons, snd_overValues_append, ← ih]
      rcases check.overValues files values with ⟨results, _ | fault⟩ <;> rfl

theorem passes_nil {checked : List (List String)} :
    Passes files [] invocations checked ↔ invocations = checked := by
  rw [← runChecks_eq_none, runChecks, Prod.mk.injEq, and_iff_left rfl]

theorem passes_cons {checked : List (List String)} :
    Passes files (check :: checks) invocations checked ↔
      ∃ between, check.overInvocations files invocations = (between, none) ∧
        Passes files checks between checked := by
  simp only [← runChecks_eq_none, runChecks]
  rcases check.overInvocations files invocations with ⟨between, _ | fault⟩ <;> simp

theorem rejects_cons :
    Rejects files (check :: checks) invocations message ↔
      check.RejectsFirst files invocations.flatten message ∨
        ∃ between, check.overInvocations files invocations = (between, none) ∧
          Rejects files checks between message := by
  constructor
  · rintro ⟨earlier, rejecting, later, checked, hchecks, hpasses, hrejects⟩
    cases earlier with
    | nil =>
        cases hchecks
        rw [← passes_nil.mp hpasses] at hrejects
        exact Or.inl hrejects
    | cons first earlier =>
        cases hchecks
        obtain ⟨between, hover, hpasses⟩ := passes_cons.mp hpasses
        exact Or.inr ⟨between, hover, earlier, rejecting, later, checked, rfl, hpasses, hrejects⟩
  · rintro (hrejects |
      ⟨between, hover, earlier, rejecting, later, checked, rfl, hpasses, hrejects⟩)
    · exact ⟨[], check, checks, invocations, rfl, passes_nil.mpr rfl, hrejects⟩
    · exact ⟨check :: earlier, rejecting, later, checked, rfl,
        passes_cons.mpr ⟨between, hover, hpasses⟩, hrejects⟩

/-- A run of the checks ends with the first rejection. -/
theorem runChecks_eq_some :
    (runChecks files checks invocations).2 = some message ↔
      Rejects files checks invocations message := by
  induction checks generalizing invocations with
  | nil => simp [runChecks, Rejects]
  | cons check checks ih =>
      rw [rejects_cons, ← overValues_eq_some, ← snd_overInvocations, runChecks]
      rcases check.overInvocations files invocations with ⟨between, _ | fault⟩
      · simp [ih]
      · simp

/-! ## The way down the line -/

/-- The value has passed the first of the checks, each of them once, as far as they were run. The
check behind them may have changed it and rejected it. -/
def Advances (files : FileStore) (checks : List Check) (value result : String) : Prop :=
  ∃ passed between, passed <+: checks ∧ checkValue files passed value = .ok between ∧
    (between = result ∨ ∃ check message, passed ++ [check] <+: checks ∧
      check.apply files between = (result, .error message))

theorem Advances.refl (files : FileStore) (checks : List Check) (value : String) :
    Advances files checks value value :=
  ⟨[], value, List.nil_prefix, rfl, Or.inl rfl⟩

theorem Advances.rejected {value left : String}
    (happly : check.apply files value = (left, .error message)) :
    Advances files (check :: checks) value left :=
  ⟨[], value, List.nil_prefix, rfl,
    Or.inr ⟨check, message, List.cons_prefix_cons.mpr ⟨rfl, List.nil_prefix⟩, happly⟩⟩

theorem Advances.cons {value accepted result : String}
    (hrun : check.run files value = .ok accepted) (h : Advances files checks accepted result) :
    Advances files (check :: checks) value result := by
  obtain ⟨passed, between, hpassed, hvalue, hend⟩ := h
  refine ⟨check :: passed, between, List.cons_prefix_cons.mpr ⟨rfl, hpassed⟩, ?_, ?_⟩
  · rw [checkValue, List.foldlM_cons, hrun]
    exact hvalue
  · refine hend.imp_right ?_
    rintro ⟨rejecting, message, hprefix, happly⟩
    exact ⟨rejecting, message, List.cons_prefix_cons.mpr ⟨rfl, hprefix⟩, happly⟩

theorem advances_overValues :
    List.Forall₂ (Advances files (check :: checks)) values (check.overValues files values).1 := by
  induction values with
  | nil => exact .nil
  | cons value values ih =>
      rw [Check.overValues]
      rcases happly : check.apply files value with ⟨left, fault | ⟨⟨⟩⟩⟩
      · exact .cons (.rejected happly) (List.forall₂_same.mpr fun _ _ => .refl _ _ _)
      · exact .cons (.cons (Check.run_eq_ok.mpr happly) (.refl _ _ _)) ih

/-- Each value has come some way down the line, in its place. -/
def Progress (files : FileStore) (checks : List Check) :
    (before after : List (List String)) → Prop :=
  List.Forall₂ (List.Forall₂ (Advances files checks))

theorem Progress.refl (files : FileStore) (checks : List Check) (invocations : List (List String)) :
    Progress files checks invocations invocations :=
  List.forall₂_same.mpr fun _ _ => List.forall₂_same.mpr fun _ _ => .refl _ _ _

theorem progress_overInvocations :
    Progress files (check :: checks) invocations (check.overInvocations files invocations).1 := by
  induction invocations with
  | nil => exact .nil
  | cons values invocations ih =>
      have hvalues := @advances_overValues files check checks values
      rw [Check.overInvocations]
      rcases hover : check.overValues files values with ⟨results, _ | fault⟩
      · rw [hover] at hvalues
        exact .cons hvalues ih
      · rw [hover] at hvalues
        exact .cons hvalues (Progress.refl _ _ _)

/-- However a run of the checks ends, each value has come some way down the line. -/
theorem progress_runChecks :
    Progress files checks invocations (runChecks files checks invocations).1 := by
  induction checks generalizing invocations with
  | nil => exact .refl _ _ _
  | cons check checks ih =>
      rw [runChecks]
      rcases hover : check.overInvocations files invocations with ⟨between, _ | fault⟩
      · have hcomp : List.Forall₂ (List.Forall₂ (Relation.Comp
            (fun value result => check.run files value = .ok result) (Advances files checks)))
            invocations (runChecks files checks between).1 := by
          rw [forall₂_comp, forall₂_comp]
          exact ⟨between, overInvocations_eq_none.mp hover, ih⟩
        refine hcomp.imp fun _ _ hvalues => hvalues.imp fun _ _ hvalue => ?_
        obtain ⟨accepted, hrun, hadvances⟩ := hvalue
        exact hadvances.cons hrun
      · have hover' := @progress_overInvocations files check checks invocations
        rwa [hover] at hover'

-- What a check makes of a value that it rejects is left there, and the other values are not tried.
example : runChecks {} [⟨fun _ value => (value ++ "?", .error "no")⟩] [["a", "b"], ["c"]] =
    ([["a?", "b"], ["c"]], some "no") := by decide

/-! ## One parameter -/

namespace Parameter

variable {p : Parameter} {d : Delivery}

/-- The invocations that are left are those that the checks have made, and a rejection is the one
failure of its kind. -/
theorem deliver_eq_runChecks (hinvoked : d.bindings.invoked p.id = true)
    (hflag : p.nargs.isFlag = false) :
    (p.deliver files d).1.bindings.of p.id = (runChecks files p.checks (d.bindings.of p.id)).1 ∧
      ∀ message, (p.deliver files d).2 = .error (.validation p.label message) ↔
        (runChecks files p.checks (d.bindings.of p.id)).2 = some message := by
  rw [deliver, hinvoked, hflag]
  simp only [Bool.not_true, Bool.false_eq_true, if_false, deliverValues]
  rcases runChecks files p.checks (d.bindings.of p.id) with ⟨checked, _ | fault⟩
  · cases hfinal : p.finalValues checked with
    | error error =>
        obtain ⟨expected, received, rfl⟩ := mismatch_of_finalValues hfinal
        simp
    | ok texts =>
        have hwrite : ∀ message,
            (p.write texts d.vars).2 ≠ .error (.validation p.label message) := by
          intro message herror
          obtain ⟨text, fault, hconversion⟩ := conversion_of_write herror
          cases hconversion
        simpa [hfinal] using hwrite
  · simp

/-- The checks of the parameter decide about its invocations: a rejection is the error, with the
message of the first check to reject a value and for the first value that it rejects, and where
there is none the invocations that are left hold what the line of checks makes of each value. -/
structure Judges (files : FileStore) (p : Parameter) (d : Delivery)
    (outcome : Delivery × Except ParseError Unit) : Prop where
  refused : ∀ message, outcome.2 = .error (.validation p.label message) ↔
    Rejects files p.checks (d.bindings.of p.id) message
  passed : (∀ message, outcome.2 ≠ .error (.validation p.label message)) →
    Passes files p.checks (d.bindings.of p.id) (outcome.1.bindings.of p.id)

theorem judges_deliver (hinvoked : d.bindings.invoked p.id = true)
    (hflag : p.nargs.isFlag = false) : p.Judges files d (p.deliver files d) := by
  obtain ⟨hof, hrefused⟩ := @deliver_eq_runChecks files p d hinvoked hflag
  refine ⟨fun message => (hrefused message).trans runChecks_eq_some, fun hnone => ?_⟩
  have hend : (runChecks files p.checks (d.bindings.of p.id)).2 = none :=
    Option.eq_none_iff_forall_ne_some.mpr fun message hmessage =>
      hnone message ((hrefused message).mpr hmessage)
  rw [← runChecks_eq_none, hof, ← hend]

/-- To deliver a parameter takes its values down the line of its checks, once. -/
theorem progress_deliver (files : FileStore) (p : Parameter) (d : Delivery) :
    Progress files p.checks (d.bindings.of p.id) ((p.deliver files d).1.bindings.of p.id) := by
  cases hinvoked : d.bindings.invoked p.id with
  | false =>
      rw [deliver_of_not_invoked hinvoked]
      exact .refl _ _ _
  | true =>
      cases hflag : p.nargs.isFlag with
      | true =>
          have hsame : (p.deliver files d).1.bindings = d.bindings := by
            rw [deliver, hinvoked, hflag]
            simp only [Bool.not_true, Bool.false_eq_true, if_false, if_true, deliverFlag]
            split <;> rfl
          rw [hsame]
          exact .refl _ _ _
      | false =>
          rw [(deliver_eq_runChecks hinvoked hflag).1]
          exact progress_runChecks

end Parameter

/-! ## The parse -/

namespace Parser

variable {parser after : Parser} {report : Report} {world : World} {tokens : List String}
  {scan : Scan} {c : CommandId} {p : Parameter} {u : Delivery}

theorem Gathers.of_turn (h : parser.Gathers world tokens scan) (hwf : parser.schema.WellFormed)
    (hturn : parser.Turn world scan c p u) :
    u.bindings.of p.id = scan.bindings.of p.id ∧
      (parser.parse world tokens).1.scan.bindings.of p.id =
        (p.deliver world.files u).1.bindings.of p.id := by
  obtain ⟨hbefore, hafter⟩ := hturn.cell_eq hwf.nodup (h.nodup_frames hwf)
  rw [h.parse_eq, bindings_finish]
  exact ⟨congrArg Prod.fst hbefore, congrArg Prod.fst hafter⟩

/-- However the parse ends, what was gathered for a parameter is as it was or has been delivered. -/
theorem Gathers.of_parse (h : parser.Gathers world tokens scan) (hwf : parser.schema.WellFormed)
    (hp : p ∈ (parser.schema.command c).parameters) :
    (parser.parse world tokens).1.scan.bindings.of p.id = scan.bindings.of p.id ∨
      ∃ u : Delivery, u.bindings.of p.id = scan.bindings.of p.id ∧
        (parser.parse world tokens).1.scan.bindings.of p.id =
          (p.deliver world.files u).1.bindings.of p.id := by
  by_cases hc : c ∈ scan.path
  · obtain ⟨frame, hframe, rfl⟩ := Schema.mem_path.mp hc
    rw [h.parse_eq, bindings_finish]
    refine (Schema.cell_deliver hwf.nodup (h.nodup_frames hwf) world.files
      ⟨scan.bindings, parser.vars⟩ hframe hp).imp (congrArg Prod.fst) ?_
    rintro ⟨u, hu, hend⟩
    exact ⟨u, congrArg Prod.fst hu, congrArg Prod.fst hend⟩
  · exact Or.inl ((h.touches hwf).of p.id (mt (Schema.mem_idsOn_iff hwf.nodup hp).mp hc))

/-- What a parse finds for a parameter comes some way down the line of its checks. -/
theorem progress_parse (hwf : parser.schema.WellFormed) (world : World) (tokens : List String)
    (hp : p ∈ (parser.schema.command c).parameters) :
    Progress world.files p.checks ((parser.found world tokens).of p.id)
      ((parser.parse world tokens).1.scan.bindings.of p.id) := by
  rcases parser.gathers_or_ends world tokens with
    ⟨scan, hgathers⟩ | ⟨scan, result, hparse, -, hfound, -⟩
  · rw [hgathers.found_eq]
    rcases hgathers.of_parse hwf hp with hsame | ⟨u, hu, hend⟩
    · rw [hsame]
      exact .refl _ _ _
    · rw [hend, ← hu]
      exact Parameter.progress_deliver world.files p u
  · rw [hparse, ← hfound]
    exact .refl _ _ _

/-- At the turn of a parameter its checks decide how the parse goes on. -/
theorem Gathers.judged (h : parser.Gathers world tokens scan) (hwf : parser.schema.WellFormed)
    (hinvoked : scan.bindings.invoked p.id = true) (hflag : p.nargs.isFlag = false)
    (hturn : parser.Turn world scan c p u) :
    (∃ message, Rejects world.files p.checks (scan.bindings.of p.id) message ∧
        (parser.parse world tokens).2.result = .error (.validation p.label message)) ∨
      Passes world.files p.checks (scan.bindings.of p.id)
        ((parser.parse world tokens).1.scan.bindings.of p.id) := by
  obtain ⟨hbefore, hafter⟩ := h.of_turn hwf hturn
  have hjudges : p.Judges world.files u (p.deliver world.files u) :=
    Parameter.judges_deliver (by rwa [Bindings.invoked, hbefore]) hflag
  rw [hafter, ← hbefore]
  by_cases hrefused : ∃ message, (p.deliver world.files u).2 = .error (.validation p.label message)
  · obtain ⟨message, hmessage⟩ := hrefused
    exact Or.inl ⟨message, (hjudges.refused message).mp hmessage, h.turn_error hwf hturn hmessage⟩
  · exact Or.inr (hjudges.passed (not_exists.mp hrefused))

/-- What a parse does about the checks of the parameter `p` of the command `c`, for which one layer
has supplied what was gathered. -/
structure Checked (parser : Parser) (world : World) (tokens : List String) (scan : Scan)
    (c : CommandId) (p : Parameter) (after : Parser) (report : Report) : Prop where
  supplied : ∃ layer, parser.Supplies world tokens c p (scan.bindings.of p.id) layer
  turn : (∃ u, parser.Turn world scan c p u) ∨ parser.FailsBefore world scan c p
  judged : ∀ u, parser.Turn world scan c p u →
    (∃ message, Rejects world.files p.checks (scan.bindings.of p.id) message ∧
        report.result = .error (.validation p.label message)) ∨
      Passes world.files p.checks (scan.bindings.of p.id) (after.scan.bindings.of p.id)
  complete : report.result = .ok .complete →
    Passes world.files p.checks (scan.bindings.of p.id) (after.scan.bindings.of p.id)

theorem Gathers.checked (h : parser.Gathers world tokens scan) (hwf : parser.schema.WellFormed)
    (hp : p ∈ (parser.schema.command c).parameters)
    (hinvoked : scan.bindings.invoked p.id = true) (hflag : p.nargs.isFlag = false) :
    parser.Checked world tokens scan c p (parser.parse world tokens).1
      (parser.parse world tokens).2 := by
  have hc := h.mem_path_of_invoked hwf hp hinvoked
  refine ⟨h.supplied hwf.nodup hp, h.turn_or_failsBefore hwf hp hc,
    fun u => h.judged hwf hinvoked hflag, fun hcomplete => ?_⟩
  obtain ⟨u, hturn⟩ := h.exists_turn hwf hcomplete hp hc
  refine (h.judged hwf hinvoked hflag hturn).resolve_left ?_
  rintro ⟨message, -, hresult⟩
  rw [hcomplete] at hresult
  cases hresult

/-- The checks of a parameter that is no flag stand in line: each value passes one after the other,
or the first check to reject any ends the parse, with its message for the first value it rejects.
In a whole parse each value that was found comes down the line of its parameter once, whichever
layer it was found in and however the parse ends. -/
theorem Reachable.checks_in_line (h : Reachable parser)
    (hparse : parser.parse world tokens = (after, report)) :
    (∀ (p : Parameter) (d : Delivery), d.bindings.invoked p.id = true → p.nargs.isFlag = false →
        p.Judges world.files d (p.deliver world.files d)) ∧
      ∀ c, ∀ p ∈ (parser.schema.command c).parameters,
        Progress world.files p.checks ((parser.found world tokens).of p.id)
            (after.scan.bindings.of p.id) ∧
          ∀ scan, parser.Gathers world tokens scan →
            parser.found world tokens = scan.bindings ∧
              (scan.bindings.invoked p.id = true → p.nargs.isFlag = false →
                parser.Checked world tokens scan c p after report) := by
  have hwf := h.wellFormed
  have hafter : (parser.parse world tokens).1 = after := by rw [hparse]
  have hreport : (parser.parse world tokens).2 = report := by rw [hparse]
  subst hafter hreport
  refine ⟨fun p d => Parameter.judges_deliver, fun c p hp => ⟨progress_parse hwf world tokens hp,
    fun scan hgathers => ⟨hgathers.found_eq, hgathers.checked hwf hp⟩⟩⟩

/-- Two checks that change a value, and between them one that can reject it. -/
def checkedCalls : List Call :=
  [.add .root { names := "--word", binding := .values .any,
                checks := [.append "!", .startsWith "a", .reverse] }]

/-- All values pass, or the second value of the first mention does not. -/
theorem checks_in_line_words :
    let parser := (ofProgram "tool").afterAll checkedCalls
    let p := (parser.schema.command .root).parameters.get ⟨1, by decide +kernel⟩
    let accepted := parser.parse {} ["--word", "ab", "ac", "--word", "ad"]
    let refused := parser.parse {} ["--word", "ab", "xy", "--word", "zz"]
    (Passes {} p.checks [["ab", "ac"], ["ad"]] (accepted.1.scan.bindings.of p.id) ∧
        accepted.1.scan.bindings.of p.id = [["!ba", "!ca"], ["!da"]]) ∧
      (Rejects {} p.checks [["ab", "xy"], ["zz"]] "must start with 'a'" ∧
        refused.2.result = .error (.validation "--word" "must start with 'a'")) ∧
      Progress {} p.checks [["ab", "xy"], ["zz"]] (refused.1.scan.bindings.of p.id) ∧
      refused.1.scan.bindings.of p.id = [["ab!", "xy!"], ["zz!"]] := by
  intro parser p accepted refused
  have hreachable : Reachable parser := (reachable_ofProgram "tool").afterAll (by decide +kernel)
  have hp : p ∈ (parser.schema.command .root).parameters := List.get_mem _ _
  have hflag : p.nargs.isFlag = false := by decide +kernel
  obtain ⟨-, haccepted⟩ := hreachable.checks_in_line accepted.eta.symm
  obtain ⟨hjudges, hrefused⟩ := hreachable.checks_in_line refused.eta.symm
  have hgathers : parser.Gathers {} ["--word", "ab", "ac", "--word", "ad"] _ :=
    gathers_gathered (by decide +kernel) (by decide +kernel) (by decide +kernel)
  obtain ⟨-, hchecked⟩ := (haccepted .root p hp).2 _ hgathers
  have hpasses := (hchecked (by decide +kernel) hflag).complete (by decide +kernel)
  let found := parser.found {} ["--word", "ab", "xy", "--word", "zz"]
  have hrejects := ((hjudges p ⟨found, parser.vars⟩ (by decide +kernel) hflag).refused
    "must start with 'a'").mp (by decide +kernel)
  have hprogress := (hrefused .root p hp).1
  have hgiven : (parser.gathered {} ["--word", "ab", "ac", "--word", "ad"]).bindings.of p.id =
      [["ab", "ac"], ["ad"]] := by decide +kernel
  have hmixed : found.of p.id = [["ab", "xy"], ["zz"]] := by decide +kernel
  rw [hgiven] at hpasses
  rw [hmixed] at hrejects hprogress
  exact ⟨⟨hpasses, by decide +kernel⟩, ⟨hrejects, by decide +kernel⟩, hprogress,
    by decide +kernel⟩

end Parser

end CommandLine
