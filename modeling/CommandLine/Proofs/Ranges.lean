import CommandLine.Proofs.Checking

/-!
# A range bounds a variable

A range is a check like any other, and sees texts, not numbers. A text
that is no number it accepts, and leaves to the conversion. So what it
promises about a variable (`Reachable.range_bounds`) holds because of
what comes behind it: as the last check it changes nothing
(`passes_append_range`), the repetition policies other than the one that
joins texts only choose among the texts (`Parameter.sublist_of_finalValues`),
and the conversion reads them in the same way (`numbers_of_reads`).
-/

namespace CommandLine

variable {files : FileStore} {check : Check} {earlier : List Check} {type : IntegerType}
  {min max : Int} {text message : String} {values : List String}
  {invocations checked : List (List String)}

/-! ## One text -/

/-- The text is a number of the type that is not between the bounds. -/
def Outside (type : IntegerType) (min max : Int) (text : String) : Prop :=
  ∃ n, (ValueType.integer type).read? text = some (.integer n) ∧ ¬(min ≤ n ∧ n ≤ max)

/-- What a range says about a text that it rejects. -/
def rangeMessage (min max : Int) (text : String) : String :=
  s!"Value {text} not in range " ++ toString min ++ " to " ++ toString max

/-- The range of the numbers from `min` to `max`. -/
abbrev integerRange (type : IntegerType) (min max : Int) : Check :=
  .range (.integer type) (.integer min) (.integer max)

theorem run_range_of_outside (h : Outside type min max text) :
    (integerRange type min max).run files text = .error (rangeMessage min max text) := by
  obtain ⟨n, hread, hn⟩ := h
  have hbefore : (decide (n < min) || decide (max < n)) = true := by
    rw [Bool.or_eq_true, decide_eq_true_eq, decide_eq_true_eq]
    omega
  simp only [integerRange, Check.range, Check.run_ofRun, hread, Value.isBefore, hbefore, if_true]
  rfl

theorem run_range_of_not_outside (h : ¬Outside type min max text) :
    (integerRange type min max).run files text = .ok text := by
  cases hread : (ValueType.integer type).read? text with
  | none => simp only [integerRange, Check.range, Check.run_ofRun, hread]
  | some value =>
      obtain ⟨n, -, rfl⟩ := Option.map_eq_some_iff.mp hread
      have hbetween : min ≤ n ∧ n ≤ max := by_contra fun hn => h ⟨n, hread, hn⟩
      have hbefore : (decide (n < min) || decide (max < n)) = false := by
        rw [Bool.or_eq_false_iff, decide_eq_false_iff_not, decide_eq_false_iff_not]
        omega
      simp only [integerRange, Check.range, Check.run_ofRun, hread, Value.isBefore, hbefore]
      rfl

theorem run_range_eq_ok {result : String} :
    (integerRange type min max).run files text = .ok result ↔
      text = result ∧ ¬Outside type min max text := by
  by_cases h : Outside type min max text
  · simp [run_range_of_outside h, h]
  · simp [run_range_of_not_outside h, h]

theorem run_range_eq_error :
    (integerRange type min max).run files text = .error message ↔
      Outside type min max text ∧ rangeMessage min max text = message := by
  by_cases h : Outside type min max text
  · simp [run_range_of_outside h, h]
  · simp [run_range_of_not_outside h, h]

/-- A number between the bounds is not outside, however it is written. -/
theorem not_outside_of_read? {n : Int}
    (hread : (ValueType.integer type).read? text = some (.integer n)) (hn : min ≤ n ∧ n ≤ max) :
    ¬Outside type min max text := by
  rintro ⟨m, hm, houtside⟩
  rw [hread] at hm
  cases hm
  exact houtside hn

/-- What is read from texts that are not outside are numbers between the bounds. -/
theorem numbers_of_reads {texts : List String} {read : List Value}
    (hread : (ValueType.integer type).Reads texts read)
    (h : ∀ text ∈ texts, ¬Outside type min max text) :
    ∃ numbers : List Int, numbers.map .integer = read ∧ ∀ n ∈ numbers, min ≤ n ∧ n ≤ max := by
  induction hread with
  | nil => exact ⟨[], rfl, fun _ hn => absurd hn List.not_mem_nil⟩
  | cons hfirst _ ih =>
      obtain ⟨hinside, hrest⟩ := List.forall_mem_cons.mp h
      obtain ⟨numbers, rfl, hnumbers⟩ := ih hrest
      obtain ⟨n, -, rfl⟩ := Option.map_eq_some_iff.mp hfirst
      have hn : min ≤ n ∧ n ≤ max := by_contra fun hn => hinside ⟨n, hfirst, hn⟩
      exact ⟨n :: numbers, rfl, List.forall_mem_cons.mpr ⟨hn, hnumbers⟩⟩

/-! ## The line of checks -/

theorem checkValue_append {value result : String} :
    checkValue files (earlier ++ [check]) value = .ok result ↔
      ∃ between, checkValue files earlier value = .ok between ∧
        check.run files between = .ok result := by
  have hlast : checkValue files (earlier ++ [check]) value =
      checkValue files earlier value >>= check.run files := by
    simp only [checkValue, List.foldlM_append, List.foldlM_cons, List.foldlM_nil, bind_pure]
  rw [hlast]
  cases checkValue files earlier value with
  | error fault =>
      refine ⟨fun h => (by cases h), ?_⟩
      rintro ⟨between, hearlier, -⟩
      cases hearlier
  | ok between => simp [Bind.bind, Except.bind]

theorem forall₂_and_right {α β : Type} {R : α → β → Prop} {P : β → Prop} {l : List α}
    {m : List β} :
    List.Forall₂ (fun a b => R a b ∧ P b) l m ↔ List.Forall₂ R l m ∧ ∀ b ∈ m, P b := by
  constructor
  · intro h
    induction h with
    | nil => exact ⟨.nil, fun _ hb => absurd hb List.not_mem_nil⟩
    | cons hab _ ih => exact ⟨.cons hab.1 ih.1, List.forall_mem_cons.mpr ⟨hab.2, ih.2⟩⟩
  · rintro ⟨h, hm⟩
    induction h with
    | nil => exact .nil
    | cons hab _ ih =>
        obtain ⟨hb, hm⟩ := List.forall_mem_cons.mp hm
        exact .cons ⟨hab, hb⟩ (ih hm)

/-- A range makes nothing else of the values: they are those that the checks before it have made. -/
theorem passes_append_range :
    Passes files (earlier ++ [integerRange type min max]) invocations checked ↔
      Passes files earlier invocations checked ∧
        ∀ text ∈ checked.flatten, ¬Outside type min max text := by
  have hvalue : (fun value result =>
      checkValue files (earlier ++ [integerRange type min max]) value = .ok result) =
      fun value result =>
        checkValue files earlier value = .ok result ∧ ¬Outside type min max result := by
    funext value result
    simp only [checkValue_append, run_range_eq_ok, eq_iff_iff]
    constructor
    · rintro ⟨_, hearlier, rfl, hinside⟩
      exact ⟨hearlier, hinside⟩
    · rintro ⟨hearlier, hinside⟩
      exact ⟨_, hearlier, rfl, hinside⟩
  have hvalues : (List.Forall₂ fun value result =>
      checkValue files earlier value = .ok result ∧ ¬Outside type min max result) =
      fun values results =>
        List.Forall₂ (fun value result => checkValue files earlier value = .ok result)
          values results ∧ ∀ text ∈ results, ¬Outside type min max text := by
    funext values results
    exact propext forall₂_and_right
  rw [Passes, hvalue, hvalues, forall₂_and_right, List.forall_mem_flatten, Passes]

/-- The text is the first of the values to lie outside of the range. -/
def FirstOutside (type : IntegerType) (min max : Int) (values : List String) (text : String) :
    Prop :=
  ∃ before after, values = before ++ text :: after ∧
    (∀ earlier ∈ before, ¬Outside type min max earlier) ∧ Outside type min max text

theorem rejectsFirst_range :
    (integerRange type min max).RejectsFirst files values message ↔
      ∃ text, FirstOutside type min max values text ∧ rangeMessage min max text = message := by
  simp only [Check.RejectsFirst, FirstOutside, run_range_eq_ok, run_range_eq_error,
    exists_eq_left']
  constructor
  · rintro ⟨before, text, after, hvalues, hbefore, houtside, hmessage⟩
    exact ⟨text, ⟨before, after, hvalues, hbefore, houtside⟩, hmessage⟩
  · rintro ⟨text, ⟨before, after, hvalues, hbefore, houtside⟩, hmessage⟩
    exact ⟨before, text, after, hvalues, hbefore, houtside, hmessage⟩

/-- The last check rejects a value where those before it have rejected none. -/
theorem rejects_append :
    Rejects files (earlier ++ [check]) invocations message ↔
      Rejects files earlier invocations message ∨
        ∃ between, Passes files earlier invocations between ∧
          check.RejectsFirst files between.flatten message := by
  constructor
  · rintro ⟨first, rejecting, later, between, hchecks, hpasses, hrejects⟩
    rcases List.eq_nil_or_concat' later with rfl | ⟨later, last, rfl⟩
    · obtain ⟨rfl, hlast⟩ := List.append_inj' hchecks rfl
      cases hlast
      exact Or.inr ⟨between, hpasses, hrejects⟩
    · rw [← List.cons_append, ← List.append_assoc] at hchecks
      obtain ⟨rfl, -⟩ := List.append_inj' hchecks rfl
      exact Or.inl ⟨first, rejecting, later, between, rfl, hpasses, hrejects⟩
  · rintro (⟨first, rejecting, later, between, rfl, hpasses, hrejects⟩ |
      ⟨between, hpasses, hrejects⟩)
    · exact ⟨first, rejecting, later ++ [check], between, by simp, hpasses, hrejects⟩
    · exact ⟨earlier, check, [], between, rfl, hpasses, hrejects⟩

/-! ## The variable -/

namespace Parameter

variable {p : Parameter} {texts : List String}

/-- All policies but one choose among the values. -/
theorem sublist_of_finalValues (hpolicy : p.repetition ≠ .joined)
    (h : p.finalValues invocations = .ok texts) : texts.Sublist invocations.flatten := by
  unfold finalValues at h
  dsimp only at h
  split at h
  · cases h
  · split at h
    · cases h
      exact .refl _
    · split at h
      · split at h <;> cases h
        exact .refl _
      · split at h <;> cases h
        exact .refl _
    · cases h
      exact List.drop_sublist _ _
    · cases h
      exact List.take_sublist _ _
    · next heq => exact absurd heq hpolicy

end Parameter

/-- A flag's mentions leave a variable that holds values as it is. -/
theorem Field.mentionTimes_eq_self {field : Field} {type : ValueType}
    (htype : field.type? = some type) (n : Int) : field.mentionTimes n = field := by
  cases field with
  | switch | counter => cases htype
  | scalar | optional | collection =>
      simp only [mentionTimes, mentionOnce, ite_self]

namespace Parameter

variable {p : Parameter} {d e : Delivery} {field : Field}

/-- A parameter that was delivered has its texts read, and its variable holds what was read. -/
theorem stored_of_deliver {type : ValueType} (hinvoked : d.bindings.invoked p.id = true)
    (hfield : d.vars.find? p.id = some field) (htype : field.type? = some type)
    (h : p.deliver files d = (e, .ok ())) :
    p.Rewrites files (d.bindings.of p.id) (e.bindings.of p.id) ∧
      ∃ texts read, p.texts (e.bindings.of p.id) = .ok texts ∧ type.Reads texts read ∧
        e.vars.find? p.id = some (read.foldl (fun field value => field.put value) field) := by
  cases hflag : p.nargs.isFlag with
  | true =>
      obtain ⟨n, -, rfl⟩ := (deliver_eq_ok_of_flag hinvoked hflag).mp h
      have hnone : p.texts (d.bindings.of p.id) = .ok [] := by rw [texts, hflag, if_pos rfl]
      refine ⟨by rw [Rewrites, hflag, if_pos rfl], [], [], hnone, .nil, ?_⟩
      rw [find?_writeFlag_self, hfield, Option.map_some, Field.mentionTimes_eq_self htype]
      rfl
  | false =>
      obtain ⟨checked, texts, vars, hpasses, hfinal, hwrite, rfl⟩ :=
        (deliver_eq_ok_of_values hinvoked hflag).mp h
      rcases write_eq_ok.mp hwrite with ⟨hnone, -⟩ | ⟨_, new, hbound, hstored, rfl⟩
      · rw [hfield] at hnone
        cases hnone
      · obtain rfl := Option.some.inj (hfield.symm.trans hbound)
        obtain ⟨read, hread, rfl⟩ := (Field.storeAll_eq_ok htype).mp hstored
        simp only [Bindings.of_set_self]
        refine ⟨by simpa [Rewrites, hflag] using hpasses, texts, read, ?_, hread, ?_⟩
        · rw [Parameter.texts, hflag]
          exact hfinal
        · rw [Variables.find?_set_self, hfield, Option.map_some]

/-- No text that is read is one that the last check would have rejected. -/
theorem texts_not_outside {before after : List (List String)} {texts : List String}
    (hchecks : p.checks = earlier ++ [integerRange type min max])
    (hpolicy : p.repetition ≠ .joined) (hrewrites : p.Rewrites files before after)
    (htexts : p.texts after = .ok texts) : ∀ text ∈ texts, ¬Outside type min max text := by
  intro text htext
  rw [Parameter.texts] at htexts
  rw [Rewrites] at hrewrites
  split at htexts
  · cases htexts
    exact absurd htext List.not_mem_nil
  · next hflag =>
      rw [if_neg hflag, hchecks, passes_append_range] at hrewrites
      exact hrewrites.2 text ((sublist_of_finalValues hpolicy htexts).subset htext)

end Parameter

namespace Parser

variable {parser after : Parser} {report : Report} {world : World} {tokens : List String}
  {scan : Scan} {c : CommandId} {p : Parameter} {field : Field}

/-- What the checks of a parameter decide about its invocations, where a range is the last of them:
one before it rejects, the range itself rejects, or all values pass. -/
inductive RangeVerdict (files : FileStore) (p : Parameter) (earlier : List Check)
    (type : IntegerType) (min max : Int) (given kept : List (List String))
    (result : Except ParseError Parsed) : Prop
  | earlier {message : String} (hrejects : Rejects files earlier given message)
      (hresult : result = .error (.validation p.label message))
  | range {between : List (List String)} {text : String}
      (hpasses : Passes files earlier given between)
      (hfirst : FirstOutside type min max between.flatten text)
      (hresult : result = .error (.validation p.label (rangeMessage min max text)))
  | accepted (hpasses : Passes files earlier given kept)
      (hinside : ∀ text ∈ kept.flatten, ¬Outside type min max text)

theorem Gathers.rangeVerdict (h : parser.Gathers world tokens scan)
    (hwf : parser.schema.WellFormed) (hp : p ∈ (parser.schema.command c).parameters)
    (hchecks : p.checks = earlier ++ [integerRange type min max])
    (hinvoked : scan.bindings.invoked p.id = true) (hflag : p.nargs.isFlag = false) :
    parser.FailsBefore world scan c p ∨
      RangeVerdict world.files p earlier type min max (scan.bindings.of p.id)
        ((parser.parse world tokens).1.scan.bindings.of p.id)
        (parser.parse world tokens).2.result := by
  have hchecked := h.checked hwf hp hinvoked hflag
  rcases hchecked.turn with ⟨u, hturn⟩ | hbefore
  · right
    rcases hchecked.judged u hturn with ⟨message, hrejects, hresult⟩ | hpasses
    · rw [hchecks, rejects_append] at hrejects
      rcases hrejects with hearlier | ⟨between, hpasses, hlast⟩
      · exact .earlier hearlier hresult
      · obtain ⟨text, hfirst, rfl⟩ := rejectsFirst_range.mp hlast
        exact .range hpasses hfirst hresult
    · rw [hchecks, passes_append_range] at hpasses
      exact .accepted hpasses.1 hpasses.2
  · exact Or.inl hbefore

/-- Where a range is the last check of a parameter bound to numbers, a complete parse reads into the
variable no number but those between the bounds, whatever the variable holds and whichever layer
its texts are from, and no number between the bounds is ever rejected by the range: it rejects the
first text that is a number and not between the bounds, or none. -/
theorem Reachable.range_bounds (h : Reachable parser)
    (hparse : parser.parse world tokens = (after, report))
    (hp : p ∈ (parser.schema.command c).parameters)
    (hchecks : p.checks = earlier ++ [integerRange type min max])
    (hpolicy : p.repetition ≠ .joined) (hfield : parser.vars.find? p.id = some field)
    (htype : field.type? = some (.integer type)) :
    (report.result = .ok .complete → after.scan.bindings.invoked p.id = true →
      ∃ (texts : List String) (numbers : List Int),
        p.texts (after.scan.bindings.of p.id) = .ok texts ∧
        (ValueType.integer type).Reads texts (numbers.map .integer) ∧
        (∀ n ∈ numbers, min ≤ n ∧ n ≤ max) ∧
        after.vars.find? p.id =
          some ((numbers.map .integer).foldl (fun field value => field.put value) field)) ∧
    (∀ files text n, (ValueType.integer type).read? text = some (.integer n) →
      min ≤ n ∧ n ≤ max → (integerRange type min max).run files text = .ok text) ∧
    ∀ scan, parser.Gathers world tokens scan → scan.bindings.invoked p.id = true →
      p.nargs.isFlag = false → parser.FailsBefore world scan c p ∨
        RangeVerdict world.files p earlier type min max (scan.bindings.of p.id)
          (after.scan.bindings.of p.id) report.result := by
  have hwf := h.wellFormed
  have hafter : (parser.parse world tokens).1 = after := by rw [hparse]
  have hreport : (parser.parse world tokens).2 = report := by rw [hparse]
  subst hafter hreport
  refine ⟨fun hcomplete hinvoked => ?_, fun files text n hread hn =>
    run_range_of_not_outside (not_outside_of_read? hread hn),
    fun scan hgathers => hgathers.rangeVerdict hwf hp hchecks⟩
  obtain ⟨scan, hgathers⟩ := exists_gathers hcomplete
  rw [(hgathers.touches hwf).invoked] at hinvoked
  obtain ⟨u, v, hdeliver, ⟨huOf, huFind⟩, hvOf, hvFind⟩ :=
    hgathers.delivered hwf hcomplete hp hinvoked
  have hinvoked' : u.bindings.invoked p.id = true := by rwa [Bindings.invoked, huOf]
  obtain ⟨hrewrites, texts, read, htexts, hread, hfind⟩ :=
    Parameter.stored_of_deliver hinvoked' (huFind.trans hfield) htype hdeliver
  obtain ⟨numbers, rfl, hnumbers⟩ :=
    numbers_of_reads hread (Parameter.texts_not_outside hchecks hpolicy hrewrites htexts)
  rw [hvOf, hvFind]
  exact ⟨texts, numbers, htexts, hread, hnumbers, hfind⟩

/-- Levels that are written backwards. -/
def rangedCalls : List Call :=
  let levels : Field := .collection (.integer .i64) .sequence (.exactly 1) [.integer 99]
  [.add .root { names := "--level", binding := .option levels, env := some "LEVEL",
                checks := [.reverse, integerRange .i64 (-5) 40] }]

/-- Both levels from the command line lie between the bounds, and the one from the environment does
not. -/
theorem range_bounds_levels :
    let parser := (ofProgram "tool").afterAll rangedCalls
    let p := (parser.schema.command .root).parameters.get ⟨1, by decide +kernel⟩
    let accepted := parser.parse {} ["--level", "01", "--level", "5-"]
    let world : World := { environment := [("LEVEL", "05")] }
    let refused := parser.parse world []
    (∃ (texts : List String) (numbers : List Int),
        p.texts (accepted.1.scan.bindings.of p.id) = .ok texts ∧
        (ValueType.integer .i64).Reads texts (numbers.map .integer) ∧
        (∀ n ∈ numbers, -5 ≤ n ∧ n ≤ 40) ∧
        accepted.1.vars.find? p.id = some ((numbers.map .integer).foldl
          (fun field value => field.put value)
          (.collection (.integer .i64) .sequence (.exactly 1) [.integer 99]))) ∧
      accepted.1.vars.find? p.id = some (.collection (.integer .i64) .sequence (.exactly 1)
        [.integer 99, .integer 10, .integer (-5)]) ∧
      (integerRange .i64 (-5) 40).run {} "+7" = .ok "+7" ∧
      refused.2.result = .error (.validation "--level" "Value 50 not in range -5 to 40") := by
  intro parser p accepted world refused
  have hreachable : Reachable parser := (reachable_ofProgram "tool").afterAll (by decide +kernel)
  have hp : p ∈ (parser.schema.command .root).parameters := List.get_mem _ _
  have hchecks : p.checks = [.reverse] ++ [integerRange .i64 (-5) 40] := rfl
  have hfield : parser.vars.find? p.id =
      some (.collection (.integer .i64) .sequence (.exactly 1) [.integer 99]) := by decide +kernel
  obtain ⟨hbounded, hread, -⟩ :=
    hreachable.range_bounds accepted.eta.symm hp hchecks (by decide +kernel) hfield rfl
  exact ⟨hbounded (by decide +kernel) (by decide +kernel), by decide +kernel,
    hread {} "+7" 7 (by decide +kernel) (by decide), by decide +kernel⟩

end Parser

end CommandLine
