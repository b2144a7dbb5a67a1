import CommandLine.Proofs.Writing
import Mathlib.Algebra.Order.BigOperators.Group.List
import Mathlib.Algebra.Order.Group.Nat

/-!
# Whether a parameter has all its values

A parameter that takes `n` values gets them all where it is mentioned by
name (`Schema.sized_read`). By position it may get fewer, from the
configuration file any number, and from the environment one. After the
three layers only the parameters with a strict policy have their values
counted, and a parameter whose values accumulate passes with none at all
(`Parameter.lenient_of_finalValues`). So a complete parse may leave a
parameter below its minimum, and `Parser.Undersupplied` lists how
(`Reachable.minimum_held_iff`).
-/

namespace CommandLine

namespace Bindings

variable {b : Bindings} {p q : ParameterId} {n : Nat}

/-- Every invocation of the parameter has that many values. -/
def Sized (b : Bindings) (p : ParameterId) (n : Nat) : Prop :=
  ∀ values ∈ b.of p, values.length = n

theorem Sized.push {values : List String} (h : b.Sized p n)
    (hvalues : q = p → values.length = n) : (b.push q values).Sized p n := by
  by_cases hq : q = p
  · subst hq
    rw [Sized, of_push_self, List.forall_mem_append, List.forall_mem_singleton]
    exact ⟨h, hvalues rfl⟩
  · rwa [Sized, of_push_of_ne _ _ hq]

theorem count_eq_sum (b : Bindings) (p : ParameterId) :
    b.count p = ((b.of p).map List.length).sum :=
  List.length_flatten

/-- A single invocation gives the parameter all the values that it has. -/
theorem length_le_count {values : List String} (h : values ∈ b.of p) :
    values.length ≤ b.count p := by
  rw [count_eq_sum]
  exact List.le_sum_of_mem (List.mem_map_of_mem h)

end Bindings

/-! ## Mentions by name -/

namespace Schema

variable {schema : Schema} {scan after : Scan} {text : String} {rest left : List String}
  {c : CommandId} {p : Parameter} {n : Nat}

/-- A mention of a parameter with a fixed number of values takes as many, and that of a flag one
text. -/
theorem sized_move (hids : schema.NodupIds) (hp : p ∈ (schema.command c).parameters)
    (hnargs : p.nargs = .exactly n) (h : scan.bindings.Sized p.id (max n 1))
    (hmove : Move schema scan text rest after left) : after.bindings.Sized p.id (max n 1) := by
  have hsame : ∀ {name : Dashed} {q : Parameter},
      schema.meant? scan.current.command name = some q → q.id = p.id → q = p := by
    intro name q hq hid
    obtain ⟨d, -, hmem⟩ := exists_of_meant? hq
    exact (hids.unique hmem hp hid).2
  cases hmove with
  | mark | enter | aside | stop | wait => exact h
  | flag _ hq hflag =>
      refine h.push fun hid => ?_
      rw [hsame hq hid, hnargs] at hflag
      cases of_decide_eq_true hflag
      rfl
  | values _ hq hflag _ hsize =>
      refine h.push fun hid => ?_
      rw [hsame hq hid, hnargs] at hflag hsize
      have hpos : n ≠ 0 := by
        rintro rfl
        cases hflag
      rw [hsize n rfl]
      omega

theorem sized_read (hids : schema.NodupIds) (hp : p ∈ (schema.command c).parameters)
    (hnargs : p.nargs = .exactly n) (tokens : List String) :
    (schema.read .start tokens).scan.bindings.Sized p.id (max n 1) := by
  have hstart : Scan.start.bindings.Sized p.id (max n 1) :=
    fun _ hvalues => absurd hvalues List.not_mem_nil
  obtain ⟨-, hread, -⟩ := read_invariant
    (motive := fun scan _ => scan.bindings.Sized p.id (max n 1))
    (fun _ _ _ _ _ => sized_move hids hp hnargs) hstart
  exact hread

/-- Placing values adds invocations with one value each. -/
theorem of_settle_append (schema : Schema) (tokens : List String) (p : ParameterId) :
    ∃ placed : List String, (schema.settle tokens).bindings.of p =
      (schema.read .start tokens).scan.bindings.of p ++ placed.map fun value => [value] := by
  refine place_invariant (motive := fun b => ∃ placed : List String, b.of p =
    (schema.read .start tokens).scan.bindings.of p ++ placed.map fun value => [value])
    (fun _ _ q _ b values h => ?_) ⟨[], (List.append_nil _).symm⟩
  obtain ⟨placed, hplaced⟩ := h
  rw [Bindings.of_pushEach, hplaced]
  by_cases hq : q.id = p
  · exact ⟨placed ++ values, by rw [if_pos hq, List.map_append, List.append_assoc]⟩
  · exact ⟨placed, by rw [if_neg hq, List.append_nil]⟩

/-- A parameter that the command line invokes has a value, and all of them if it was mentioned. -/
theorem count_settle (hids : schema.NodupIds) (hp : p ∈ (schema.command c).parameters)
    (hnargs : p.nargs = .exactly n) {tokens : List String}
    (hinvoked : (schema.settle tokens).bindings.invoked p.id = true) :
    0 < (schema.settle tokens).bindings.count p.id ∧
      ((schema.read .start tokens).scan.bindings.invoked p.id = true →
        n ≤ (schema.settle tokens).bindings.count p.id) := by
  obtain ⟨placed, hplaced⟩ := schema.of_settle_append tokens p.id
  have hsized := sized_read hids hp hnargs tokens
  have hmentioned : ∀ values ∈ (schema.read .start tokens).scan.bindings.of p.id,
      max n 1 ≤ (schema.settle tokens).bindings.count p.id := fun values hvalues => by
    rw [← hsized values hvalues]
    exact Bindings.length_le_count (hplaced ▸ List.mem_append_left _ hvalues)
  have hne : (schema.settle tokens).bindings.of p.id ≠ [] := by
    simpa [Bindings.invoked] using hinvoked
  obtain ⟨values, hvalues⟩ := List.exists_mem_of_ne_nil _ hne
  refine ⟨?_, fun hread => ?_⟩
  · rw [hplaced] at hvalues
    rcases List.mem_append.mp hvalues with hnamed | hsingle
    · have := hmentioned values hnamed
      omega
    · obtain ⟨value, -, rfl⟩ := List.mem_map.mp hsingle
      exact Bindings.length_le_count (hplaced ▸ List.mem_append_right _ hsingle)
  · have hne : (schema.read .start tokens).scan.bindings.of p.id ≠ [] := by
      simpa [Bindings.invoked] using hread
    obtain ⟨values, hvalues⟩ := List.exists_mem_of_ne_nil _ hne
    exact (le_max_left n 1).trans (hmentioned values hvalues)

end Schema

/-! ## What delivery counts -/

/-- Checks change values, and neither add nor drop any. -/
theorem Passes.map_length {files : FileStore} {checks : List Check}
    {before after : List (List String)} (h : Passes files checks before after) :
    after.map List.length = before.map List.length := by
  induction h with
  | nil => rfl
  | cons hvalues _ ih => rw [List.map_cons, List.map_cons, ih, hvalues.length_eq]

namespace Parameter

variable {p : Parameter} {invocations : List (List String)} {texts : List String}

theorem ne_nil_of_finalValues (h : p.finalValues invocations = .ok texts)
    (hnargs : p.nargs = .atLeastOne) : ∀ values ∈ invocations, values ≠ [] := by
  intro values hvalues hnil
  have hany : invocations.any (·.isEmpty) = true :=
    List.any_eq_true.mpr ⟨values, hvalues, by rw [hnil]; rfl⟩
  rw [finalValues, if_pos ⟨hnargs, hany⟩] at h
  cases h

/-- Too few values are accepted where they are not counted, or where no values are a multiple of
any number of them. -/
theorem lenient_of_finalValues {n : Nat} (h : p.finalValues invocations = .ok texts)
    (hnargs : p.nargs = .exactly n) (hfew : invocations.flatten.length < n) :
    p.repetition ≠ .strict ∨ p.accumulates = true ∧ invocations.flatten = [] := by
  by_cases hstrict : p.repetition = .strict
  · right
    simp only [finalValues, hnargs, hstrict, Nargs.capacity, reduceCtorEq, false_and, if_false] at h
    split at h
    · next haccumulates =>
        split at h
        · next hmultiple =>
            rw [Nat.mod_eq_of_lt hfew] at hmultiple
            exact ⟨haccumulates, List.eq_nil_of_length_eq_zero hmultiple⟩
        · cases h
    · split at h
      · next hall => exact absurd hall hfew.ne
      · cases h
  · exact Or.inl hstrict

end Parameter

/-! ## The parse -/

namespace Parser

variable {parser after : Parser} {world : World} {tokens : List String} {c : CommandId}
  {p : Parameter} {report : Report}

/-- A parameter that takes `n` values is given fewer, and whatever gives them does not count. -/
inductive Undersupplied (parser : Parser) (world : World) (tokens : List String) (p : Parameter) :
    Prop
  /-- It is not mentioned by name, and there are too few plain values left for it. -/
  | position {n : Nat} (hnargs : p.nargs = .exactly n) (hlenient : p.repetition ≠ .strict)
      (hunnamed : (parser.schema.read .start tokens).scan.bindings.invoked p.id = false)
      (hplaced : (parser.schema.settle tokens).bindings.invoked p.id = true)
      (hfew : (parser.schema.settle tokens).bindings.count p.id < n)
  /-- The items of the configuration file have too few inputs for it. -/
  | configuration {n : Nat} (hnargs : p.nargs = .exactly n)
      (hopen : (parser.schema.settle tokens).bindings.invoked p.id = false)
      (hitems : parser.fileInputs world tokens p.id ≠ [])
      (hfew : (parser.fileInputs world tokens p.id).flatten.length < n)
      (hlenient : p.repetition ≠ .strict ∨
        p.accumulates = true ∧ (parser.fileInputs world tokens p.id).flatten = [])
  /-- Its environment variable is one value. -/
  | environment {n : Nat} (hnargs : p.nargs = .exactly n) (hlenient : p.repetition ≠ .strict)
      (hopen : (parser.schema.settle tokens).bindings.invoked p.id = false)
      (hnoItems : parser.fileInputs world tokens p.id = [])
      (hvariable : p.variable? world ≠ none) (hmany : 1 < n)

/-- What a complete parse has found out about the number of values of a parameter that is no
flag. -/
theorem Gathers.counted {scan : Scan} (h : parser.Gathers world tokens scan)
    (hwf : parser.schema.WellFormed)
    (hcomplete : (parser.parse world tokens).2.result = .ok .complete)
    (hp : p ∈ (parser.schema.command c).parameters) (hflag : p.nargs.isFlag = false)
    (hinvoked : scan.bindings.invoked p.id = true) :
    (parser.parse world tokens).1.scan.bindings.count p.id = scan.bindings.count p.id ∧
      (p.nargs = .atLeastOne → 0 < scan.bindings.count p.id) ∧
      ∀ n, p.nargs = .exactly n → scan.bindings.count p.id < n →
        p.repetition ≠ .strict ∨ p.accumulates = true ∧ (scan.bindings.of p.id).flatten = [] := by
  obtain ⟨u, v, hdeliver, ⟨huOf, -⟩, hvOf, -⟩ := h.delivered hwf hcomplete hp hinvoked
  have hu : u.bindings.invoked p.id = true := by rwa [Bindings.invoked, huOf]
  obtain ⟨checked, texts, vars, hpasses, hfinal, -, rfl⟩ :=
    (Parameter.deliver_eq_ok_of_values hu hflag).mp hdeliver
  have hlengths : checked.map List.length = (scan.bindings.of p.id).map List.length :=
    huOf ▸ hpasses.map_length
  have hcount : checked.flatten.length = scan.bindings.count p.id := by
    rw [List.length_flatten, hlengths, Bindings.count_eq_sum]
  refine ⟨?_, fun hnargs => ?_, fun n hnargs hfew => ?_⟩
  · rw [Bindings.of_set_self] at hvOf
    rw [Bindings.count, Bindings.values, hvOf, hcount]
  · have hne : checked ≠ [] := by
      rintro rfl
      rw [Bindings.invoked, List.map_eq_nil_iff.mp hlengths.symm] at hinvoked
      cases hinvoked
    obtain ⟨values, hvalues⟩ := List.exists_mem_of_ne_nil _ hne
    have hfirst := Parameter.ne_nil_of_finalValues hfinal hnargs values hvalues
    rw [← hcount, List.length_pos_iff, Ne, List.flatten_eq_nil_iff]
    exact fun hall => hfirst (hall values hvalues)
  · rw [← hcount] at hfew
    refine (Parameter.lenient_of_finalValues hfinal hnargs hfew).imp_right fun hnone => ?_
    refine ⟨hnone.1, List.eq_nil_of_length_eq_zero ?_⟩
    rw [hnone.2] at hcount
    exact hcount.symm

/-- An undersupplied parameter has gathered too few values. -/
theorem Undersupplied.length_lt (h : parser.Undersupplied world tokens p)
    {invocations : List (List String)} {layer : Layer}
    (hlayer : parser.Supplies world tokens c p invocations layer) (hne : invocations ≠ []) :
    invocations.flatten.length < p.nargs.minimum := by
  cases h with
  | position hnargs _ _ hplaced hfew =>
      rw [hnargs]
      cases layer with
      | commandLine => exact hlayer.2 ▸ hfew
      | configuration | environment | nowhere => cases hplaced.symm.trans hlayer.1
  | configuration hnargs hopen hitems hfew _ =>
      rw [hnargs]
      cases layer with
      | commandLine => cases hopen.symm.trans hlayer.1
      | configuration => exact hlayer.2.2 ▸ hfew
      | environment | nowhere => exact absurd hlayer.2.1 hitems
  | environment hnargs _ hopen hnoItems _ hmany =>
      rw [hnargs]
      cases layer with
      | commandLine => cases hopen.symm.trans hlayer.1
      | configuration => exact absurd hnoItems hlayer.2.1
      | environment =>
          obtain ⟨-, -, -, value, -, rfl⟩ := hlayer
          exact hmany
      | nowhere => exact absurd hlayer.2.2.2 hne

/-- A parameter that has gathered too few values, and passes with them, is undersupplied. -/
theorem undersupplied_of_length_lt {n : Nat} (hids : parser.schema.NodupIds)
    (hp : p ∈ (parser.schema.command c).parameters) (hnargs : p.nargs = .exactly n)
    {invocations : List (List String)} {layer : Layer}
    (hlayer : parser.Supplies world tokens c p invocations layer) (hne : invocations ≠ [])
    (hfew : invocations.flatten.length < n)
    (hlenient : p.repetition ≠ .strict ∨ p.accumulates = true ∧ invocations.flatten = []) :
    parser.Undersupplied world tokens p := by
  cases layer with
  | commandLine =>
      obtain ⟨hplaced, rfl⟩ := hlayer
      obtain ⟨hpos, hall⟩ := Schema.count_settle hids hp hnargs hplaced
      have hunnamed : (parser.schema.read .start tokens).scan.bindings.invoked p.id = false := by
        rw [← Bool.not_eq_true]
        exact fun hnamed => absurd (hall hnamed) (Nat.not_le.mpr hfew)
      refine .position hnargs (hlenient.resolve_right fun hnone => ?_) hunnamed hplaced hfew
      rw [Bindings.count, Bindings.values, hnone.2] at hpos
      cases hpos
  | configuration =>
      obtain ⟨hopen, hitems, rfl⟩ := hlayer
      exact .configuration hnargs hopen hitems hfew hlenient
  | environment =>
      obtain ⟨hopen, hnoItems, -, value, hvariable, rfl⟩ := hlayer
      refine .environment hnargs (hlenient.resolve_right fun hnone => ?_) hopen hnoItems
        (hvariable ▸ Option.some_ne_none value) hfew
      cases hnone.2
  | nowhere => exact absurd hlayer.2.2.2 hne

/-- After a complete parse an invoked parameter has its minimum of values unless it was
undersupplied. -/
theorem Reachable.minimum_held_iff (h : Reachable parser)
    (hparse : parser.parse world tokens = (after, report))
    (hcomplete : report.result = .ok .complete)
    (hp : p ∈ (parser.schema.command c).parameters)
    (hinvoked : after.scan.bindings.invoked p.id = true) :
    p.nargs.minimum ≤ after.scan.bindings.count p.id ↔
      ¬parser.Undersupplied world tokens p := by
  have hwf := h.wellFormed
  have hafter : (parser.parse world tokens).1 = after := by rw [hparse]
  have hreport : (parser.parse world tokens).2 = report := by rw [hparse]
  subst hafter hreport
  obtain ⟨scan, hgathers⟩ := (parser.gathers_or_unfinished world tokens).resolve_right
    fun hunfinished => hunfinished.2 hcomplete
  have hgathered : scan.bindings.invoked p.id = true :=
    ((hgathers.touches hwf).invoked p.id).symm.trans hinvoked
  have hne : scan.bindings.of p.id ≠ [] := by simpa [Bindings.invoked] using hgathered
  obtain ⟨layer, hlayer⟩ := hgathers.supplied hwf.nodup hp
  cases hflag : p.nargs.isFlag with
  | true =>
      -- A flag needs no values, and so cannot have too few.
      have hzero : p.nargs.minimum = 0 := by
        rw [of_decide_eq_true hflag]
        rfl
      rw [hzero]
      refine iff_of_true (Nat.zero_le _) fun hunder => ?_
      have hless := hunder.length_lt hlayer hne
      rw [hzero] at hless
      cases hless
  | false =>
      obtain ⟨hcount, hsome, hcounted⟩ :=
        hgathers.counted hwf hcomplete hp hflag hgathered
      rw [hcount]
      constructor
      · intro henough hunder
        exact absurd henough (Nat.not_le.mpr (hunder.length_lt hlayer hne))
      · intro hsupplied
        by_contra hfew
        rw [Nat.not_le] at hfew
        cases hnargs : p.nargs with
        | exactly n =>
            rw [hnargs] at hfew
            exact hsupplied (undersupplied_of_length_lt hwf.nodup hp hnargs hlayer hne hfew
              (hcounted n hnargs hfew))
        | any =>
            rw [hnargs] at hfew
            cases hfew
        | atLeastOne =>
            rw [hnargs] at hfew
            exact absurd (hsome hnargs) (Nat.not_lt.mpr (Nat.le_of_lt_succ hfew))

/-- A pair by position, of which the last values count. -/
def lenientCalls : List Call :=
  [.add .root { names := "PAIR", binding := .values (.exactly 2), repetition := .takeLast }]

theorem reachable_lenientCalls : Reachable ((ofProgram "tool").afterAll lenientCalls) :=
  (reachable_ofProgram "tool").afterAll (by decide +kernel)

/-- One plain value is too few for a pair, and two are enough. -/
theorem minimum_held_iff_pair :
    let parser := (ofProgram "tool").afterAll lenientCalls
    ∃ p ∈ (parser.schema.command .root).parameters, p.nargs = .exactly 2 ∧
      parser.Undersupplied {} ["x"] p ∧ ¬parser.Undersupplied {} ["x", "y"] p := by
  intro parser
  let p := (parser.schema.command .root).parameters.get ⟨1, by decide +kernel⟩
  have hp : p ∈ (parser.schema.command .root).parameters := List.get_mem _ _
  refine ⟨p, hp, by decide +kernel, not_not.mp ?_, ?_⟩
  · rw [← reachable_lenientCalls.minimum_held_iff Prod.mk.eta.symm (by decide +kernel) hp
      (by decide +kernel)]
    decide +kernel
  · rw [← reachable_lenientCalls.minimum_held_iff Prod.mk.eta.symm (by decide +kernel) hp
      (by decide +kernel)]
    decide +kernel

/-- A pair that is given one value passes where the last values count. -/
theorem half_pair_accepted :
    ¬∀ parser, Reachable parser → ∀ world tokens,
      (parser.parse world tokens).2.result = .ok .complete →
      ∀ c ∈ (parser.parse world tokens).1.scan.path, ∀ p ∈ (parser.schema.command c).parameters,
        (parser.parse world tokens).1.scan.bindings.invoked p.id = true →
        p.nargs.minimum ≤ (parser.parse world tokens).1.scan.bindings.count p.id := by
  intro hclaim
  have hall := hclaim _ reachable_lenientCalls {} ["x"] (by decide +kernel) .root
    (by decide +kernel)
  revert hall
  decide +kernel

end Parser

end CommandLine
