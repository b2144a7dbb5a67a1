import CommandLine.Proofs.Conversion
import CommandLine.Proofs.Gathering

/-!
# What delivering does

Delivering a parameter looks at its own invocations and its own variable
and changes nothing else (`Delivery.Touches`); whether a parameter has an
invocation at all never changes. So the parameters, and the commands of
the active path, are delivered independently of each other, although one
comes after the other (`Schema.exists_deliver`).
-/

namespace CommandLine

/-! ## What is not touched -/

/-- What there is of one parameter: its invocations and its variable. -/
def Delivery.cell (d : Delivery) (p : ParameterId) : List (List String) × Option Field :=
  (d.bindings.of p, d.vars.find? p)

/-- Only the invocations and variables of these parameters may have changed, and nothing about a
parameter without invocations. No parameter has got or lost all invocations. -/
structure Delivery.Touches (ids : List ParameterId) (d e : Delivery) : Prop where
  invoked : ∀ q, e.bindings.invoked q = d.bindings.invoked q
  of : ∀ q ∉ ids, e.bindings.of q = d.bindings.of q
  find? : ∀ q, q ∉ ids ∨ d.bindings.invoked q = false → e.vars.find? q = d.vars.find? q

namespace Delivery.Touches

variable {ids more : List ParameterId} {d e f : Delivery}

theorem refl (ids : List ParameterId) (d : Delivery) : Touches ids d d :=
  ⟨fun _ => rfl, fun _ _ => rfl, fun _ _ => rfl⟩

theorem trans (h : Touches ids d e) (hrest : Touches ids e f) : Touches ids d f where
  invoked q := (hrest.invoked q).trans (h.invoked q)
  of q hq := (hrest.of q hq).trans (h.of q hq)
  find? q hq :=
    (hrest.find? q (by rwa [h.invoked])).trans (h.find? q hq)

theorem cell_eq (h : Touches ids d e) {p : ParameterId} (hp : p ∉ ids) : e.cell p = d.cell p :=
  Prod.ext (h.of p hp) (h.find? p (Or.inl hp))

theorem mono (h : Touches ids d e) (hids : ids ⊆ more) : Touches more d e where
  invoked := h.invoked
  of q hq := h.of q fun hmem => hq (hids hmem)
  find? q hq := h.find? q (hq.imp_left fun hq hmem => hq (hids hmem))

end Delivery.Touches

namespace Parameter

variable {p : Parameter} {vs : Variables} {values : List String} {checked : List (List String)}

theorem find?_write_of_ne {q : ParameterId} (h : q ≠ p.id) :
    (p.write values vs).1.find? q = vs.find? q := by
  rw [write]
  split
  · rfl
  · exact Variables.find?_set_of_ne h

theorem find?_writeFlag_of_ne {n : Int} {q : ParameterId} (h : q ≠ p.id) :
    (p.writeFlag n vs).find? q = vs.find? q := by
  rw [writeFlag]
  split
  · rfl
  · exact Variables.find?_set_of_ne h

/-- The variable of a flag, if there is one, is told how often the flag was mentioned. -/
theorem find?_writeFlag_self {n : Int} :
    (p.writeFlag n vs).find? p.id = (vs.find? p.id).map (·.mentionTimes n) := by
  rw [writeFlag]
  cases hfield : vs.find? p.id with
  | none => exact hfield
  | some field => simp only [Variables.find?_set_self, hfield, Option.map_some]

theorem invoked_set (b : Bindings) (h : checked.length = (b.of p.id).length) (q : ParameterId) :
    (b.set p.id checked).invoked q = b.invoked q := by
  by_cases hq : q = p.id
  · subst hq
    have hempty : checked.isEmpty = (b.of p.id).isEmpty := by
      rw [Bool.eq_iff_iff, List.isEmpty_iff_length_eq_zero, List.isEmpty_iff_length_eq_zero, h]
    rw [Bindings.invoked, Bindings.invoked, Bindings.of_set_self, hempty]
  · rw [Bindings.invoked, Bindings.invoked, Bindings.of_set_of_ne _ _ (Ne.symm hq)]

/-- Delivering a parameter, well or not, touches nothing but the parameter. -/
theorem touches_deliver (files : FileStore) (p : Parameter) (d : Delivery) :
    Delivery.Touches [p.id] d (p.deliver files d).1 := by
  cases hinvoked : d.bindings.invoked p.id with
  | false =>
      rw [deliver_of_not_invoked hinvoked]
      exact .refl _ d
  | true =>
      -- What is open about `q` is only that it is another parameter.
      have hne : ∀ q, q ∉ [p.id] ∨ d.bindings.invoked q = false → q ≠ p.id := by
        rintro q (hq | hq) rfl
        · exact hq (List.mem_singleton.mpr rfl)
        · rw [hinvoked] at hq
          cases hq
      rw [deliver, hinvoked]
      simp only [Bool.not_true, Bool.false_eq_true, if_false]
      split
      · rw [deliverFlag]
        split
        · exact ⟨fun _ => rfl, fun _ _ => rfl, fun q hq => find?_writeFlag_of_ne (hne q hq)⟩
        · exact .refl _ d
      · rw [deliverValues]
        have hlength := length_runChecks files p.checks (d.bindings.of p.id)
        rcases hrun : runChecks files p.checks (d.bindings.of p.id) with ⟨checked, rejection⟩
        rw [hrun] at hlength
        have hof : ∀ q ∉ [p.id], (d.bindings.set p.id checked).of q = d.bindings.of q :=
          fun q hq => Bindings.of_set_of_ne _ _ (Ne.symm (hne q (Or.inl hq)))
        have hset : Delivery.Touches [p.id] d { d with bindings := d.bindings.set p.id checked } :=
          ⟨invoked_set d.bindings hlength, hof, fun _ _ => rfl⟩
        dsimp only
        split
        · exact hset
        · split
          · exact hset
          · exact ⟨hset.invoked, hof, fun q hq => find?_write_of_ne (hne q hq)⟩

end Parameter

/-! ## Commands -/

namespace Schema

variable {schema : Schema} {files : FileStore} {frame : Frame} {innermost : Bool} {scan : Scan}
  {d : Delivery} {b after : Bindings} {c : CommandId}

/-- Only what has an invocation decides how a command is judged. -/
theorem violation?_congr (h : ∀ q, after.invoked q = b.invoked q) :
    schema.violation? frame innermost after = schema.violation? frame innermost b := by
  have hrelation : schema.relationViolation? after = schema.relationViolation? b := by
    funext p
    simp only [relationViolation?, h]
  simp only [violation?, h, hrelation]

theorem touches_parameters (files : FileStore) (ps : List Parameter) (d : Delivery) :
    Delivery.Touches (ps.map (·.id)) d (Attempt.each (Parameter.deliver files) ps d).1 := by
  refine Attempt.each_rel (.refl _) (fun _ _ _ => .trans) (fun p hp d => ?_) d
  refine (Parameter.touches_deliver files p d).mono fun q hq => ?_
  rw [List.mem_singleton.mp hq]
  exact List.mem_map_of_mem hp

/-- To judge a command changes nothing any more. -/
theorem fst_deliverFrame :
    (schema.deliverFrame files frame innermost d).1 =
      (Attempt.each (Parameter.deliver files) (schema.command frame.command).parameters d).1 := by
  rw [deliverFrame]
  unfold Attempt.andThen Attempt.failIf
  rcases Attempt.each (Parameter.deliver files) (schema.command frame.command).parameters d
    with ⟨e, error | ⟨⟨⟩⟩⟩
  · rfl
  · dsimp only
    split <;> rfl

/-- Delivering a command touches nothing but its own parameters. -/
theorem touches_deliverFrame (schema : Schema) (files : FileStore) (frame : Frame)
    (innermost : Bool) (d : Delivery) :
    Delivery.Touches (schema.idsOf frame.command) d
      (schema.deliverFrame files frame innermost d).1 := by
  rw [fst_deliverFrame]
  exact touches_parameters files (schema.command frame.command).parameters d

theorem deliverFrame_eq_ok {e : Delivery} :
    schema.deliverFrame files frame innermost d = (e, .ok ()) ↔
      Attempt.each (Parameter.deliver files) (schema.command frame.command).parameters d =
          (e, .ok ()) ∧
        schema.violation? frame innermost e.bindings = none := by
  rw [deliverFrame, Attempt.andThen_eq_ok]
  unfold Attempt.failIf
  constructor
  · rintro ⟨between, hparameters, hjudged⟩
    cases hviolation : schema.violation? frame innermost between.bindings with
    | some error => simp [hviolation] at hjudged
    | none =>
        simp only [hviolation, Prod.mk.injEq, and_true] at hjudged
        subst hjudged
        exact ⟨hparameters, hviolation⟩
  · rintro ⟨hparameters, hviolation⟩
    exact ⟨e, hparameters, by rw [hviolation]⟩

end Schema

/-! ## The active path -/

/-- A command on a path has a selected sub-command exactly if it is not the last one. -/
theorem Scan.isSome_selectedAfter {path : List CommandId} {c last : CommandId} :
    (selectedAfter c (path ++ [last])).isSome = true ↔ c ∈ path := by
  induction path with
  | nil => simp [selectedAfter]
  | cons d path ih =>
      obtain ⟨e, rest, heq⟩ : ∃ e rest, path ++ [last] = e :: rest :=
        List.exists_cons_of_ne_nil (by simp)
      rw [heq] at ih
      rw [List.cons_append, heq, selectedAfter]
      by_cases hd : d = c
      · simp [hd]
      · rw [if_neg hd, ih, List.mem_cons]
        simp [Ne.symm hd]

namespace Schema

variable {schema : Schema} {files : FileStore} {scan : Scan}

/-- Delivers one of the commands of the active path. -/
def deliverIn (schema : Schema) (files : FileStore) (scan : Scan) (frame : Frame) :
    Attempt Delivery ParseError :=
  schema.deliverFrame files frame (scan.selected? frame.command).isNone

/-- The innermost command of the path is the one without a selected sub-command. -/
theorem deliver_eq_each (hnodup : (scan.frames.map (·.command)).Nodup) :
    schema.deliver files scan = Attempt.each (schema.deliverIn files scan) scan.frames := by
  have hselected : ∀ c, (scan.selected? c).isNone = true ↔ c ∉ scan.outer.map (·.command) := by
    intro c
    have hsome := @Scan.isSome_selectedAfter (scan.outer.map (·.command)).reverse c
      scan.current.command
    rw [List.mem_reverse] at hsome
    rw [Scan.selected?, Scan.path, Scan.frames, List.map_cons, List.reverse_cons, ← hsome]
    simp
  rw [Scan.frames, List.map_cons, List.nodup_cons] at hnodup
  rw [deliver, Scan.frames, Attempt.each, deliverIn, (hselected _).mpr hnodup.1]
  congr 1
  refine Attempt.each_congr fun frame hframe => ?_
  have hin : (scan.selected? frame.command).isNone = false := by
    rw [Bool.eq_false_iff, Ne, hselected, not_not]
    exact List.mem_map_of_mem hframe
  rw [deliverIn, hin]

theorem touches_frames (schema : Schema) (files : FileStore) (scan : Scan) (frames : List Frame)
    (d : Delivery) :
    Delivery.Touches (schema.idsOn (frames.map (·.command))) d
      (Attempt.each (schema.deliverIn files scan) frames d).1 := by
  refine Attempt.each_rel (.refl _) (fun _ _ _ => .trans) (fun frame hframe d => ?_) d
  refine (touches_deliverFrame schema files frame _ d).mono fun q hq => ?_
  exact mem_idsOn.mpr ⟨_, List.mem_map_of_mem hframe, hq⟩

/-! ## One parameter among all -/

section ComesTo

variable {d e u : Delivery} {c : CommandId} {p : Parameter}

/-- Delivering comes to the parameter `p` of the command `c`, and has made `u` of `d` until then. -/
inductive ComesTo (schema : Schema) (files : FileStore) (scan : Scan) (d : Delivery) (c : CommandId)
    (p : Parameter) (u : Delivery) : Prop
  | intro {inner outer : List Frame} {frame : Frame} {before behind : List Parameter}
      {between : Delivery} (hframes : scan.frames = inner ++ frame :: outer)
      (hcommand : frame.command = c)
      (hparameters : (schema.command c).parameters = before ++ p :: behind)
      (hinner : Attempt.each (schema.deliverIn files scan) inner d = (between, .ok ()))
      (hbefore : Attempt.each (Parameter.deliver files) before between = (u, .ok ()))

/-- Where all goes well it comes to each parameter, and goes well there. -/
theorem exists_comesTo (hnodup : (scan.frames.map (·.command)).Nodup)
    (h : schema.deliver files scan d = (e, .ok ())) {frame : Frame} (hframe : frame ∈ scan.frames)
    (hp : p ∈ (schema.command frame.command).parameters) :
    ∃ u v, schema.ComesTo files scan d frame.command p u ∧ p.deliver files u = (v, .ok ()) := by
  obtain ⟨inner, outer, hframes⟩ := List.append_of_mem hframe
  obtain ⟨before, behind, hparameters⟩ := List.append_of_mem hp
  rw [deliver_eq_each hnodup, hframes] at h
  obtain ⟨between, _, hinner, hin, -⟩ := Attempt.each_eq_ok_of_mid h
  obtain ⟨hdelivered, -⟩ := deliverFrame_eq_ok.mp hin
  rw [hparameters] at hdelivered
  obtain ⟨u, v, hbefore, hdeliver, -⟩ := Attempt.each_eq_ok_of_mid hdelivered
  exact ⟨u, v, .intro hframes rfl hparameters hinner hbefore, hdeliver⟩

/-- If it does not go well there, this is how delivering ends. -/
theorem ComesTo.deliver_eq (h : schema.ComesTo files scan d c p u)
    (hnodup : (scan.frames.map (·.command)).Nodup) (hfails : (p.deliver files u).2 ≠ .ok ()) :
    schema.deliver files scan d = p.deliver files u := by
  obtain ⟨hframes, rfl, hparameters, hinner, hbefore⟩ := h
  next inner outer frame before behind between =>
  have heach : Attempt.each (Parameter.deliver files) (schema.command frame.command).parameters
      between = p.deliver files u := by
    rw [hparameters]
    exact Attempt.each_eq_of_fails hbefore hfails
  have hframe : schema.deliverIn files scan frame between = p.deliver files u := by
    rw [deliverIn, deliverFrame]
    unfold Attempt.andThen
    rw [heach]
    rcases hend : p.deliver files u with ⟨v, error | ⟨⟨⟩⟩⟩
    · rfl
    · rw [hend] at hfails
      exact absurd rfl hfails
  rw [deliver_eq_each hnodup, hframes, Attempt.each_eq_of_fails hinner (hframe ▸ hfails), hframe]

/-- No other parameter of the command touches this one. -/
theorem cell_parameters (hids : schema.NodupIds) {before behind : List Parameter}
    (hparameters : (schema.command c).parameters = before ++ p :: behind) (files : FileStore)
    (d : Delivery) :
    (Attempt.each (Parameter.deliver files) before d).1.cell p.id = d.cell p.id ∧
      (Attempt.each (Parameter.deliver files) behind d).1.cell p.id = d.cell p.id := by
  have hothers := hids.idsOf c
  rw [idsOf, hparameters, List.map_append, List.map_cons, List.nodup_middle, List.nodup_cons,
    List.mem_append, not_or] at hothers
  exact ⟨(touches_parameters files before d).cell_eq hothers.1.1,
    (touches_parameters files behind d).cell_eq hothers.1.2⟩

/-- No other command touches the parameters of this one. -/
theorem cell_frames (hids : schema.NodupIds) (hnodup : (scan.frames.map (·.command)).Nodup)
    {inner outer : List Frame} {frame : Frame} (hframes : scan.frames = inner ++ frame :: outer)
    (hp : p ∈ (schema.command frame.command).parameters) (files : FileStore) (d : Delivery) :
    (Attempt.each (schema.deliverIn files scan) inner d).1.cell p.id = d.cell p.id ∧
      (Attempt.each (schema.deliverIn files scan) outer d).1.cell p.id = d.cell p.id := by
  rw [hframes, List.map_append, List.map_cons, List.nodup_middle, List.nodup_cons,
    List.mem_append, not_or] at hnodup
  exact ⟨(touches_frames schema files scan inner d).cell_eq
      (mt (mem_idsOn_iff hids hp).mp hnodup.1.1),
    (touches_frames schema files scan outer d).cell_eq
      (mt (mem_idsOn_iff hids hp).mp hnodup.1.2)⟩

/-- Neither another command nor another parameter of the command touches this one. -/
theorem ComesTo.cell_eq (h : schema.ComesTo files scan d c p u) (hids : schema.NodupIds)
    (hnodup : (scan.frames.map (·.command)).Nodup) :
    u.cell p.id = d.cell p.id ∧
      (schema.deliver files scan d).1.cell p.id = (p.deliver files u).1.cell p.id := by
  obtain ⟨hframes, rfl, hparameters, hinner, hbefore⟩ := h
  next inner outer frame before behind between =>
  have hp : p ∈ (schema.command frame.command).parameters := by simp [hparameters]
  have hothers := cell_parameters hids hparameters files
  have hcommands := cell_frames hids hnodup hframes hp files
  rw [deliver_eq_each hnodup, hframes]
  constructor
  · have hbetween := (hcommands d).1
    have hu := (hothers between).1
    rw [hinner] at hbetween
    rw [hbefore] at hu
    exact hu.trans hbetween
  · rw [Attempt.each_of_before hinner]
    refine (Attempt.proj_andThen (·.cell p.id) (fun v => (hcommands v).2) between).trans ?_
    rw [deliverIn, fst_deliverFrame, hparameters, Attempt.each_of_before hbefore]
    exact Attempt.proj_andThen (·.cell p.id) (fun v => (hothers v).2) u

/-- However delivering ends, a parameter of an active command is as it was, or has been delivered
from what it was. -/
theorem cell_deliver (hids : schema.NodupIds) (hnodup : (scan.frames.map (·.command)).Nodup)
    (files : FileStore) (d : Delivery) {frame : Frame} (hframe : frame ∈ scan.frames)
    (hp : p ∈ (schema.command frame.command).parameters) :
    (schema.deliver files scan d).1.cell p.id = d.cell p.id ∨
      ∃ u : Delivery, u.cell p.id = d.cell p.id ∧
        (schema.deliver files scan d).1.cell p.id = (p.deliver files u).1.cell p.id := by
  obtain ⟨inner, outer, hframes⟩ := List.append_of_mem hframe
  obtain ⟨before, behind, hparameters⟩ := List.append_of_mem hp
  have hothers := cell_parameters hids hparameters files
  have hcommands := cell_frames hids hnodup hframes hp files
  rw [deliver_eq_each hnodup, hframes]
  rcases Attempt.proj_each (·.cell p.id) (fun v => (hcommands v).1) (fun v => (hcommands v).2) d
    with hsame | ⟨v, hv, hin⟩
  · exact Or.inl hsame
  · rw [hin, deliverIn, fst_deliverFrame, hparameters, ← hv]
    exact Attempt.proj_each (·.cell p.id) (fun w => (hothers w).1) (fun w => (hothers w).2) v

/-- Where all goes well each parameter is delivered, from what there was of it in the beginning
to what there is of it in the end. -/
theorem exists_deliver (hids : schema.NodupIds) (hnodup : (scan.frames.map (·.command)).Nodup)
    (h : schema.deliver files scan d = (e, .ok ())) {frame : Frame} (hframe : frame ∈ scan.frames)
    (hp : p ∈ (schema.command frame.command).parameters) :
    ∃ u v, p.deliver files u = (v, .ok ()) ∧ u.cell p.id = d.cell p.id ∧
      e.cell p.id = v.cell p.id := by
  obtain ⟨u, v, hcomes, hdeliver⟩ := exists_comesTo hnodup h hframe hp
  have hcells := hcomes.cell_eq hids hnodup
  rw [h, hdeliver] at hcells
  exact ⟨u, v, hdeliver, hcells⟩

end ComesTo

end Schema

/-! ## The end of a parse -/

namespace Parser

variable {parser : Parser} {world : World} {tokens : List String} {scan : Scan}

theorem finish_complete :
    (parser.finish world).2.result = .ok .complete ↔
      (parser.schema.deliver world.files parser.scan ⟨parser.scan.bindings, parser.vars⟩).2 =
        .ok () := by
  unfold finish
  dsimp only
  split
  · next error houtcome => simp [fail, houtcome]
  · next houtcome => simp [houtcome]

/-- The first error is the result of the parse. -/
theorem finish_error {error : ParseError}
    (h : (parser.schema.deliver world.files parser.scan
      ⟨parser.scan.bindings, parser.vars⟩).2 = .error error) :
    (parser.finish world).2.result = .error error := by
  rw [finish]
  dsimp only
  rw [h]
  rfl

theorem vars_finish :
    (parser.finish world).1.vars =
      (parser.schema.deliver world.files parser.scan
        ⟨parser.scan.bindings, parser.vars⟩).1.vars := by
  unfold finish
  dsimp only
  split <;> rfl

theorem bindings_finish :
    (parser.finish world).1.scan.bindings =
      (parser.schema.deliver world.files parser.scan
        ⟨parser.scan.bindings, parser.vars⟩).1.bindings := by
  unfold finish
  dsimp only
  split <;> rfl

theorem frames_finish : (parser.finish world).1.scan.frames = parser.scan.frames := by
  unfold finish
  dsimp only
  split <;> rfl

end Parser

end CommandLine
