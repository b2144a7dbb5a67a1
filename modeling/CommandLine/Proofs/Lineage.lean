import CommandLine.Proofs.Completion
import CommandLine.Proofs.Handles

/-!
# The path and the lineage

A command knows which sub-command was entered from it, and a sub-command
knows its parent. So there are two walks: down from the root, and up from
any command. Each goes on for as long as there is a next command (`Walk`).
For the commands of the active path these are the same walk in opposite
directions, and the names that one meets on it are the trail of a command
(`Reachable.walks_down`, `Reachable.walks_up`).

What is on record after a parse stays on this path (`Scan.Attributed`): a
parameter with an invocation belongs to a command of the path, whichever
layer it comes from and wherever the parse has broken off, and as numbers
are not given out again, no later declaration can change that
(`Reachable.path_agrees`).
-/

namespace CommandLine

/-- The commands that one comes to by going on to the next one for as long as there is one. There is
no walk where this does not end. -/
inductive Walk (next : CommandId → Option CommandId) : CommandId → List CommandId → Prop
  | last {c : CommandId} (h : next c = none) : Walk next c [c]
  | step {c d : CommandId} {rest : List CommandId} (h : next c = some d)
      (hrest : Walk next d rest) : Walk next c (c :: rest)

namespace Walk

variable {next : CommandId → Option CommandId} {c : CommandId} {path other : List CommandId}

theorem unique (h : Walk next c path) (hother : Walk next c other) : other = path := by
  induction h generalizing other with
  | last h =>
      cases hother with
      | last => rfl
      | step hnext => exact absurd (h.symm.trans hnext) nofun
  | step h hrest ih =>
      cases hother with
      | last hnone => exact absurd (hnone.symm.trans h) nofun
      | step hnext hmore =>
          cases h.symm.trans hnext
          rw [ih hmore]

/-- A walk goes on from any of its commands. -/
theorem behind (h : Walk next c path) {before after : List CommandId} {d : CommandId}
    (hpath : path = before ++ d :: after) : Walk next d (d :: after) := by
  induction h generalizing before with
  | last h =>
      cases before with
      | nil =>
          cases hpath
          exact .last h
      | cons e before =>
          have hnil := (List.cons_eq_cons.mp hpath).2
          exact absurd hnil.symm (List.append_ne_nil_of_right_ne_nil _ (List.cons_ne_nil _ _))
  | step h hrest ih =>
      cases before with
      | nil =>
          cases hpath
          exact .step h hrest
      | cons e before => exact ih (List.cons_eq_cons.mp hpath).2

end Walk

/-! ## The way down -/

/-- Along a path without repetitions one comes from each command to the one behind it. -/
theorem Scan.walk_selectedAfter {before behind : List CommandId} {c : CommandId}
    (hnodup : (before ++ c :: behind).Nodup) :
    Walk (fun d => selectedAfter d (before ++ c :: behind)) c (c :: behind) := by
  have hc : c ∉ before := fun hmem =>
    (List.nodup_cons.mp (List.nodup_middle.mp hnodup)).1 (List.mem_append_left behind hmem)
  cases behind with
  | nil =>
      refine .last ?_
      rwa [← Option.not_isSome_iff_eq_none, isSome_selectedAfter]
  | cons d behind =>
      refine .step (selectedAfter_append hc) ?_
      have hlater : before ++ c :: d :: behind = (before ++ [c]) ++ d :: behind := by
        rw [List.append_assoc, List.singleton_append]
      rw [hlater] at hnodup ⊢
      exact walk_selectedAfter hnodup
termination_by behind.length

/-! ## The way up -/

namespace Schema

variable {schema : Schema} {scan : Scan} {c : CommandId}

/-- Going up from a command one comes to its ancestors, and the root is the last one. -/
theorem WellFormed.walk_parent (h : schema.WellFormed) {c : CommandId} (hc : schema.Issued c) :
    Walk (fun d => (schema.command d).parent) c (c :: (schema.command c).ancestors) := by
  by_cases hroot : c = .root
  · subst hroot
    rw [h.root_ancestors]
    exact .last h.parent_root
  · obtain ⟨parent, hlt, heq⟩ := h.ancestors c hc hroot
    rw [heq]
    refine .step ?_ (h.walk_parent (hlt.trans hc))
    rw [Command.parent, heq]
    rfl
termination_by c.index

/-- From a command of the path it is the commands in front of it that one comes to. -/
theorem ancestors_of_path (hwf : schema.WellFormed) (h : scan.Descends schema)
    {above below : List CommandId} (hpath : scan.path = above ++ c :: below) :
    Walk (fun d => (schema.command d).parent) c (c :: above.reverse) ∧
      (schema.command c).ancestors = above.reverse := by
  have hframes : scan.current.command :: (schema.command scan.current.command).ancestors =
      below.reverse ++ c :: above.reverse := by
    rw [← commands_frames h, ← List.reverse_inj, ← Scan.path, hpath]
    simp
  exact ⟨(hwf.walk_parent h.1).behind hframes, hwf.ancestors_of_append h.1 hframes⟩

end Schema

/-! ## What is on record -/

/-- Every parameter with an invocation has been declared, and as long as it is there it belongs to a
command of the path. -/
structure Scan.Attributed (scan : Scan) (schema : Schema) : Prop where
  issued : ∀ q, scan.bindings.invoked q = true → q.number < schema.nextParameter
  active : ∀ c, ∀ p ∈ (schema.command c).parameters, scan.bindings.invoked p.id = true →
    c ∈ scan.path

namespace Schema

variable {schema grown : Schema} {scan after : Scan}

theorem attributed_start (schema : Schema) : Scan.start.Attributed schema :=
  ⟨fun _ h => absurd h Bool.false_ne_true, fun _ _ _ h => absurd h Bool.false_ne_true⟩

theorem WellFormed.attributed (hwf : schema.WellFormed)
    (h : scan.bindings.Within (schema.idsOn scan.path)) : scan.Attributed schema := by
  have hmem : ∀ q, scan.bindings.invoked q = true → q ∈ schema.idsOn scan.path := by
    intro q hq
    by_contra hoff
    rw [Bindings.invoked, h.of_eq_nil hoff] at hq
    cases hq
  refine ⟨fun q hq => ?_, fun c p hp hinvoked => (mem_idsOn_iff hwf.nodup hp).mp (hmem _ hinvoked)⟩
  obtain ⟨c, -, hc⟩ := mem_idsOn.mp (hmem q hq)
  obtain ⟨p, hp, rfl⟩ := mem_idsOf.mp hc
  exact hwf.number_lt hp

/-- Delivering changes invocations, but gives none and takes none away. -/
theorem attributed_of_invoked (h : scan.Attributed schema)
    (hinvoked : ∀ q, after.bindings.invoked q = scan.bindings.invoked q)
    (hpath : after.path = scan.path) : after.Attributed schema where
  issued q hq := h.issued q (hinvoked q ▸ hq)
  active c p hp hq := hpath ▸ h.active c p hp (hinvoked p.id ▸ hq)

/-- What is declared later has another number. -/
theorem attributed_edits (h : scan.Attributed schema) (hedits : Edits schema grown) :
    scan.Attributed grown := by
  refine ⟨fun q hq => (h.issued q hq).trans_le hedits.nextParameter_le, fun c p hp hq => ?_⟩
  obtain ⟨old, hold, heq⟩ := hedits.declared hp (h.issued _ hq)
  exact h.active c old hold (Parameter.id_eq_of_declared heq ▸ hq)

end Schema

namespace Parser

variable {parser next : Parser}

theorem attributed_finish (world : World) (hdescends : parser.scan.Descends parser.schema)
    (hwf : parser.schema.WellFormed) (h : parser.scan.Attributed parser.schema) :
    (parser.finish world).1.scan.Attributed parser.schema := by
  refine Schema.attributed_of_invoked h (fun q => ?_) ?_
  · rw [bindings_finish, Schema.deliver_eq_each (Schema.nodup_frames hwf hdescends)]
    exact (Schema.touches_frames _ _ _ _ _).invoked q
  · rw [Scan.path, frames_finish, Scan.path]

theorem attributed_layer (world : World) (hdescends : parser.scan.Descends parser.schema)
    (hwf : parser.schema.WellFormed)
    (h : parser.scan.bindings.Within (parser.schema.idsOn parser.scan.path)) :
    (parser.layer world).1.scan.Attributed parser.schema := by
  -- Both layers give values to parameters of the path only.
  have hkeep : parser.schema.LayersKeep parser.scan.path
      (·.Within (parser.schema.idsOn parser.scan.path)) := fun c hc p hp b values _ hb =>
    hb.push (Schema.mem_idsOn.mpr ⟨c, hc, List.mem_map_of_mem hp⟩) values
  have hlayer := hkeep.layerConfig (Schema.root_mem_path hwf hdescends) h parser.format world.files
  rcases hconfig : parser.schema.layerConfig parser.format world.files parser.scan.path
    parser.scan.bindings with ⟨b, error | ⟨⟨⟩⟩⟩
  · rw [layer_of_error hconfig]
    rw [hconfig] at hlayer
    exact hwf.attributed hlayer
  · rw [layer_of_ok hconfig]
    rw [hconfig] at hlayer
    exact attributed_finish world hdescends hwf
      (hwf.attributed (hkeep.layerEnvironment hlayer world))

theorem attributed_parse (hwf : parser.schema.WellFormed) (world : World) (tokens : List String) :
    (parser.parse world tokens).1.scan.Attributed parser.schema := by
  obtain ⟨hdescends, hread⟩ := Schema.within_read hwf tokens
  unfold parse
  dsimp only
  split
  · exact hwf.attributed hread
  · split
    · exact hwf.attributed hread
    · exact attributed_layer world (Schema.descends_place hdescends) hwf
        (Schema.within_path_place hread)

theorem Next.attributed (hwf : parser.schema.WellFormed) (hnext : Next parser next)
    (h : parser.scan.Attributed parser.schema) : next.scan.Attributed next.schema := by
  rcases hnext.scan_cases with hsame | hstart | ⟨world, tokens, rfl⟩
  · rw [hsame]
    exact Schema.attributed_edits h (hnext.edits hwf.root)
  · rw [hstart]
    exact Schema.attributed_start next.schema
  · rw [schema_parse]
    exact attributed_parse hwf world tokens

theorem Reachable.attributed (h : Reachable parser) : parser.scan.Attributed parser.schema := by
  obtain ⟨program, hleads⟩ := h
  induction hleads with
  | refl => exact Schema.attributed_start _
  | tail hleads hnext ih => exact hnext.attributed (Reachable.wellFormed ⟨program, hleads⟩) ih

/-! ## Both directions -/

theorem Reachable.walks_down (h : Reachable parser) :
    Walk parser.selected? .root parser.scan.path := by
  have hleads := h.descends.leadsDown h.wellFormed
  obtain ⟨below, hpath⟩ : ∃ below, parser.scan.path = .root :: below :=
    List.head?_eq_some_iff.mp hleads.root
  have hwalk := @Scan.walk_selectedAfter [] below .root (hpath ▸ hleads.nodup)
  rw [List.nil_append, ← hpath] at hwalk
  exact hwalk

theorem Reachable.walks_up (h : Reachable parser) {i : Nat} (hi : i < parser.scan.path.length) :
    Walk (fun c => (parser.schema.command c).parent) parser.scan.path[i]
        (parser.scan.path.take (i + 1)).reverse ∧
      parser.schema.trail parser.scan.path[i] =
        (parser.scan.path.take (i + 1)).map fun c => (parser.schema.command c).name := by
  have hpath : parser.scan.path =
      parser.scan.path.take i ++ parser.scan.path[i] :: parser.scan.path.drop (i + 1) := by
    rw [List.getElem_cons_drop, List.take_append_drop]
  obtain ⟨hwalk, hancestors⟩ := Schema.ancestors_of_path h.wellFormed h.descends hpath
  rw [Schema.trail, hancestors, List.take_succ_eq_append_getElem hi, List.reverse_cons,
    List.reverse_reverse, List.reverse_append, List.reverse_singleton]
  exact ⟨hwalk, rfl⟩

/-- The path is what one comes to in both directions, to no command twice, and what is on record
about parameters stays on it. -/
structure Agrees (parser : Parser) (path : List CommandId) : Prop where
  leads : parser.schema.LeadsDown path
  down : ∀ other, Walk parser.selected? .root other ↔ other = path
  up : ∀ i (hi : i < path.length),
    Walk (fun c => (parser.schema.command c).parent) path[i] (path.take (i + 1)).reverse ∧
      parser.schema.trail path[i] =
        (path.take (i + 1)).map fun c => (parser.schema.command c).name
  invoked : ∀ p held, parser.invocations p = .ok held → held ≠ [] →
    ∃ c ∈ path, parser.schema.owner? p = some c
  related : ∀ c ∈ path, ∀ p ∈ (parser.schema.command c).parameters, ∀ relation,
    ∀ q ∈ p.related relation, ∃ d ∈ path, parser.schema.owner? q = some d

/-- From the root down over the sub-commands that were entered one comes to the active path, and
from any command of it up over the parents to those in front of it, whose names are its trail. All
parameters that have invocations, and all that parameters of the path are related to, belong to
commands of the path. -/
theorem Reachable.path_agrees (h : Reachable parser) : parser.Agrees parser.scan.path where
  leads := h.descends.leadsDown h.wellFormed
  down _ := ⟨h.walks_down.unique, fun hpath => hpath ▸ h.walks_down⟩
  up _ := h.walks_up
  invoked p held hheld hne := by
    unfold invocations at hheld
    split at hheld
    · next parameter hfound =>
        cases hheld
        obtain ⟨rfl, c, hp⟩ := Schema.exists_of_parameter? hfound
        have hinvoked : parser.scan.bindings.invoked parameter.id = true := by
          simpa [Bindings.invoked] using hne
        exact ⟨c, h.attributed.active c parameter hp hinvoked, h.wellFormed.nodup.owner?_eq hp⟩
    · cases hheld
  related c hc p hp relation q hq := by
    obtain ⟨-, d, hd, hmem⟩ := (h.wellFormed.related c p hp relation).2 q hq
    exact ⟨d, Schema.ancestors_mem_path h.wellFormed h.descends hc d hd,
      h.wellFormed.owner?_of_mem hmem⟩

/-- The parse fails in the innermost command, at an option of the command above it that lacks a
value. Then there is another command, another option of that name, and a help flag less. -/
def brokenOffCalls : List Call :=
  [.add .root { names := "-q", binding := .values (.exactly 0) }, .addSubcommand .root "run",
    .add ⟨1⟩ { names := "-n", binding := .values (.exactly 1) }, .relate .requires ⟨3⟩ ⟨1⟩,
    .addSubcommand ⟨1⟩ "fast", .set ⟨2⟩ .fallthrough true,
    .parse {} ["run", "fast", "-n", "1", "-n"], .addSubcommand .root "stop",
    .add ⟨2⟩ { names := "-n", binding := .values (.exactly 1) }, .remove ⟨4⟩]

theorem path_agrees_brokenOff :
    let parser := (ofProgram "tool").afterAll brokenOffCalls
    Reachable parser ∧ parser.scan.bindings.entries = [(⟨3⟩, ["1"])] ∧
      parser.schema.nextParameter = 7 ∧ parser.schema.trail ⟨2⟩ = ["tool", "run", "fast"] ∧
      parser.Agrees [.root, ⟨1⟩, ⟨2⟩] := by
  intro parser
  have hreachable : Reachable parser := (reachable_ofProgram "tool").afterAll (by decide +kernel)
  have hpath : parser.scan.path = [.root, ⟨1⟩, ⟨2⟩] := by decide +kernel
  have hagrees := hreachable.path_agrees
  rw [hpath] at hagrees
  exact ⟨hreachable, by decide +kernel, by decide +kernel, by decide +kernel, hagrees⟩

end Parser

end CommandLine
