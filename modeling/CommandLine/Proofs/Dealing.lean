import CommandLine.Proofs.Gathering
import Mathlib.Data.ENat.Lattice

/-!
# How plain values are dealt out

Each command deals the values that wait in it to its positional parameters
in turn. What a parameter takes is a slice of the queue, as long as the
room that the parameter had before any value was placed (`Dealt`); what is
left over at the end of the queue goes to one place (`Schema.destination`).
`Dealing` says this of all commands of a path, where the queue of each
starts with its own values and ends with those from its sub-command.

No parameter belongs to two of the commands, so none of them finds its
parameters filled by another (`of_placeOuter`), and the room is that which
the command line has left.
-/

namespace CommandLine

/-! ## One queue -/

/-- How many more values the parameter holds. -/
def Parameter.room (p : Parameter) (b : Bindings) : ℕ∞ :=
  match p.nargs.capacity with
  | some capacity => (capacity - b.count p.id : Nat)
  | none => ⊤

/-- The queue is cut into slices for the parameters in turn. Each takes as many values as there
are and as it has room for. -/
inductive Dealt (b : Bindings) :
    List Parameter → List String → List (List String) → List String → Prop where
  | done {left : List String} : Dealt b [] left [] left
  | deal {p : Parameter} {parameters : List Parameter} {slice queue left : List String}
      {slices : List (List String)} :
      (slice.length : ℕ∞) = min ((slice ++ queue).length : ℕ∞) (p.room b) →
      Dealt b parameters queue slices left →
      Dealt b (p :: parameters) (slice ++ queue) (slice :: slices) left

/-- The invocations are those from before, and one more for each value of the slice. -/
def Parameter.Takes (before b : Bindings) (p : Parameter) (slice : List String) : Prop :=
  b.of p.id = before.of p.id ++ slice.map fun value => [value]

variable {b before after : Bindings} {p : Parameter} {parameters : List Parameter}
  {queue : List String} {q : ParameterId}

theorem Bindings.take_eq_min (b : Bindings) (p : Parameter) (waiting : Nat) :
    (b.take p waiting : ℕ∞) = min (waiting : ℕ∞) (p.room b) := by
  cases hcapacity : p.nargs.capacity with
  | some capacity =>
      rw [Bindings.take, Parameter.room, hcapacity, min_comm]
      exact Nat.mono_cast.map_min
  | none => rw [Bindings.take, Parameter.room, hcapacity, min_top_right]

theorem Parameter.room_congr (h : b.of p.id = before.of p.id) : p.room b = p.room before := by
  unfold Parameter.room Bindings.count Bindings.values
  rw [h]

theorem Bindings.of_fill (hq : ∀ p ∈ parameters, p.id ≠ q) (queue : List String) :
    (b.fill parameters queue).1.of q = b.of q :=
  Schema.fill_invariant (motive := fun filled => filled.of q = b.of q)
    (fun p hp filled values h => (of_pushEach_of_ne filled values (hq p hp)).trans h) rfl queue

/-- Filling the parameters deals the queue out. -/
theorem Bindings.fill_dealt (hnodup : (parameters.map (·.id)).Nodup)
    (hsame : ∀ p ∈ parameters, b.of p.id = before.of p.id) (queue : List String)
    (hafter : ∀ p ∈ parameters, after.of p.id = (b.fill parameters queue).1.of p.id) :
    ∃ slices, Dealt before parameters queue slices (b.fill parameters queue).2 ∧
      List.Forall₂ (Parameter.Takes before after) parameters slices := by
  induction parameters generalizing b queue with
  | nil => exact ⟨[], .done, .nil⟩
  | cons p parameters ih =>
      obtain ⟨hp, hnodup⟩ := List.nodup_cons.mp hnodup
      obtain ⟨hfirst, hsame⟩ := List.forall_mem_cons.mp hsame
      obtain ⟨hlast, hafter⟩ := List.forall_mem_cons.mp hafter
      have hne : ∀ other ∈ parameters, other.id ≠ p.id := fun other hother heq =>
        hp (List.mem_map.mpr ⟨other, hother, heq⟩)
      have htake := take_eq_min b p queue.length
      rw [Parameter.room_congr hfirst] at htake
      rw [Bindings.fill] at hlast hafter ⊢
      generalize hn : b.take p queue.length = n at htake hlast hafter ⊢
      have hkept : ∀ other ∈ parameters,
          (b.pushEach p.id (queue.take n)).of other.id = before.of other.id := by
        intro other hother
        rw [of_pushEach_of_ne _ _ (hne other hother).symm, hsame other hother]
      obtain ⟨slices, hdealt, htakes⟩ := ih hnodup hkept (queue.drop n) hafter
      refine ⟨queue.take n :: slices, ?_, .cons ?_ htakes⟩
      · have hsize : ((queue.take n).length : ℕ∞) =
            min ((queue.take n ++ queue.drop n).length : ℕ∞) (p.room before) := by
          have hle : (n : ℕ∞) ≤ queue.length := htake ▸ min_le_left _ _
          rw [List.take_append_drop, List.length_take, min_eq_left (Nat.cast_le.mp hle), htake]
        have hcut := Dealt.deal hsize hdealt
        rwa [List.take_append_drop] at hcut
      · rw [Parameter.Takes, hlast, of_fill hne, of_pushEach_self, hfirst]

/-! ## One command -/

/-- Where values go that a command has no parameter for. -/
inductive Destination where
  | parent
  | missing
  | overflow
  deriving DecidableEq, Repr

/-- They go to the parent if the command hands values on and has a parent. Otherwise they are
kept if it allows them, and too much if not. -/
def Schema.destination (schema : Schema) (c : CommandId) : Destination :=
  if (schema.command c).settings.fallthrough && (schema.command c).parent.isSome then .parent
  else if (schema.command c).settings.allowExtras then .missing
  else .overflow

/-- What happens to the values that wait in one command. -/
structure Deal where
  /-- The command before. -/
  frame : Frame
  /-- The command afterwards. -/
  placed : Frame
  /-- The values that are dealt out. -/
  queue : List String
  /-- What its positional parameters take. -/
  slices : List (List String)
  /-- What is left over. -/
  left : List String

namespace Deal

/-- What is left over, if that is where it goes. -/
def leftFor (deal : Deal) (schema : Schema) (destination : Destination) : List String :=
  if schema.destination deal.frame.command = destination then deal.left else []

/-- The queue is dealt to the positional parameters in the order of declaration, and the rest
goes to one place. -/
structure Fair (schema : Schema) (before after : Bindings) (deal : Deal) : Prop where
  dealt : Dealt before (schema.command deal.frame.command).positionals deal.queue deal.slices
    deal.left
  takes : List.Forall₂ (Parameter.Takes before after)
    (schema.command deal.frame.command).positionals deal.slices
  placed : deal.placed =
    { command := deal.frame.command
      pending := []
      missing := deal.frame.missing ++ deal.leftFor schema .missing
      overflow := deal.frame.overflow ++ deal.leftFor schema .overflow }

end Deal

namespace Schema

variable {schema : Schema} {frame : Frame} {outer : List Frame} {handedOn : List String}

/-- What is left over when the parameters of a command are filled goes to one place. -/
theorem placeFrame_eq (schema : Schema) (b : Bindings) (frame : Frame) (handedOn : List String) :
    schema.placeFrame b frame (schema.command frame.command).parent.isNone handedOn =
      let filled := b.fill (schema.command frame.command).positionals (frame.pending ++ handedOn)
      let leftFor destination :=
        if schema.destination frame.command = destination then filled.2 else []
      { frame :=
          { command := frame.command
            pending := []
            missing := frame.missing ++ leftFor .missing
            overflow := frame.overflow ++ leftFor .overflow }
        handedOn := leftFor .parent
        bindings := filled.1 } := by
  simp only [placeFrame, destination, Option.not_isNone]
  split
  · simp
  · split <;> simp

theorem of_placeFrame (hq : ∀ p ∈ (schema.command frame.command).positionals, p.id ≠ q)
    (isRoot : Bool) :
    (schema.placeFrame b frame isRoot handedOn).bindings.of q = b.of q :=
  placeFrame_invariant (motive := fun placed => placed.of q = b.of q)
    (fun p hp placed values h => (Bindings.of_pushEach_of_ne placed values (hq p hp)).trans h) rfl
    isRoot handedOn

/-- Only the positional parameters of the commands get anything. -/
theorem of_placeOuter
    (hq : ∀ frame ∈ outer, ∀ p ∈ (schema.command frame.command).positionals, p.id ≠ q)
    (handedOn : List String) : (schema.placeOuter b handedOn outer).2.of q = b.of q :=
  placeOuter_invariant (motive := fun placed => placed.of q = b.of q)
    (fun frame hframe p hp placed values h =>
      (Bindings.of_pushEach_of_ne placed values (hq frame hframe p hp)).trans h) rfl handedOn

theorem placeFrame_fair (hnodup : schema.NodupIds) {isRoot : Bool}
    (hroot : isRoot = (schema.command frame.command).parent.isNone)
    (hsame : ∀ p ∈ (schema.command frame.command).positionals, b.of p.id = before.of p.id)
    (handedOn : List String)
    (hafter : ∀ p ∈ (schema.command frame.command).positionals,
      after.of p.id = (schema.placeFrame b frame isRoot handedOn).bindings.of p.id) :
    ∃ deal : Deal, deal.frame = frame ∧
      deal.placed = (schema.placeFrame b frame isRoot handedOn).frame ∧
      deal.queue = frame.pending ++ handedOn ∧
      deal.leftFor schema .parent = (schema.placeFrame b frame isRoot handedOn).handedOn ∧
      deal.Fair schema before after := by
  subst hroot
  rw [placeFrame_eq] at hafter ⊢
  have hids : ((schema.command frame.command).positionals.map (·.id)).Nodup :=
    (hnodup.idsOf frame.command).sublist (List.filter_sublist.map _)
  obtain ⟨slices, hdealt, htakes⟩ :=
    Bindings.fill_dealt hids hsame (frame.pending ++ handedOn) hafter
  exact ⟨⟨frame, _, frame.pending ++ handedOn, slices, _⟩, rfl, rfl, rfl, rfl, hdealt, htakes, rfl⟩

/-- The parameters of commands further out are others. -/
theorem WellFormed.id_ne_of_outer (hwf : schema.WellFormed) (hissued : schema.Issued frame.command)
    (houter : outer.map (·.command) = (schema.command frame.command).ancestors) {p : Parameter}
    (hp : p ∈ (schema.command frame.command).positionals) :
    ∀ further ∈ outer, ∀ r ∈ (schema.command further.command).positionals, r.id ≠ p.id := by
  intro further hfurther r hr heq
  have hcommands := (hwf.nodup.unique (List.mem_of_mem_filter hr) (List.mem_of_mem_filter hp) heq).1
  have hmem : frame.command ∈ outer.map (·.command) := hcommands ▸ List.mem_map_of_mem hfurther
  rw [houter] at hmem
  exact (List.nodup_cons.mp (hwf.nodup_ancestors hissued)).1 hmem

end Schema

/-! ## All commands -/

/-- How the values that wait in the commands of a path are dealt out, from the innermost
command out. -/
structure Dealing (schema : Schema) (scan after : Scan) (deals : List Deal) : Prop where
  frames : deals.map (·.frame) = scan.frames
  placed : deals.map (·.placed) = after.frames
  fair : ∀ deal ∈ deals, deal.Fair schema scan.bindings after.bindings
  innermost : ∀ deal ∈ deals.head?, deal.queue = deal.frame.pending
  around : deals.IsChain fun inner outer =>
    outer.queue = outer.frame.pending ++ inner.leftFor schema .parent
  others : ∀ q, (∀ c ∈ scan.path, ∀ p ∈ (schema.command c).positionals, p.id ≠ q) →
    after.bindings.of q = scan.bindings.of q
  rest : after.positionalOnly = scan.positionalOnly ∧ after.completed = scan.completed

namespace Schema

variable {schema : Schema} {frame : Frame} {outer : List Frame} {handedOn : List String}

/-- What happens in commands around each other, from the innermost out. The first of them is
handed some values already. -/
structure Deals (schema : Schema) (before after : Bindings) (handedOn : List String)
    (frames placed : List Frame) (deals : List Deal) : Prop where
  frames : deals.map (·.frame) = frames
  placed : deals.map (·.placed) = placed
  fair : ∀ deal ∈ deals, deal.Fair schema before after
  first : ∀ deal ∈ deals.head?, deal.queue = deal.frame.pending ++ handedOn
  around : deals.IsChain fun inner outer =>
    outer.queue = outer.frame.pending ++ inner.leftFor schema .parent

theorem Deals.nil : Deals schema before after handedOn [] [] [] :=
  ⟨rfl, rfl, fun _ hdeal => absurd hdeal List.not_mem_nil, fun _ hdeal => by simp at hdeal, .nil⟩

/-- The first command hands what it leaves for its parent on to the next. -/
theorem Deals.cons {deal : Deal} {left : List String} {frames placed : List Frame}
    {deals : List Deal} (hfair : deal.Fair schema before after)
    (hqueue : deal.queue = deal.frame.pending ++ handedOn)
    (hleft : deal.leftFor schema .parent = left)
    (h : Deals schema before after left frames placed deals) :
    Deals schema before after handedOn (deal.frame :: frames) (deal.placed :: placed)
      (deal :: deals) where
  frames := congrArg (deal.frame :: ·) h.frames
  placed := congrArg (deal.placed :: ·) h.placed
  fair := List.forall_mem_cons.mpr ⟨hfair, h.fair⟩
  first := by simpa using hqueue
  around := h.around.cons (hleft ▸ h.first)

theorem placeOuter_deals (hwf : schema.WellFormed) (b : Bindings) (handedOn : List String)
    {frame : Frame} {outer : List Frame} (hissued : schema.Issued frame.command)
    (houter : outer.map (·.command) = (schema.command frame.command).ancestors)
    (hsame : ∀ placed ∈ frame :: outer, ∀ p ∈ (schema.command placed.command).positionals,
      b.of p.id = before.of p.id) :
    ∃ deals, Deals schema before (schema.placeOuter b handedOn (frame :: outer)).2 handedOn
      (frame :: outer) (schema.placeOuter b handedOn (frame :: outer)).1 deals := by
  have hroot : outer.isEmpty = (schema.command frame.command).parent.isNone := by
    rw [Command.parent, ← houter]
    cases outer <;> rfl
  obtain ⟨hframe, houtside⟩ := List.forall_mem_cons.mp hsame
  have hafter : ∀ p ∈ (schema.command frame.command).positionals,
      (schema.placeOuter b handedOn (frame :: outer)).2.of p.id =
        (schema.placeFrame b frame outer.isEmpty handedOn).bindings.of p.id :=
    fun p hp => of_placeOuter (hwf.id_ne_of_outer hissued houter hp) _
  obtain ⟨deal, rfl, hplaced, hqueue, hleft, hfair⟩ :=
    placeFrame_fair hwf.nodup hroot hframe handedOn hafter
  cases outer with
  | nil =>
      have hdeals := Deals.nil.cons hfair hqueue rfl
      rw [hplaced] at hdeals
      exact ⟨[deal], hdeals⟩
  | cons next outer =>
      -- There is a parent, so the command is not the root.
      obtain ⟨parent, hlt, hancestors⟩ := hwf.ancestors _ hissued fun hroot => by
        rw [hroot, hwf.root_ancestors] at houter
        cases houter
      rw [List.map_cons, hancestors, List.cons_eq_cons] at houter
      obtain ⟨rfl, hfurther⟩ := houter
      have hkept : ∀ further ∈ next :: outer,
          ∀ p ∈ (schema.command further.command).positionals,
            (schema.placeFrame b deal.frame false handedOn).bindings.of p.id = before.of p.id := by
        intro further hmem p hp
        rw [of_placeFrame, houtside further hmem p hp]
        intro r hr heq
        refine hwf.id_ne_of_outer hissued ?_ hr further hmem p hp heq.symm
        rw [List.map_cons, hancestors, hfurther]
      obtain ⟨deals, hrest⟩ := placeOuter_deals hwf _ _ (hlt.trans hissued) hfurther hkept
      have hdeals := Deals.cons hfair hqueue hleft hrest
      rw [hplaced] at hdeals
      exact ⟨deal :: deals, hdeals⟩
termination_by outer.length

/-- Placing deals out all values that wait in the commands of a path. -/
theorem place_dealing (hwf : schema.WellFormed) {scan : Scan} (h : scan.Descends schema) :
    ∃ deals, Dealing schema scan (schema.place scan) deals := by
  obtain ⟨deals, hdeals⟩ := placeOuter_deals hwf scan.bindings [] h.1 h.2 fun _ _ _ _ => rfl
  rw [← Scan.frames, placeOuter_frames] at hdeals
  refine ⟨deals, hdeals.frames, hdeals.placed, hdeals.fair, by simpa using hdeals.first,
    hdeals.around, ?_, rfl, rfl⟩
  intro q hq
  refine place_invariant (motive := fun placed => placed.of q = scan.bindings.of q)
    (fun frame hframe p hp placed values h => ?_) rfl
  have hne : p.id ≠ q := hq frame.command (mem_path.mpr ⟨frame, hframe, rfl⟩) p hp
  rw [Bindings.of_pushEach_of_ne placed values hne, h]

end Schema

namespace Parser

/-- On any path through a declared schema, the values that wait are dealt out in order. -/
theorem Reachable.values_dealt {parser : Parser} (h : Reachable parser) {scan : Scan}
    (hpath : scan.Descends parser.schema) :
    ∃ deals, Dealing parser.schema scan (parser.schema.place scan) deals :=
  Schema.place_dealing h.wellFormed hpath

/-- Two commands hand on what they leave over. The root's first parameter also has a long name. -/
def cascadingCalls : List Call :=
  [.add .root { names := "first,--first", binding := .values (.exactly 1) },
    .add .root { names := "rest", binding := .values (.exactly 2) },
    .set .root .allowExtras true, .addSubcommand .root "run", .set ⟨1⟩ .fallthrough true,
    .add ⟨1⟩ { names := "item", binding := .values (.exactly 1) },
    .addSubcommand ⟨1⟩ "deep", .set ⟨2⟩ .fallthrough true]

/-- The first parameter is full before any value is placed. Of the values behind `deep` the root
takes one, and two are missing there. -/
theorem values_dealt_cascading :
    let schema := ((ofProgram "tool").afterAll cascadingCalls).schema
    let scan := (schema.read .start ["--first=x", "a", "run", "b", "deep", "c", "d", "e"]).scan
    (∃ deals, Dealing schema scan (schema.place scan) deals) ∧
      (schema.place scan).bindings.of ⟨2⟩ = [["a"], ["c"]] ∧
      (schema.place scan).remaining = ["d", "e"] := by
  intro schema scan
  have hreachable : Reachable ((ofProgram "tool").afterAll cascadingCalls) :=
    (reachable_ofProgram "tool").afterAll (by decide +kernel)
  have hpath : scan.Descends schema :=
    Schema.descends_read hreachable.wellFormed (Schema.descends_start hreachable.wellFormed) _
  exact ⟨hreachable.values_dealt hpath, by decide +kernel, by decide +kernel⟩

end Parser

end CommandLine
