import CommandLine.Scan.Place
import Mathlib.Data.List.Basic

/-!
# What placing does to a command

`placeFrame_cases` says once what may come of the values that wait in a
command: its parameters take what they can, and the rest goes one of
three ways. The commands that have been entered are all placed by one
recursion, the innermost like those around it (`placeOuter_frames`). All
that it does to bindings is that positional parameters get invocations
(`place_invariant`).
-/

namespace CommandLine

namespace Schema

variable {schema : Schema}

/-- The values that the parameters leave over are handed on, missing, or too many. -/
theorem placeFrame_cases (schema : Schema) (b : Bindings) (frame : Frame) (isRoot : Bool)
    (handedOn : List String) : ∃ filled left,
    b.fill (schema.command frame.command).positionals (frame.pending ++ handedOn) = (filled, left) ∧
      (isRoot = false ∧ schema.placeFrame b frame isRoot handedOn =
          ⟨{ frame with pending := [] }, left, filled⟩ ∨
        schema.placeFrame b frame isRoot handedOn =
          ⟨{ frame with pending := [], missing := frame.missing ++ left }, [], filled⟩ ∨
        schema.placeFrame b frame isRoot handedOn =
          ⟨{ frame with pending := [], overflow := frame.overflow ++ left }, [], filled⟩) := by
  refine ⟨_, _, rfl, ?_⟩
  unfold placeFrame
  dsimp only
  split
  · next hthrough =>
      rw [Bool.and_eq_true, Bool.not_eq_true'] at hthrough
      exact Or.inl ⟨hthrough.2, rfl⟩
  · split
    · exact Or.inr (Or.inl rfl)
    · exact Or.inr (Or.inr rfl)

/-- What holds of the bindings however many values the parameters get holds once they are filled. -/
theorem fill_invariant {motive : Bindings → Prop} {parameters : List Parameter}
    (hpush : ∀ p ∈ parameters, ∀ b values, motive b → motive (b.pushEach p.id values))
    {b : Bindings} (h : motive b) (values : List String) : motive (b.fill parameters values).1 := by
  induction parameters generalizing b values with
  | nil => exact h
  | cons p parameters ih =>
      obtain ⟨hp, hrest⟩ := List.forall_mem_cons.mp hpush
      exact ih hrest (hp b _ h) _

theorem placeFrame_invariant {motive : Bindings → Prop} {frame : Frame}
    (hpush : ∀ p ∈ (schema.command frame.command).positionals, ∀ b values,
      motive b → motive (b.pushEach p.id values))
    {b : Bindings} (h : motive b) (isRoot : Bool) (handedOn : List String) :
    motive (schema.placeFrame b frame isRoot handedOn).bindings := by
  obtain ⟨filled, left, hfilled, ⟨-, heq⟩ | heq | heq⟩ :=
    schema.placeFrame_cases b frame isRoot handedOn
  all_goals
    have hfill := fill_invariant hpush h (frame.pending ++ handedOn)
    rw [hfilled] at hfill
    rw [heq]
    exact hfill

theorem placeOuter_invariant {motive : Bindings → Prop} {outer : List Frame}
    (hpush : ∀ frame ∈ outer, ∀ p ∈ (schema.command frame.command).positionals, ∀ b values,
      motive b → motive (b.pushEach p.id values))
    {b : Bindings} (h : motive b) (handedOn : List String) :
    motive (schema.placeOuter b handedOn outer).2 := by
  induction outer generalizing b handedOn with
  | nil => exact h
  | cons frame outer ih =>
      obtain ⟨hframe, houter⟩ := List.forall_mem_cons.mp hpush
      exact ih houter (placeFrame_invariant hframe h _ handedOn) _

theorem command_placeFrame (b : Bindings) (frame : Frame) (isRoot : Bool)
    (handedOn : List String) :
    (schema.placeFrame b frame isRoot handedOn).frame.command = frame.command := by
  obtain ⟨filled, left, -, ⟨-, heq⟩ | heq | heq⟩ :=
    schema.placeFrame_cases b frame isRoot handedOn <;>
  rw [heq]

theorem pending_placeFrame (b : Bindings) (frame : Frame) (isRoot : Bool)
    (handedOn : List String) :
    (schema.placeFrame b frame isRoot handedOn).frame.pending = [] := by
  obtain ⟨filled, left, -, ⟨-, heq⟩ | heq | heq⟩ :=
    schema.placeFrame_cases b frame isRoot handedOn <;>
  rw [heq]

/-- There is nowhere to hand values on to from the root. -/
theorem handedOn_placeFrame (b : Bindings) (frame : Frame) (handedOn : List String) :
    (schema.placeFrame b frame true handedOn).handedOn = [] := by
  obtain ⟨filled, left, -, ⟨hroot, -⟩ | heq | heq⟩ :=
    schema.placeFrame_cases b frame true handedOn
  · cases hroot
  · rw [heq]
  · rw [heq]

theorem commands_placeOuter (schema : Schema) (b : Bindings) (handedOn : List String)
    (outer : List Frame) :
    (schema.placeOuter b handedOn outer).1.map (·.command) = outer.map (·.command) := by
  induction outer generalizing b handedOn with
  | nil => rfl
  | cons frame outer ih =>
      simp only [placeOuter, List.map_cons, command_placeFrame, ih]

theorem pending_placeOuter (schema : Schema) (b : Bindings) (handedOn : List String)
    (outer : List Frame) :
    ∀ frame ∈ (schema.placeOuter b handedOn outer).1, frame.pending = [] := by
  induction outer generalizing b handedOn with
  | nil => exact fun _ hframe => absurd hframe List.not_mem_nil
  | cons frame outer ih =>
      simp only [placeOuter]
      exact List.forall_mem_cons.mpr ⟨pending_placeFrame .., ih _ _⟩

/-- All commands that have been entered are placed in the same way. -/
theorem placeOuter_frames (schema : Schema) (scan : Scan) :
    schema.placeOuter scan.bindings [] scan.frames =
      ((schema.place scan).frames, (schema.place scan).bindings) :=
  rfl

theorem place_invariant {motive : Bindings → Prop} {scan : Scan}
    (hpush : ∀ frame ∈ scan.frames, ∀ p ∈ (schema.command frame.command).positionals,
      ∀ b values, motive b → motive (b.pushEach p.id values))
    (h : motive scan.bindings) : motive (schema.place scan).bindings := by
  have houter := placeOuter_invariant hpush h []
  rwa [placeOuter_frames] at houter

theorem commands_place (schema : Schema) (scan : Scan) :
    (schema.place scan).frames.map (·.command) = scan.frames.map (·.command) := by
  have hframes := commands_placeOuter schema scan.bindings [] scan.frames
  rwa [placeOuter_frames] at hframes

theorem pending_place (schema : Schema) (scan : Scan) :
    ∀ frame ∈ (schema.place scan).frames, frame.pending = [] := by
  have hframes := pending_placeOuter schema scan.bindings [] scan.frames
  rwa [placeOuter_frames] at hframes

end Schema

end CommandLine
