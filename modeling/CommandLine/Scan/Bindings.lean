import CommandLine.Schema.Basic

/-!
# Bound values

The values that a parse has found for the parameters (`Bindings`). Each
time a parameter is mentioned, or otherwise given values, these are one
invocation of it; `Bindings.of` lists the invocations of one parameter in
the order in which they came.
-/

namespace CommandLine

/-- The invocations of all parameters, each with its values. -/
structure Bindings where
  entries : List (ParameterId × List String) := []
  deriving DecidableEq, Repr

namespace Bindings

/-- The invocations of a parameter. -/
def of (b : Bindings) (p : ParameterId) : List (List String) :=
  (b.entries.filter (·.1 = p)).map (·.2)

/-- One more invocation. -/
def push (b : Bindings) (p : ParameterId) (values : List String) : Bindings :=
  ⟨b.entries ++ [(p, values)]⟩

/-- One invocation for each value. -/
def pushEach (b : Bindings) (p : ParameterId) (values : List String) : Bindings :=
  ⟨b.entries ++ values.map fun value => (p, [value])⟩

/-- Other invocations for a parameter. -/
def set (b : Bindings) (p : ParameterId) (invocations : List (List String)) : Bindings :=
  ⟨b.entries.filter (·.1 ≠ p) ++ invocations.map fun values => (p, values)⟩

/-- All values of a parameter. -/
def values (b : Bindings) (p : ParameterId) : List String := (b.of p).flatten

/-- The number of values of a parameter. -/
def count (b : Bindings) (p : ParameterId) : Nat := (b.values p).length

/-- Whether the parameter has an invocation, be it one without values. -/
def invoked (b : Bindings) (p : ParameterId) : Bool := !(b.of p).isEmpty

@[simp] theorem of_empty (p : ParameterId) : ({} : Bindings).of p = [] := rfl

@[simp] theorem of_push_self (b : Bindings) (p : ParameterId) (values : List String) :
    (b.push p values).of p = b.of p ++ [values] := by
  simp [of, push]

@[simp] theorem of_push_of_ne (b : Bindings) {p q : ParameterId} (values : List String)
    (h : p ≠ q) : (b.push p values).of q = b.of q := by
  simp [of, push, h]

/-- The invocations of one parameter among those that all belong to one. -/
theorem of_map_mk (p q : ParameterId) (invocations : List (List String)) :
    (⟨invocations.map fun values => (p, values)⟩ : Bindings).of q =
      if p = q then invocations else [] := by
  by_cases h : p = q
  · have hall : (invocations.map fun values => (p, values)).filter (·.1 = q) =
        invocations.map fun values => (p, values) :=
      List.filter_eq_self.mpr (by simp [h])
    rw [if_pos h, of, hall, List.map_map]
    exact List.map_id invocations
  · have hnone : (invocations.map fun values => (p, values)).filter (·.1 = q) = [] :=
      List.filter_eq_nil_iff.mpr (by simp [h])
    rw [if_neg h, of, hnone]
    rfl

theorem of_append (entries more : List (ParameterId × List String)) (p : ParameterId) :
    (⟨entries ++ more⟩ : Bindings).of p =
      (⟨entries⟩ : Bindings).of p ++ (⟨more⟩ : Bindings).of p := by
  simp [of]

theorem of_pushEach (b : Bindings) (p q : ParameterId) (values : List String) :
    (b.pushEach p values).of q =
      b.of q ++ if p = q then values.map fun value => [value] else [] := by
  rw [pushEach, of_append]
  have := of_map_mk p q (values.map fun value => [value])
  rw [List.map_map] at this
  exact congrArg _ this

@[simp] theorem of_pushEach_self (b : Bindings) (p : ParameterId) (values : List String) :
    (b.pushEach p values).of p = b.of p ++ values.map fun value => [value] := by
  simp [of_pushEach]

@[simp] theorem of_pushEach_of_ne (b : Bindings) {p q : ParameterId} (values : List String)
    (h : p ≠ q) : (b.pushEach p values).of q = b.of q := by
  simp [of_pushEach, h]

@[simp] theorem of_set_self (b : Bindings) (p : ParameterId) (invocations : List (List String)) :
    (b.set p invocations).of p = invocations := by
  rw [set, of_append, of_map_mk, if_pos rfl]
  simp [of, List.filter_filter]

@[simp] theorem of_set_of_ne (b : Bindings) {p q : ParameterId}
    (invocations : List (List String)) (h : p ≠ q) : (b.set p invocations).of q = b.of q := by
  rw [set, of_append, of_map_mk, if_neg h, List.append_nil, of, of, List.filter_filter]
  congr 1
  apply List.filter_congr
  rintro ⟨r, values⟩ -
  by_cases hr : r = q
  · simp [hr, Ne.symm h]
  · simp [hr]

end Bindings

end CommandLine
