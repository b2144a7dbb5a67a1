import CommandLine.Field

/-!
# Sets of values

A variable that holds a set lists its values in ascending order, each
once (`ValueType.IsSet`). Values of one type are ordered throughout
(`ValueType.eq_of_not_isBefore`), so that putting one more into its place
gives such a list again, and putting many gives the union
(`ValueType.IsSet.foldl_insertSorted`).
-/

namespace CommandLine

/-! ## Values in order -/

namespace Value

variable {a b c : Value}

theorem isBefore_trans (hab : a.isBefore b = true) (hbc : b.isBefore c = true) :
    a.isBefore c = true := by
  cases a <;> cases b <;> cases c <;>
    simp only [isBefore, decide_eq_true_eq, Bool.and_eq_true, Bool.not_eq_true', reduceCtorEq]
      at hab hbc ⊢
  · exact String.lt_trans hab hbc
  · exact ⟨hab.1, hbc.2⟩
  · exact Char.lt_trans hab hbc
  · exact Int.lt_trans hab hbc

end Value

namespace ValueType

variable {type : ValueType} {text : String} {value a b : Value} {old values : List Value}

/-- The value is one of the type. -/
def Owns : ValueType → Value → Prop
  | string, .string _ | bool, .bool _ | char, .char _ => True
  | integer type, .integer n => type.holds n = true
  | _, _ => False

/-- The list is the set of its values: they are of the type, and in ascending order. -/
structure IsSet (type : ValueType) (values : List Value) : Prop where
  owns : ∀ v ∈ values, type.Owns v
  ascending : values.Pairwise fun a b => a.isBefore b = true

theorem owns_of_read? (h : type.read? text = some value) : type.Owns value := by
  cases type with
  | string =>
      cases h
      trivial
  | bool =>
      rw [read?] at h
      split at h
      · cases h
        trivial
      · split at h
        · cases h
          trivial
        · cases h
  | char =>
      rw [read?] at h
      split at h
      · cases h
        trivial
      · cases h
  | integer type =>
      obtain ⟨n, hn, rfl⟩ := Option.map_eq_some_iff.mp h
      exact (Option.filter_eq_some_iff.mp hn).2

/-- Of two values of a type one comes before the other, unless they are the same. -/
theorem eq_of_not_isBefore (ha : type.Owns a) (hb : type.Owns b) (hab : a.isBefore b ≠ true)
    (hba : b.isBefore a ≠ true) : a = b := by
  cases type <;> cases a <;> first | exact absurd ha id | cases b <;> try exact absurd hb id
  -- Both are of the one kind that the type has.
  all_goals simp only [Value.isBefore, ne_eq, decide_eq_true_eq] at hab hba
  · rw [String.le_antisymm (String.not_lt.mp hba) (String.not_lt.mp hab)]
  · next a b => cases a <;> cases b <;> simp_all
  · rw [Char.le_antisymm (Char.not_lt.mp hba) (Char.not_lt.mp hab)]
  · rw [Int.le_antisymm (Int.not_lt.mp hba) (Int.not_lt.mp hab)]

theorem mem_insertSorted (hvalue : type.Owns value) (hold : ∀ v ∈ old, type.Owns v) {v : Value} :
    v ∈ insertSorted value old ↔ v ∈ old ∨ v = value := by
  induction old with
  | nil => simp [insertSorted]
  | cons w old ih =>
      obtain ⟨hw, hold⟩ := List.forall_mem_cons.mp hold
      rw [insertSorted]
      split
      · rw [List.mem_cons, or_comm]
      · next hbefore =>
          split
          · rw [List.mem_cons, List.mem_cons, ih hold, or_assoc]
          · next hbehind =>
              have heq : value = w := eq_of_not_isBefore hvalue hw hbefore hbehind
              rw [heq, List.mem_cons]
              exact ⟨Or.inl, fun h => h.elim id Or.inl⟩

theorem IsSet.insertSorted (h : type.IsSet old) (hvalue : type.Owns value) :
    type.IsSet (insertSorted value old) := by
  refine ⟨fun v hv => ?_, ?_⟩
  · rcases (mem_insertSorted hvalue h.owns).mp hv with hold | rfl
    · exact h.owns v hold
    · exact hvalue
  · obtain ⟨howns, hascending⟩ := h
    induction old with
    | nil => exact List.pairwise_singleton _ _
    | cons w old ih =>
        obtain ⟨hw, hold⟩ := List.forall_mem_cons.mp howns
        obtain ⟨hfirst, hrest⟩ := List.pairwise_cons.mp hascending
        rw [CommandLine.insertSorted]
        split
        · next hbefore =>
            refine List.pairwise_cons.mpr ⟨fun v hv => ?_, hascending⟩
            rcases List.mem_cons.mp hv with rfl | hv
            · exact hbefore
            · exact Value.isBefore_trans hbefore (hfirst v hv)
        · split
          · next hbehind =>
              refine List.pairwise_cons.mpr ⟨fun v hv => ?_, ih hold hrest⟩
              rcases (mem_insertSorted hvalue hold).mp hv with hv | rfl
              · exact hfirst v hv
              · exact hbehind
          · exact hascending

/-- To put values into a set one after the other gives the union. -/
theorem IsSet.foldl_insertSorted (h : type.IsSet old) (hvalues : ∀ v ∈ values, type.Owns v) :
    type.IsSet (values.foldl (fun contents v => CommandLine.insertSorted v contents) old) ∧
      ∀ v, v ∈ values.foldl (fun contents v => CommandLine.insertSorted v contents) old ↔
        v ∈ old ∨ v ∈ values := by
  induction values generalizing old with
  | nil => exact ⟨h, fun v => by simp⟩
  | cons value values ih =>
      obtain ⟨hvalue, hvalues⟩ := List.forall_mem_cons.mp hvalues
      obtain ⟨hset, hmem⟩ := ih (h.insertSorted hvalue) hvalues
      refine ⟨hset, fun v => ?_⟩
      rw [List.foldl_cons, hmem, mem_insertSorted hvalue h.owns, List.mem_cons, or_assoc]

end ValueType

end CommandLine
