import CommandLine.Field
import Mathlib.Data.List.Chain

/-!
# What counters come to

A counter has 64 bits without a sign, and mentions are added to it on 64
bits with a sign (`Field.counterLimit`). So it comes to the sum, or to zero
where that is negative, as long as neither what it holds nor the sum is
beyond the limit (`addToCount_eq_iff`). It never comes to more than that,
but it can come to less: a counter beyond the limit is brought down to the
limit first, so that another mention makes it smaller (`mention_lowers_count`).
-/

namespace CommandLine

namespace Field

variable {count : UInt64} {n : Int} {ns : List Nat}

/-! ## One number of mentions -/

theorem counterLimit_nonneg : 0 ≤ counterLimit := by decide

theorem toNat_addToCount (count : UInt64) (n : Int) :
    ((addToCount count n).toNat : Int) =
      max 0 (min (min (count.toNat : Int) counterLimit + n) counterLimit) := by
  have hlimit : counterLimit = 2 ^ 63 - 1 := rfl
  have hfits : (min (min (count.toNat : Int) counterLimit + n) counterLimit).toNat <
      UInt64.size := by
    rw [hlimit, show UInt64.size = 2 ^ 64 from rfl]
    omega
  rw [addToCount, UInt64.toNat_ofNat_of_lt' hfits]
  omega

/-- A count goes neither beyond the limit nor beyond the sum. -/
theorem addToCount_le (count : UInt64) (n : Int) :
    ((addToCount count n).toNat : Int) ≤ counterLimit ∧
      ((addToCount count n).toNat : Int) ≤ max 0 (count.toNat + n) := by
  have hlimit := counterLimit_nonneg
  rw [toNat_addToCount]
  omega

/-- The count is the sum where nothing is beyond the limit, and where nothing is left. -/
theorem addToCount_eq_iff :
    ((addToCount count n).toNat : Int) = max 0 (count.toNat + n) ↔
      (count.toNat : Int) + n ≤ 0 ∨
        (count.toNat : Int) ≤ counterLimit ∧ (count.toNat : Int) + n ≤ counterLimit := by
  have hlimit := counterLimit_nonneg
  rw [toNat_addToCount]
  omega

/-- Mentions that do not take anything off make a count smaller only beyond the limit. -/
theorem le_addToCount_iff {n : Nat} :
    count ≤ addToCount count n ↔ (count.toNat : Int) ≤ counterLimit := by
  have hlimit := counterLimit_nonneg
  have hsum := toNat_addToCount count n
  rw [UInt64.le_iff_toNat_le]
  omega

/-! ## One number after the other -/

/-- What a counter holds, at first and after each number of mentions. -/
def contents (count : UInt64) (ns : List Nat) : List UInt64 :=
  ns.scanl (fun count n => addToCount count n) count

theorem contents_cons {n : Nat} :
    contents count (n :: ns) = count :: contents (addToCount count n) ns :=
  List.scanl_cons

theorem scanl_mentionTimes (count : UInt64) (ns : List Nat) :
    ns.scanl (fun field n => field.mentionTimes n) (counter count) =
      (contents count ns).map counter := by
  induction ns generalizing count with
  | nil => rfl
  | cons n ns ih =>
      rw [List.scanl_cons, contents_cons, List.map_cons, ← ih]
      rfl

/-- Within the limit a counter only grows. -/
theorem isChain_contents (h : (count.toNat : Int) ≤ counterLimit) :
    (contents count ns).IsChain (· ≤ ·) := by
  induction ns generalizing count with
  | nil => exact List.isChain_singleton _
  | cons n ns ih =>
      rw [contents_cons, List.isChain_cons, contents, List.head?_scanl]
      refine ⟨fun next hnext => ?_, ih (addToCount_le count n).1⟩
      cases hnext
      exact le_addToCount_iff.mpr h

theorem isChain_contents_iff :
    (contents count ns).IsChain (· ≤ ·) ↔ ns = [] ∨ (count.toNat : Int) ≤ counterLimit := by
  constructor
  · intro h
    cases ns with
    | nil => exact Or.inl rfl
    | cons n ns =>
        rw [contents_cons, List.isChain_cons, contents, List.head?_scanl] at h
        exact Or.inr (le_addToCount_iff.mp (h.1 _ rfl))
  · rintro (rfl | h)
    · exact List.isChain_singleton _
    · exact isChain_contents h

/-- Mentions bring a counter to their sum with what it holds, and not below zero, if and only if
nothing of that is beyond the limit or nothing is left; in no case to more. Numbers of mentions that
take nothing off never make it smaller, unless it is beyond the limit. -/
theorem counter_exact_iff (count : UInt64) (n : Int) (ns : List Nat) :
    (∃ after, (counter count).mentionTimes n = counter after ∧
      ((after.toNat : Int) = max 0 (count.toNat + n) ↔
        (count.toNat : Int) + n ≤ 0 ∨
          (count.toNat : Int) ≤ counterLimit ∧ (count.toNat : Int) + n ≤ counterLimit) ∧
      (after.toNat : Int) ≤ max 0 (count.toNat + n)) ∧
    ns.scanl (fun field n => field.mentionTimes n) (counter count) =
        (contents count ns).map counter ∧
      ((contents count ns).IsChain (· ≤ ·) ↔ ns = [] ∨ (count.toNat : Int) ≤ counterLimit) :=
  ⟨⟨_, rfl, addToCount_eq_iff, (addToCount_le count n).2⟩, scanl_mentionTimes count ns,
    isChain_contents_iff⟩

/-- One mention takes one off, though there is room for one more. -/
theorem mention_lowers_count :
    (counter 9223372036854775808).mentionTimes 1 = counter 9223372036854775807 ∧
      max 0 (((9223372036854775808 : UInt64).toNat : Int) + 1) =
        ((9223372036854775809 : UInt64).toNat : Int) ∧
      ¬(contents 9223372036854775808 [1]).IsChain (· ≤ ·) := by
  refine ⟨by decide, by decide, fun hgrows => ?_⟩
  rcases isChain_contents_iff.mp hgrows with hnone | hwithin
  · cases hnone
  · exact absurd hwithin (by decide)

end Field

end CommandLine
