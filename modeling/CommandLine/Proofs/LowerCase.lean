import CommandLine.Text.Lowercase
import Mathlib.Data.List.Basic

/-!
# What lower case leaves alone

No letter has a lower-case form among the characters up to the underscore
(`eq_of_mem_lowerChar`). A character there that is no capital letter, such
as a dash or an equals sign, is `Inert`: it stands in a text in lower case
exactly where it stands in the text (`Inert.mem_lowercaseChars`,
`Inert.head?_lowercaseChars`).
-/

namespace CommandLine.Text.Lowercase

/-- The characters with a lower-case form of their own have one behind the underscore. -/
theorem underscore_lt_of_mem_lowerRuns :
    ∀ run ∈ lowerRuns, (('_'.toNat : Nat) : Int) < run.first + run.shift := by
  decide +kernel

theorem lowerCode_of_le {n : Nat} (h : lowerCode n ≤ '_'.toNat) : lowerCode n = n := by
  unfold lowerCode at h ⊢
  split at h
  · next run hfind =>
      have hbehind := underscore_lt_of_mem_lowerRuns run (List.mem_of_find?_eq_some hfind)
      have hholds := List.find?_some (p := fun run : CaseRun => run.holds n) hfind
      simp only [CaseRun.holds, Bool.and_eq_true, decide_eq_true_eq] at hholds
      omega
  · rfl

/-- Only a character itself has it as its lower-case form, where that is printable and not behind
the underscore. -/
theorem eq_of_mem_lowerChar {c d : Char} (hd : d ∈ lowerChar c) (hprints : ' '.toNat ≤ d.toNat)
    (hfront : d.toNat ≤ '_'.toNat) : c = d := by
  unfold lowerChar at hd
  split at hd
  · rcases List.mem_pair.mp hd with rfl | rfl
    · exact absurd hfront (by decide)
    · exact absurd hfront (by decide)
  · rw [List.mem_singleton] at hd
    subst hd
    by_cases hvalid : (lowerCode c.toNat).isValidChar
    · have hcode : (Char.ofNat (lowerCode c.toNat)).toNat = lowerCode c.toNat := by
        rw [Char.ofNat, dif_pos hvalid]
        rfl
      rw [hcode] at hfront
      rw [← Char.toNat_inj, hcode, lowerCode_of_le hfront]
    · have hnul : Char.ofNat (lowerCode c.toNat) = '\x00' := by
        rw [Char.ofNat, dif_neg hvalid]
        rfl
      rw [hnul] at hprints
      exact absurd hprints (by decide)

theorem lowerChar_ne_nil (c : Char) : lowerChar c ≠ [] := by
  unfold lowerChar
  split <;> exact List.cons_ne_nil _ _

/-- A character that lower case neither changes nor makes out of another one. -/
structure Inert (d : Char) : Prop where
  prints : ' '.toNat ≤ d.toNat
  front : d.toNat ≤ '_'.toNat
  keeps : lowerChar d = [d]

instance (d : Char) : Decidable (Inert d) :=
  decidable_of_iff (' '.toNat ≤ d.toNat ∧ d.toNat ≤ '_'.toNat ∧ lowerChar d = [d])
    ⟨fun ⟨hprints, hfront, hkeeps⟩ => ⟨hprints, hfront, hkeeps⟩,
      fun ⟨hprints, hfront, hkeeps⟩ => ⟨hprints, hfront, hkeeps⟩⟩

theorem inert_dash : Inert '-' := by decide +kernel

theorem inert_equals : Inert '=' := by decide +kernel

theorem inert_underscore : Inert '_' := by decide +kernel

namespace Inert

variable {d : Char}

theorem mem_lowerChar (h : Inert d) {c : Char} : d ∈ lowerChar c ↔ c = d := by
  refine ⟨fun hd => eq_of_mem_lowerChar hd h.prints h.front, ?_⟩
  rintro rfl
  rw [h.keeps]
  exact List.mem_singleton_self _

theorem head?_lowerChar (h : Inert d) {c : Char} : (lowerChar c).head? = some d ↔ c = d := by
  refine ⟨fun hd => h.mem_lowerChar.mp (List.mem_of_head? hd), ?_⟩
  rintro rfl
  rw [h.keeps]
  rfl

/-- It is no sigma of any form. -/
theorem ne_of_behind (h : Inert d) {c : Char} (hc : '_'.toNat < c.toNat) : d ≠ c := by
  rintro rfl
  exact Nat.not_lt.mpr h.front hc

theorem mem_lowerAfter (h : Inert d) (before cs : List Char) :
    d ∈ lowerAfter before cs ↔ d ∈ cs := by
  induction cs generalizing before with
  | nil => exact Iff.rfl
  | cons c rest ih =>
      rw [lowerAfter, List.mem_append, ih, List.mem_cons]
      refine or_congr_left ?_
      by_cases hsigma : c = 'Σ'
      · subst hsigma
        have hcapital : d ≠ 'Σ' := h.ne_of_behind (by decide)
        have hsmall : d ≠ 'σ' := h.ne_of_behind (by decide)
        have hfinal : d ≠ 'ς' := h.ne_of_behind (by decide)
        cases endsWord before rest <;> simp [hcapital, hsmall, hfinal]
      · rw [if_neg hsigma, h.mem_lowerChar, eq_comm]

theorem mem_lowercaseChars (h : Inert d) {cs : List Char} : d ∈ lowercaseChars cs ↔ d ∈ cs :=
  h.mem_lowerAfter [] cs

/-- Lower case neither puts it in front of a text nor takes it away there. -/
theorem head?_lowercaseChars (h : Inert d) {cs : List Char} :
    (lowercaseChars cs).head? = some d ↔ cs.head? = some d := by
  cases cs with
  | nil => exact Iff.rfl
  | cons c rest =>
      simp only [lowercaseChars, lowerAfter, List.head?_cons, Option.some.injEq]
      by_cases hsigma : c = 'Σ'
      · subst hsigma
        have hcapital : 'Σ' ≠ d := (h.ne_of_behind (by decide)).symm
        have hsmall : 'σ' ≠ d := (h.ne_of_behind (by decide)).symm
        have hfinal : 'ς' ≠ d := (h.ne_of_behind (by decide)).symm
        cases endsWord [] rest <;> simp [hcapital, hsmall, hfinal]
      · rw [if_neg hsigma, List.head?_append_of_ne_nil _ (lowerChar_ne_nil c), h.head?_lowerChar]

end Inert

end CommandLine.Text.Lowercase
