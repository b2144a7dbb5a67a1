import CommandLine.Text.Blank
import CommandLine.Text.Cut
import Mathlib.Data.List.DropRight

/-!
# Lines and their blanks

Two things are undone when a text is read: that lines were ended
(`Text.lines_append`), and that blanks were put around their parts.
Trimming finds its way from both ends to the first characters that are
no blanks (`Text.trimChars_append_cons`), in either order
(`Text.trimStart_trimEnd`), and leaves a text alone that has none there
(`Text.Trimmed`). So the carriage return that a line may end with makes
no difference to what the line says.

Of texts that were joined it is only used what they start with, end with
and contain.
-/

namespace CommandLine.Text

variable {cs before after : List Char} {c sep : Char}

/-! ## Trimming -/

/-- The text neither starts nor ends with a blank. -/
@[mk_iff]
structure Trimmed (cs : List Char) : Prop where
  start : ∀ c ∈ cs.head?, isBlank c = false
  stop : ∀ c ∈ cs.getLast?, isBlank c = false

instance (cs : List Char) : Decidable (Trimmed cs) :=
  decidable_of_iff (cs.head?.any isBlank = false ∧ cs.getLast?.any isBlank = false) (by
    rw [trimmed_iff, Option.any_eq_false, Option.any_eq_false]
    rfl)

@[simp] theorem isBlank_space : isBlank ' ' = true := by decide

theorem trimEnd_eq (cs : List Char) : trimEnd cs = (trimStart cs.reverse).reverse := rfl

theorem trimStart_append_cons (hc : isBlank c = false) :
    trimStart (before ++ c :: after) = trimStart before ++ c :: after := by
  induction before with
  | nil => simp [trimStart, hc]
  | cons d before ih =>
      unfold trimStart at ih ⊢
      rw [List.cons_append, List.dropWhile_cons, List.dropWhile_cons]
      split
      · exact ih
      · rfl

theorem trimEnd_append_cons (hc : isBlank c = false) :
    trimEnd (before ++ c :: after) = before ++ c :: trimEnd after := by
  have hreverse : (before ++ c :: after).reverse = after.reverse ++ c :: before.reverse := by simp
  rw [trimEnd_eq, hreverse, trimStart_append_cons hc, trimEnd_eq]
  simp

theorem trimChars_append_cons (hc : isBlank c = false) :
    trimChars (before ++ c :: after) = trimStart before ++ c :: trimEnd after := by
  rw [trimChars, trimStart_append_cons hc, trimEnd_append_cons hc]

theorem trimStart_cons (hc : isBlank c = true) : trimStart (c :: cs) = trimStart cs := by
  rw [trimStart, List.dropWhile_cons, if_pos hc, trimStart]

theorem trimEnd_append_singleton (hc : isBlank c = true) : trimEnd (cs ++ [c]) = trimEnd cs :=
  List.rdropWhile_concat_pos isBlank cs c hc

theorem trimEnd_cons (hc : isBlank c = true) :
    trimEnd (c :: cs) = if (trimEnd cs).isEmpty then [] else c :: trimEnd cs := by
  rw [trimEnd_eq, List.reverse_cons, trimStart, List.dropWhile_append, trimEnd_eq, ← trimStart,
    List.isEmpty_reverse]
  split
  · simp [hc]
  · simp

@[simp] theorem trimStart_trimStart (cs : List Char) :
    trimStart (trimStart cs) = trimStart cs :=
  List.dropWhile_idempotent isBlank cs

@[simp] theorem trimEnd_trimEnd (cs : List Char) : trimEnd (trimEnd cs) = trimEnd cs :=
  List.rdropWhile_idempotent isBlank cs

/-- It does not matter which end is trimmed first. -/
theorem trimStart_trimEnd (cs : List Char) : trimStart (trimEnd cs) = trimEnd (trimStart cs) := by
  induction cs with
  | nil => rfl
  | cons c cs ih =>
      cases hc : isBlank c with
      | false =>
          have hstart : ∀ rest, trimStart (c :: rest) = c :: rest := fun rest =>
            @trimStart_append_cons [] rest c hc
          have hend : trimEnd (c :: cs) = c :: trimEnd cs := @trimEnd_append_cons [] cs c hc
          rw [hstart, hend, hstart]
      | true =>
          rw [trimStart_cons hc, ← ih, trimEnd_cons hc]
          split
          · next hnil => rw [List.isEmpty_iff.mp hnil]
          · rw [trimStart_cons hc]

theorem trimChars_trimStart (cs : List Char) : trimChars (trimStart cs) = trimChars cs := by
  rw [trimChars, trimStart_trimStart, trimChars]

theorem trimChars_trimEnd (cs : List Char) : trimChars (trimEnd cs) = trimChars cs := by
  rw [trimChars, trimStart_trimEnd, trimEnd_trimEnd, trimChars]

theorem trimChars_cons (hc : isBlank c = true) : trimChars (c :: cs) = trimChars cs := by
  rw [trimChars, trimStart_cons hc, trimChars]

theorem trimChars_append_singleton (hc : isBlank c = true) :
    trimChars (cs ++ [c]) = trimChars cs := by
  rw [← trimChars_trimEnd, trimEnd_append_singleton hc, trimChars_trimEnd]

theorem trimStart_of_head? (h : ∀ c ∈ cs.head?, isBlank c = false) :
    trimStart cs = cs := by
  cases cs with
  | nil => rfl
  | cons c cs => exact @trimStart_append_cons [] cs c (h c rfl)

theorem Trimmed.trimChars_eq (h : Trimmed cs) : trimChars cs = cs := by
  have hend : trimStart cs.reverse = cs.reverse :=
    trimStart_of_head? fun c hc => h.stop c (by rwa [List.head?_reverse] at hc)
  rw [trimChars, trimStart_of_head? h.start, trimEnd_eq, hend, List.reverse_reverse]

theorem Trimmed.append_cons (hbefore : Trimmed before) (hc : isBlank c = false)
    (hafter : Trimmed after) : Trimmed (before ++ c :: after) where
  start d hd := by
    cases before with
    | nil => exact Option.some.inj hd ▸ hc
    | cons b before => exact hbefore.start d hd
  stop d hd := by
    rw [List.getLast?_append_of_ne_nil _ (List.cons_ne_nil _ _)] at hd
    cases after with
    | nil => exact Option.some.inj hd ▸ hc
    | cons a after => exact hafter.stop d hd

/-! ## Lines -/

theorem trimChars_dropReturn (line : List Char) : trimChars (dropReturn line) = trimChars line := by
  unfold dropReturn
  split
  · next hreturn =>
      have hline : line.dropLast ++ ['\r'] = line := List.dropLast_append_getLast? _ hreturn
      have hblank : isBlank '\r' = true := by decide
      rw [← trimChars_append_singleton hblank, hline]
  · rfl

@[simp] theorem lines_nil : lines [] = [] := by
  simp [lines, linesOfPieces]

theorem lines_append {line : List Char} (h : '\n' ∉ line) (rest : List Char) :
    lines (line ++ '\n' :: rest) = dropReturn line :: lines rest := by
  rw [lines, List.splitOn_append_cons_self_of_not_mem h, lines]
  cases hpieces : rest.splitOn '\n' with
  | nil => exact absurd hpieces (List.splitOn_ne_nil _ _)
  | cons piece pieces => rw [linesOfPieces]; exact List.cons_ne_nil _ _

/-! ## Cutting -/

theorem cutAt_append_cons (h : sep ∉ before) :
    cutAt sep (before ++ sep :: after) = some (before, after) := by
  induction before with
  | nil => simp [cutAt]
  | cons c before ih =>
      obtain ⟨hc, hbefore⟩ := not_or.mp (mt List.mem_cons.mpr h)
      rw [List.cons_append, cutAt, if_neg (Ne.symm hc), ih hbefore, Option.map_some]

theorem cutAt_eq_none (h : sep ∉ cs) : cutAt sep cs = none := by
  induction cs with
  | nil => rfl
  | cons c cs ih =>
      obtain ⟨hc, hcs⟩ := not_or.mp (mt List.mem_cons.mpr h)
      rw [cutAt, if_neg (Ne.symm hc), ih hcs, Option.map_none]

/-! ## Joining -/

section Intercalate

variable {α : Type} (sep : List α) {parts : List (List α)}

theorem mem_intercalate {sep : List α} {a : α} (ha : a ∈ sep.intercalate parts) :
    a ∈ sep ∨ ∃ part ∈ parts, a ∈ part := by
  induction parts with
  | nil => cases ha
  | cons part parts ih =>
      cases parts with
      | nil => exact Or.inr ⟨part, List.mem_cons_self, by simpa using ha⟩
      | cons next more =>
          rw [List.intercalate_cons_cons, List.mem_append, List.mem_append] at ha
          rcases ha with (ha | ha) | ha
          · exact Or.inr ⟨part, List.mem_cons_self, ha⟩
          · exact Or.inl ha
          · obtain hsep | ⟨other, hother, hmem⟩ := ih ha
            · exact Or.inl hsep
            · exact Or.inr ⟨other, List.mem_cons_of_mem _ hother, hmem⟩

theorem head?_intercalate (h : ∀ part ∈ parts, part ≠ []) :
    (sep.intercalate parts).head? = parts.head?.bind List.head? := by
  match parts with
  | [] => rfl
  | [part] => simp
  | part :: next :: more =>
      have hne := h part List.mem_cons_self
      rw [List.intercalate_cons_cons, List.append_assoc, List.head?_append_of_ne_nil _ hne]
      rfl

theorem getLast?_intercalate (h : ∀ part ∈ parts, part ≠ []) :
    (sep.intercalate parts).getLast? = parts.getLast?.bind List.getLast? := by
  induction parts with
  | nil => rfl
  | cons part parts ih =>
      obtain ⟨hpart, hparts⟩ := List.forall_mem_cons.mp h
      cases parts with
      | nil => simp
      | cons next more =>
          have hne : sep.intercalate (next :: more) ≠ [] := by
            intro hnil
            have hnext := (List.forall_mem_cons.mp hparts).1
            have hhead := head?_intercalate sep hparts
            rw [hnil, List.head?_cons, Option.bind_some] at hhead
            exact hnext (List.head?_eq_none_iff.mp hhead.symm)
          rw [List.intercalate_cons_cons, List.getLast?_append_of_ne_nil _ hne, ih hparts,
            List.getLast?_cons_cons]

end Intercalate

theorem trimmed_intercalate (hsep : isBlank sep = false) {parts : List (List Char)}
    (h : ∀ part ∈ parts, Trimmed part) : Trimmed ([sep].intercalate parts) := by
  induction parts with
  | nil => exact ⟨nofun, nofun⟩
  | cons part parts ih =>
      obtain ⟨hpart, hparts⟩ := List.forall_mem_cons.mp h
      cases parts with
      | nil => simpa using hpart
      | cons next more =>
          rw [List.intercalate_cons_cons, List.append_assoc]
          exact hpart.append_cons hsep (ih hparts)

end CommandLine.Text
