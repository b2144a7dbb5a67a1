import CommandLine.Config.Quoted
import CommandLine.Proofs.Lines

/-!
# Values that share a line

What `writeValues` puts on a line, `readValues` finds there again
(`Config.readValues_writeValues`). Two things can stand in the way: a
value may contain the very quotes that are put around it (`Quotable`), and
the line as a whole may look like a list in brackets (`Unlisted`).

A value is written between quotes that it does not contain, or else as it
is (`quoteValue_cases`); that is all that is used of `quoteValue` here.
-/

namespace CommandLine.Config

open Text (isBlank Trimmed)

variable {value cs body : List Char} {values : List (List Char)} {c q : Char}

/-! ## One value -/

/-- The value does not contain the quotes that are put around it. -/
def Quotable (value : List Char) : Prop :=
  '"' ∈ value → '\'' ∉ value ∧ ∀ c ∈ value, isBlank c = false

instance (value : List Char) : Decidable (Quotable value) :=
  decidable_of_iff ((!value.contains '"' || !value.contains '\'' && !value.any isBlank) = true) (by
    simp [Quotable, or_iff_not_imp_left])

/-- The value cannot stand as it is: it is empty, or a blank or a quote would be misread. -/
def needsQuotes (value : List Char) : Bool :=
  value.isEmpty || value.any fun c => isQuote c || isBlank c

theorem needsQuotes_eq_false :
    needsQuotes value = false ↔
      value ≠ [] ∧ ∀ c ∈ value, isQuote c = false ∧ isBlank c = false := by
  simp [needsQuotes]

theorem isQuote_iff : isQuote c = true ↔ c = '"' ∨ c = '\'' := by
  simp [isQuote]

/-- A value that needs quotes gets them, and any other is written as it is. -/
theorem quoteValue_cases (value : List Char) :
    (∃ q, isQuote q = true ∧ needsQuotes value = true ∧ (Quotable value ↔ q ∉ value) ∧
        quoteValue value = q :: (value ++ [q])) ∨
      needsQuotes value = false ∧ quoteValue value = value := by
  unfold quoteValue
  split
  · next hneeds =>
      rw [Bool.or_eq_true, List.isEmpty_iff, List.any_eq_true] at hneeds
      refine Or.inl ⟨'"', rfl, ?_, ⟨fun hquotable hdouble => ?_, fun hout hdouble => ?_⟩, rfl⟩
      · rw [needsQuotes, Bool.or_eq_true, List.isEmpty_iff, List.any_eq_true]
        refine hneeds.imp_right fun ⟨c, hc, hneeds⟩ => ⟨c, hc, ?_⟩
        rw [Bool.or_eq_true, isQuote_iff]
        rw [Bool.or_eq_true, beq_iff_eq] at hneeds
        exact hneeds.symm.imp_left Or.inr
      · obtain ⟨hsingle, hblank⟩ := hquotable hdouble
        rcases hneeds with rfl | ⟨c, hc, hneeds⟩
        · cases hdouble
        · rw [hblank c hc, Bool.false_or, beq_iff_eq] at hneeds
          exact hsingle (hneeds ▸ hc)
      · exact absurd hdouble hout
  · next hplain =>
      rw [Bool.or_eq_true, List.isEmpty_iff, List.any_eq_true] at hplain
      obtain ⟨hne, hplain⟩ := not_or.mp hplain
      have hc : ∀ c ∈ value, isBlank c = false ∧ c ≠ '\'' := by
        intro c hc
        have hneither : (isBlank c || c == '\'') = false :=
          Bool.eq_false_iff.mpr fun hneeds => hplain ⟨c, hc, hneeds⟩
        rwa [Bool.or_eq_false_iff, beq_eq_false_iff_ne] at hneither
      split
      · next hdouble =>
          have hmem : '"' ∈ value := List.contains_iff_mem.mp hdouble
          have hsingle : '\'' ∉ value := fun hsingle => (hc _ hsingle).2 rfl
          refine Or.inl ⟨'\'', rfl, ?_, iff_of_true ?_ hsingle, rfl⟩
          · rw [needsQuotes, Bool.or_eq_true, List.any_eq_true]
            exact Or.inr ⟨'"', hmem, rfl⟩
          · exact fun _ => ⟨hsingle, fun c hmem => (hc c hmem).1⟩
      · next hdouble =>
          refine Or.inr ⟨needsQuotes_eq_false.mpr ⟨hne, fun c hmem => ⟨?_, (hc c hmem).1⟩⟩, rfl⟩
          rw [Bool.eq_false_iff, Ne, isQuote_iff]
          rintro (rfl | rfl)
          · exact hdouble (List.contains_iff_mem.mpr hmem)
          · exact (hc _ hmem).2 rfl

theorem isBlank_of_isQuote (h : isQuote q = true) : isBlank q = false := by
  rcases isQuote_iff.mp h with rfl | rfl <;> decide

theorem quoteValue_of_bare (h : needsQuotes value = false) : quoteValue value = value := by
  rcases quoteValue_cases value with ⟨q, -, hneeds, -⟩ | ⟨-, heq⟩
  · rw [h] at hneeds
    cases hneeds
  · exact heq

theorem quoteValue_ne_nil (value : List Char) : quoteValue value ≠ [] := by
  rcases quoteValue_cases value with ⟨q, -, -, -, heq⟩ | ⟨hbare, heq⟩ <;> rw [heq]
  · exact List.cons_ne_nil _ _
  · exact (needsQuotes_eq_false.mp hbare).1

theorem mem_quoteValue (hc : c ∈ quoteValue value) : isQuote c = true ∨ c ∈ value := by
  rcases quoteValue_cases value with ⟨q, hq, -, -, heq⟩ | ⟨-, heq⟩ <;> rw [heq] at hc
  · rw [List.mem_cons, List.mem_append, List.mem_singleton] at hc
    rcases hc with rfl | hc | rfl
    · exact Or.inl hq
    · exact Or.inr hc
    · exact Or.inl hq
  · exact Or.inr hc

theorem head?_quoteValue (hc : (quoteValue value).head? = some c) :
    isQuote c = true ∨ needsQuotes value = false ∧ value.head? = some c := by
  rcases quoteValue_cases value with ⟨q, hq, -, -, heq⟩ | ⟨hbare, heq⟩ <;> rw [heq] at hc
  · cases hc
    exact Or.inl hq
  · exact Or.inr ⟨hbare, hc⟩

theorem getLast?_quoteValue (hc : (quoteValue value).getLast? = some c) :
    isQuote c = true ∨ needsQuotes value = false ∧ value.getLast? = some c := by
  rcases quoteValue_cases value with ⟨q, hq, -, -, heq⟩ | ⟨hbare, heq⟩ <;> rw [heq] at hc
  · rw [← List.cons_append, List.getLast?_concat] at hc
    cases hc
    exact Or.inl hq
  · exact Or.inr ⟨hbare, hc⟩

/-! ## Words -/

theorem wordsFrom_quoted (h : q ∉ cs) (word rest : List Char) :
    wordsFrom (some q) (some word) (cs ++ q :: rest) =
      wordsFrom none (some (word ++ cs)) rest := by
  induction cs generalizing word with
  | nil => simp [wordsFrom]
  | cons c cs ih =>
      obtain ⟨hc, hcs⟩ := not_or.mp (mt List.mem_cons.mpr h)
      have hnext := ih hcs (word ++ [c])
      rw [List.append_assoc] at hnext
      simpa [wordsFrom, Ne.symm hc] using hnext

theorem wordsFrom_bare (h : ∀ c ∈ cs, isQuote c = false ∧ isBlank c = false)
    (word rest : List Char) :
    wordsFrom none (some word) (cs ++ rest) = wordsFrom none (some (word ++ cs)) rest := by
  induction cs generalizing word with
  | nil => simp
  | cons c cs ih =>
      obtain ⟨⟨hquote, hblank⟩, hcs⟩ := List.forall_mem_cons.mp h
      have hnext := ih hcs (word ++ [c])
      rw [List.append_assoc] at hnext
      simpa [wordsFrom, hquote, hblank] using hnext

theorem wordsFrom_quoteValue (h : Quotable value) (rest : List Char) :
    wordsFrom none none (quoteValue value ++ rest) = wordsFrom none (some value) rest := by
  rcases quoteValue_cases value with ⟨q, hq, -, hout, heq⟩ | ⟨hbare, heq⟩ <;> rw [heq]
  · have hquoted := wordsFrom_quoted (hout.mp h) [] rest
    simpa [wordsFrom, hq] using hquoted
  · obtain ⟨hne, hall⟩ := needsQuotes_eq_false.mp hbare
    obtain ⟨c, cs, rfl⟩ := List.exists_cons_of_ne_nil hne
    obtain ⟨⟨hquote, hblank⟩, hcs⟩ := List.forall_mem_cons.mp hall
    have hnext := wordsFrom_bare hcs [c] rest
    simpa [wordsFrom, hquote, hblank] using hnext

/-- What follows the first value on a line: a blank and the other values, if there are any. -/
theorem writeValues_cons (value : List Char) (values : List (List Char)) :
    writeValues (value :: values) =
      quoteValue value ++ if values.isEmpty then [] else ' ' :: writeValues values := by
  cases values with
  | nil => simp [writeValues]
  | cons next more => simp [writeValues, List.intercalate_cons_cons]

theorem words_writeValues_cons (h : Quotable value) (values : List (List Char)) :
    words (writeValues (value :: values)) = value :: words (writeValues values) := by
  rw [writeValues_cons, words, wordsFrom_quoteValue h]
  cases values with
  | nil => simp [wordsFrom, words, writeValues]
  | cons next more =>
      have hquote : isQuote ' ' = false := by decide
      have hblank : isBlank ' ' = true := by decide
      simp [wordsFrom, words, hquote, hblank]

theorem words_writeValues (h : ∀ value ∈ values, Quotable value) :
    words (writeValues values) = values := by
  induction values with
  | nil => rfl
  | cons value values ih =>
      obtain ⟨hvalue, hvalues⟩ := List.forall_mem_cons.mp h
      rw [words_writeValues_cons hvalue, ih hvalues]

/-! ## Lines -/

theorem bracketed?_eq_some_iff : bracketed? cs = some body ↔ cs = '[' :: (body ++ [']']) := by
  constructor
  · intro h
    unfold bracketed? at h
    split at h
    · split at h
      · next hlast =>
          cases h
          rw [List.dropLast_append_getLast? _ hlast]
      · cases h
    · cases h
  · rintro rfl
    simp [bracketed?]

theorem readValues_of_bracketed (h : bracketed? cs = some body) :
    readValues cs = (listEntries body).flatMap readValues := by
  rw [readValues]
  split
  · next body' hsome =>
      cases h.symm.trans hsome
      simp [List.flatMap_subtype]
  · next hnone => cases h.symm.trans hnone

theorem readValues_of_not_bracketed (h : bracketed? cs = none) : readValues cs = words cs := by
  rw [readValues]
  split
  · next body hsome => cases h.symm.trans hsome
  · rfl

/-- The values do not look like one list in brackets when they stand side by side. -/
def Unlisted (values : List (List Char)) : Prop :=
  ¬(values.head?.bind List.head? = some '[' ∧ values.getLast?.bind List.getLast? = some ']')

instance (values : List (List Char)) : Decidable (Unlisted values) :=
  inferInstanceAs (Decidable (¬_))

theorem forall_quoteValue_ne_nil (values : List (List Char)) :
    ∀ part ∈ values.map quoteValue, part ≠ [] := by
  intro part hpart
  obtain ⟨value, -, rfl⟩ := List.mem_map.mp hpart
  exact quoteValue_ne_nil value

theorem head?_writeValues :
    (writeValues values).head? = some c ↔
      ∃ first, values.head? = some first ∧ (quoteValue first).head? = some c := by
  rw [writeValues, Text.head?_intercalate _ (forall_quoteValue_ne_nil values), List.head?_map,
    Option.bind_map, Option.bind_eq_some_iff]
  rfl

theorem getLast?_writeValues :
    (writeValues values).getLast? = some c ↔
      ∃ last, values.getLast? = some last ∧ (quoteValue last).getLast? = some c := by
  rw [writeValues, Text.getLast?_intercalate _ (forall_quoteValue_ne_nil values),
    List.getLast?_map, Option.bind_map, Option.bind_eq_some_iff]
  rfl

theorem newline_not_mem_writeValues (hlines : ∀ value ∈ values, '\n' ∉ value) :
    '\n' ∉ writeValues values := by
  intro hmem
  obtain hsep | ⟨part, hpart, hmem⟩ := Text.mem_intercalate hmem
  · exact absurd hsep (by decide)
  · obtain ⟨value, hvalue, rfl⟩ := List.mem_map.mp hpart
    have hquote : isQuote '\n' = false := by decide
    rcases mem_quoteValue hmem with hopens | hmem
    · rw [hquote] at hopens
      cases hopens
    · exact hlines value hvalue hmem

theorem trimmed_writeValues (values : List (List Char)) : Trimmed (writeValues values) where
  start c hc := by
    obtain ⟨first, -, hc⟩ := head?_writeValues.mp hc
    rcases head?_quoteValue hc with hquote | ⟨hbare, hc⟩
    · exact isBlank_of_isQuote hquote
    · exact ((needsQuotes_eq_false.mp hbare).2 c (List.mem_of_head? hc)).2
  stop c hc := by
    obtain ⟨last, -, hc⟩ := getLast?_writeValues.mp hc
    rcases getLast?_quoteValue hc with hquote | ⟨hbare, hc⟩
    · exact isBlank_of_isQuote hquote
    · exact ((needsQuotes_eq_false.mp hbare).2 c (List.mem_of_getLast? hc)).2

/-- The line looks like a list in brackets: they stand at its ends, and not between quotes. -/
structure Listed (values : List (List Char)) : Prop where
  opens : ∃ first, values.head? = some first ∧ needsQuotes first = false ∧ first.head? = some '['
  closes : ∃ last, values.getLast? = some last ∧ needsQuotes last = false ∧
    last.getLast? = some ']'

theorem Unlisted.not_listed (h : Unlisted values) : ¬Listed values := by
  rintro ⟨⟨first, hfirst, -, hopens⟩, last, hlast, -, hcloses⟩
  exact h ⟨by rw [hfirst, Option.bind_some, hopens], by rw [hlast, Option.bind_some, hcloses]⟩

theorem bracketed?_writeValues :
    (∃ body, bracketed? (writeValues values) = some body) ↔ Listed values := by
  have hopens : isQuote '[' = false := by decide
  have hcloses : isQuote ']' = false := by decide
  simp only [bracketed?_eq_some_iff]
  constructor
  · rintro ⟨body, hline⟩
    have hstart : (writeValues values).head? = some '[' := by rw [hline]; rfl
    have hstop : (writeValues values).getLast? = some ']' := by
      rw [hline, ← List.cons_append, List.getLast?_concat]
    obtain ⟨first, hfirst, hstart⟩ := head?_writeValues.mp hstart
    obtain ⟨last, hlast, hstop⟩ := getLast?_writeValues.mp hstop
    have hstart := (head?_quoteValue hstart).resolve_left (by simp [hopens])
    have hstop := (getLast?_quoteValue hstop).resolve_left (by simp [hcloses])
    exact ⟨⟨first, hfirst, hstart⟩, last, hlast, hstop⟩
  · rintro ⟨⟨first, hfirst, hbare, hstart⟩, last, hlast, hbare', hstop⟩
    have hstart : (writeValues values).head? = some '[' :=
      head?_writeValues.mpr ⟨first, hfirst, by rwa [quoteValue_of_bare hbare]⟩
    have hstop : (writeValues values).getLast? = some ']' :=
      getLast?_writeValues.mpr ⟨last, hlast, by rwa [quoteValue_of_bare hbare']⟩
    -- One character cannot be both brackets, so something follows the first one.
    obtain ⟨rest, hline⟩ := List.head?_eq_some_iff.mp hstart
    rw [hline] at hstop ⊢
    cases rest with
    | nil => cases hstop
    | cons c rest =>
        rw [List.getLast?_cons_cons] at hstop
        obtain ⟨body, hbody⟩ := List.getLast?_eq_some_iff.mp hstop
        exact ⟨body, by rw [hbody]⟩

theorem readValues_of_not_listed (h : ¬Listed values) :
    readValues (writeValues values) = words (writeValues values) :=
  readValues_of_not_bracketed (Option.eq_none_iff_forall_ne_some.mpr fun body hbody =>
    h (bracketed?_writeValues.mp ⟨body, hbody⟩))

/-- Values that are written on one line are read from it again. -/
theorem readValues_writeValues (h : ∀ value ∈ values, Quotable value)
    (hunlisted : Unlisted values) :
    readValues (writeValues values) = values := by
  rw [readValues_of_not_listed hunlisted.not_listed, words_writeValues h]

end CommandLine.Config
