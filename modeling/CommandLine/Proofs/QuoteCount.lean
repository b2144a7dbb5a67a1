import CommandLine.Config.Item
import CommandLine.Proofs.Quoting
import Mathlib.Algebra.GroupWithZero.Nat
import Mathlib.Data.List.Flatten

/-!
# Which values come back from a line

`readValues_writeValues` names values that are read from a line as they
were written. No others are, as `written_values_read_iff` says.

Quotes are counted for this. The values that are read from a text have a
`price`, the number of quotes in the line on which they would be written,
and the text has as many quotes as that, but for one at most
(`price_wordsFrom`). A value that holds the quotes around it is cut short
by the first of them, and the text has not enough quotes for the rest of
it (`quotable_of_words`). With a list in brackets it is the brackets that
are missing, since reading makes up no character (`count_readValues_le`).
-/

namespace CommandLine.Config

open Text (isBlank trimChars)

variable {value cs body : List Char} {values : List (List Char)} {c q : Char}
  {word : Option (List Char)}

/-! ## Words, one character at a time -/

theorem wordsFrom_quote (hc : isQuote c = true) :
    wordsFrom none word (c :: cs) = wordsFrom (some c) (some (word.getD [])) cs := by
  simp [wordsFrom, hc]

theorem wordsFrom_blank (hc : isQuote c = false) (hblank : isBlank c = true) :
    wordsFrom none word (c :: cs) = word.toList ++ words cs := by
  simp [wordsFrom, words, hc, hblank]

theorem wordsFrom_plain (hc : isQuote c = false) (hblank : isBlank c = false) :
    wordsFrom none word (c :: cs) = wordsFrom none (some (word.getD [] ++ [c])) cs := by
  simp [wordsFrom, hc, hblank]

theorem wordsFrom_close : wordsFrom (some q) word (q :: cs) = wordsFrom none word cs := by
  simp [wordsFrom]

theorem wordsFrom_inside (hc : c ≠ q) :
    wordsFrom (some q) word (c :: cs) = wordsFrom (some q) (some (word.getD [] ++ [c])) cs := by
  simp [wordsFrom, hc]

/-- What is read next does not depend on what has been read of the value. -/
theorem wordsFrom_append (openQuote : Option Char) (cs begun word : List Char) :
    wordsFrom openQuote (some (begun ++ word)) cs =
      (wordsFrom openQuote (some word) cs).modifyHead (begun ++ ·) := by
  induction cs generalizing openQuote word with
  | nil => rfl
  | cons c cs ih =>
      cases openQuote with
      | some q =>
          by_cases hc : c = q
          · subst hc
            rw [wordsFrom_close, wordsFrom_close, ih]
          · rw [wordsFrom_inside hc, wordsFrom_inside hc, Option.getD_some, Option.getD_some,
              List.append_assoc, ih]
      | none =>
          cases hc : isQuote c with
          | true =>
              rw [wordsFrom_quote hc, wordsFrom_quote hc, Option.getD_some, Option.getD_some, ih]
          | false =>
              cases hblank : isBlank c with
              | true => rw [wordsFrom_blank hc hblank, wordsFrom_blank hc hblank]; rfl
              | false =>
                  rw [wordsFrom_plain hc hblank, wordsFrom_plain hc hblank, Option.getD_some,
                    Option.getD_some, List.append_assoc, ih]

/-- Another beginning of a value changes nothing about how it goes on. -/
theorem wordsFrom_of_begun {begun more : List Char}
    (h : wordsFrom none (some begun) cs = (begun ++ more) :: values) (word : List Char) :
    wordsFrom none (some word) cs = (word ++ more) :: values := by
  have hbegun := wordsFrom_append none cs begun []
  have hword := wordsFrom_append none cs word []
  rw [List.append_nil] at hbegun hword
  rw [hbegun] at h
  cases hfrom : wordsFrom none (some []) cs with
  | nil => simp [hfrom] at h
  | cons first rest =>
      rw [hfrom, List.modifyHead_cons, List.cons.injEq, List.append_cancel_left_eq] at h
      rw [hword, hfrom, List.modifyHead_cons, h.1, h.2]

/-! ## Counting quotes -/

def quotes (cs : List Char) : Nat := cs.countP isQuote

@[simp] theorem quotes_nil : quotes [] = 0 := rfl

@[simp] theorem quotes_cons (c : Char) (cs : List Char) :
    quotes (c :: cs) = quotes cs + if isQuote c then 1 else 0 :=
  List.countP_cons

@[simp] theorem quotes_append (cs more : List Char) :
    quotes (cs ++ more) = quotes cs + quotes more :=
  List.countP_append

theorem quotes_quoteValue (value : List Char) :
    quotes (quoteValue value) = quotes value + if needsQuotes value then 2 else 0 := by
  rcases quoteValue_cases value with ⟨q, hq, hneeds, -, heq⟩ | ⟨hbare, heq⟩
  · simp [heq, hneeds, hq]
  · simp [heq, hbare]

/-- How many quotes it takes to write the values. -/
def price (values : List (List Char)) : Nat :=
  (values.map fun value => quotes (quoteValue value)).sum

@[simp] theorem price_nil : price [] = 0 := rfl

@[simp] theorem price_cons (value : List Char) (values : List (List Char)) :
    price (value :: values) = quotes (quoteValue value) + price values := rfl

@[simp] theorem price_append (values more : List (List Char)) :
    price (values ++ more) = price values + price more := by
  simp [price]

/-- The blank in front of further values is no quote. -/
theorem quotes_separated (values : List (List Char)) :
    quotes (if values.isEmpty then [] else ' ' :: writeValues values) =
      quotes (writeValues values) := by
  have hblank : isQuote ' ' = false := by decide
  cases values with
  | nil => rfl
  | cons value values => simp [hblank]

theorem quotes_writeValues (values : List (List Char)) :
    quotes (writeValues values) = price values := by
  induction values with
  | nil => rfl
  | cons value values ih =>
      rw [writeValues_cons, quotes_append, quotes_separated, price_cons, ih]

theorem price_toList (word : Option (List Char)) :
    quotes (word.getD []) ≤ price word.toList ∧ price word.toList ≤ quotes (word.getD []) + 2 := by
  cases word with
  | none => simp
  | some word =>
      have hword := quotes_quoteValue word
      simp only [Option.getD_some, Option.toList_some, price_cons, price_nil]
      split at hword <;> omega

/-- A character that needs no quotes does not raise the price. -/
theorem price_concat_le (word : Option (List Char)) (hc : isQuote c = false)
    (hblank : isBlank c = false) :
    price [word.getD [] ++ [c]] ≤ price word.toList := by
  have hnew := quotes_quoteValue (word.getD [] ++ [c])
  rw [quotes_append, quotes_cons, quotes_nil, hc, if_neg Bool.false_ne_true] at hnew
  cases word with
  | none =>
      have hbare : needsQuotes [c] = false :=
        needsQuotes_eq_false.mpr ⟨List.cons_ne_nil _ _, by simp [hc, hblank]⟩
      simpa [hbare] using hnew
  | some word =>
      have hold := quotes_quoteValue word
      have hbare : needsQuotes word = false → needsQuotes (word ++ [c]) = false := fun hword =>
        needsQuotes_eq_false.mpr ⟨by simp, List.forall_mem_append.mpr
          ⟨(needsQuotes_eq_false.mp hword).2, by simp [hc, hblank]⟩⟩
      rw [Option.getD_some] at hnew
      simp only [Option.getD_some, Option.toList_some, price_cons, price_nil]
      cases hword : needsQuotes word with
      | false =>
          rw [hword, if_neg Bool.false_ne_true] at hold
          rw [hbare hword, if_neg Bool.false_ne_true] at hnew
          omega
      | true =>
          rw [hword, if_pos rfl] at hold
          split at hnew <;> omega

/-- The quotes in a text pay for the values that are read from it, but for one if the text ends
between quotes. There the quotes around the value that has begun are paid for already. -/
theorem price_wordsFrom (cs : List Char) :
    (∀ word, price (wordsFrom none word cs) ≤ quotes cs + price word.toList + 1) ∧
      ∀ q word, isQuote q = true →
        price (wordsFrom (some q) word cs) ≤ quotes cs + quotes (word.getD []) + 2 := by
  induction cs with
  | nil =>
      refine ⟨fun word => by simp [wordsFrom], fun q word _ => ?_⟩
      have := (price_toList word).2
      simp only [wordsFrom, quotes_nil]
      omega
  | cons c cs ih =>
      obtain ⟨hnone, hsome⟩ := ih
      refine ⟨fun word => ?_, fun q word hq => ?_⟩
      · cases hc : isQuote c with
        | true =>
            have hopen := hsome c (some (word.getD [])) hc
            have := (price_toList word).1
            rw [wordsFrom_quote hc, quotes_cons, hc, if_pos rfl]
            rw [Option.getD_some] at hopen
            omega
        | false =>
            rw [quotes_cons, hc, if_neg Bool.false_ne_true, Nat.add_zero]
            cases hblank : isBlank c with
            | true =>
                have hrest := hnone none
                rw [Option.toList_none, price_nil] at hrest
                rw [wordsFrom_blank hc hblank, price_append, words]
                omega
            | false =>
                have hplain := hnone (some (word.getD [] ++ [c]))
                have := price_concat_le word hc hblank
                rw [Option.toList_some] at hplain
                rw [wordsFrom_plain hc hblank]
                omega
      · by_cases hcq : c = q
        · subst hcq
          have hclosed := hnone word
          have := (price_toList word).2
          rw [wordsFrom_close, quotes_cons, hq, if_pos rfl]
          omega
        · have hinside := hsome q (some (word.getD [] ++ [c])) hq
          rw [Option.getD_some, quotes_append, quotes_cons, quotes_nil] at hinside
          rw [wordsFrom_inside hcq, quotes_cons]
          omega

/-! ## Quotable values -/

/-- A value that is not quotable contains the quotes that are put around it. -/
theorem exists_quote_of_not_quotable (h : ¬Quotable value) :
    ∃ q before after, isQuote q = true ∧ q ∉ before ∧ value = before ++ q :: after ∧
      quoteValue value = q :: value ++ [q] := by
  obtain ⟨q, hq, hneeds, hin, heq⟩ := (quoteValue_cases value).resolve_right fun hbare =>
    h fun hdouble => absurd ((needsQuotes_eq_false.mp hbare.1).2 _ hdouble).1 (by decide)
  obtain ⟨before, after, hvalue, hbefore⟩ := List.eq_append_cons_of_mem (of_not_not (mt hin.mpr h))
  exact ⟨q, before, after, hq, hbefore, hvalue, heq⟩

/-- The quotes around a value that contains them end before the value does. -/
theorem words_writeValues_of_not_quotable (h : ¬Quotable value) (values : List (List Char)) :
    words (writeValues (value :: values)) ≠ value :: values := by
  intro hwords
  obtain ⟨q, before, after, hq, hbefore, rfl, heq⟩ := exists_quote_of_not_quotable h
  obtain ⟨tail, hline, htail⟩ : ∃ tail,
      writeValues ((before ++ q :: after) :: values) =
        q :: (before ++ q :: (after ++ q :: tail)) ∧ quotes tail = price values := by
    refine ⟨_, ?_, (quotes_separated values).trans (quotes_writeValues values)⟩
    rw [writeValues_cons, heq]
    simp
  have hread : wordsFrom none (some before) (after ++ q :: tail) =
      (before ++ q :: after) :: values := by
    rw [← hwords, hline, words, wordsFrom_quote hq, Option.getD_none, wordsFrom_quoted hbefore,
      List.nil_append]
  -- Any letter can stand for what was read before: it costs no quotes.
  have hletter := wordsFrom_of_begun hread ['x']
  have hprice := (price_wordsFrom (after ++ q :: tail)).1 (some ['x'])
  have hfirst := quotes_quoteValue ('x' :: q :: after)
  have hneeds : needsQuotes ('x' :: q :: after) = true := by simp [needsQuotes, hq]
  have hx : price [['x']] = 0 := by decide
  rw [hneeds, if_pos rfl, quotes_cons, quotes_cons, hq, if_pos rfl] at hfirst
  rw [hletter, List.singleton_append, price_cons, quotes_append, quotes_cons, hq, if_pos rfl, htail,
    Option.toList_some, hx] at hprice
  omega

/-- Values that are read again do not contain the quotes that are put around them. -/
theorem quotable_of_words (h : words (writeValues values) = values) :
    ∀ value ∈ values, Quotable value := by
  induction values with
  | nil => exact fun _ hvalue => absurd hvalue List.not_mem_nil
  | cons value values ih =>
      have hvalue : Quotable value :=
        by_contra fun hbad => words_writeValues_of_not_quotable hbad values h
      rw [words_writeValues_cons hvalue] at h
      exact List.forall_mem_cons.mpr ⟨hvalue, ih (List.cons.inj h).2⟩

/-! ## Listed values -/

theorem flatten_wordsFrom_sublist (openQuote : Option Char) (word : Option (List Char))
    (cs : List Char) : (wordsFrom openQuote word cs).flatten.Sublist (word.getD [] ++ cs) := by
  induction cs generalizing openQuote word with
  | nil => cases word <;> simp [wordsFrom]
  | cons c cs ih =>
      have hskip : (word.getD [] ++ cs).Sublist (word.getD [] ++ c :: cs) :=
        (List.sublist_cons_self c cs).append_left _
      cases openQuote with
      | some q =>
          by_cases hc : c = q
          · subst hc
            rw [wordsFrom_close]
            exact (ih none word).trans hskip
          · rw [wordsFrom_inside hc]
            simpa using ih (some q) (some (word.getD [] ++ [c]))
      | none =>
          cases hc : isQuote c with
          | true =>
              rw [wordsFrom_quote hc]
              exact (ih (some c) (some (word.getD []))).trans hskip
          | false =>
              cases hblank : isBlank c with
              | true =>
                  rw [wordsFrom_blank hc hblank, List.flatten_append]
                  refine List.Sublist.append ?_ ((ih none none).trans (List.sublist_cons_self c cs))
                  cases word <;> simp
              | false =>
                  rw [wordsFrom_plain hc hblank]
                  simpa using ih none (some (word.getD [] ++ [c]))

theorem trimChars_sublist (cs : List Char) : (trimChars cs).Sublist cs := by
  have hstart : ∀ cs, (Text.trimStart cs).Sublist cs := fun _ => List.dropWhile_sublist _
  have hend : (Text.trimEnd (Text.trimStart cs)).Sublist (Text.trimStart cs) := by
    rw [Text.trimEnd_eq]
    simpa using (hstart (Text.trimStart cs).reverse).reverse
  exact hend.trans (hstart cs)

theorem flatten_sublist_intercalate (sep : List Char) (parts : List (List Char)) :
    parts.flatten.Sublist (sep.intercalate parts) := by
  induction parts with
  | nil => exact List.Sublist.refl _
  | cons part parts ih =>
      cases parts with
      | nil => simp
      | cons next more =>
          rw [List.flatten_cons, List.intercalate_cons_cons, List.append_assoc]
          exact (ih.trans (List.sublist_append_right _ _)).append_left part

theorem flatten_listEntries_sublist (body : List Char) :
    (listEntries body).flatten.Sublist body := by
  have hsplit := flatten_sublist_intercalate [','] (body.splitOn ',')
  rw [List.intercalate_splitOn] at hsplit
  have htrim : ((body.splitOn ',').map trimChars).flatten.Sublist (body.splitOn ',').flatten := by
    simpa [List.flatMap_def] using
      List.Sublist.flatMap_right (body.splitOn ',') fun part _ => trimChars_sublist part
  exact (List.filter_sublist.flatten.trans htrim).trans hsplit

theorem flatten_flatMap_readValues_sublist {entries : List (List Char)}
    (h : ∀ entry ∈ entries, (readValues entry).flatten.Sublist entry) :
    (entries.flatMap readValues).flatten.Sublist entries.flatten := by
  have hentries : (entries.flatMap fun entry => (readValues entry).flatten).Sublist
      (entries.flatMap fun entry => entry) := List.Sublist.flatMap_right entries h
  simpa [← List.flatMap_id, List.flatMap_assoc] using hentries

/-- Reading only leaves characters out. -/
theorem flatten_readValues_sublist (cs : List Char) : (readValues cs).flatten.Sublist cs := by
  induction cs using readValues.induct with
  | case1 cs body hbody ih =>
      have hentries := flatten_flatMap_readValues_sublist fun entry hentry => ih ⟨entry, hentry⟩
      have hbrackets : body.Sublist cs := by
        rw [bracketed?_eq_some_iff.mp hbody]
        exact (List.sublist_append_left body [']']).trans (List.sublist_cons_self _ _)
      rw [readValues_of_bracketed hbody]
      exact (hentries.trans (flatten_listEntries_sublist body)).trans hbrackets
  | case2 cs hnone =>
      rw [readValues_of_not_bracketed hnone]
      exact flatten_wordsFrom_sublist none none cs

theorem flatten_readValues_sublist_body (h : bracketed? cs = some body) :
    (readValues cs).flatten.Sublist body := by
  rw [readValues_of_bracketed h]
  exact (flatten_flatMap_readValues_sublist fun entry _ => flatten_readValues_sublist entry).trans
    (flatten_listEntries_sublist body)

theorem count_quoteValue (hc : isQuote c = false) : (quoteValue value).count c = value.count c := by
  rcases quoteValue_cases value with ⟨q, hq, -, -, heq⟩ | ⟨-, heq⟩ <;> rw [heq]
  have hne : q ≠ c := by
    rintro rfl
    rw [hc] at hq
    cases hq
  simp [hne]

theorem count_writeValues (values : List (List Char)) (hc : isQuote c = false)
    (hspace : c ≠ ' ') :
    (writeValues values).count c = values.flatten.count c := by
  induction values with
  | nil => rfl
  | cons value values ih =>
      rw [writeValues_cons, List.count_append, count_quoteValue hc, List.flatten_cons,
        List.count_append, ← ih]
      cases values with
      | nil => rfl
      | cons next more => simp [Ne.symm hspace]

/-- Reading takes away brackets that were values' own. -/
theorem readValues_writeValues_of_listed (h : Listed values) :
    readValues (writeValues values) ≠ values := by
  intro hread
  obtain ⟨body, hbody⟩ := bracketed?_writeValues.mpr h
  have hopens : isQuote '[' = false := by decide
  have hinner := (flatten_readValues_sublist_body hbody).count_le '['
  have houter := count_writeValues values hopens (by decide)
  rw [bracketed?_eq_some_iff.mp hbody, List.count_cons_self, List.count_append] at houter
  rw [hread] at hinner
  omega

/-! ## Values that are read again -/

/-- Values that share a line are read again if and only if none contains the quotes around it
and they do not look like a list in brackets together. -/
theorem readValues_writeValues_iff :
    readValues (writeValues values) = values ↔
      (∀ value ∈ values, Quotable value) ∧ ¬Listed values := by
  refine ⟨fun h => ?_, fun ⟨hquotable, hlisted⟩ => ?_⟩
  · have hlisted : ¬Listed values := fun hlisted => readValues_writeValues_of_listed hlisted h
    rw [readValues_of_not_listed hlisted] at h
    exact ⟨quotable_of_words h, hlisted⟩
  · rw [readValues_of_not_listed hlisted, words_writeValues hquotable]

/-- The same of the strings that an item holds. -/
theorem written_values_read_iff (inputs : List String) :
    (readValues (writeValues (inputs.map String.toList))).map String.ofList = inputs ↔
      (∀ input ∈ inputs, Quotable input.toList) ∧ ¬Listed (inputs.map String.toList) := by
  have hchars : ∀ read, read.map String.ofList = inputs ↔ read = inputs.map String.toList := by
    refine fun read => ⟨fun h => ?_, fun h => ?_⟩
    · rw [← h, List.map_map]
      simp
    · rw [h, List.map_map]
      simp
  rw [hchars, readValues_writeValues_iff, List.forall_mem_map]

/-- A value with a blank and double quotes loses the quotes: the first of them ends the stretch
that the quotes around the value have opened. -/
theorem inner_quotes_lost :
    ¬∀ inputs : List String, (∀ input ∈ inputs, '\n' ∉ input.toList) →
      (readValues (writeValues (inputs.map String.toList))).map String.ofList = inputs := by
  intro h
  have hread : readValues (writeValues ["a \"b\" c".toList]) = ["a b c".toList] := by cbv
  have hsame := h ["a \"b\" c"] (by decide)
  rw [List.map_singleton, hread] at hsame
  exact absurd hsame (by decide)

end CommandLine.Config
