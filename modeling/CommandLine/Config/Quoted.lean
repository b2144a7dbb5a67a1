import CommandLine.Text.Blank

/-!
# Lists of values on one line

How several values share a line of a configuration file. Blanks separate
them, and quotes keep blanks in a value (`words`). A list in brackets
separates its values by commas (`readValues`). Writing, `quoteValue` puts
quotes around a value that needs them.
-/

namespace CommandLine.Config

open Text (isBlank trimChars)

/-- What stands between an opening bracket at the start and a closing one at
the end. -/
def bracketed? : List Char → Option (List Char)
  | '[' :: rest => if rest.getLast? = some ']' then some rest.dropLast else none
  | _ => none

/-- Whether the character opens a quoted stretch, which the same character ends. -/
def isQuote (c : Char) : Bool := c == '"' || c == '\''

/-- The values in the characters, given the quote that is open and the value
that has begun. Quotes belong to no value, yet a pair of them begins one. -/
def wordsFrom (openQuote : Option Char) (word : Option (List Char)) : List Char → List (List Char)
  | [] => word.toList
  | c :: rest =>
    match openQuote with
    | some q =>
      if c = q then wordsFrom none word rest
      else wordsFrom openQuote (some (word.getD [] ++ [c])) rest
    | none =>
      if isQuote c then wordsFrom (some c) (some (word.getD [])) rest
      else if isBlank c then word.toList ++ wordsFrom none none rest
      else wordsFrom none (some (word.getD [] ++ [c])) rest

/-- The values that blanks separate. -/
def words (cs : List Char) : List (List Char) := wordsFrom none none cs

/-- The entries of a list in brackets. -/
def listEntries (body : List Char) : List (List Char) :=
  ((body.splitOn ',').map trimChars).filter (!·.isEmpty)

theorem length_bracketed?_lt {cs body : List Char} (h : bracketed? cs = some body) :
    body.length < cs.length := by
  unfold bracketed? at h
  split at h
  · split at h
    · cases h
      simp only [List.length_dropLast, List.length_cons]
      omega
    · cases h
  · cases h

theorem length_dropWhile_le (p : Char → Bool) (cs : List Char) :
    (cs.dropWhile p).length ≤ cs.length :=
  (List.dropWhile_suffix p).length_le

theorem length_trimChars_le (cs : List Char) : (trimChars cs).length ≤ cs.length := by
  simp only [trimChars, Text.trimEnd, Text.trimStart, List.length_reverse]
  exact Nat.le_trans (length_dropWhile_le _ _)
    (by rw [List.length_reverse]; exact length_dropWhile_le _ _)

theorem length_le_intercalate (sep : List Char) {cs : List Char} {parts : List (List Char)}
    (h : cs ∈ parts) : cs.length ≤ (sep.intercalate parts).length := by
  induction parts with
  | nil => cases h
  | cons a rest ih =>
    match rest, h, ih with
    | [], h, _ => simp_all
    | b :: more, h, ih =>
      rw [List.intercalate_cons_cons]
      rcases List.mem_cons.mp h with rfl | h
      · simp
      · have := ih h
        simp only [List.length_append]
        omega

/-- An entry of a list is no longer than the list. -/
theorem length_le_of_mem_listEntries {cs body : List Char} (h : cs ∈ listEntries body) :
    cs.length ≤ body.length := by
  simp only [listEntries, List.mem_filter, List.mem_map] at h
  obtain ⟨⟨piece, hpiece, rfl⟩, -⟩ := h
  refine Nat.le_trans (length_trimChars_le piece) ?_
  have := length_le_intercalate [','] hpiece
  rwa [List.intercalate_splitOn] at this

/-- The values on a line. The entries of a list in brackets are such lines themselves. -/
def readValues (cs : List Char) : List (List Char) :=
  match _h : bracketed? cs with
  | some body => (listEntries body).attach.flatMap fun entry => readValues entry.val
  | none => words cs
termination_by cs.length
decreasing_by
  exact Nat.lt_of_le_of_lt (length_le_of_mem_listEntries entry.property)
    (length_bracketed?_lt (by assumption))

/-- The value as it is written, in double quotes if it has blanks or single
quotes, and in single quotes if it has double ones. -/
def quoteValue (value : List Char) : List Char :=
  if value.isEmpty || value.any (fun c => isBlank c || c == '\'') then
    '"' :: value ++ ['"']
  else if value.contains '"' then '\'' :: value ++ ['\'']
  else value

/-- The values on one line. -/
def writeValues (values : List (List Char)) : List Char := [' '].intercalate (values.map quoteValue)

end CommandLine.Config
