/-!
# Wrapping words

Text is set into lines of a given width (`wrap`). A word goes on the
line as long as it fits there with a space before it, and on a new line
otherwise. A word that is wider than a line is cut into parts that end
in a hyphen (`breakWord`). Widths count characters.
-/

namespace CommandLine.Wrap

/-- The lines that a word fills alone, each ending in a hyphen, and what is left
of it. A width below two leaves no room for a hyphen, so that nothing is cut. -/
def breakWord (width : Nat) (word : List Char) : List (List Char) × List Char :=
  if _h : 2 ≤ width ∧ width < word.length then
    let (lines, rest) := breakWord width (word.drop (width - 1))
    ((word.take (width - 1) ++ ['-']) :: lines, rest)
  else ([], word)
termination_by word.length
decreasing_by
  rw [List.length_drop]
  omega

/-- The lines of the words, where `line` is the line that has been started. -/
def fill (width : Nat) (line : List Char) : List (List Char) → List (List Char)
  | [] => if line.isEmpty then [] else [line]
  | word :: rest =>
    let (cut, tail) := breakWord width word
    if line.isEmpty then cut ++ fill width tail rest
    else if line.length + word.length < width then fill width (line ++ ' ' :: word) rest
    else line :: cut ++ fill width tail rest

/-- The words of a paragraph: what stands between its spaces. -/
def paragraphWords (paragraph : List Char) : List (List Char) :=
  (paragraph.splitOn ' ').filter (!·.isEmpty)

/-- The lines of a paragraph. -/
def wrap (width : Nat) (paragraph : List Char) : List (List Char) :=
  fill width [] (paragraphWords paragraph)

end CommandLine.Wrap
