import CommandLine.Text.Lowercase.Table

/-!
# Lower case

The lower-case form of a text under Unicode's default case conversion.
It works character by character (`lowerChar`), with one exception that
looks around: a capital sigma at the end of a word becomes the final
sigma. `endsWord` is that condition, and `lowercase` the conversion.
-/

namespace CommandLine.Text

namespace Lowercase

/-- Whether the code point lies in one of the ranges. -/
def inRanges (ranges : List (Nat × Nat)) (n : Nat) : Bool :=
  ranges.any fun (first, last) => first ≤ n && n ≤ last

/-- Whether the character has a case. -/
def isCased (c : Char) : Bool := inRanges casedRanges c.toNat

/-- Whether the character is passed over when looking for a letter's neighbours. -/
def isCaseIgnorable (c : Char) : Bool := inRanges caseIgnorableRanges c.toNat

/-- Whether the run holds the code point. -/
def CaseRun.holds (run : CaseRun) (n : Nat) : Bool :=
  run.first ≤ n && n ≤ run.last && (n - run.first) % run.step == 0

/-- The code point of the lower-case form, where that is one character. -/
def lowerCode (n : Nat) : Nat :=
  match lowerRuns.find? (·.holds n) with
  | some run => (n + run.shift).toNat
  | none => n

/-- The lower-case form of one character. The capital I with a dot is the
one letter whose form has two: a small i and a combining dot. -/
def lowerChar (c : Char) : List Char :=
  if c = '\u0130' then ['i', '\u0307'] else [Char.ofNat (lowerCode c.toNat)]

/-- Whether the nearest character that is not passed over has a case. -/
def reachesCased (cs : List Char) : Bool :=
  match cs.dropWhile isCaseIgnorable with
  | [] => false
  | c :: _ => isCased c

/-- Whether a letter between `before` (nearest first) and `after` is the
last of a word of more than one letter. -/
def endsWord (before after : List Char) : Bool :=
  reachesCased before && !reachesCased after

/-- The lower-case form of characters that follow `before` (nearest first). -/
def lowerAfter (before : List Char) : List Char → List Char
  | [] => []
  | c :: rest =>
    (if c = 'Σ' then [if endsWord before rest then 'ς' else 'σ'] else lowerChar c) ++
      lowerAfter (c :: before) rest

end Lowercase

/-- The lower-case form of a list of characters. -/
def lowercaseChars (cs : List Char) : List Char := Lowercase.lowerAfter [] cs

/-- The lower-case form of a text. -/
def lowercase (text : String) : String := String.ofList (lowercaseChars text.toList)

end CommandLine.Text
