import CommandLine.Names
import CommandLine.Text.Cut

/-!
# Dashed tokens

How a token that starts with a dash is taken apart: `--name` and
`--name=value` (`Dashed.long`), and `-n` with whatever is attached to it
(`Dashed.short`). `Dashed.ofChars?` fails on tokens that are plain
values in spite of their dash, such as `-` or `--=x`.
-/

namespace CommandLine

inductive Dashed where
  /-- A long name, and the value after the first equals sign if there is one. -/
  | long (name : String) (value : Option String)
  /-- A short name, and all that is attached to it. -/
  | short (name : Char) (attached : List Char)
  deriving DecidableEq, Repr

namespace Dashed

/-- Takes what follows two dashes apart. -/
def ofLongBody (body : List Char) : Dashed :=
  match Text.cutAt '=' body with
  | some (name, value) => .long (String.ofList name) (some (String.ofList value))
  | none => .long (String.ofList body) none

/-- Takes a token apart, if its dashes are followed by a name. -/
def ofChars? : List Char → Option Dashed
  | '-' :: '-' :: c :: rest => if canStartName c then some (ofLongBody (c :: rest)) else none
  | '-' :: c :: rest => if canStartName c then some (.short c rest) else none
  | _ => none

/-- A short name stands right behind the dash. -/
theorem eq_of_ofChars?_short {token attached : List Char} {name : Char}
    (h : ofChars? token = some (.short name attached)) : token = '-' :: name :: attached := by
  unfold ofChars? at h
  split at h
  · split at h
    · simp only [Option.some.injEq, ofLongBody] at h
      split at h <;> cases h
    · cases h
  · split at h
    · simp_all
    · cases h
  · cases h

end Dashed

end CommandLine
