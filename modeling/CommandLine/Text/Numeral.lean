/-!
# Numerals

Reading whole numbers from text. A numeral is a non-empty run of ASCII
digits, with an optional sign in front (`integer?`); unsigned numerals
take a plus sign only. There are no separators and no blanks.
-/

namespace CommandLine.Text

/-- The value of an ASCII digit. -/
def digit? (c : Char) : Option Nat :=
  if '0' ≤ c ∧ c ≤ '9' then some (c.toNat - '0'.toNat) else none

/-- The number whose leading digits have the value `n` and whose further
digits are the characters. -/
def continueNumeral (n : Nat) : List Char → Option Nat
  | [] => some n
  | c :: rest => (digit? c).bind fun d => continueNumeral (10 * n + d) rest

/-- The value of a numeral without a sign. -/
def natural? : List Char → Option Nat
  | [] => none
  | c :: rest => continueNumeral 0 (c :: rest)

/-- The value of a numeral; only a signed one may start with a minus. -/
def integer? (signed : Bool) : List Char → Option Int
  | '+' :: rest => (natural? rest).map Int.ofNat
  | '-' :: rest => if signed then (natural? rest).map fun n => -Int.ofNat n else none
  | cs => (natural? cs).map Int.ofNat

end CommandLine.Text
