import CommandLine.Text.Numeral

/-!
# Values and their types

The types that a bound variable can have (`ValueType`), their values
(`Value`), how a value is read from text and written back, and the order
that sorts the values of one type.
-/

namespace CommandLine

/-- An integer type: a range of numbers. -/
structure IntegerType where
  name : String
  min : Int
  max : Int
  deriving DecidableEq, Repr

namespace IntegerType

/-- Whether there are negative numbers of the type. -/
def signed (type : IntegerType) : Bool := type.min < 0

/-- Whether the number is of the type. -/
def holds (type : IntegerType) (n : Int) : Bool := type.min ≤ n && n ≤ type.max

/-- Reads a numeral in the range of the type. -/
def read? (type : IntegerType) (cs : List Char) : Option Int :=
  (Text.integer? type.signed cs).filter type.holds

def u64 : IntegerType := ⟨"u64", 0, 18446744073709551615⟩

def i64 : IntegerType := ⟨"i64", -9223372036854775808, 9223372036854775807⟩

/-- The types by name. Sizes of memory have 64 bits. -/
def all : List IntegerType :=
  [⟨"u8", 0, 255⟩, ⟨"u16", 0, 65535⟩, ⟨"u32", 0, 4294967295⟩, u64,
    ⟨"u128", 0, 340282366920938463463374607431768211455⟩, { u64 with name := "usize" },
    ⟨"i8", -128, 127⟩, ⟨"i16", -32768, 32767⟩, ⟨"i32", -2147483648, 2147483647⟩, i64,
    ⟨"i128", -170141183460469231731687303715884105728,
      170141183460469231731687303715884105727⟩, { i64 with name := "isize" }]

end IntegerType

inductive ValueType where
  | string
  | bool
  | char
  | integer (type : IntegerType)
  deriving DecidableEq, Repr

inductive Value where
  | string (text : String)
  | bool (b : Bool)
  | char (c : Char)
  | integer (n : Int)
  deriving DecidableEq, Repr

namespace ValueType

/-- The name that messages use. -/
def name : ValueType → String
  | string => "String"
  | bool => "bool"
  | char => "char"
  | integer type => type.name

/-- The type of that name. -/
def ofName? (name : String) : Option ValueType :=
  ([string, bool, char] ++ IntegerType.all.map integer).find? (·.name == name)

/-- The value of a variable that was never set. -/
def zero : ValueType → Value
  | string => .string ""
  | bool => .bool false
  | char => .char '\x00'
  | integer _ => .integer 0

/-- Reads a value of the type. Any text is a string, a character is a text of
one code point, and the truth values are spelled in one way only. -/
def read? : ValueType → String → Option Value
  | string, text => some (.string text)
  | bool, text => if text = "true" then some (.bool true)
    else if text = "false" then some (.bool false) else none
  | char, text => match text.toList with
    | [c] => some (.char c)
    | _ => none
  | integer type, text => (type.read? text.toList).map .integer

end ValueType

namespace Value

/-- The text of a value, which reads back as the value. -/
def text : Value → String
  | string s => s
  | bool b => if b then "true" else "false"
  | char c => String.singleton c
  | integer n => toString n

/-- Whether the first value sorts before the second: numbers by size, texts by
code points. Values of two types are not ordered. -/
def isBefore : Value → Value → Bool
  | string a, string b => a < b
  | bool a, bool b => !a && b
  | char a, char b => a < b
  | integer a, integer b => a < b
  | _, _ => false

end Value

end CommandLine
