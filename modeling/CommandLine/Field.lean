import CommandLine.Error
import CommandLine.Nargs
import CommandLine.Value

/-!
# Bound variables

A parameter can be bound to a variable of the program, which a parse
then writes to. A `Field` is such a variable with its present content.
Values arrive as text (`Field.store`); a flag brings the sum of its
mentions instead (`Field.mentionTimes`).
-/

namespace CommandLine

/-- What holds the values of a collection. -/
inductive Container where
  /-- All values, in the order they came. -/
  | sequence
  /-- Each value once, in ascending order. -/
  | sorted
  deriving DecidableEq, Repr

/-- The ascending list with the value in its place, once. -/
def insertSorted (value : Value) : List Value → List Value
  | [] => [value]
  | v :: rest =>
    if value.isBefore v then value :: v :: rest
    else if v.isBefore value then v :: insertSorted value rest
    else v :: rest

/-- The contents with one more value. -/
def Container.insert (value : Value) (values : List Value) : Container → List Value
  | .sequence => values ++ [value]
  | .sorted => insertSorted value values

/-- A variable and its content. -/
inductive Field where
  /-- One value of the type. -/
  | scalar (type : ValueType) (value : Value)
  /-- One value of the type, or none yet. -/
  | optional (type : ValueType) (value : Option Value)
  /-- A value that becomes `target` when the flag is on. -/
  | switch (value target : Value)
  /-- A number of mentions. -/
  | counter (count : UInt64)
  /-- Any number of values, so many for each mention. -/
  | collection (type : ValueType) (container : Container) (nargs : Nargs) (values : List Value)
  deriving DecidableEq, Repr

namespace Field

/-- How many values the variable takes for each mention. -/
def nargs : Field → Nargs
  | scalar .. | optional .. => .exactly 1
  | switch .. | counter _ => .exactly 0
  | collection _ _ nargs _ => nargs

/-- Whether repeated mentions add up, rather than contradict each other. -/
def accumulates : Field → Bool
  | collection .. => true
  | _ => false

/-- Reads one more value. Flags have no place for text and stay as they are. -/
def store (text : String) : Field → Except ConversionFault Field
  | scalar type _ => (convert type).map (scalar type)
  | optional type _ => (convert type).map fun value => optional type (some value)
  | collection type container nargs values =>
    (convert type).map fun value =>
      collection type container nargs (container.insert value values)
  | flag => .ok flag
where
  convert (type : ValueType) : Except ConversionFault Value :=
    match type.read? text with
    | some value => .ok value
    | none => .error (.notOfType text type.name)

/-- The flag is mentioned once. -/
def mentionOnce : Field → Field
  | switch _ target => switch target target
  | counter count => counter (count + 1)
  | field => field

/-- The largest total of a counter's additions, which are done on 64 bits with a sign. -/
def counterLimit : Int := IntegerType.i64.max

/-- A count after `n` more: it stops at the limit above and at zero below. -/
def addToCount (count : UInt64) (n : Int) : UInt64 :=
  UInt64.ofNat (min (min (count.toNat : Int) counterLimit + n) counterLimit).toNat

/-- The mentions of the flag add up to `n`: a switch is on for a positive sum,
and a counter counts. -/
def mentionTimes (n : Int) : Field → Field
  | counter count => counter (addToCount count n)
  | field => if 0 < n then field.mentionOnce else field

end Field

end CommandLine
