import CommandLine.Attempt
import CommandLine.FileStore
import CommandLine.Text.Lowercase
import CommandLine.Value

/-!
# Checks

A check looks at a value before it is converted; it accepts the value,
perhaps changed, or rejects it with a message. Any function will do
(`Check.apply`), also one that changes a value which it then rejects. The
usual ones, which do not, are here: checks for paths, for ranges and for
membership in a list, and changes of text.
-/

namespace CommandLine

/-- A check. It changes a value in its place, and may reject it with a message. -/
structure Check where
  apply : FileStore → Attempt String String

namespace Check

/-- The accepted value, or the message of its rejection. -/
def run (check : Check) (files : FileStore) (value : String) : Except String String :=
  match check.apply files value with
  | (accepted, .ok _) => .ok accepted
  | (_, .error message) => .error message

/-- A check that leaves a value which it rejects as it was. -/
def ofRun (f : FileStore → String → Except String String) : Check where
  apply files value :=
    match f files value with
    | .ok accepted => (accepted, .ok ())
    | .error message => (value, .error message)

section Run

variable {check : Check} {f : FileStore → String → Except String String} {files : FileStore}
  {value accepted message : String}

@[simp] theorem run_ofRun : (ofRun f).run files value = f files value := by
  simp only [run, ofRun]
  cases f files value <;> rfl

theorem run_eq_ok :
    check.run files value = .ok accepted ↔ check.apply files value = (accepted, .ok ()) := by
  unfold run
  rcases check.apply files value with ⟨left, fault | ⟨⟨⟩⟩⟩ <;> simp

theorem run_eq_error :
    check.run files value = .error message ↔
      ∃ left, check.apply files value = (left, .error message) := by
  unfold run
  rcases check.apply files value with ⟨left, fault | ⟨⟨⟩⟩⟩ <;> simp

end Run

/-- Accepts what is neither missing nor a directory. -/
def existingFile : Check :=
  ofRun fun files value =>
    if !files.exists? value then .error s!"File does not exist: {value}"
    else if files.isDirectory value then .error s!"File is actually a directory: {value}"
    else .ok value

def existingDirectory : Check :=
  ofRun fun files value =>
    if !files.exists? value then .error s!"Directory does not exist: {value}"
    else if !files.isDirectory value then .error s!"Directory is actually a file: {value}"
    else .ok value

def existingPath : Check :=
  ofRun fun files value =>
    if files.exists? value then .ok value else .error s!"Path does not exist: {value}"

def nonexistentPath : Check :=
  ofRun fun files value =>
    if files.exists? value then .error s!"Path already exists: {value}" else .ok value

/-- Accepts values from `min` to `max`. A text that is no value of the type is
accepted as well: to reject it is up to the conversion. -/
def range (type : ValueType) (min max : Value) : Check :=
  ofRun fun _ value =>
    match type.read? value with
    | some v =>
      if v.isBefore min || max.isBefore v then
        .error (s!"Value {value} not in range " ++ min.text ++ " to " ++ max.text)
      else .ok value
    | none => .ok value

/-- Accepts the members of a list and writes them as in the list. -/
def member (members : List String) (ignoreCase : Bool) : Check :=
  ofRun fun _ value =>
    let folded (text : String) := if ignoreCase then Text.lowercase text else text
    match members.find? (folded · == folded value) with
    | some found => .ok found
    | none => .error (s!"{value} not in \x7b" ++ ",".intercalate members ++ "\x7d")

/-- Accepts texts that start with the given one. -/
def startsWith (start : String) : Check :=
  ofRun fun _ value =>
    if start.toList.isPrefixOf value.toList then .ok value
    else .error s!"must start with '{start}'"

/-- Accepts every value and changes it. -/
def transform (f : String → String) : Check :=
  ofRun fun _ value => .ok (f value)

/-- Writes the text behind every value. -/
def append (ending : String) : Check := transform (· ++ ending)

/-- Writes ASCII letters in upper case. -/
def upper : Check := transform fun value => String.ofList (value.toList.map Char.toUpper)

/-- Writes every value backwards. -/
def reverse : Check := transform fun value => String.ofList value.toList.reverse

end Check

end CommandLine
