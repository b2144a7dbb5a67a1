import CommandLine.Dashed
import CommandLine.Scan.Basic

/-!
# Reading tokens

How the tokens of a command line are taken in, one after the other and
from the point of view of the innermost command (`Schema.read`). A token
is first told apart (`Schema.token`) and then acted upon
(`Schema.step`): it may enter a sub-command, mention a parameter, or wait
as a plain value. Mentioning a parameter takes values from the tokens
that follow, and a short flag gives back what is attached to it as a
token of its own. Either way the tokens get less (`Schema.weight_lt_of_step`),
so that reading ends.
-/

namespace CommandLine

/-- What a token is, in a given state. -/
inductive Token where
  /-- The mark that makes all further tokens plain values. -/
  | mark
  | subcommand (child : CommandId)
  | dashed (name : Dashed)
  | plain
  deriving DecidableEq, Repr

/-- What comes of one token. -/
inductive Step where
  /-- The state after it, and the tokens that are left. -/
  | next (scan : Scan) (rest : List String)
  /-- It asked for more values than there are. -/
  | stuck (error : ParseError) (rest : List String)

/-- What comes of all tokens: the last state, the tokens that were not read, and
the error that ended the reading, if one did. -/
structure Reading where
  scan : Scan
  rest : List String
  failure : Option ParseError

/-- The token behind which everything is a plain value. -/
def positionalMark : String := "--"

/-- The value that is attached to a short name, with or without an equals sign. -/
def attachedValue? : List Char → Option String
  | [] => none
  | '=' :: value => some (String.ofList value)
  | value => some (String.ofList value)

/-- How many more values fit into the parameters; no number if there is no limit.
Values that were bound by name take up room. -/
def Bindings.room (b : Bindings) : List Parameter → Option Nat
  | [] => some 0
  | p :: rest => do
    let capacity ← p.nargs.capacity
    let more ← b.room rest
    return (capacity - b.count p.id) + more

namespace Schema

/-- Tells a token apart, from within the innermost command. -/
def token (schema : Schema) (scan : Scan) (text : String) : Token :=
  if scan.positionalOnly then .plain
  else if text = positionalMark then .mark
  else match schema.child? scan.current.command text with
    | some child => .subcommand child
    | none => match Dashed.ofChars? text.toList with
      | some name => .dashed name
      | none => .plain

/-- Whether the token is a plain value. -/
def isPlain (schema : Schema) (scan : Scan) (text : String) : Bool :=
  schema.token scan text = .plain

/-- The command that reads the next token. -/
def reader (schema : Schema) (scan : Scan) : Command := schema.command scan.current.command

/-- Mentions a parameter, with the value written along with its name if there is
one. A fixed number of values is taken whatever they look like; an unlimited
number ends before the first token that is no plain value. -/
def mention (schema : Schema) (scan : Scan) (p : Parameter) (first : Option String)
    (rest : List String) : Step :=
  match p.nargs.capacity with
  | some 0 => .next (scan.record p.id [first.getD ""]) rest
  | some n =>
    let wanted := n - first.toList.length
    let values := first.toList ++ rest.take wanted
    if values.length < n then
      .stuck (.argumentMismatch p.label (.exactly n) values.length) (rest.drop wanted)
    else .next (scan.record p.id values) (rest.drop wanted)
  | none =>
    .next (scan.record p.id (first.toList ++ rest.takeWhile (schema.isPlain scan)))
      (rest.dropWhile (schema.isPlain scan))

/-- Puts a token aside that nothing was found for, and with `prefixCommand` all
the tokens behind it. -/
def setAside (schema : Schema) (scan : Scan) (text : String) (rest : List String) : Step :=
  if (schema.reader scan).settings.prefixCommand then .next (scan.addMissing (text :: rest)) []
  else .next (scan.addMissing [text]) rest

/-- Whether the waiting values leave no room for another one. -/
def isFull (schema : Schema) (scan : Scan) : Bool :=
  match scan.bindings.room (schema.reader scan).positionals with
  | some room => room ≤ scan.current.pending.length
  | none => false

/-- Mentions a parameter by a short name. What is attached to a flag is read as
further short names. -/
def mentionShort (schema : Schema) (scan : Scan) (p : Parameter) (attached : List Char)
    (rest : List String) : Step :=
  if p.nargs.isFlag then
    .next (scan.record p.id [""])
      (if attached.isEmpty then rest else String.ofList ('-' :: attached) :: rest)
  else schema.mention scan p (attachedValue? attached) rest

/-- Acts upon one token. -/
def step (schema : Schema) (scan : Scan) (text : String) (rest : List String) : Step :=
  match schema.token scan text with
  | .mark => .next { scan with positionalOnly := true } rest
  | .subcommand child => .next (scan.enter child) rest
  | .dashed (.long name value) =>
    match schema.longFrom? scan.current.command name with
    | some p => schema.mention scan p value rest
    | none => schema.setAside scan text rest
  | .dashed (.short name attached) =>
    match schema.shortFrom? scan.current.command name with
    | some p => schema.mentionShort scan p attached rest
    | none => schema.setAside scan text rest
  | .plain =>
    if (schema.reader scan).settings.prefixCommand && schema.isFull scan then
      .next (scan.addMissing (text :: rest)) []
    else .next (scan.addPending text) rest

/-! ## Reading ends -/

/-- The length of a token list, in characters and ends of tokens. -/
def weight : List String → Nat
  | [] => 0
  | t :: rest => t.toList.length + 1 + weight rest

@[simp] theorem weight_nil : weight [] = 0 := rfl

@[simp] theorem weight_cons (t : String) (tokens : List String) :
    weight (t :: tokens) = t.toList.length + 1 + weight tokens := rfl

theorem weight_drop_le (n : Nat) (tokens : List String) :
    weight (tokens.drop n) ≤ weight tokens := by
  induction tokens generalizing n with
  | nil => simp
  | cons t rest ih =>
    cases n with
    | zero => simp
    | succ n =>
      have := ih n
      simp only [List.drop_succ_cons, weight_cons]
      omega

theorem weight_dropWhile_le (f : String → Bool) (tokens : List String) :
    weight (tokens.dropWhile f) ≤ weight tokens := by
  induction tokens with
  | nil => simp
  | cons t rest ih =>
    rw [List.dropWhile_cons]
    split
    · simp only [weight_cons]
      omega
    · exact Nat.le_refl _

/-- A mention takes values from the tokens and adds none. -/
theorem weight_le_of_mention {schema : Schema} {scan after : Scan} {p : Parameter}
    {first : Option String} {rest left : List String}
    (h : schema.mention scan p first rest = .next after left) : weight left ≤ weight rest := by
  unfold mention at h
  split at h
  · cases h
    exact Nat.le_refl _
  · dsimp only at h
    split at h
    · cases h
    · cases h
      exact weight_drop_le _ _
  · cases h
    exact weight_dropWhile_le _ _

theorem weight_le_of_setAside {schema : Schema} {scan after : Scan} {text : String}
    {rest left : List String} (h : schema.setAside scan text rest = .next after left) :
    weight left ≤ weight rest := by
  unfold setAside at h
  split at h <;> cases h
  · simp
  · exact Nat.le_refl _

/-- A token that starts with a dash and a short name. -/
theorem toList_of_token_short {schema : Schema} {scan : Scan} {text : String} {name : Char}
    {attached : List Char} (h : schema.token scan text = .dashed (.short name attached)) :
    text.toList = '-' :: name :: attached := by
  unfold token at h
  split at h
  · cases h
  split at h
  · cases h
  split at h
  · cases h
  split at h
  · next name hread =>
    cases h
    exact Dashed.eq_of_ofChars?_short hread
  · cases h

/-- Acting upon a token leaves less to read. -/
theorem weight_lt_of_step {schema : Schema} {scan after : Scan} {text : String}
    {rest left : List String} (h : schema.step scan text rest = .next after left) :
    weight left < weight (text :: rest) := by
  rw [weight_cons]
  unfold step at h
  split at h
  · cases h
    omega
  · cases h
    omega
  · split at h
    · have := weight_le_of_mention h
      omega
    · have := weight_le_of_setAside h
      omega
  · next name attached htoken =>
    split at h
    · unfold mentionShort at h
      split at h
      · cases h
        rw [toList_of_token_short htoken]
        split
        · simp only [List.length_cons]
          omega
        · simp only [weight_cons, String.toList_ofList, List.length_cons]
          omega
      · have := weight_le_of_mention h
        omega
    · have := weight_le_of_setAside h
      omega
  · split at h <;> cases h
    · rw [weight_nil]
      omega
    · omega

/-- Reads all tokens, until there are none or one asks for too much. -/
def read (schema : Schema) (scan : Scan) (tokens : List String) : Reading :=
  match tokens with
  | [] => ⟨scan, [], none⟩
  | text :: rest =>
    match h : schema.step scan text rest with
    | .next after left =>
      have : weight left < weight (text :: rest) := weight_lt_of_step h
      read schema after left
    | .stuck error left => ⟨scan, left, some error⟩
termination_by weight tokens

end Schema

end CommandLine
