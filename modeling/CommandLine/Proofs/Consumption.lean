import CommandLine.Proofs.Move

/-!
# How reading ends

Reading takes all tokens in, whether it ends well or not, and the one
thing that can go wrong is that a fixed number of values is asked for and
there are not so many tokens left (`Schema.read_ends`).

A token can also be read in two goes: its kind is found out first
(`Schema.kindOf`), and then it is taken off the tokens, looked up or cut
apart as its kind demands. Each of these could fail. That none of them
does is said by `Schema.consume_eq_read`: a reader that goes about it like
this and reports an internal failure where it is stuck (`Schema.consume`)
is the reader of command lines.
-/

namespace CommandLine

/-! ## What a reader can be stuck at -/

namespace Schema

variable {schema : Schema} {scan after : Scan} {text : String} {rest left tokens : List String}
  {error : ParseError}

/-- The token asks for more values than it has along with it and than there are tokens. -/
structure Starves (schema : Schema) (scan : Scan) (text : String) (rest : List String)
    (name : Dashed) (p : Parameter) (n : Nat) : Prop where
  token : schema.token scan text = .dashed name
  meant : schema.meant? scan.current.command name = some p
  nargs : p.nargs = .exactly n
  short : (name.value?.toList ++ rest).length < n

theorem stuck_of_mention {p : Parameter} {first : Option String}
    (h : schema.mention scan p first rest = .stuck error left) :
    left = [] ∧ ∃ n, p.nargs = .exactly n ∧ (first.toList ++ rest).length < n ∧
      error = .argumentMismatch p.label (.exactly n) (first.toList ++ rest).length := by
  unfold mention at h
  split at h
  · cases h
  · next n hzero hcapacity =>
      dsimp only at h
      split at h
      · next hless =>
          cases h
          have hone : first.toList.length ≤ 1 := by cases first <;> simp
          simp only [List.length_append, List.length_take] at hless
          have hall : rest.length ≤ n - first.toList.length := by omega
          refine ⟨List.drop_of_length_le hall, n, Nargs.capacity_eq_some.mp hcapacity, ?_, ?_⟩
          · simp only [List.length_append]
            omega
          · rw [List.take_of_length_le hall]
      · cases h
  · cases h

/-- A token that reading cannot go on from asks for too many values, and none are left. -/
theorem stuck_of_step (h : schema.step scan text rest = .stuck error left) :
    left = [] ∧ ∃ name p n, schema.Starves scan text rest name p n ∧
      error = .argumentMismatch p.label (.exactly n) (name.value?.toList ++ rest).length := by
  have hmention : ∀ {name : Dashed} {p : Parameter}, schema.token scan text = .dashed name →
      schema.meant? scan.current.command name = some p →
      schema.mention scan p name.value? rest = .stuck error left →
      left = [] ∧ ∃ name p n, schema.Starves scan text rest name p n ∧
        error = .argumentMismatch p.label (.exactly n) (name.value?.toList ++ rest).length := by
    intro name p htoken hp h
    obtain ⟨hleft, n, hnargs, hshort, herror⟩ := stuck_of_mention h
    exact ⟨hleft, name, p, n, ⟨htoken, hp, hnargs, hshort⟩, herror⟩
  unfold step at h
  split at h
  · cases h
  · cases h
  · next name value htoken =>
      split at h
      · next p hp => exact hmention htoken hp h
      · unfold setAside at h
        split at h <;> cases h
  · next name attached htoken =>
      split at h
      · next p hp =>
          unfold mentionShort at h
          split at h
          · cases h
          · exact hmention htoken hp h
      · unfold setAside at h
        split at h <;> cases h
  · split at h <;> cases h

/-- All tokens have been taken in when reading ends, and where it fails, its last token is one
that it cannot go on from. -/
theorem read_ends (schema : Schema) (scan : Scan) (tokens : List String) :
    (schema.read scan tokens).rest = [] ∧
      ∀ error, (schema.read scan tokens).failure = some error →
        ∃ text rest, schema.step (schema.read scan tokens).scan text rest = .stuck error [] := by
  match tokens with
  | [] =>
      rw [read_nil]
      exact ⟨rfl, fun error hnone => by cases hnone⟩
  | text :: rest =>
      match hstep : schema.step scan text rest with
      | .next after left =>
          have hlt : weight left < weight (text :: rest) := weight_lt_of_step hstep
          rw [read_of_next hstep]
          exact read_ends schema after left
      | .stuck error left =>
          obtain ⟨rfl, -⟩ := stuck_of_step hstep
          rw [read_of_stuck hstep]
          refine ⟨rfl, fun _ hfailure => ?_⟩
          cases hfailure
          exact ⟨text, rest, hstep⟩
termination_by weight tokens

end Schema

/-! ## Kinds of tokens -/

/-- What a token looks like, without what it says. -/
inductive TokenKind where
  | mark
  | subcommand
  | long
  | short
  | plain
  deriving DecidableEq, Repr

def Token.kind : Token → TokenKind
  | .mark => .mark
  | .subcommand _ => .subcommand
  | .dashed (.long ..) => .long
  | .dashed (.short ..) => .short
  | .plain => .plain

namespace Dashed

/-- Cuts `--name` or `--name=value` apart. -/
def splitLong? : List Char → Option (String × Option String)
  | '-' :: '-' :: c :: rest =>
    if canStartName c then
      some (match Text.cutAt '=' (c :: rest) with
        | some (name, value) => (String.ofList name, some (String.ofList value))
        | none => (String.ofList (c :: rest), none))
    else none
  | _ => none

/-- Cuts a short name off what is attached to it. -/
def splitShort? : List Char → Option (Char × List Char)
  | '-' :: c :: rest => if canStartName c then some (c, rest) else none
  | _ => none

/-- A dashed token is a long name or, if it is none, a short one. -/
theorem ofChars?_eq_split (token : List Char) :
    ofChars? token =
      ((splitLong? token).map fun parts => long parts.1 parts.2).or
        ((splitShort? token).map fun parts => short parts.1 parts.2) := by
  unfold ofChars?
  split
  · next c rest =>
      have hdash : canStartName '-' = false := by decide
      simp only [splitLong?, splitShort?, ofLongBody, hdash]
      split
      · cases Text.cutAt '=' (c :: rest) <;> rfl
      · rfl
  · next c rest hother =>
      have hlong : splitLong? ('-' :: c :: rest) = none := by
        unfold splitLong?
        split
        · next heq =>
            cases heq
            exact (hother _ _ rfl rfl).elim
        · rfl
      rw [hlong, splitShort?]
      split <;> rfl
  · next hlong hshort =>
      have hnoLong : splitLong? token = none := by
        unfold splitLong?
        split
        · exact (hlong _ _ rfl).elim
        · rfl
      have hnoShort : splitShort? token = none := by
        unfold splitShort?
        split
        · exact (hshort _ _ rfl).elim
        · rfl
      rw [hnoLong, hnoShort]
      rfl

theorem splitLong?_of_ofChars? {token : List Char} {name : String} {value : Option String}
    (h : ofChars? token = some (long name value)) : splitLong? token = some (name, value) := by
  rw [ofChars?_eq_split] at h
  cases hlong : splitLong? token with
  | some parts =>
      rw [hlong] at h
      cases h
      rfl
  | none => cases hshort : splitShort? token <;> rw [hlong, hshort] at h <;> cases h

theorem splitShort?_of_ofChars? {token attached : List Char} {name : Char}
    (h : ofChars? token = some (short name attached)) :
    splitShort? token = some (name, attached) := by
  rw [ofChars?_eq_split] at h
  cases hlong : splitLong? token with
  | some parts =>
      rw [hlong] at h
      cases h
  | none =>
      cases hshort : splitShort? token with
      | some parts =>
          rw [hlong, hshort] at h
          cases h
          rfl
      | none =>
          rw [hlong, hshort] at h
          cases h

end Dashed

namespace Schema

variable {schema : Schema} {scan : Scan} {text : String} {rest tokens : List String}

/-- Finds out the kind of a token, from within the innermost command. -/
def kindOf (schema : Schema) (scan : Scan) (text : String) : TokenKind :=
  if scan.positionalOnly then .plain
  else if text = positionalMark then .mark
  else if (schema.child? scan.current.command text).isSome then .subcommand
  else if (Dashed.splitLong? text.toList).isSome then .long
  else if (Dashed.splitShort? text.toList).isSome then .short
  else .plain

theorem kind_token (schema : Schema) (scan : Scan) (text : String) :
    (schema.token scan text).kind = schema.kindOf scan text := by
  unfold token kindOf
  split
  · rfl
  split
  · rfl
  cases schema.child? scan.current.command text with
  | some child => rfl
  | none =>
      rw [Dashed.ofChars?_eq_split]
      cases Dashed.splitLong? text.toList with
      | some parts => rfl
      | none => cases Dashed.splitShort? text.toList <;> rfl

theorem kindOf_eq_plain : schema.kindOf scan text = .plain ↔ schema.token scan text = .plain := by
  rw [← kind_token]
  cases schema.token scan text with
  | dashed name => cases name <;> simp [Token.kind]
  | mark | subcommand | plain => simp [Token.kind]

/-! ## Reading by kinds -/

/-- Takes the next token off. -/
def pop : List String → Except ParseError (String × List String)
  | [] => .error (.internal "the token stream ran out unexpectedly.")
  | text :: rest => .ok (text, rest)

theorem pop_eq_ok {tokens : List String} :
    pop tokens = .ok (text, rest) ↔ tokens = text :: rest := by
  cases tokens <;> simp [pop]

/-- Takes tokens off as long as the next one passes a test. -/
def popWhile (f : String → Bool) (tokens : List String) :
    Except ParseError (List String × List String) :=
  match tokens.head? with
  | none => .ok ([], tokens)
  | some next =>
    if f next then
      match h : pop tokens with
      | .error error => .error error
      | .ok (text, rest) =>
        have : rest.length < tokens.length := by
          rw [pop_eq_ok.mp h, List.length_cons]
          exact Nat.lt_succ_self _
        (popWhile f rest).map fun (taken, left) => (text :: taken, left)
    else .ok ([], tokens)
termination_by tokens.length

theorem popWhile_eq (f : String → Bool) (tokens : List String) :
    popWhile f tokens = .ok (tokens.takeWhile f, tokens.dropWhile f) := by
  induction tokens with
  | nil =>
      rw [popWhile]
      rfl
  | cons text rest ih =>
      rw [popWhile]
      cases hf : f text with
      | true => simp [hf, pop, ih, Except.map]
      | false => simp [hf]

/-- Binds values to a parameter; where there is no limit to them, tokens are taken off as long as
the next one is plain. -/
def bindValues (schema : Schema) (scan : Scan) (p : Parameter) (first : Option String)
    (rest : List String) : Step :=
  match p.nargs.capacity with
  | none =>
    match popWhile (fun text => schema.kindOf scan text = .plain) rest with
    | .error error => .stuck error rest
    | .ok (values, left) => .next (scan.record p.id (first.toList ++ values)) left
  | some _ => schema.mention scan p first rest

theorem bindValues_eq_mention (p : Parameter) (first : Option String) :
    schema.bindValues scan p first rest = schema.mention scan p first rest := by
  unfold bindValues
  cases hcapacity : p.nargs.capacity with
  | none =>
      have hplain : (fun text => decide (schema.kindOf scan text = .plain)) =
          schema.isPlain scan := by
        funext text
        simp only [isPlain, kindOf_eq_plain]
      simp only [popWhile_eq, hplain, mention, hcapacity]
  | some n => rfl

/-- Acts upon a token of which only the kind is known. What the kind promises is looked for once
more, and it would be an internal failure not to find it. -/
def act (schema : Schema) (scan : Scan) (kind : TokenKind) (text : String) (rest : List String) :
    Step :=
  match kind with
  | .mark => .next { scan with positionalOnly := true } rest
  | .subcommand =>
    match schema.child? scan.current.command text with
    | some child => .next (scan.enter child) rest
    | none =>
      let detail := s!"'{text}' was classified as a sub-command, but it does not exist."
      .stuck (.internal detail) rest
  | .long =>
    match Dashed.splitLong? text.toList with
    | some (name, value) =>
      match schema.longFrom? scan.current.command name with
      | some p => schema.bindValues scan p value rest
      | none => schema.setAside scan text rest
    | none =>
      let detail := s!"'{text}' was classified as a long option, but it cannot be split."
      .stuck (.internal detail) rest
  | .short =>
    match Dashed.splitShort? text.toList with
    | some (name, attached) =>
      match schema.shortFrom? scan.current.command name with
      | some p =>
        if p.nargs.isFlag then schema.mentionShort scan p attached rest
        else schema.bindValues scan p (attachedValue? attached) rest
      | none => schema.setAside scan text rest
    | none =>
      let detail := s!"'{text}' was classified as a short option, but it cannot be split."
      .stuck (.internal detail) rest
  | .plain =>
    if (schema.reader scan).settings.prefixCommand && schema.isFull scan then
      .next (scan.addMissing (text :: rest)) []
    else .next (scan.addPending text) rest

/-- What the kind of a token promises is there. -/
theorem act_kindOf (schema : Schema) (scan : Scan) (text : String) (rest : List String) :
    schema.act scan (schema.kindOf scan text) text rest = schema.step scan text rest := by
  rw [← kind_token, step]
  cases htoken : schema.token scan text with
  | mark => rfl
  | subcommand child => simp only [Token.kind, act, child?_of_token htoken]
  | dashed name =>
      have hread := ofChars?_of_token htoken
      cases name with
      | long name value =>
          have hsplit := Dashed.splitLong?_of_ofChars? hread
          cases hp : schema.longFrom? scan.current.command name with
          | none => simp only [Token.kind, act, hsplit, hp]
          | some p => simp only [Token.kind, act, hsplit, hp, bindValues_eq_mention]
      | short name attached =>
          have hsplit := Dashed.splitShort?_of_ofChars? hread
          cases hp : schema.shortFrom? scan.current.command name with
          | none => simp only [Token.kind, act, hsplit, hp]
          | some p =>
              simp only [Token.kind, act, hsplit, hp, bindValues_eq_mention, mentionShort]
              cases p.nargs.isFlag
              · rfl
              · rfl
  | plain => rfl

/-- Reads all tokens: the next one is looked at, taken off, and acted upon by its kind. -/
def consume (schema : Schema) (scan : Scan) (tokens : List String) : Reading :=
  match hnext : tokens.head? with
  | none => ⟨scan, tokens, none⟩
  | some next =>
    match hpop : pop tokens with
    | .error error => ⟨scan, tokens, some error⟩
    | .ok (text, rest) =>
      match hact : schema.act scan (schema.kindOf scan next) text rest with
      | .next after left =>
        have : weight left < weight tokens := by
          rw [pop_eq_ok.mp hpop] at hnext ⊢
          cases hnext
          exact weight_lt_of_step ((act_kindOf schema scan next rest).symm.trans hact)
        consume schema after left
      | .stuck error left => ⟨scan, left, some error⟩
termination_by weight tokens

theorem consume_nil : schema.consume scan [] = ⟨scan, [], none⟩ := by
  rw [consume]
  rfl

theorem consume_cons (schema : Schema) (scan : Scan) (text : String) (rest : List String) :
    schema.consume scan (text :: rest) =
      match schema.step scan text rest with
      | .next after left => schema.consume after left
      | .stuck error left => ⟨scan, left, some error⟩ := by
  rw [consume]
  split
  · next hnext => cases hnext
  · next hnext =>
      cases hnext
      split
      · next hpop => cases hpop
      · next hpop =>
          cases hpop
          -- What is left is the token itself, and the kind of it that was found out.
          split
          · next hact =>
              rw [act_kindOf] at hact
              simp only [hact]
          · next hact =>
              rw [act_kindOf] at hact
              simp only [hact]

/-- Nothing that the kinds of tokens promise is ever missing. -/
theorem consume_eq_read (schema : Schema) (scan : Scan) (tokens : List String) :
    schema.consume scan tokens = schema.read scan tokens := by
  match tokens with
  | [] => rw [read_nil, consume_nil]
  | text :: rest =>
      rw [consume_cons]
      match hstep : schema.step scan text rest with
      | .next after left =>
          have hlt : weight left < weight (text :: rest) := weight_lt_of_step hstep
          rw [read_of_next hstep]
          exact consume_eq_read schema after left
      | .stuck error left => rw [read_of_stuck hstep]
termination_by weight tokens

end Schema

end CommandLine
