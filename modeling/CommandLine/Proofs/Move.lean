import CommandLine.Scan.Read
import Mathlib.Data.List.Basic

/-!
# What one token does

`Move` lists what may come of a token when reading goes on: the state
after it and the tokens that are left, with what has been found out
about the token by then. `move_of_step` takes the reader's step apart
once. `Visits` are the states in between, and `read_invariant` carries a
property that every move keeps through the reading of a whole command
line. What holds of reading is shown move by move from here on, without
looking into the reader.
-/

namespace CommandLine

namespace Dashed

/-- The value that is written along with the name. -/
def value? : Dashed → Option String
  | .long _ value => value
  | .short _ attached => attachedValue? attached

/-- What is recorded for a flag of that name. -/
def flagValue : Dashed → String
  | .long _ value => value.getD ""
  | .short .. => ""

/-- What is still to be read once the name turned out to be a flag's. -/
def pushedBack : Dashed → List String
  | .long .. => []
  | .short _ attached => if attached.isEmpty then [] else [String.ofList ('-' :: attached)]

theorem suffix_of_attachedValue? {attached : List Char} {value : String}
    (h : attachedValue? attached = some value) : value.toList <:+ attached := by
  unfold attachedValue? at h
  split at h
  · cases h
  · next behind =>
      cases h
      rw [String.toList_ofList]
      exact List.suffix_cons '=' behind
  · cases h
    exact ⟨[], String.toList_ofList ..⟩

/-- What stands behind the name is an end of the token, without its dash. -/
theorem suffix_of_value? {token : List Char} {name : Dashed} {value : String}
    (h : ofChars? token = some name) (hvalue : name.value? = some value) :
    ∃ body, token = '-' :: body ∧ value.toList <:+ body := by
  unfold ofChars? at h
  split at h
  · next c rest =>
      split at h
      · cases h
        refine ⟨'-' :: c :: rest, rfl, ?_⟩
        unfold ofLongBody at hvalue
        split at hvalue
        · next before behind hcut =>
            cases hvalue
            rw [Text.eq_append_of_cutAt hcut, String.toList_ofList]
            exact ⟨'-' :: (before ++ ['=']), by simp⟩
        · cases hvalue
      · cases h
  · next c rest _ =>
      split at h
      · cases h
        exact ⟨c :: rest, rfl,
          (suffix_of_attachedValue? hvalue).trans (List.suffix_cons c rest)⟩
      · cases h
  · cases h

/-- A dashed token starts with a dash. -/
theorem exists_of_ofChars? {token : List Char} {name : Dashed} (h : ofChars? token = some name) :
    ∃ body, token = '-' :: body := by
  unfold ofChars? at h
  split at h
  · exact ⟨_, rfl⟩
  · exact ⟨_, rfl⟩
  · cases h

end Dashed

namespace Schema

variable {schema : Schema} {scan after : Scan} {text : String} {rest left : List String}

/-- The parameter that a dashed name means in a command. -/
def meant? (schema : Schema) (c : CommandId) : Dashed → Option Parameter
  | .long name _ => schema.longFrom? c name
  | .short name _ => schema.shortFrom? c name

/-- What comes of the token `text` and the tokens behind it, where reading goes on. -/
inductive Move (schema : Schema) (scan : Scan) (text : String) (rest : List String) :
    Scan → List String → Prop
  | mark (htoken : schema.token scan text = .mark) :
      Move schema scan text rest { scan with positionalOnly := true } rest
  | enter {child : CommandId} (htoken : schema.token scan text = .subcommand child) :
      Move schema scan text rest (scan.enter child) rest
  | flag {name : Dashed} {p : Parameter} (htoken : schema.token scan text = .dashed name)
      (hp : schema.meant? scan.current.command name = some p) (hflag : p.nargs.isFlag = true) :
      Move schema scan text rest (scan.record p.id [name.flagValue]) (name.pushedBack ++ rest)
  | values {name : Dashed} {p : Parameter} {taken left : List String}
      (htoken : schema.token scan text = .dashed name)
      (hp : schema.meant? scan.current.command name = some p) (hflag : p.nargs.isFlag = false)
      (hrest : rest = taken ++ left)
      (hsize : ∀ n, p.nargs.capacity = some n → (name.value?.toList ++ taken).length = n)
      (hplain : p.nargs.capacity = none → ∀ t ∈ taken, schema.isPlain scan t = true) :
      Move schema scan text rest (scan.record p.id (name.value?.toList ++ taken)) left
  | aside {name : Dashed} (htoken : schema.token scan text = .dashed name)
      (hp : schema.meant? scan.current.command name = none)
      (hsetting : (schema.reader scan).settings.prefixCommand = false) :
      Move schema scan text rest (scan.addMissing [text]) rest
  /-- Only `prefixCommand` ends the reading: at an unknown name or a value too many. -/
  | stop (hsetting : (schema.reader scan).settings.prefixCommand = true)
      (hcause : (∃ name, schema.token scan text = .dashed name ∧
          schema.meant? scan.current.command name = none) ∨
        schema.token scan text = .plain ∧ schema.isFull scan = true) :
      Move schema scan text rest (scan.addMissing (text :: rest)) []
  | wait (htoken : schema.token scan text = .plain)
      (hroom : (schema.reader scan).settings.prefixCommand = false ∨ schema.isFull scan = false) :
      Move schema scan text rest (scan.addPending text) rest

/-! ## Telling tokens apart -/

theorem eq_of_token_mark (h : schema.token scan text = .mark) : text = positionalMark := by
  unfold token at h
  split at h
  · cases h
  · split at h
    · next hmark => exact hmark
    · split at h
      · cases h
      · split at h <;> cases h

theorem child?_of_token {child : CommandId} (h : schema.token scan text = .subcommand child) :
    schema.child? scan.current.command text = some child := by
  unfold token at h
  split at h
  · cases h
  · split at h
    · cases h
    · split at h
      · next hchild =>
          cases h
          exact hchild
      · split at h <;> cases h

theorem ofChars?_of_token {name : Dashed} (h : schema.token scan text = .dashed name) :
    Dashed.ofChars? text.toList = some name := by
  unfold token at h
  split at h
  · cases h
  · split at h
    · cases h
    · split at h
      · cases h
      · split at h
        · next hread =>
            cases h
            exact hread
        · cases h

/-- A token that can be taken apart is read as dashed, unless it is a sub-command's name. -/
theorem token_of_ofChars? {name : Dashed} (hmark : scan.positionalOnly = false)
    (hchild : schema.child? scan.current.command text = none)
    (h : Dashed.ofChars? text.toList = some name) : schema.token scan text = .dashed name := by
  have hne : text ≠ positionalMark := by
    rintro rfl
    cases h
  simp only [token, hmark, hne, hchild, h, Bool.false_eq_true, if_false]

/-! ## Taking a step apart -/

theorem mention_of_isFlag {p : Parameter} {first : Option String} (hflag : p.nargs.isFlag = true) :
    schema.mention scan p first rest = .next (scan.record p.id [first.getD ""]) rest := by
  have hnargs : p.nargs = .exactly 0 := of_decide_eq_true hflag
  simp only [mention, hnargs, Nargs.capacity]

/-- A mention takes its values from the tokens behind it: a given number of them, or
as many as are plain. -/
theorem eq_of_mention {p : Parameter} {first : Option String} (hflag : p.nargs.isFlag = false)
    (h : schema.mention scan p first rest = .next after left) :
    ∃ taken, rest = taken ++ left ∧ after = scan.record p.id (first.toList ++ taken) ∧
      (∀ n, p.nargs.capacity = some n → (first.toList ++ taken).length = n) ∧
      (p.nargs.capacity = none → ∀ t ∈ taken, schema.isPlain scan t = true) := by
  unfold mention at h
  split at h
  · next hcapacity =>
      have hnargs : p.nargs = .exactly 0 := by
        cases hkind : p.nargs <;> simp_all [Nargs.capacity]
      simp [Nargs.isFlag, hnargs] at hflag
  · next n hzero hcapacity =>
      dsimp only at h
      split at h
      · cases h
      · next hlen =>
          cases h
          refine ⟨_, (List.take_append_drop _ rest).symm, rfl, ?_, fun hnone => ?_⟩
          · intro m hm
            obtain rfl : n = m := Option.some.inj (hcapacity.symm.trans hm)
            have hn : n ≠ 0 := hzero
            have hone : first.toList.length ≤ 1 := by cases first <;> simp
            simp only [List.length_append, List.length_take] at hlen ⊢
            omega
          · rw [hcapacity] at hnone
            cases hnone
  · next hcapacity =>
      cases h
      refine ⟨_, List.takeWhile_append_dropWhile.symm, rfl, fun n hn => ?_, fun _ t ht => ?_⟩
      · rw [hcapacity] at hn
        cases hn
      · exact List.all_eq_true.mp List.all_takeWhile t ht

theorem move_of_mention {name : Dashed} {p : Parameter}
    (htoken : schema.token scan text = .dashed name)
    (hp : schema.meant? scan.current.command name = some p) (hflag : p.nargs.isFlag = false)
    (h : schema.mention scan p name.value? rest = .next after left) :
    Move schema scan text rest after left := by
  obtain ⟨taken, hrest, rfl, hsize, hplain⟩ := eq_of_mention hflag h
  exact .values htoken hp hflag hrest hsize hplain

theorem move_of_setAside {name : Dashed} (htoken : schema.token scan text = .dashed name)
    (hp : schema.meant? scan.current.command name = none)
    (h : schema.setAside scan text rest = .next after left) :
    Move schema scan text rest after left := by
  unfold setAside at h
  split at h
  · next hsetting =>
      cases h
      exact .stop hsetting (Or.inl ⟨name, htoken, hp⟩)
  · next hsetting =>
      cases h
      exact .aside htoken hp (by simpa using hsetting)

theorem move_of_step (h : schema.step scan text rest = .next after left) :
    Move schema scan text rest after left := by
  unfold step at h
  split at h
  · next htoken =>
      cases h
      exact .mark htoken
  · next child htoken =>
      cases h
      exact .enter htoken
  · next name value htoken =>
      split at h
      · next p hp =>
          cases hflag : p.nargs.isFlag with
          | true =>
              rw [mention_of_isFlag hflag] at h
              cases h
              exact Move.flag htoken hp hflag
          | false => exact move_of_mention htoken hp hflag h
      · next hp => exact move_of_setAside htoken hp h
  · next name attached htoken =>
      split at h
      · next p hp =>
          unfold mentionShort at h
          split at h
          · next hflag =>
              have hback : (Dashed.short name attached).pushedBack ++ rest =
                  if attached.isEmpty then rest
                  else String.ofList ('-' :: attached) :: rest := by
                cases attached <;> rfl
              cases h
              rw [← hback]
              exact Move.flag htoken hp hflag
          · next hflag => exact move_of_mention htoken hp (by simpa using hflag) h
      · next hp => exact move_of_setAside htoken hp h
  · next htoken =>
      split at h
      · next hfull =>
          cases h
          rw [Bool.and_eq_true] at hfull
          exact .stop hfull.1 (Or.inr ⟨htoken, hfull.2⟩)
      · next hroom =>
          cases h
          rw [Bool.and_eq_true, not_and_or, Bool.not_eq_true, Bool.not_eq_true] at hroom
          exact .wait htoken hroom

/-! ## Reading -/

theorem read_nil : schema.read scan [] = ⟨scan, [], none⟩ := by
  rw [read]

theorem read_of_next (h : schema.step scan text rest = .next after left) :
    schema.read scan (text :: rest) = schema.read after left := by
  rw [read]
  split
  · next hnext =>
      cases h.symm.trans hnext
      rfl
  · next hstuck => cases h.symm.trans hstuck

theorem read_of_stuck {error : ParseError}
    (h : schema.step scan text rest = .stuck error left) :
    schema.read scan (text :: rest) = ⟨scan, left, some error⟩ := by
  rw [read]
  split
  · next hnext => cases h.symm.trans hnext
  · next hstuck =>
      cases h.symm.trans hstuck
      rfl

/-- Reading comes to the state `s` with the tokens `left` still to be read. -/
inductive Visits (schema : Schema) (scan : Scan) (tokens : List String) :
    Scan → List String → Prop
  | start : Visits schema scan tokens scan tokens
  | next {s after : Scan} {text : String} {rest left : List String}
      (h : Visits schema scan tokens s (text :: rest))
      (hstep : schema.step s text rest = .next after left) : Visits schema scan tokens after left

namespace Visits

variable {s : Scan} {tokens : List String}

theorem read_eq (h : schema.Visits scan tokens s left) :
    schema.read scan tokens = schema.read s left := by
  induction h with
  | start => rfl
  | next _ hstep ih => rw [ih, read_of_next hstep]

/-- It comes to the state where it ends, with nothing left unless it failed. -/
theorem exists_read {s : Scan} {left : List String} (h : schema.Visits scan tokens s left) :
    ∃ unread, schema.Visits scan tokens (schema.read scan tokens).scan unread ∧
      ((schema.read scan tokens).failure = none → unread = []) := by
  match left with
  | [] =>
      rw [h.read_eq, read_nil]
      exact ⟨[], h, fun _ => rfl⟩
  | text :: rest =>
      match hstep : schema.step s text rest with
      | .next after left =>
          have hlt : weight left < weight (text :: rest) := weight_lt_of_step hstep
          exact (h.next hstep).exists_read
      | .stuck error left =>
          rw [h.read_eq, read_of_stuck hstep]
          exact ⟨text :: rest, h, fun hnone => by cases hnone⟩
termination_by weight left

end Visits

/-- What every move keeps holds where reading ends, with nothing left unless it failed. -/
theorem read_invariant {motive : Scan → List String → Prop}
    (hmove : ∀ scan text rest after left, motive scan (text :: rest) →
      Move schema scan text rest after left → motive after left)
    {scan : Scan} {tokens : List String} (h : motive scan tokens) :
    ∃ unread, motive (schema.read scan tokens).scan unread ∧
      ((schema.read scan tokens).failure = none → unread = []) := by
  have hvisited : ∀ s left, schema.Visits scan tokens s left → motive s left := by
    intro s left hvisits
    induction hvisits with
    | start => exact h
    | next _ hstep ih => exact hmove _ _ _ _ _ ih (move_of_step hstep)
  obtain ⟨unread, hvisits, hunread⟩ := (@Visits.start schema scan tokens).exists_read
  exact ⟨unread, hvisited _ _ hvisits, hunread⟩

end Schema

end CommandLine
