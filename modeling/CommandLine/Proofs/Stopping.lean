import CommandLine.Proofs.CommandNames
import CommandLine.Proofs.Gathering

/-!
# Where a prefix command stops

A command with `prefixCommand` reads its tokens up to the first that it
has no use for, and keeps that one and all behind it as they are. This is
said by comparing two runs (`Schema.Stops`): the one on the whole command
line ends like the one on the tokens before the stop, except for the
tokens that were kept. The tokens are cut between two of them or within a
cluster of short flags (`Schema.Cut`), of which the leading flags have
been read.

Every move but the last is made in the shorter run too, for it looks no
further than the tokens it takes (`mention_replay`), and of a cluster only at
the first flag (`token_cluster`). So the induction is on the run, and each move
in front of the stop is put before both runs (`Stops.of_next`).
-/

namespace CommandLine

/-- A short name is a dash with a character behind it that may start a name. -/
theorem Dashed.ofChars?_eq_short {token attached : List Char} {name : Char} :
    ofChars? token = some (short name attached) ↔
      token = '-' :: name :: attached ∧ canStartName name = true := by
  constructor
  · intro h
    refine ⟨eq_of_ofChars?_short h, ?_⟩
    unfold ofChars? at h
    split at h
    · split at h
      · simp only [ofLongBody, Option.some.injEq] at h
        split at h <;> cases h
      · cases h
    · split at h
      · next hname =>
          cases h
          exact hname
      · cases h
    · cases h
  · rintro ⟨rfl, hname⟩
    have hdash := ne_dash_of_canStartName hname
    cases attached <;> simp [ofChars?, hdash, hname]

namespace Schema

variable {schema : Schema} {scan after : Scan} {c : CommandId} {text : String}
  {rest left tokens before later : List String}

/-! ## The two runs -/

/-- The character is the short name of a flag in the command. -/
def ReadsFlag (schema : Schema) (c : CommandId) (name : Char) : Prop :=
  canStartName name = true ∧ ∃ p, schema.shortFrom? c name = some p ∧ p.nargs.isFlag = true

/-- The tokens are cut in front of `text`, which stands between `before` and `later`. -/
inductive Cut (schema : Schema) (c : CommandId) (tokens before : List String) (text : String)
    (later : List String) : Prop
  | between (htokens : tokens = before ++ text :: later)
  /-- The token was a cluster, and the flags that it starts with are left before the cut. -/
  | within (front : List String) (flags : List Char) {more : List Char}
      (htokens : tokens = front ++ String.ofList ('-' :: (flags ++ more)) :: later)
      (hbefore : before = front ++ [String.ofList ('-' :: flags)])
      (htext : text = String.ofList ('-' :: more)) (hmore : more ≠ []) (hflags : flags ≠ [])
      (hread : ∀ name ∈ flags, schema.ReadsFlag c name)

/-- The command has no use for the token: an unknown name, or a value that there is no room for. -/
def Halts (schema : Schema) (scan : Scan) (text : String) : Prop :=
  (∃ name, schema.token scan text = .dashed name ∧
    schema.meant? scan.current.command name = none) ∨
  schema.token scan text = .plain ∧ schema.isFull scan = true

/-- Reading stops at `text`: on the tokens before it the reader comes to the same state within
the same command, and it keeps `text` and the tokens behind it and changes nothing else. -/
structure Stops (schema : Schema) (scan : Scan) (tokens before : List String) (text : String)
    (later : List String) : Prop where
  cut : schema.Cut scan.current.command tokens before text later
  reads : (schema.read scan before).failure = none
  command : (schema.read scan before).scan.current.command = scan.current.command
  missing : (schema.read scan before).scan.current.missing = scan.current.missing
  halts : schema.Halts (schema.read scan before).scan text
  read_eq : schema.read scan tokens =
    ⟨(schema.read scan before).scan.addMissing (text :: later), [], none⟩

/-! ## Cutting tokens -/

theorem Cut.prepend (h : schema.Cut c tokens before text later) (front : List String) :
    schema.Cut c (front ++ tokens) (front ++ before) text later := by
  cases h with
  | between htokens => exact .between (by rw [htokens, List.append_assoc])
  | within inner flags htokens hbefore htext hmore hflags hread =>
      exact .within (front ++ inner) flags (by rw [htokens, List.append_assoc])
        (by rw [hbefore, List.append_assoc]) htext hmore hflags hread

/-- The tokens before a cut start as all of them do, or with a short name. -/
theorem Cut.head_cases (h : schema.Cut c tokens before text later) :
    ∀ t ∈ before.head?, t ∈ tokens.head? ∨ ∃ name, Dashed.ofChars? t.toList = some name := by
  intro t ht
  cases h with
  | between htokens =>
      left
      obtain ⟨others, rfl⟩ := List.head?_eq_some_iff.mp ht
      simp [htokens]
  | within front flags htokens hbefore htext hmore hflags hread =>
      cases front with
      | cons first front =>
          left
          simp_all
      | nil =>
          right
          obtain ⟨name, others, rfl⟩ := List.exists_cons_of_ne_nil hflags
          simp only [hbefore, List.nil_append, List.head?_cons, Option.mem_some_iff] at ht
          rw [← ht, String.toList_ofList]
          exact ⟨_, Dashed.ofChars?_eq_short.mpr ⟨rfl, (hread name List.mem_cons_self).1⟩⟩

/-- A flag that was read is put back in front of what was attached to it. Where the cut lies in
that, it lies in the longer cluster, and else behind it. -/
theorem Cut.rejoin {name : Char} {attached : List Char} (hname : schema.ReadsFlag c name)
    (h : schema.Cut c ((Dashed.short name attached).pushedBack ++ rest) before text later) :
    ∃ part others, before = (Dashed.short name part).pushedBack ++ others ∧
      schema.Cut c (String.ofList ('-' :: name :: attached) :: rest)
        (String.ofList ('-' :: name :: part) :: others) text later := by
  cases attached with
  | nil => exact ⟨[], before, rfl, h.prepend [_]⟩
  | cons a attached =>
      cases h with
      | between htokens =>
          rcases List.cons_eq_append_iff.mp htokens with ⟨rfl, heq⟩ | ⟨others, rfl, rfl⟩
          · obtain ⟨rfl, rfl⟩ := List.cons_eq_cons.mp heq
            exact ⟨[], [], rfl, .within [] [name] rfl rfl rfl (List.cons_ne_nil _ _)
              (List.cons_ne_nil _ _) (by simpa using hname)⟩
          · exact ⟨a :: attached, others, rfl, .between rfl⟩
      | @within front flags more htokens hbefore htext hmore hflags hread =>
          cases front with
          | nil =>
              obtain ⟨heq, rfl⟩ := List.cons_eq_cons.mp htokens
              have hchars : a :: attached = flags ++ more :=
                (List.cons_eq_cons.mp (String.ofList_injective heq)).2
              refine ⟨flags, [], ?_, .within [] (name :: flags) ?_ rfl htext hmore
                (List.cons_ne_nil _ _) (List.forall_mem_cons.mpr ⟨hname, hread⟩)⟩
              · simp [hbefore, Dashed.pushedBack, hflags]
              · rw [hchars]
                rfl
          | cons first front =>
              obtain ⟨rfl, hrest⟩ := List.cons_eq_cons.mp htokens
              exact ⟨a :: attached, front ++ [String.ofList ('-' :: flags)], hbefore,
                .within (_ :: front) flags (congrArg _ hrest) rfl htext hmore hflags hread⟩

/-! ## One move in both runs -/

/-- A name that is known in the command is acted upon in one of two ways. -/
theorem step_of_meant {name : Dashed} {p : Parameter} (rest : List String)
    (htoken : schema.token scan text = .dashed name)
    (hp : schema.meant? scan.current.command name = some p) :
    schema.step scan text rest =
      if p.nargs.isFlag then .next (scan.record p.id [name.flagValue]) (name.pushedBack ++ rest)
      else schema.mention scan p name.value? rest := by
  cases name with
  | long name value =>
      have hlong : schema.longFrom? scan.current.command name = some p := hp
      simp only [step, htoken, hlong]
      split
      · next hflag => exact mention_of_isFlag hflag
      · rfl
  | short name attached =>
      have hshort : schema.shortFrom? scan.current.command name = some p := hp
      simp only [step, htoken, hshort, mentionShort]
      split
      · cases attached <;> rfl
      · rfl

/-- A mention takes the same values where other tokens stand behind them, unless it would take
the first of these too. -/
theorem mention_replay {p : Parameter} {first : Option String}
    (h : schema.mention scan p first rest = .next after left) :
    ∃ taken, rest = taken ++ left ∧ ∀ others : List String,
      (∀ t ∈ others.head?, t ∈ left.head? ∨ schema.isPlain scan t = false) →
      schema.mention scan p first (taken ++ others) = .next after others := by
  unfold mention at h ⊢
  split at h
  · next hcapacity =>
      cases h
      exact ⟨[], rfl, fun others _ => rfl⟩
  · next n _ hcapacity =>
      dsimp only at h
      split at h
      · cases h
      · next hlen =>
          cases h
          refine ⟨_, (List.take_append_drop _ rest).symm, fun others _ => ?_⟩
          have htaken : (rest.take (n - first.toList.length)).length =
              n - first.toList.length := by
            simp only [List.length_append, List.length_take] at hlen ⊢
            omega
          dsimp only
          rw [List.take_left' htaken, List.drop_left' htaken, if_neg hlen]
  · next hcapacity =>
      cases h
      refine ⟨_, List.takeWhile_append_dropWhile.symm, fun others hothers => ?_⟩
      have hall : ∀ t ∈ rest.takeWhile (schema.isPlain scan), schema.isPlain scan t = true :=
        fun t ht => List.all_eq_true.mp List.all_takeWhile t ht
      have hend : ∀ t ∈ others.head?, schema.isPlain scan t = false := by
        intro t ht
        rcases hothers t ht with hleft | hnot
        · have hfirst := List.head?_dropWhile_not (schema.isPlain scan) rest
          rw [Option.mem_def.mp hleft] at hfirst
          exact hfirst
        · exact hnot
      have hnone : others.takeWhile (schema.isPlain scan) = [] ∧
          others.dropWhile (schema.isPlain scan) = others := by
        cases others with
        | nil => exact ⟨rfl, rfl⟩
        | cons t others => simp [hend t rfl]
      rw [List.takeWhile_append_of_pos hall, List.dropWhile_append_of_pos hall, hnone.1, hnone.2,
        List.append_nil]

theorem positionalOnly_of_token (h : schema.token scan text ≠ .plain) :
    scan.positionalOnly = false := by
  by_contra hmark
  rw [Bool.not_eq_false] at hmark
  exact h (by rw [token, if_pos hmark])

theorem isPlain_of_ofChars? {name : Dashed} (hmark : scan.positionalOnly = false)
    (h : Dashed.ofChars? text.toList = some name) : schema.isPlain scan text = false := by
  simp only [isPlain, token, hmark, h, decide_eq_false_iff_not]
  split
  · simp_all
  · split
    · simp
    · split <;> simp

/-- A dash with a short name behind it is read as that, whatever is attached to it. -/
theorem token_short (hnames : schema.NamesChildren) (hmark : scan.positionalOnly = false)
    (hsetting : (schema.reader scan).settings.ignoreUnderscore = false) {name : Char}
    (hname : canStartName name = true) (attached : List Char) :
    schema.token scan (String.ofList ('-' :: name :: attached)) =
      .dashed (.short name attached) := by
  have hdash : (String.ofList ('-' :: name :: attached)).toList.head? = some '-' := by
    rw [String.toList_ofList]
    rfl
  refine token_of_ofChars? hmark (hnames.child?_eq_none hsetting hdash) ?_
  rw [String.toList_ofList]
  exact Dashed.ofChars?_eq_short.mpr ⟨rfl, hname⟩

/-- A cluster that starts with the same short name is read as one too. -/
theorem token_cluster (hnames : schema.NamesChildren)
    (hsetting : (schema.reader scan).settings.ignoreUnderscore = false) {name : Char}
    {attached : List Char} (htoken : schema.token scan text = .dashed (.short name attached))
    (part : List Char) :
    schema.token scan (String.ofList ('-' :: name :: part)) = .dashed (.short name part) :=
  token_short hnames (positionalOnly_of_token (by rw [htoken]; exact Token.noConfusion)) hsetting
    (Dashed.ofChars?_eq_short.mp (ofChars?_of_token htoken)).2 part

/-- A step after which the same command reads on. Up to any cut of what is left the shorter run can
start with the same step. -/
structure Continues (schema : Schema) (scan : Scan) (text : String) (rest : List String)
    (after : Scan) (left : List String) : Prop where
  command : after.current.command = scan.current.command
  missing : after.current.missing = scan.current.missing
  begins : ∀ before stop later, schema.Cut scan.current.command left before stop later →
    ∃ t others, schema.step scan t others = .next after before ∧
      schema.Cut scan.current.command (text :: rest) (t :: others) stop later

/-- With `prefixCommand` a step enters a sub-command, ends the reading, or lets the command read
on. -/
theorem step_cases (hnames : schema.NamesChildren)
    (hstopping : (schema.reader scan).settings.prefixCommand = true)
    (hsetting : (schema.reader scan).settings.ignoreUnderscore = false)
    (hstep : schema.step scan text rest = .next after left) :
    (∃ child, after = scan.enter child) ∨
      schema.Halts scan text ∧ after = scan.addMissing (text :: rest) ∧ left = [] ∨
      schema.Continues scan text rest after left := by
  cases move_of_step hstep with
  | enter => exact Or.inl ⟨_, rfl⟩
  | stop _ hcause => exact Or.inr (Or.inl ⟨hcause, rfl, rfl⟩)
  | aside _ _ hoff =>
      rw [hstopping] at hoff
      cases hoff
  | mark htoken =>
      refine Or.inr (Or.inr ⟨rfl, rfl, fun before stop later hcut => ?_⟩)
      exact ⟨text, before, by simp only [step, htoken], hcut.prepend [text]⟩
  | wait htoken hroom =>
      refine Or.inr (Or.inr ⟨rfl, rfl, fun before stop later hcut => ?_⟩)
      have hfull : schema.isFull scan = false := hroom.resolve_left (by rw [hstopping]; decide)
      exact ⟨text, before, by simp [step, htoken, hfull], hcut.prepend [text]⟩
  | @flag name p htoken hp hflag =>
      refine Or.inr (Or.inr ⟨rfl, rfl, fun before stop later hcut => ?_⟩)
      cases name with
      | long =>
          refine ⟨text, before, ?_, hcut.prepend [text]⟩
          rw [step_of_meant before htoken hp, if_pos hflag]
          rfl
      | short name attached =>
          have hname := Dashed.ofChars?_eq_short.mp (ofChars?_of_token htoken)
          obtain ⟨part, others, rfl, hjoined⟩ := hcut.rejoin ⟨hname.2, p, hp, hflag⟩
          rw [← hname.1, String.ofList_toList] at hjoined
          refine ⟨_, others, ?_, hjoined⟩
          rw [step_of_meant others (token_cluster hnames hsetting htoken part) hp, if_pos hflag]
          rfl
  | @values name p taken left htoken hp hflag hrest =>
      refine Or.inr (Or.inr ⟨rfl, rfl, fun before stop later hcut => ?_⟩)
      rw [step_of_meant rest htoken hp, if_neg (by rw [hflag]; decide)] at hstep
      obtain ⟨taken, rfl, hreplay⟩ := mention_replay hstep
      refine ⟨text, taken ++ before, ?_, hcut.prepend (text :: taken)⟩
      rw [step_of_meant _ htoken hp, if_neg (by rw [hflag]; decide)]
      refine hreplay before fun t ht => (hcut.head_cases t ht).imp_right ?_
      rintro ⟨other, hother⟩
      exact isPlain_of_ofChars?
        (positionalOnly_of_token (by rw [htoken]; exact Token.noConfusion)) hother

/-! ## The whole run -/

/-- A move in front of the stop is made in both runs. -/
theorem Stops.of_next {stop : String} (h : schema.Stops after left before stop later)
    (hstep : schema.step scan text rest = .next after left)
    (hgoes : schema.Continues scan text rest after left) :
    ∃ begun, schema.Stops scan (text :: rest) begun stop later := by
  have hcut := h.cut
  rw [hgoes.command] at hcut
  obtain ⟨t, others, hshort, hcut⟩ := hgoes.begins _ _ _ hcut
  refine ⟨t :: others, hcut, ?_, ?_, ?_, ?_, ?_⟩
  all_goals rw [read_of_next hshort]
  · exact h.reads
  · exact h.command.trans hgoes.command
  · exact h.missing.trans hgoes.missing
  · exact h.halts
  · rw [read_of_next hstep]
    exact h.read_eq

/-- The commands that were entered stay around those that are entered later. -/
theorem outer_suffix_read (schema : Schema) (scan : Scan) (tokens : List String) :
    scan.outer <:+ (schema.read scan tokens).scan.outer := by
  have hmove : ∀ before text rest after left, scan.outer <:+ before.outer →
      Move schema before text rest after left → scan.outer <:+ after.outer := by
    intro before text rest after left h hmove
    cases hmove with
    | enter => exact h.trans (List.suffix_cons _ _)
    | mark | flag | values | aside | stop | wait => exact h
  obtain ⟨-, hread, -⟩ := read_invariant (motive := fun after _ => scan.outer <:+ after.outer)
    hmove List.suffix_rfl
  exact hread

/-- Either reading stops in the command, or nothing becomes missing there. -/
theorem stops_or_keeps (hnames : schema.NamesChildren) (scan : Scan)
    (hstopping : (schema.reader scan).settings.prefixCommand = true)
    (hsetting : (schema.reader scan).settings.ignoreUnderscore = false) (tokens : List String) :
    (∃ before stop later, schema.Stops scan tokens before stop later) ∨
      ∃ frame ∈ (schema.read scan tokens).scan.frames,
        frame.command = scan.current.command ∧ frame.missing = scan.current.missing := by
  match tokens with
  | [] =>
      rw [read_nil]
      exact Or.inr ⟨scan.current, List.mem_cons_self, rfl, rfl⟩
  | text :: rest =>
      match hstep : schema.step scan text rest with
      | .stuck error left =>
          rw [read_of_stuck hstep]
          exact Or.inr ⟨scan.current, List.mem_cons_self, rfl, rfl⟩
      | .next after left =>
          have hlt : weight left < weight (text :: rest) := weight_lt_of_step hstep
          rcases step_cases hnames hstopping hsetting hstep with ⟨child, rfl⟩ | ⟨hhalts, rfl, rfl⟩ |
            hgoes
          · rw [read_of_next hstep]
            have hframes := outer_suffix_read schema (scan.enter child) left
            refine Or.inr ⟨scan.current, ?_, rfl, rfl⟩
            exact List.mem_cons_of_mem _ (hframes.subset List.mem_cons_self)
          · refine Or.inl ⟨[], text, rest, .between rfl, ?_, ?_, ?_, ?_, ?_⟩
            all_goals rw [read_nil]
            · exact hhalts
            · rw [read_of_next hstep, read_nil]
          · have hreader : schema.reader after = schema.reader scan := by
              rw [reader, hgoes.command, reader]
            rcases stops_or_keeps hnames after (hreader ▸ hstopping) (hreader ▸ hsetting) left with
              ⟨before, stop, later, hstops⟩ | ⟨frame, hframe, hcommand, hmissing⟩
            · obtain ⟨begun, hstops⟩ := hstops.of_next hstep hgoes
              exact Or.inl ⟨begun, stop, later, hstops⟩
            · rw [read_of_next hstep]
              exact Or.inr ⟨frame, hframe, hcommand.trans hgoes.command,
                hmissing.trans hgoes.missing⟩
termination_by weight tokens

end Schema

namespace Parser

/-- Where a command with `prefixCommand` that had nothing missing has something missing after its
tokens were read, reading has stopped there: what is missing are the token that stopped it and
all tokens behind that, and the rest of the state is the one that the tokens before lead to. -/
theorem Reachable.stops_verbatim {parser : Parser} (h : Reachable parser) {scan : Scan}
    (hpath : scan.Descends parser.schema)
    (hstopping : (parser.schema.reader scan).settings.prefixCommand = true)
    (hsetting : (parser.schema.reader scan).settings.ignoreUnderscore = false)
    (hempty : scan.current.missing = []) {tokens : List String} {frame : Frame}
    (hframe : frame ∈ (parser.schema.read scan tokens).scan.frames)
    (hcommand : frame.command = scan.current.command) (hmissing : frame.missing ≠ []) :
    ∃ before stop later, parser.schema.Stops scan tokens before stop later ∧
      frame.missing = stop :: later := by
  have hnodup := Schema.nodup_frames h.wellFormed
    (Schema.descends_read h.wellFormed hpath tokens)
  have hunique : ∀ other ∈ (parser.schema.read scan tokens).scan.frames,
      other.command = scan.current.command → frame = other := fun other hother heq =>
    List.inj_on_of_nodup_map hnodup hframe hother (hcommand.trans heq.symm)
  rcases Schema.stops_or_keeps h.namesChildren scan hstopping hsetting tokens with
    ⟨before, stop, later, hstops⟩ | ⟨other, hother, heq, hkept⟩
  · refine ⟨before, stop, later, hstops, ?_⟩
    have hlast := hunique (parser.schema.read scan tokens).scan.current List.mem_cons_self
    rw [hstops.read_eq] at hlast
    rw [hlast hstops.command]
    show (parser.schema.read scan before).scan.current.missing ++ stop :: later = stop :: later
    rw [hstops.missing, hempty, List.nil_append]
  · rw [hunique other hother heq, hkept] at hmissing
    exact absurd hempty hmissing

/-- A wrapper of other commands, with a flag and a sub-command of its own. -/
def wrappingCalls : List Call :=
  [.set .root .prefixCommand true, .add .root { names := "-v", binding := .values (.exactly 0) },
    .addSubcommand .root "run"]

/-- The flag in front of `x` is read, and neither the sub-command nor the flag behind. -/
theorem stops_verbatim_cluster :
    let schema := ((ofProgram "tool").afterAll wrappingCalls).schema
    let tokens := ["-vx", "run", "--", "-v"]
    (∃ before stop later, schema.Stops .start tokens before stop later ∧
        ["-x", "run", "--", "-v"] = stop :: later) ∧
      (schema.read .start tokens).scan.bindings.of ⟨1⟩ = [[""]] := by
  intro schema tokens
  have hreachable : Reachable ((ofProgram "tool").afterAll wrappingCalls) :=
    (reachable_ofProgram "tool").afterAll (by decide +kernel)
  have hmissing : (schema.read .start tokens).scan.current =
      { command := .root, missing := ["-x", "run", "--", "-v"] } := by decide +kernel
  have hlast : (schema.read .start tokens).scan.current ∈ (schema.read .start tokens).scan.frames :=
    List.mem_cons_self
  rw [hmissing] at hlast
  exact ⟨hreachable.stops_verbatim (Schema.descends_start hreachable.wellFormed)
    (by decide +kernel) (by decide +kernel) rfl hlast rfl (List.cons_ne_nil _ _), by decide +kernel⟩

end Parser

end CommandLine
