import CommandLine.Proofs.Marked
import CommandLine.Proofs.Spelling

/-!
# What is left of a cluster

Flags that share a dash are taken off one by one, and what is left of
their token is put back behind a dash and told apart like any other token.
So it need not be a short name again: a dash that is left makes the
mark (`Schema.marked_iff`), or the start of a long name
(`Schema.longsDashed_iff`). Clusters are read as short names only, in all
of the reading, exactly where neither happens
(`Parser.Reachable.shortsOnly_iff`).

A token that is read stands on the command line, or is what is left of a
cluster that does (`Schema.Visits.origin`). This is kept by every step,
since a flag is the only thing that puts a token back
(`Schema.Origin.pushedBack`).
-/

namespace CommandLine

theorem together_of_ne {names : List Char} (h : names ≠ []) :
    together names = [String.ofList ('-' :: names)] := by
  obtain ⟨name, names, rfl⟩ := List.exists_cons_of_ne_nil h
  rfl

theorem ofList_eq_positionalMark {body : List Char} :
    String.ofList ('-' :: body) = positionalMark ↔ body = ['-'] := by
  rw [← String.toList_inj, String.toList_ofList]
  simp [positionalMark]

theorem Dashed.prefix_of_ofChars?_long {token : List Char} {name : String} {value : Option String}
    (h : ofChars? token = some (.long name value)) : ['-', '-'] <+: token := by
  unfold ofChars? at h
  split at h
  · exact ⟨_, rfl⟩
  · split at h <;> cases h
  · cases h

namespace Schema

variable {schema : Schema} {scan s after : Scan} {tokens rest left : List String} {text : String}
  {flags more : List Char} {c : CommandId}

/-! ## Clusters -/

/-- In the state `s`, a token of the command line is read that starts with known flags, and `more`
is left of it. -/
structure Cluster (schema : Schema) (scan : Scan) (tokens : List String) (s : Scan)
    (flags more : List Char) (rest : List String) : Prop where
  visited : schema.Visits scan tokens s (String.ofList ('-' :: (flags ++ more)) :: rest)
  suffix : String.ofList ('-' :: (flags ++ more)) :: rest <:+ tokens
  unmarked : s.positionalOnly = false
  known : ∀ name ∈ flags, schema.ReadsFlag s.current.command name
  flags_ne : flags ≠ []
  more_ne : more ≠ []

theorem Cluster.extend {name : Char} (h : schema.Cluster scan tokens s flags (name :: more) rest)
    (hname : schema.ReadsFlag s.current.command name) (hmore : more ≠ []) :
    schema.Cluster scan tokens s (flags ++ [name]) more rest where
  visited := by simpa using h.visited
  suffix := by simpa using h.suffix
  unmarked := h.unmarked
  known := List.forall_mem_append.mpr ⟨h.known, List.forall_mem_singleton.mpr hname⟩
  flags_ne := List.append_ne_nil_of_left_ne_nil h.flags_ne _
  more_ne := hmore

/-- The next token stands on the command line, or is what is left of a cluster that does. -/
def Origin (schema : Schema) (scan : Scan) (tokens : List String) (s : Scan) (left : List String) :
    Prop :=
  left <:+ tokens ∨ ∃ first flags more rest, schema.Cluster scan tokens first flags more rest ∧
    left = String.ofList ('-' :: more) :: rest ∧ s.current.command = first.current.command

theorem Origin.suffix (h : schema.Origin scan tokens s (text :: rest)) : rest <:+ tokens := by
  rcases h with hsuffix | ⟨first, flags, more, _, hcluster, heq, -⟩
  · exact (List.suffix_cons text rest).trans hsuffix
  · cases heq
    exact (List.suffix_cons _ rest).trans hcluster.suffix

/-- What a flag leaves is left of a cluster, of which it is the first flag or one more. -/
theorem Origin.pushedBack (h : schema.Origin scan tokens s (text :: rest))
    (hvisits : schema.Visits scan tokens s (text :: rest)) {name : Char} {attached : List Char}
    (htoken : schema.token s text = .dashed (.short name attached))
    (hreads : schema.ReadsFlag s.current.command name) (hne : attached ≠ [])
    (hcommand : after.current.command = s.current.command) :
    schema.Origin scan tokens after (String.ofList ('-' :: attached) :: rest) := by
  have hchars := toList_of_token_short htoken
  right
  rcases h with hsuffix | ⟨first, flags, more, _, hcluster, heq, hfirst⟩
  · have hunmarked := positionalOnly_of_token (by rw [htoken]; exact nofun)
    rw [← String.ofList_toList (s := text), hchars] at hvisits hsuffix
    exact ⟨s, [name], attached, rest, ⟨hvisits, hsuffix, hunmarked,
      List.forall_mem_singleton.mpr hreads, List.cons_ne_nil _ _, hne⟩, rfl, hcommand⟩
  · obtain ⟨rfl, rfl⟩ := List.cons_eq_cons.mp heq
    rw [String.toList_ofList] at hchars
    obtain rfl : more = name :: attached := (List.cons_eq_cons.mp hchars).2
    exact ⟨first, flags ++ [name], attached, rest, hcluster.extend (hfirst ▸ hreads) hne, rfl,
      hcommand.trans hfirst⟩

theorem Visits.origin (h : schema.Visits scan tokens s left) :
    schema.Origin scan tokens s left := by
  induction h with
  | start => exact Or.inl List.suffix_rfl
  | next hvisits hstep ih =>
      cases move_of_step hstep with
      | mark | enter | aside | wait => exact Or.inl ih.suffix
      | stop => exact Or.inl List.nil_suffix
      | values _ _ _ htaken =>
          have hrest := ih.suffix
          rw [htaken] at hrest
          exact Or.inl ((List.suffix_append _ _).trans hrest)
      | @flag name p htoken hp hflag =>
          cases name with
          | long => exact Or.inl ih.suffix
          | short name attached =>
              have hname := (Dashed.ofChars?_eq_short.mp (ofChars?_of_token htoken)).2
              cases attached with
              | nil => exact Or.inl ih.suffix
              | cons a attached =>
                  exact ih.pushedBack hvisits htoken ⟨hname, p, hp, hflag⟩ (List.cons_ne_nil _ _)
                    rfl

/-! ## How a remainder is read -/

/-- Behind a dash the characters make a long name that is known in the command. -/
def ReadsLong (schema : Schema) (c : CommandId) (more : List Char) : Prop :=
  ∃ name value p, Dashed.ofChars? ('-' :: more) = some (.long name value) ∧
    schema.longFrom? c name = some p

/-- What is left of a cluster does not go on with a short name: it makes the mark, or a known long
name. -/
def Reopens (schema : Schema) (c : CommandId) (more : List Char) : Prop :=
  more = ['-'] ∨ schema.ReadsLong c more

/-- What a token is that starts with a dash, by what stands behind that: the mark, a name with
dashes or a plain value. -/
def dashToken (body : List Char) : Token :=
  if body = ['-'] then .mark
  else ((Dashed.ofChars? ('-' :: body)).map Token.dashed).getD .plain

/-- It is never the name of a sub-command. -/
theorem token_of_dash (hnames : schema.NamesChildren) (hmark : s.positionalOnly = false)
    (hsetting : (schema.reader s).settings.ignoreUnderscore = false) (body : List Char) :
    schema.token s (String.ofList ('-' :: body)) = dashToken body := by
  have hchild : schema.child? s.current.command (String.ofList ('-' :: body)) = none :=
    hnames.child?_eq_none hsetting (by rw [String.toList_ofList]; rfl)
  simp only [token, dashToken, hmark, ofList_eq_positionalMark, hchild, String.toList_ofList,
    Bool.false_eq_true, if_false]
  cases Dashed.ofChars? ('-' :: body) <;> rfl

/-- The state in which the remainder of a cluster is read, after its flags. -/
def switched (schema : Schema) (s : Scan) (flags : List Char) : Scan :=
  s.switch (flags.filterMap (schema.shortFrom? s.current.command))

theorem current_switch (s : Scan) (flags : List Parameter) :
    (s.switch flags).current = s.current := by
  induction flags generalizing s with
  | nil => rfl
  | cons p flags ih => exact ih (s.record p.id [""])

theorem positionalOnly_switch (s : Scan) (flags : List Parameter) :
    (s.switch flags).positionalOnly = s.positionalOnly := by
  induction flags generalizing s with
  | nil => rfl
  | cons p flags ih => exact ih (s.record p.id [""])

namespace Cluster

/-- Reading comes to what is left of a cluster. -/
theorem visits (h : schema.Cluster scan tokens s flags more rest) (hnames : schema.NamesChildren)
    (hsetting : (schema.reader s).settings.ignoreUnderscore = false) :
    schema.Visits scan tokens (schema.switched s flags) (String.ofList ('-' :: more) :: rest) := by
  have hvisits : schema.Visits scan tokens s (together (flags ++ more) ++ rest) := by
    rw [together_of_ne (List.append_ne_nil_of_left_ne_nil h.flags_ne _)]
    exact h.visited
  have hremainder := hvisits.together hnames h.unmarked hsetting h.known
  rwa [together_of_ne h.more_ne] at hremainder

theorem token_remainder (h : schema.Cluster scan tokens s flags more rest)
    (hnames : schema.NamesChildren)
    (hsetting : (schema.reader s).settings.ignoreUnderscore = false) :
    schema.token (schema.switched s flags) (String.ofList ('-' :: more)) = dashToken more := by
  refine token_of_dash hnames ?_ ?_ more
  · rw [switched, positionalOnly_switch, h.unmarked]
  · rwa [reader, switched, current_switch]

/-- The token that a cluster is read from has no two dashes in front. -/
theorem not_dashed (h : schema.Cluster scan tokens s flags more rest) :
    ¬['-', '-'] <+: '-' :: (flags ++ more) := by
  obtain ⟨name, flags, rfl⟩ := List.exists_cons_of_ne_nil h.flags_ne
  have hname := ne_dash_of_canStartName (h.known name List.mem_cons_self).1
  rintro ⟨body, heq⟩
  obtain ⟨-, hbody⟩ := List.cons_eq_cons.mp heq
  exact hname (List.cons_eq_cons.mp hbody).1.symm

end Cluster

/-! ## All of the reading -/

/-- The mark is read exactly where a cluster leaves a dash. -/
theorem marked_iff (hnames : schema.NamesChildren)
    (hsetting : ∀ s, (schema.reader s).settings.ignoreUnderscore = false)
    (hmark : scan.positionalOnly = false) (htokens : positionalMark ∉ tokens) :
    (schema.read scan tokens).scan.positionalOnly = true ↔
      ∃ s flags rest, schema.Cluster scan tokens s flags ['-'] rest := by
  constructor
  · intro hmarked
    have hvisited : ∀ s left, schema.Visits scan tokens s left → s.positionalOnly = true →
        ∃ s flags rest, schema.Cluster scan tokens s flags ['-'] rest := by
      intro s left hvisits
      induction hvisits with
      | start => exact fun hon => absurd hmark (by rw [hon]; decide)
      | next hvisits hstep ih =>
          cases move_of_step hstep with
          | enter | flag | values | aside | stop | wait => exact ih
          | mark htoken =>
              intro _
              rw [eq_of_token_mark htoken] at hvisits
              rcases hvisits.origin with hsuffix | ⟨first, flags, more, rest, hcluster, heq, -⟩
              · exact absurd (hsuffix.subset List.mem_cons_self) htokens
              · obtain rfl := ofList_eq_positionalMark.mp (List.cons_eq_cons.mp heq).1.symm
                exact ⟨first, flags, rest, hcluster⟩
    obtain ⟨unread, hvisits, -⟩ := (@Visits.start schema scan tokens).exists_read
    exact hvisited _ _ hvisits hmarked
  · rintro ⟨s, flags, rest, hcluster⟩
    have hunmarked : (schema.switched s flags).positionalOnly = false := by
      rw [switched, positionalOnly_switch, hcluster.unmarked]
    have hvisits := hcluster.visits hnames (hsetting s)
    obtain ⟨waiting, kept, -, -, hread⟩ := @read_plain schema
      { schema.switched s flags with positionalOnly := true } rfl rest
    rw [(hvisits.next (step_mark hunmarked rest)).read_eq, hread]

/-- Each known long name is read from a token that starts with two dashes on the command line. -/
def LongsDashed (schema : Schema) (scan : Scan) (tokens : List String) : Prop :=
  ∀ s text rest, schema.Visits scan tokens s (text :: rest) → ∀ name value p,
    schema.token s text = .dashed (.long name value) →
    schema.longFrom? s.current.command name = some p →
    ∃ input, input :: rest <:+ tokens ∧ ['-', '-'] <+: input.toList

theorem longsDashed_iff (hnames : schema.NamesChildren)
    (hsetting : ∀ s, (schema.reader s).settings.ignoreUnderscore = false) :
    schema.LongsDashed scan tokens ↔ ∀ s flags more rest,
      schema.Cluster scan tokens s flags more rest → ¬schema.ReadsLong s.current.command more := by
  constructor
  · rintro hdashed s flags more rest hcluster ⟨name, value, p, hchars, hp⟩
    have htoken := hcluster.token_remainder hnames (hsetting s)
    have hmore : more ≠ ['-'] := by
      rintro rfl
      cases hchars
    rw [dashToken, if_neg hmore, hchars] at htoken
    have hlong : schema.longFrom? (schema.switched s flags).current.command name = some p := by
      rwa [switched, current_switch]
    obtain ⟨input, hinput, hprefix⟩ :=
      hdashed _ _ _ (hcluster.visits hnames (hsetting s)) name value p htoken hlong
    -- The token in front of `rest` is the one that the cluster is read from.
    have hsame := (List.suffix_of_suffix_length_le hinput hcluster.suffix (by simp)).eq_of_length
      (by simp)
    rw [(List.cons_eq_cons.mp hsame).1, String.toList_ofList] at hprefix
    exact hcluster.not_dashed hprefix
  · intro hcloses s text rest hvisits name value p htoken hp
    have hchars := ofChars?_of_token htoken
    rcases hvisits.origin with hsuffix | ⟨first, flags, more, _, hcluster, heq, hcommand⟩
    · exact ⟨text, hsuffix, Dashed.prefix_of_ofChars?_long hchars⟩
    · obtain ⟨rfl, rfl⟩ := List.cons_eq_cons.mp heq
      rw [String.toList_ofList] at hchars
      exact absurd ⟨name, value, p, hchars, hcommand ▸ hp⟩ (hcloses _ _ _ _ hcluster)

/-- Clusters are read as short names only: none of them makes the mark, and long names are read
from tokens that start with two dashes on the command line. -/
structure ShortsOnly (schema : Schema) (scan : Scan) (tokens : List String) : Prop where
  unmarked : (schema.read scan tokens).scan.positionalOnly = false
  long : schema.LongsDashed scan tokens
  remainder : ∀ s flags more rest, schema.Cluster scan tokens s flags more rest →
    schema.token (schema.switched s flags) (String.ofList ('-' :: more)) ≠ .mark ∧
      ∀ name value, schema.token (schema.switched s flags) (String.ofList ('-' :: more)) =
          .dashed (.long name value) →
        schema.longFrom? s.current.command name = none

/-- What is left of a cluster, and goes on with a short name, is neither the mark nor a known long
name. -/
theorem remainder_of_closes (hcloses : ¬schema.Reopens c more) :
    schema.token s (String.ofList ('-' :: more)) ≠ .mark ∧
      ∀ name value, schema.token s (String.ofList ('-' :: more)) = .dashed (.long name value) →
        schema.longFrom? c name = none := by
  refine ⟨fun htoken => ?_, fun name value htoken => ?_⟩
  · exact hcloses (Or.inl (ofList_eq_positionalMark.mp (eq_of_token_mark htoken)))
  · have hchars := ofChars?_of_token htoken
    rw [String.toList_ofList] at hchars
    by_contra hp
    obtain ⟨p, hp⟩ := Option.ne_none_iff_exists'.mp hp
    exact hcloses (Or.inr ⟨name, value, p, hchars, hp⟩)

end Schema

namespace Parser

/-- Where no command passes over underscores and the mark is not on the command line, the mark is
read exactly if some cluster leaves a dash, and known long names from two dashes only exactly if
no cluster leaves one of them behind a dash. Without either, and only then, clusters are read as
short names only. What is left of a cluster is read behind its flags, as the mark or by what
follows its dash, and never enters a sub-command. -/
theorem Reachable.shortsOnly_iff {parser : Parser} (h : Reachable parser)
    (hsettings : ∀ c ∈ parser.schema.commandIds,
      (parser.schema.command c).settings.ignoreUnderscore = false)
    {scan : Scan} (hmark : scan.positionalOnly = false) {tokens : List String}
    (htokens : positionalMark ∉ tokens) :
    (parser.schema.ShortsOnly scan tokens ↔
      ∀ s flags more rest, parser.schema.Cluster scan tokens s flags more rest →
        ¬parser.schema.Reopens s.current.command more) ∧
    ((parser.schema.read scan tokens).scan.positionalOnly = true ↔
      ∃ s flags rest, parser.schema.Cluster scan tokens s flags ['-'] rest) ∧
    (parser.schema.LongsDashed scan tokens ↔
      ∀ s flags more rest, parser.schema.Cluster scan tokens s flags more rest →
        ¬parser.schema.ReadsLong s.current.command more) ∧
    ∀ s flags more rest, parser.schema.Cluster scan tokens s flags more rest →
      parser.schema.Visits scan tokens (parser.schema.switched s flags)
        (String.ofList ('-' :: more) :: rest) ∧
      parser.schema.token (parser.schema.switched s flags) (String.ofList ('-' :: more)) =
        Schema.dashToken more := by
  have hnames := h.namesChildren
  have hsetting : ∀ s, (parser.schema.reader s).settings.ignoreUnderscore = false := by
    intro s
    by_cases hissued : parser.schema.Issued s.current.command
    · exact hsettings _ (Schema.mem_commandIds.mpr hissued)
    · rw [Schema.reader, Schema.command_of_not_issued hissued]
  have hmarked := Schema.marked_iff hnames hsetting hmark htokens
  have hlong := @Schema.longsDashed_iff parser.schema scan tokens hnames hsetting
  refine ⟨⟨fun hshorts s flags more rest hcluster => ?_, fun hcloses => ⟨?_, ?_, ?_⟩⟩, hmarked,
    hlong, fun s flags more rest hcluster => ?_⟩
  · rintro (rfl | hreads)
    · cases hshorts.unmarked.symm.trans (hmarked.mpr ⟨s, flags, rest, hcluster⟩)
    · exact hlong.mp hshorts.long s flags more rest hcluster hreads
  · rw [← Bool.not_eq_true, hmarked]
    rintro ⟨s, flags, rest, hcluster⟩
    exact hcloses s flags _ rest hcluster (Or.inl rfl)
  · exact hlong.mpr fun s flags more rest hcluster hreads =>
      hcloses s flags more rest hcluster (Or.inr hreads)
  · exact fun s flags more rest hcluster =>
      Schema.remainder_of_closes (hcloses s flags more rest hcluster)
  · exact ⟨hcluster.visits hnames (hsetting s), hcluster.token_remainder hnames (hsetting s)⟩

/-- Two flags, and an option with a long name. -/
def dashedCalls : List Call :=
  [.add .root { names := "-v", binding := .values (.exactly 0) },
    .add .root { names := "-w", binding := .values (.exactly 0) },
    .add .root { names := "--foo", binding := .values (.exactly 1) }]

theorem reachable_dashedCalls : Reachable ((ofProgram "tool").afterAll dashedCalls) :=
  (reachable_ofProgram "tool").afterAll (by decide +kernel)

/-- The option is read from what is left behind the two flags, and takes the next token. -/
theorem shortsOnly_iff_long :
    let schema := ((ofProgram "tool").afterAll dashedCalls).schema
    let tokens := ["-vw-foo", "-v"]
    ¬schema.ShortsOnly .start tokens ∧
      schema.token (schema.switched .start ['v', 'w']) "--foo" = .dashed (.long "foo" none) ∧
      (schema.read .start tokens).scan.bindings.entries =
        [(⟨1⟩, [""]), (⟨2⟩, [""]), (⟨3⟩, ["-v"])] := by
  intro schema tokens
  have hcluster : schema.Cluster .start tokens .start ['v', 'w'] ['-', 'f', 'o', 'o'] ["-v"] := by
    refine ⟨.start, List.suffix_rfl, rfl, ?_, List.cons_ne_nil _ _, List.cons_ne_nil _ _⟩
    simp only [List.forall_mem_cons]
    exact ⟨⟨by decide, _, rfl, rfl⟩, ⟨by decide, _, rfl, rfl⟩,
      fun _ h => absurd h List.not_mem_nil⟩
  have hreopens : schema.Reopens .root ['-', 'f', 'o', 'o'] :=
    Or.inr ⟨"foo", none, _, by decide +kernel, rfl⟩
  obtain ⟨hshorts, -, -, hread⟩ := reachable_dashedCalls.shortsOnly_iff (by decide +kernel)
    (rfl : Scan.start.positionalOnly = false) (by decide : positionalMark ∉ tokens)
  obtain ⟨-, htoken⟩ := hread _ _ _ _ hcluster
  exact ⟨fun h => hshorts.mp h _ _ _ _ hcluster hreopens, htoken.trans (by decide +kernel),
    by decide +kernel⟩

/-- The dash that is left behind the flag makes the mark, though it is not on the command line. -/
theorem cluster_makes_mark :
    ¬∀ parser, Reachable parser →
      (∀ c ∈ parser.schema.commandIds,
        (parser.schema.command c).settings.ignoreUnderscore = false) →
      ∀ scan, scan.positionalOnly = false → ∀ tokens, positionalMark ∉ tokens →
      parser.schema.ShortsOnly scan tokens := by
  intro hclaim
  have hshorts := hclaim _ reachable_dashedCalls (by decide +kernel) .start rfl ["-v-", "-w"]
    (by decide)
  have hunmarked := hshorts.unmarked
  revert hunmarked
  decide +kernel

end Parser

end CommandLine
