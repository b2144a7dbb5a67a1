import CommandLine.Proofs.DeclaredNames
import CommandLine.Proofs.Lines
import CommandLine.Proofs.Stopping

/-!
# The same, written differently

A command line can be written in several ways. An option with one value
may be named by its short or its long name, and the value may stand in a
token of its own, behind an equals sign, or right behind the short name
(`Schema.Spells`); whatever the value looks like, it is bound alike
(`Parser.Reachable.read_spelling`). Short names of flags may share one dash
(`together`) or have a dash each (`Parser.Reachable.read_flags_together`).

Both rest on what one token does where it is read as dashed. That it is
not read as a sub-command needs an assumption only for the tokens without
an equals sign: there is none in a sub-command's name, however names are
folded.
-/

namespace CommandLine

namespace Schema

variable {schema : Schema} {scan : Scan} {text v : String} {name : Dashed} {p : Parameter}

/-! ## An option with one value -/

/-- The tokens are a way to give the value `v` to the option with the names `n` and `l`. -/
inductive Spells (schema : Schema) (c : CommandId) (n : Char) (l v : String) : List String → Prop
  | short (hchild : schema.child? c s!"-{n}" = none) : Spells schema c n l v [s!"-{n}", v]
  | shortEquals : Spells schema c n l v [s!"-{n}={v}"]
  | long (hchild : schema.child? c s!"--{l}" = none) : Spells schema c n l v [s!"--{l}", v]
  | longEquals : Spells schema c n l v [s!"--{l}={v}"]
  /-- An equals sign in front of the value would be taken for no part of it. -/
  | attached (hv : v ≠ "") (hequals : v.toList.head? ≠ some '=')
      (hchild : schema.child? c s!"-{n}{v}" = none) : Spells schema c n l v [s!"-{n}{v}"]

/-- The value written along with the name is the one that is bound. -/
theorem read_of_value? (htoken : schema.token scan text = .dashed name)
    (hp : schema.meant? scan.current.command name = some p) (hone : p.nargs = .exactly 1)
    (hvalue : name.value? = some v) (ts : List String) :
    schema.read scan (text :: ts) = schema.read (scan.record p.id [v]) ts := by
  refine read_of_next ?_
  rw [step_of_meant ts htoken hp, hvalue, if_neg (by simp [hone, Nargs.isFlag])]
  simp [mention, hone, Nargs.capacity]

/-- Without one the next token is bound, whatever it looks like. -/
theorem read_of_value?_eq_none (htoken : schema.token scan text = .dashed name)
    (hp : schema.meant? scan.current.command name = some p) (hone : p.nargs = .exactly 1)
    (hvalue : name.value? = none) (v : String) (ts : List String) :
    schema.read scan (text :: v :: ts) = schema.read (scan.record p.id [v]) ts := by
  refine read_of_next ?_
  rw [step_of_meant _ htoken hp, hvalue, if_neg (by simp [hone, Nargs.isFlag])]
  simp [mention, hone, Nargs.capacity]

end Schema

namespace Dashed

variable {name : List Char}

/-- A long name without an equals sign ends at the first one behind it. -/
theorem ofChars?_long_equals (value : List Char) (hname : name.head?.any canStartName = true)
    (hequals : '=' ∉ name) :
    ofChars? ('-' :: '-' :: (name ++ '=' :: value)) =
      some (.long (String.ofList name) (some (String.ofList value))) := by
  cases name with
  | nil => cases hname
  | cons c rest =>
      have hc : canStartName c = true := hname
      rw [List.cons_append, ofChars?, if_pos hc, ofLongBody, ← List.cons_append,
        Text.cutAt_append_cons hequals]

theorem ofChars?_long (hname : name.head?.any canStartName = true) (hequals : '=' ∉ name) :
    ofChars? ('-' :: '-' :: name) = some (.long (String.ofList name) none) := by
  cases name with
  | nil => cases hname
  | cons c rest =>
      have hc : canStartName c = true := hname
      rw [ofChars?, if_pos hc, ofLongBody, Text.cutAt_eq_none hequals]

/-- What is attached to a short name is the value itself, unless that is empty or starts with an
equals sign. -/
theorem attachedValue?_toList {v : String} (hv : v ≠ "") (hequals : v.toList.head? ≠ some '=') :
    attachedValue? v.toList = some v := by
  unfold attachedValue?
  split
  · next hnil => exact absurd (String.toList_eq_nil_iff.mp hnil) hv
  · next heq => simp [heq] at hequals
  · rw [String.ofList_toList]

end Dashed

namespace Parser

variable {parser : Parser} {scan : Scan} {c : CommandId} {p : Parameter}

/-- A long name that means a parameter holds no equals sign. -/
theorem Reachable.equals_not_mem_of_longFrom? (h : Reachable parser) {l : String}
    (hlong : parser.schema.longFrom? c l = some p) : '=' ∉ l.toList := by
  obtain ⟨d, -, hfound⟩ := List.exists_of_findSome?_eq_some hlong
  have hmem : p ∈ (parser.schema.command d).parameters := List.mem_of_find?_eq_some hfound
  have hanswers := List.find?_some (p := (parser.schema.command d).answers (.long l)) hfound
  obtain ⟨declared, hdeclared, hsame⟩ := List.any_eq_true.mp hanswers
  have hname : isName declared.toList = true :=
    (h.valid_parts d p hmem).2 (.long declared) (by simp [Names.parts, hdeclared])
  have hequals := equals_not_mem_of_isName hname
  rwa [← Settings.equals_mem_foldName (parser.schema.command d).settings, eq_of_beq hsame,
    Settings.equals_mem_foldName] at hequals

/-- However an option with one value is written, reading goes on from the state in which this
value has been bound to it, behind the tokens that were written. -/
theorem Reachable.read_spelling (h : Reachable parser) (hmark : scan.positionalOnly = false)
    (hone : p.nargs = .exactly 1) {n : Char} (hn : canStartName n = true)
    (hshort : parser.schema.shortFrom? scan.current.command n = some p) {l : String}
    (hl : l.toList.head?.any canStartName = true)
    (hlong : parser.schema.longFrom? scan.current.command l = some p) {v : String}
    {tokens : List String} (htokens : parser.schema.Spells scan.current.command n l v tokens)
    (ts : List String) :
    parser.schema.read scan (tokens ++ ts) = parser.schema.read (scan.record p.id [v]) ts := by
  have hequals := h.equals_not_mem_of_longFrom? hlong
  have hlongMeant : ∀ value, parser.schema.meant? scan.current.command
      (.long (String.ofList l.toList) value) = some p := fun value => by
    rw [String.ofList_toList]
    exact hlong
  have hshortToken : ∀ (text : String) (attached : List Char),
      text.toList = '-' :: n :: attached →
      parser.schema.child? scan.current.command text = none →
      parser.schema.token scan text = .dashed (.short n attached) := fun text attached heq hchild =>
    Schema.token_of_ofChars? hmark hchild (Dashed.ofChars?_eq_short.mpr ⟨heq, hn⟩)
  cases htokens with
  | short hchild =>
      have htoken := hshortToken s!"-{n}" [] (by simp [toString]) hchild
      exact Schema.read_of_value?_eq_none htoken hshort hone rfl v ts
  | shortEquals =>
      have hchild : parser.schema.child? scan.current.command s!"-{n}={v}" = none :=
        h.namesChildren.child?_eq_none_of_equals (by simp [toString])
      have htoken := hshortToken s!"-{n}={v}" ('=' :: v.toList) (by simp [toString]) hchild
      have hvalue : (Dashed.short n ('=' :: v.toList)).value? = some v := by
        rw [Dashed.value?, attachedValue?, String.ofList_toList]
      exact Schema.read_of_value? htoken hshort hone hvalue ts
  | long hchild =>
      have htoken : parser.schema.token scan s!"--{l}" =
          .dashed (.long (String.ofList l.toList) none) :=
        Schema.token_of_ofChars? hmark hchild
          (by simpa [toString] using Dashed.ofChars?_long hl hequals)
      exact Schema.read_of_value?_eq_none htoken (hlongMeant none) hone rfl v ts
  | longEquals =>
      have hchild : parser.schema.child? scan.current.command s!"--{l}={v}" = none :=
        h.namesChildren.child?_eq_none_of_equals (by simp [toString])
      have htoken : parser.schema.token scan s!"--{l}={v}" =
          .dashed (.long (String.ofList l.toList) (some (String.ofList v.toList))) :=
        Schema.token_of_ofChars? hmark hchild
          (by simpa [toString] using Dashed.ofChars?_long_equals v.toList hl hequals)
      have hvalue : (Dashed.long (String.ofList l.toList) (some (String.ofList v.toList))).value? =
          some v := by
        rw [Dashed.value?, String.ofList_toList]
      exact Schema.read_of_value? htoken (hlongMeant _) hone hvalue ts
  | attached hv hfirst hchild =>
      have htoken := hshortToken s!"-{n}{v}" v.toList (by simp [toString]) hchild
      exact Schema.read_of_value? htoken hshort hone (Dashed.attachedValue?_toList hv hfirst) ts

/-- A sub-command with a flag of its own that leaves what else there is to the root. -/
def optionCalls : List Call :=
  [.add .root { names := "-o,--out", binding := .values (.exactly 1) },
    .add .root { names := "-v", binding := .values (.exactly 0) }, .addSubcommand .root "run",
    .set ⟨1⟩ .fallthrough true, .add ⟨1⟩ { names := "-q", binding := .values (.exactly 0) }]

/-- The value is the mark, which means nothing here, and the flag behind it is read. -/
theorem read_spelling_mark :
    let schema := ((ofProgram "tool").afterAll optionCalls).schema
    let inside := Scan.start.enter ⟨1⟩
    (∀ tokens ∈ [["-o", "--"], ["-o=--"], ["--out", "--"], ["--out=--"], ["-o--"]],
        schema.read inside (tokens ++ ["-q"]) = schema.read (inside.record ⟨1⟩ ["--"]) ["-q"]) ∧
      (schema.read (inside.record ⟨1⟩ ["--"]) ["-q"]).scan.bindings.entries =
        [(⟨1⟩, ["--"]), (⟨4⟩, [""])] := by
  intro schema inside
  have hreachable : Reachable ((ofProgram "tool").afterAll optionCalls) :=
    (reachable_ofProgram "tool").afterAll (by decide +kernel)
  let p := (schema.command .root).parameters.get ⟨1, by decide +kernel⟩
  have hspells : ∀ tokens ∈ [["-o", "--"], ["-o=--"], ["--out", "--"], ["--out=--"], ["-o--"]],
      schema.Spells inside.current.command 'o' "out" "--" tokens := by
    simp only [List.forall_mem_cons]
    exact ⟨.short (by decide +kernel), .shortEquals, .long (by decide +kernel), .longEquals,
      .attached (by decide) (by decide) (by decide +kernel), fun _ h => absurd h List.not_mem_nil⟩
  have hshort : schema.shortFrom? inside.current.command 'o' = some p := rfl
  have hlong : schema.longFrom? inside.current.command "out" = some p := rfl
  have hn : canStartName 'o' = true := by decide
  have hl : "out".toList.head?.any canStartName = true := by decide
  refine ⟨fun tokens htokens => ?_, by decide +kernel⟩
  exact hreachable.read_spelling rfl rfl hn hshort hl hlong (hspells tokens htokens) ["-q"]

end Parser

/-! ## Flags that share a dash -/

/-- The token with these characters behind its dash; none for no characters. -/
def together : List Char → List String
  | [] => []
  | names => [String.ofList ('-' :: names)]

/-- The state with one more mention of each of the flags. -/
def Scan.switch (scan : Scan) (flags : List Parameter) : Scan :=
  flags.foldl (fun scan p => scan.record p.id [""]) scan

namespace Schema

variable {schema : Schema} {scan : Scan} {flags : List Char}

/-- A flag is taken off the front of its token, whatever stands behind it. -/
theorem step_flag (hnames : schema.NamesChildren) (hmark : scan.positionalOnly = false)
    (hsetting : (schema.reader scan).settings.ignoreUnderscore = false) {name : Char}
    {p : Parameter} (hname : canStartName name = true)
    (hp : schema.shortFrom? scan.current.command name = some p) (hflag : p.nargs.isFlag = true)
    (attached : List Char) (rest : List String) :
    schema.step scan (String.ofList ('-' :: name :: attached)) rest =
      .next (scan.record p.id [""]) (together attached ++ rest) := by
  have hback : (Dashed.short name attached).pushedBack = together attached := by
    cases attached <;> rfl
  rw [step_of_meant rest (token_short hnames hmark hsetting hname attached) hp, if_pos hflag,
    hback]
  rfl

/-- Flags that share a dash are mentioned one after the other, and what stands behind them is read
as a token of its own. -/
theorem Visits.together {s : Scan} {tokens : List String} (hnames : schema.NamesChildren)
    (hmark : s.positionalOnly = false)
    (hsetting : (schema.reader s).settings.ignoreUnderscore = false)
    (hflags : ∀ name ∈ flags, schema.ReadsFlag s.current.command name) {tail : List Char}
    {rest : List String}
    (h : schema.Visits scan tokens s (together (flags ++ tail) ++ rest)) :
    schema.Visits scan tokens
      (s.switch (flags.filterMap (schema.shortFrom? s.current.command)))
      (CommandLine.together tail ++ rest) := by
  induction flags generalizing s with
  | nil => exact h
  | cons name flags ih =>
      obtain ⟨⟨hname, p, hp, hflag⟩, hmore⟩ := List.forall_mem_cons.mp hflags
      have hstep := step_flag hnames hmark hsetting hname hp hflag (flags ++ tail) rest
      rw [List.filterMap_cons_some hp]
      exact @ih (s.record p.id [""]) hmark hsetting hmore (h.next hstep)

/-- So are flags with a dash each. -/
theorem read_apart (hnames : schema.NamesChildren) (hmark : scan.positionalOnly = false)
    (hsetting : (schema.reader scan).settings.ignoreUnderscore = false)
    (hflags : ∀ name ∈ flags, schema.ReadsFlag scan.current.command name) (rest : List String) :
    schema.read scan (flags.flatMap (fun name => together [name]) ++ rest) =
      schema.read (scan.switch (flags.filterMap (schema.shortFrom? scan.current.command)))
        rest := by
  induction flags generalizing scan with
  | nil => rfl
  | cons name flags ih =>
      obtain ⟨⟨hname, p, hp, hflag⟩, hmore⟩ := List.forall_mem_cons.mp hflags
      have hstep := step_flag hnames hmark hsetting hname hp hflag []
      rw [List.flatMap_cons, List.append_assoc, List.filterMap_cons_some hp]
      exact (read_of_next (hstep _)).trans (@ih (scan.record p.id [""]) hmark hsetting hmore)

end Schema

namespace Parser

/-- Short names of flags mean the same behind one dash and behind a dash each: the flags are
mentioned in their order, and reading goes on with what stood behind them, an option with its
value if there is one, and with the tokens that follow. -/
theorem Reachable.read_flags_together {parser : Parser} (h : Reachable parser) {scan : Scan}
    (hmark : scan.positionalOnly = false)
    (hsetting : (parser.schema.reader scan).settings.ignoreUnderscore = false) {flags : List Char}
    (hflags : ∀ name ∈ flags, parser.schema.ReadsFlag scan.current.command name)
    (tail : List Char) (rest : List String) :
    let apart := flags.flatMap (fun name => together [name]) ++ together tail
    let switched := scan.switch (flags.filterMap (parser.schema.shortFrom? scan.current.command))
    parser.schema.read scan (together (flags ++ tail) ++ rest) =
        parser.schema.read scan (apart ++ rest) ∧
      parser.schema.read scan (apart ++ rest) =
        parser.schema.read switched (together tail ++ rest) := by
  intro apart switched
  have hapart : parser.schema.read scan (apart ++ rest) =
      parser.schema.read switched (together tail ++ rest) := by
    rw [List.append_assoc]
    exact Schema.read_apart h.namesChildren hmark hsetting hflags _
  refine ⟨?_, hapart⟩
  rw [hapart]
  exact (Schema.Visits.start.together h.namesChildren hmark hsetting hflags).read_eq

/-- The second flag and the option behind it are the root's. -/
theorem read_flags_together_falling :
    let schema := ((ofProgram "tool").afterAll optionCalls).schema
    let inside := Scan.start.enter ⟨1⟩
    schema.read inside ["-qvo=x", "-q"] = schema.read inside ["-q", "-v", "-o=x", "-q"] ∧
      (schema.read inside ["-q", "-v", "-o=x", "-q"]).scan.bindings.entries =
        [(⟨4⟩, [""]), (⟨2⟩, [""]), (⟨1⟩, ["x"]), (⟨4⟩, [""])] := by
  intro schema inside
  have hreachable : Reachable ((ofProgram "tool").afterAll optionCalls) :=
    (reachable_ofProgram "tool").afterAll (by decide +kernel)
  have hflags : ∀ name ∈ ['q', 'v'], schema.ReadsFlag inside.current.command name := by
    simp only [List.forall_mem_cons]
    exact ⟨⟨by decide, _, rfl, rfl⟩, ⟨by decide, _, rfl, rfl⟩,
      fun _ h => absurd h List.not_mem_nil⟩
  have hread := hreachable.read_flags_together rfl (by decide +kernel) hflags ['o', '=', 'x'] ["-q"]
  exact ⟨hread.1, by decide +kernel⟩

end Parser

end CommandLine
