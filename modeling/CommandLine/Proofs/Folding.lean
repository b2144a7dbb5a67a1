import CommandLine.Proofs.LowerCase
import CommandLine.Proofs.Names

/-!
# Folding more names together

A command that ignores more differences between names should find by them
what it found before, and have more names that are one. That is so but
for one letter: lower case looks for the ends of words to choose between
the two small sigmas, and an underscore is the end of a word. So names
that differ in underscores only, and are one where those are ignored, may
not be one where case is ignored too (`Settings.SigmaTwins`).

Apart from their underscores two such names have the same letters, and in
lower case they differ in the sigmas alone (`letters_lowerAfter`,
`lowerWith_injective`). This tells exactly which names are split when more
is ignored (`Settings.FoldsLess.foldName_eq_iff`), and with it when a command
takes on other settings and what it finds then
(`Parser.Reachable.folding_merges_iff`).
-/

namespace CommandLine

namespace Text.Lowercase

/-- For each capital sigma of a text that follows `before`, whether it ends a word. -/
def sigmaEnds (before : List Char) : List Char → List Bool
  | [] => []
  | c :: rest =>
    if c = 'Σ' then endsWord before rest :: sigmaEnds (c :: before) rest
    else sigmaEnds (c :: before) rest

/-- The lower-case form of letters of which it is known where the capital sigmas end words. -/
def lowerWith : List Char → List Bool → List Char
  | [], _ => []
  | c :: rest, ends =>
    if c = 'Σ' then (if ends.headD false then 'ς' else 'σ') :: lowerWith rest ends.tail
    else lowerChar c ++ lowerWith rest ends

/-- The letters of a text, without its underscores. -/
def letters (cs : List Char) : List Char := cs.filter (· != '_')

theorem length_sigmaEnds (before cs : List Char) :
    (sigmaEnds before cs).length = (letters cs).count 'Σ' := by
  induction cs generalizing before with
  | nil => rfl
  | cons c rest ih =>
      rw [sigmaEnds, letters]
      by_cases hsigma : c = 'Σ'
      · subst hsigma
        rw [if_pos rfl, List.length_cons, ih, List.filter_cons_of_pos (by decide),
          List.count_cons_self, letters]
      · rw [if_neg hsigma, ih, letters, List.count_filter (by decide),
          List.count_filter (by decide), List.count_cons_of_ne hsigma]

/-- Underscores have been looked at for the ends of words, and are not needed any more. -/
theorem letters_lowerAfter (before cs : List Char) :
    letters (lowerAfter before cs) = lowerWith (letters cs) (sigmaEnds before cs) := by
  induction cs generalizing before with
  | nil => rfl
  | cons c rest ih =>
      rw [lowerAfter, letters, List.filter_append, ← letters, ← letters, ih, sigmaEnds]
      by_cases hsigma : c = 'Σ'
      · subst hsigma
        rw [if_pos rfl, if_pos rfl]
        cases endsWord before rest <;> rfl
      · rw [if_neg hsigma, if_neg hsigma]
        by_cases hscore : c = '_'
        · subst hscore
          rw [inert_underscore.keeps]
          rfl
        · have hnone : '_' ∉ lowerChar c := by
            rw [inert_underscore.mem_lowerChar]
            exact hscore
          have hkept : letters (lowerChar c) = lowerChar c :=
            List.filter_eq_self.mpr fun d hd => bne_iff_ne.mpr fun heq => hnone (heq ▸ hd)
          have hletters : letters (c :: rest) = c :: letters rest :=
            List.filter_cons_of_pos (by simpa using hscore)
          rw [hkept, hletters, lowerWith, if_neg hsigma]

/-- The lower-case form shows which sigmas end words. -/
theorem lowerWith_injective {cs : List Char} {ends ends' : List Bool}
    (hlength : ends.length = cs.count 'Σ') (hlength' : ends'.length = cs.count 'Σ')
    (h : lowerWith cs ends = lowerWith cs ends') : ends = ends' := by
  induction cs generalizing ends ends' with
  | nil => rw [List.eq_nil_of_length_eq_zero hlength, List.eq_nil_of_length_eq_zero hlength']
  | cons c rest ih =>
      by_cases hsigma : c = 'Σ'
      · subst hsigma
        rw [List.count_cons_self] at hlength hlength'
        obtain ⟨first, ends, rfl⟩ := List.exists_cons_of_length_eq_add_one hlength
        obtain ⟨first', ends', rfl⟩ := List.exists_cons_of_length_eq_add_one hlength'
        obtain ⟨hfirst, hrest⟩ := List.cons_eq_cons.mp h
        have hends := ih (Nat.succ_inj.mp hlength) (Nat.succ_inj.mp hlength') hrest
        have hsame : first = first' := by
          cases first <;> cases first' <;> simp at hfirst ⊢
        rw [hsame, hends]
      · rw [List.count_cons_of_ne hsigma] at hlength hlength'
        rw [lowerWith, lowerWith, if_neg hsigma, if_neg hsigma, List.append_cancel_left_eq] at h
        exact ih hlength hlength' h

/-- Of texts with the same letters the lower-case forms have the same ones exactly if the same
sigmas end words. -/
theorem letters_lowercaseChars_eq_iff {a b : List Char} (h : letters a = letters b) :
    letters (lowercaseChars a) = letters (lowercaseChars b) ↔ sigmaEnds [] a = sigmaEnds [] b := by
  rw [lowercaseChars, lowercaseChars, letters_lowerAfter, letters_lowerAfter, ← h]
  refine ⟨lowerWith_injective (length_sigmaEnds [] a) ?_, fun hends => by rw [hends]⟩
  rw [length_sigmaEnds, h]

end Text.Lowercase

open Text.Lowercase

namespace Settings

variable {s t : Settings} {a b : String}

/-- Whatever the one ignores, the other ignores too. -/
structure FoldsLess (s t : Settings) : Prop where
  ignoreCase : s.ignoreCase = true → t.ignoreCase = true
  ignoreUnderscore : s.ignoreUnderscore = true → t.ignoreUnderscore = true

/-- Names that differ in underscores only, but so that not the same capital sigmas end words. -/
structure SigmaTwins (a b : String) : Prop where
  letters : letters a.toList = letters b.toList
  ends : sigmaEnds [] a.toList ≠ sigmaEnds [] b.toList

instance (a b : String) : Decidable (SigmaTwins a b) :=
  decidable_of_iff (Text.Lowercase.letters a.toList = Text.Lowercase.letters b.toList ∧
    sigmaEnds [] a.toList ≠ sigmaEnds [] b.toList) ⟨fun h => ⟨h.1, h.2⟩, fun h => ⟨h.1, h.2⟩⟩

/-- Underscores are ignored already, and to ignore case as well tells the names apart. -/
structure Splits (s t : Settings) (a b : String) : Prop where
  underscore : s.ignoreUnderscore = true
  before : s.ignoreCase = false
  after : t.ignoreCase = true
  twins : SigmaTwins a b

theorem toList_foldName (s : Settings) (name : String) :
    (s.foldName name).toList =
      if s.ignoreUnderscore then
        letters (if s.ignoreCase then Text.lowercaseChars name.toList else name.toList)
      else if s.ignoreCase then Text.lowercaseChars name.toList else name.toList := by
  rw [foldName, String.toList_ofList]
  rfl

/-- Where case is treated alike, only underscores are ignored in addition. -/
theorem FoldsLess.toList_foldName (h : s.FoldsLess t) (hcase : s.ignoreCase = t.ignoreCase)
    (name : String) :
    (t.foldName name).toList =
      if t.ignoreUnderscore then letters (s.foldName name).toList
      else (s.foldName name).toList := by
  rw [Settings.toList_foldName, Settings.toList_foldName s, hcase]
  cases hs : s.ignoreUnderscore with
  | false => rfl
  | true =>
      rw [h.ignoreUnderscore hs]
      simp [letters]

/-- Where underscores are ignored and case is not, letters are compared. -/
theorem foldName_eq_iff_letters (hunderscore : s.ignoreUnderscore = true)
    (hcase : s.ignoreCase = false) :
    s.foldName a = s.foldName b ↔ letters a.toList = letters b.toList := by
  rw [← String.toList_inj, toList_foldName, toList_foldName, hunderscore, hcase]
  rfl

/-- Where case is ignored too, letters in lower case are. -/
theorem foldName_eq_iff_lowercase (hunderscore : s.ignoreUnderscore = true)
    (hcase : s.ignoreCase = true) :
    s.foldName a = s.foldName b ↔
      letters (Text.lowercaseChars a.toList) = letters (Text.lowercaseChars b.toList) := by
  rw [← String.toList_inj, toList_foldName, toList_foldName, hunderscore, hcase]
  rfl

theorem Splits.foldName_eq (h : s.Splits t a b) : s.foldName a = s.foldName b :=
  (foldName_eq_iff_letters h.underscore h.before).mpr h.twins.letters

/-- To ignore more keeps names equal, except for those that are split. -/
theorem FoldsLess.foldName_eq_iff (h : s.FoldsLess t) (heq : s.foldName a = s.foldName b) :
    t.foldName a = t.foldName b ↔ ¬s.Splits t a b := by
  by_cases hcase : s.ignoreCase = t.ignoreCase
  · have hsame : t.foldName a = t.foldName b := by
      rw [← String.toList_inj, h.toList_foldName hcase, h.toList_foldName hcase, heq]
    refine iff_of_true hsame fun hsplits => ?_
    rw [hsplits.before, hsplits.after] at hcase
    cases hcase
  · have hbefore : s.ignoreCase = false := by
      cases hs : s.ignoreCase with
      | false => rfl
      | true => exact absurd (hs.trans (h.ignoreCase hs).symm) hcase
    have hafter : t.ignoreCase = true := by
      rw [hbefore] at hcase
      simpa using Ne.symm hcase
    cases hs : s.ignoreUnderscore with
    | false =>
        have hsame : a = b := by simpa [foldName, hbefore, hs] using heq
        subst hsame
        exact iff_of_true rfl fun hsplits => hsplits.twins.ends rfl
    | true =>
        have hletters := (foldName_eq_iff_letters hs hbefore).mp heq
        rw [foldName_eq_iff_lowercase (h.ignoreUnderscore hs) hafter,
          letters_lowercaseChars_eq_iff hletters]
        refine ⟨fun hends hsplits => hsplits.twins.ends hends, fun hnot => ?_⟩
        by_contra hends
        exact hnot ⟨hs, hbefore, hafter, hletters, hends⟩

/-- Short names that are one stay so. -/
theorem FoldsLess.foldShort_eq (h : s.FoldsLess t) {c d : Char}
    (heq : s.foldShort c = s.foldShort d) : t.foldShort c = t.foldShort d := by
  cases hs : s.ignoreCase with
  | true => simpa [foldShort, hs, h.ignoreCase hs] using heq
  | false =>
      have hsame : c = d := by simpa [foldShort, hs] using heq
      rw [hsame]

end Settings

/-! ## The names of a command -/

/-- The kinds of names that are folded as texts. -/
inductive FoldedKind where
  | long
  | positional
  | subcommand

/-- What a name stands for. -/
inductive Target where
  | parameter (p : Parameter)
  | command (d : CommandId)

namespace Schema

variable {schema : Schema} {c : CommandId} {name : String} {kind : FoldedKind} {x : Target}

/-- What the command finds by a name of the kind. -/
def target? (schema : Schema) (c : CommandId) (name : String) : FoldedKind → Option Target
  | .long => ((schema.command c).long? name).map .parameter
  | .positional => ((schema.command c).positional? name).map .parameter
  | .subcommand => (schema.child? c name).map .command

/-- The command has something by that very name. -/
def Declares (schema : Schema) (c : CommandId) (name : String) : FoldedKind → Target → Prop
  | .long, .parameter p => p ∈ (schema.command c).parameters ∧ name ∈ p.names.longs
  | .positional, .parameter p =>
    p ∈ (schema.command c).parameters ∧ p.names.positional = some name
  | .subcommand, .command d => d ∈ schema.children c ∧ (schema.command d).name = name
  | _, _ => False

/-- The command has different things by these names, which are of one kind. -/
def Rivals (schema : Schema) (c : CommandId) (a b : String) : Prop :=
  ∃ kind x y, x ≠ y ∧ schema.Declares c a kind x ∧ schema.Declares c b kind y

/-- A name finds what was declared by one that is folded alike. -/
theorem Distinct.target?_eq_some (h : schema.Distinct c) (hids : schema.NodupIds) :
    schema.target? c name kind = some x ↔
      ∃ declared, schema.Declares c declared kind x ∧
        (schema.command c).settings.foldName declared =
          (schema.command c).settings.foldName name := by
  have hlookup : ∀ p part, (schema.command c).lookup? part = some p ↔
      p ∈ (schema.command c).parameters ∧ (schema.command c).answers part p = true :=
    fun p part => Command.lookup?_eq_some_iff (h.answers_unique hids) part
  cases kind with
  | long =>
      cases x with
      | command d => simp [target?, Declares]
      | parameter p =>
          have hlong : (schema.command c).long? name = some p ↔ _ := hlookup p (.long name)
          simp [target?, Declares, hlong, Command.answers, Settings.sameName, and_assoc]
  | positional =>
      cases x with
      | command d => simp [target?, Declares]
      | parameter p =>
          have hpositional : (schema.command c).positional? name = some p ↔ _ :=
            hlookup p (.positional name)
          simp [target?, Declares, hpositional, Command.answers, Settings.sameName, and_assoc,
            Option.any_eq_true]
  | subcommand =>
      cases x with
      | parameter p => simp [target?, Declares]
      | command d =>
          simp [target?, Declares, h.child?_eq_some, childAnswers, Settings.sameName, and_assoc]

/-- Names are told apart if short ones are and no rivals are folded alike. -/
theorem distinct_iff (hids : schema.NodupIds) :
    schema.Distinct c ↔
      (∀ p ∈ (schema.command c).parameters, ∀ q ∈ (schema.command c).parameters, p ≠ q →
        ∀ s ∈ p.names.shorts, ∀ t ∈ q.names.shorts,
          (schema.command c).settings.foldShort s ≠ (schema.command c).settings.foldShort t) ∧
      ∀ a b, schema.Rivals c a b →
        (schema.command c).settings.foldName a ≠ (schema.command c).settings.foldName b := by
  constructor
  · intro h
    have hapart : ∀ p ∈ (schema.command c).parameters, ∀ q ∈ (schema.command c).parameters,
        p ≠ q → (schema.command c).settings.Apart p.names q.names := fun p hp q hq hne =>
      h.parameters_apart p hp q hq fun hid => hne (hids.unique hp hq hid).2
    refine ⟨fun p hp q hq hne => (hapart p hp q hq hne).shorts, ?_⟩
    rintro a b ⟨kind, x, y, hne, ha, hb⟩
    cases kind <;> cases x <;> cases y <;> simp only [Declares] at ha hb
    case mp.long.parameter.parameter p q =>
      exact (hapart p ha.1 q hb.1 fun heq => hne (heq ▸ rfl)).longs a ha.2 b hb.2
    case mp.positional.parameter.parameter p q =>
      exact (hapart p ha.1 q hb.1 fun heq => hne (heq ▸ rfl)).positional a ha.2 b hb.2
    case mp.subcommand.command.command d e =>
      rw [← ha.2, ← hb.2]
      exact h.children_apart d ha.1 e hb.1 fun heq => hne (heq ▸ rfl)
  · rintro ⟨hshorts, hrivals⟩
    refine ⟨?_, ?_⟩
    · have hnodup : (schema.command c).parameters.Nodup := List.Nodup.of_map _ (hids.idsOf c)
      refine List.pairwise_map.mpr (hnodup.pairwise_of_forall_ne fun p hp q hq hne => ?_)
      have hne' : Target.parameter p ≠ .parameter q := fun heq => hne (Target.parameter.inj heq)
      exact ⟨hshorts p hp q hq hne,
        fun a ha b hb => hrivals a b ⟨.long, _, _, hne', ⟨hp, ha⟩, ⟨hq, hb⟩⟩,
        fun a ha b hb => hrivals a b ⟨.positional, _, _, hne', ⟨hp, ha⟩, ⟨hq, hb⟩⟩⟩
    · rw [childNames, List.map_map]
      refine (nodup_children schema c).map_on fun d hd e he heq => ?_
      by_contra hne
      exact hrivals _ _ ⟨.subcommand, .command d, .command e, fun h => hne (Target.command.inj h),
        ⟨hd, rfl⟩, ⟨he, rfl⟩⟩ heq

/-! ## Other settings for a command -/

section Switch

variable {f : Settings → Settings}

theorem declares_modifySettings :
    (schema.modifySettings c f).Declares c name kind x ↔ schema.Declares c name kind x := by
  have hparameters : ((schema.modifySettings c f).command c).parameters =
      (schema.command c).parameters := proj_modifyCommand Command.parameters fun _ => rfl
  have hchildren : (schema.modifySettings c f).children c = schema.children c :=
    children_congr (List.length_modify ..) fun _ =>
      proj_modifyCommand Command.ancestors fun _ => rfl
  have hname : ∀ d, ((schema.modifySettings c f).command d).name = (schema.command d).name :=
    fun _ => proj_modifyCommand Command.name fun _ => rfl
  cases kind <;> cases x <;> simp only [Declares, hparameters, hchildren, hname]

theorem rivals_modifySettings {a b : String} :
    (schema.modifySettings c f).Rivals c a b ↔ schema.Rivals c a b := by
  simp only [Rivals, declares_modifySettings]

theorem settings_modifySettings (hc : schema.Issued c) :
    ((schema.modifySettings c f).command c).settings = f (schema.command c).settings := by
  rw [modifySettings, command_modifyCommand_self hc]

theorem nodupIds_modifySettings (hids : schema.NodupIds) :
    (schema.modifySettings c f).NodupIds := by
  have hsame : (schema.modifySettings c f).ids = schema.ids := ids_modifyCommand fun _ => rfl
  rwa [NodupIds, hsame]

/-- Where less is ignored all names are still told apart, unless ignoring more had split some. -/
theorem Distinct.modifySettings_iff (h : schema.Distinct c) (hids : schema.NodupIds)
    (hc : schema.Issued c)
    (hless : (f (schema.command c).settings).FoldsLess (schema.command c).settings) :
    (schema.modifySettings c f).Distinct c ↔
      ∀ a b, schema.Rivals c a b →
        ¬(f (schema.command c).settings).Splits (schema.command c).settings a b := by
  have hparameters : ((schema.modifySettings c f).command c).parameters =
      (schema.command c).parameters := proj_modifyCommand Command.parameters fun _ => rfl
  have hids' := nodupIds_modifySettings (f := f) (c := c) hids
  obtain ⟨hshorts, hrivals⟩ := (distinct_iff hids).mp h
  simp only [distinct_iff hids', rivals_modifySettings, settings_modifySettings hc, hparameters]
  refine ⟨fun hall a b hab hsplits => hall.2 a b hab hsplits.foldName_eq, fun hnot => ⟨?_, ?_⟩⟩
  · intro p hp q hq hne s hs t ht heq
    exact hshorts p hp q hq hne s hs t ht (hless.foldShort_eq heq)
  · intro a b hab heq
    exact hrivals a b hab ((hless.foldName_eq_iff heq).mpr (hnot a b hab))

/-- Where more is ignored a name still finds what was declared by a name that is not split from it,
and finds nothing that was declared only by names that are. -/
theorem Distinct.target?_modifySettings (h : (schema.modifySettings c f).Distinct c)
    (hids : schema.NodupIds) (hc : schema.Issued c)
    (hless : (schema.command c).settings.FoldsLess (f (schema.command c).settings)) :
    ((∃ declared, schema.Declares c declared kind x ∧
        (schema.command c).settings.foldName declared =
          (schema.command c).settings.foldName name ∧
        ¬(schema.command c).settings.Splits (f (schema.command c).settings) declared name) →
      (schema.modifySettings c f).target? c name kind = some x) ∧
    ((∀ declared, schema.Declares c declared kind x →
        (schema.command c).settings.Splits (f (schema.command c).settings) declared name) →
      (schema.modifySettings c f).target? c name kind ≠ some x) := by
  rw [Ne, h.target?_eq_some (nodupIds_modifySettings hids), settings_modifySettings hc]
  simp only [declares_modifySettings]
  constructor
  · rintro ⟨declared, hdeclared, heq, hnot⟩
    exact ⟨declared, hdeclared, (hless.foldName_eq_iff heq).mpr hnot⟩
  · rintro hall ⟨declared, hdeclared, heq⟩
    have hsplits := hall declared hdeclared
    exact (hless.foldName_eq_iff hsplits.foldName_eq).mp heq hsplits

end Switch

end Schema

/-- It says which names are one. -/
def Setting.Folds (setting : Setting) : Prop := setting = .ignoreCase ∨ setting = .ignoreUnderscore

/-- The settings with such a setting switched. -/
def Settings.ignoring (settings : Settings) (value : Bool) : Setting → Settings
  | .ignoreCase => { settings with ignoreCase := value }
  | .ignoreUnderscore => { settings with ignoreUnderscore := value }
  | _ => settings

theorem Settings.foldsLess_ignoring (settings : Settings) (setting : Setting) :
    (settings.ignoring false setting).FoldsLess settings ∧
      settings.FoldsLess (settings.ignoring true setting) := by
  cases setting <;> exact ⟨⟨by simp [ignoring], by simp [ignoring]⟩, by simp [ignoring],
    by simp [ignoring]⟩

theorem Schema.set_of_folds {setting : Setting} (hfolds : setting.Folds) (schema : Schema)
    (c : CommandId) (value : Bool) :
    schema.set c setting value =
      (schema.modifySettings c (·.ignoring value setting)).unlessClash c := by
  rcases hfolds with rfl | rfl <;> rfl

namespace Parser

variable {parser : Parser} {c : CommandId} {setting : Setting} {value : Bool}

/-- Such a setting is taken on if names are told apart with it. -/
theorem set_ok_iff (hfolds : setting.Folds) :
    (parser.set c setting value).2 = .ok () ↔
      (parser.schema.modifySettings c (·.ignoring value setting)).Distinct c := by
  rw [set, Schema.set_of_folds hfolds, ← Schema.nameClash?_eq_none, Schema.unlessClash]
  split <;> simp_all [commit]

theorem schema_set (hfolds : setting.Folds) (hok : (parser.set c setting value).2 = .ok ()) :
    (parser.set c setting value).1.schema =
      parser.schema.modifySettings c (·.ignoring value setting) := by
  have hnone := Schema.nameClash?_eq_none.mpr ((set_ok_iff hfolds).mp hok)
  rw [set, Schema.set_of_folds hfolds, Schema.unlessClash, hnone]
  rfl

/-- To ignore more keeps names equal that are equal, with one exception: where underscores are
ignored, names that differ in them only are told apart by lower case if not the same capital sigmas
end words. But for rivals of that kind every command can be told to mind case again, and always to
mind underscores. Once it ignores underscores all names find what they found before; once it
ignores case all do but those that are split from every declared name they were found by. -/
theorem Reachable.folding_merges_iff (h : Reachable parser) (hc : parser.schema.Issued c) :
    let settings := (parser.schema.command c).settings
    (∀ (s t : Settings) (a b : String), s.FoldsLess t → s.foldName a = s.foldName b →
      (t.foldName a = t.foldName b ↔ ¬s.Splits t a b)) ∧
    (parser.set c .ignoreUnderscore false).2 = .ok () ∧
    ((parser.set c .ignoreCase false).2 = .ok () ↔
      ¬(settings.ignoreUnderscore = true ∧
        ∃ a b, parser.schema.Rivals c a b ∧ Settings.SigmaTwins a b)) ∧
    ((parser.set c .ignoreUnderscore true).2 = .ok () →
      ∀ name kind x, parser.schema.target? c name kind = some x →
        (parser.set c .ignoreUnderscore true).1.schema.target? c name kind = some x) ∧
    ((parser.set c .ignoreCase true).2 = .ok () → ∀ name kind x,
      ((∃ declared, parser.schema.Declares c declared kind x ∧
          settings.foldName declared = settings.foldName name ∧
          ¬settings.Splits (settings.ignoring true .ignoreCase) declared name) →
        (parser.set c .ignoreCase true).1.schema.target? c name kind = some x) ∧
      ((∀ declared, parser.schema.Declares c declared kind x →
          settings.Splits (settings.ignoring true .ignoreCase) declared name) →
        (parser.set c .ignoreCase true).1.schema.target? c name kind ≠ some x)) := by
  intro settings
  have hcase : Setting.ignoreCase.Folds := Or.inl rfl
  have hunderscore : Setting.ignoreUnderscore.Folds := Or.inr rfl
  have hids := h.wellFormed.nodup
  have hdistinct := h.distinct c
  refine ⟨fun s t a b hless => hless.foldName_eq_iff, ?_, ?_, fun hok name kind x hfound => ?_,
    fun hok name kind x => ?_⟩
  · rw [set_ok_iff hunderscore,
      hdistinct.modifySettings_iff hids hc (settings.foldsLess_ignoring .ignoreUnderscore).1]
    exact fun a b _ hsplits => Bool.false_ne_true hsplits.underscore
  · rw [set_ok_iff hcase]
    constructor
    · rintro hminding ⟨hignores, a, b, hrivals, htwins⟩
      obtain ⟨-, hapart⟩ := (Schema.distinct_iff (Schema.nodupIds_modifySettings hids)).mp hminding
      refine hapart a b (Schema.rivals_modifySettings.mpr hrivals) ?_
      rw [Schema.settings_modifySettings hc]
      exact (Settings.foldName_eq_iff_letters (s := settings.ignoring false .ignoreCase) hignores
        rfl).mpr htwins.letters
    · intro hnone
      rw [hdistinct.modifySettings_iff hids hc (settings.foldsLess_ignoring .ignoreCase).1]
      exact fun a b hrivals hsplits => hnone ⟨hsplits.underscore, a, b, hrivals, hsplits.twins⟩
  · rw [schema_set hunderscore hok]
    obtain ⟨declared, hdeclared, heq⟩ := (hdistinct.target?_eq_some hids).mp hfound
    refine (((set_ok_iff hunderscore).mp hok).target?_modifySettings hids hc
      (settings.foldsLess_ignoring .ignoreUnderscore).2).1 ⟨declared, hdeclared, heq, ?_⟩
    exact fun hsplits => Bool.false_ne_true (hsplits.before.symm.trans hsplits.after)
  · rw [schema_set hcase hok]
    exact ((set_ok_iff hcase).mp hok).target?_modifySettings hids hc
      (settings.foldsLess_ignoring .ignoreCase).2

/-- An option that is found without underscores. -/
def sigmaCalls : List Call :=
  [.set .root .ignoreUnderscore true,
    .add .root { names := "--AΣB", binding := .values (.exactly 1) }]

/-- An underscore behind the last letter makes no difference to the sigma, and one behind the sigma
does. -/
theorem folding_merges_iff_sigma :
    let parser := (ofProgram "tool").afterAll sigmaCalls
    let grown := (parser.set .root .ignoreCase true).1.schema
    (parser.set .root .ignoreCase true).2 = .ok () ∧
      ∃ x, parser.schema.target? .root "AΣB_" .long = some x ∧
        grown.target? .root "AΣB_" .long = some x ∧
        parser.schema.target? .root "AΣ_B" .long = some x ∧
        grown.target? .root "AΣ_B" .long ≠ some x := by
  intro parser grown
  have hreachable : Reachable parser := (reachable_ofProgram "tool").afterAll (by decide +kernel)
  have hok : (parser.set .root .ignoreCase true).2 = .ok () := by decide +kernel
  have hroot : parser.schema.Issued .root := by decide +kernel
  obtain ⟨-, -, -, -, hmore⟩ := hreachable.folding_merges_iff hroot
  let p := (parser.schema.command .root).parameters.get ⟨1, by decide +kernel⟩
  have hp : p ∈ (parser.schema.command .root).parameters := List.get_mem _ _
  have hlongs : p.names.longs = ["AΣB"] := by decide +kernel
  have hdeclared : parser.schema.Declares .root "AΣB" .long (.parameter p) :=
    ⟨hp, by rw [hlongs]; exact List.mem_singleton_self _⟩
  refine ⟨hok, .parameter p, rfl, (hmore hok _ _ _).1 ⟨"AΣB", hdeclared, by decide +kernel, ?_⟩,
    rfl, (hmore hok _ _ _).2 fun declared hother => ?_⟩
  · intro hsplits
    exact hsplits.twins.ends (by decide +kernel)
  · have honly : declared = "AΣB" := by simpa [hlongs] using hother.2
    rw [honly]
    exact ⟨by decide +kernel, by decide +kernel, rfl, by decide +kernel⟩

/-- Options that differ in an underscore behind a sigma. -/
def twinCalls : List Call :=
  [.set .root .ignoreCase true, .set .root .ignoreUnderscore true,
    .add .root { names := "--AΣ_B", binding := .values (.exactly 1) },
    .add .root { names := "--AΣB", binding := .values (.exactly 1) }]

/-- Names that are one without underscores are two when case is ignored as well. So an option is
not found any more, and minding case again is refused. -/
theorem sigma_twins_split :
    let minding : Settings := { ignoreUnderscore := true }
    let ignoring : Settings := { ignoreCase := true, ignoreUnderscore := true }
    let parser := (ofProgram "tool").afterAll sigmaCalls
    let twins := (ofProgram "tool").afterAll twinCalls
    (minding.FoldsLess ignoring ∧ minding.foldName "AΣ_B" = minding.foldName "AΣB" ∧
      ignoring.foldName "AΣ_B" ≠ ignoring.foldName "AΣB") ∧
    (Reachable parser ∧ (parser.set .root .ignoreCase true).2 = .ok () ∧
      ((parser.schema.command .root).long? "AΣ_B").isSome = true ∧
      (((parser.set .root .ignoreCase true).1.schema.command .root).long? "AΣ_B").isSome =
        false) ∧
    Reachable twins ∧
      (twins.set .root .ignoreCase false).2 = .error (.duplicate .long "--AΣB") := by
  intro minding ignoring parser twins
  have hless : minding.FoldsLess ignoring := ⟨fun _ => rfl, fun _ => rfl⟩
  exact ⟨⟨hless, by decide +kernel⟩,
    ⟨(reachable_ofProgram "tool").afterAll (by decide +kernel), by decide +kernel⟩,
    (reachable_ofProgram "tool").afterAll (by decide +kernel), by decide +kernel⟩

end Parser

end CommandLine
