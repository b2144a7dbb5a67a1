import CommandLine.Schema.Declare
import Mathlib.Data.List.Find
import Mathlib.Data.List.Nodup

/-!
# Looking things up in a schema

What the look-ups of a `Schema` answer, in terms of what is listed where:
`mem_children`, `mem_parameters`, `NodupIds.owner?_eq` and
`NodupIds.parameter?_eq`. The last two need that no number is listed
twice (`NodupIds`), under which a number alone tells a parameter and its
command (`NodupIds.unique`).
-/

namespace CommandLine

/-- The only element that passes a test is the one that is found. -/
theorem find?_eq_some_of_unique {α : Type} {f : α → Bool} {l : List α} {a : α}
    (ha : a ∈ l) (hf : f a = true) (huniq : ∀ b ∈ l, f b = true → b = a) :
    l.find? f = some a := by
  cases hfind : l.find? f with
  | none =>
      rw [List.find?_eq_none] at hfind
      exact absurd hf (hfind a ha)
  | some b =>
      rw [huniq b (List.mem_of_find?_eq_some hfind) (List.find?_some hfind)]

namespace Command

variable {command : Command} {p : Parameter}

theorem mem_of_shortText? {name : List Char} (h : command.shortText? name = some p) :
    p ∈ command.parameters := by
  unfold shortText? at h
  split at h
  · exact List.mem_of_find?_eq_some h
  · cases h

/-- By whatever name it is found, the parameter is one of the command's own. -/
theorem mem_of_named? {name : String} (h : command.named? name = some p) :
    p ∈ command.parameters := by
  unfold named? at h
  split at h
  · exact List.mem_of_find?_eq_some h
  · exact mem_of_shortText? h
  · simp only [Option.orElse_eq_orElse, Option.orElse_eq_or, Option.or_eq_some_iff] at h
    rcases h with h | ⟨-, h | ⟨-, h⟩⟩
    · exact List.mem_of_find?_eq_some h
    · exact List.mem_of_find?_eq_some h
    · exact mem_of_shortText? h

end Command

namespace Schema

variable {schema : Schema} {c d : CommandId}

/-! ## Commands -/

/-- The number was given out to a command. -/
def Issued (schema : Schema) (c : CommandId) : Prop := c.index < schema.commands.length

instance (schema : Schema) (c : CommandId) : Decidable (schema.Issued c) :=
  inferInstanceAs (Decidable (_ < _))

theorem mem_commandIds : c ∈ schema.commandIds ↔ schema.Issued c := by
  simp only [commandIds, List.mem_map, List.mem_range, Issued]
  constructor
  · rintro ⟨i, hi, rfl⟩
    exact hi
  · intro hc
    exact ⟨c.index, hc, rfl⟩

theorem nodup_commandIds (schema : Schema) : schema.commandIds.Nodup := by
  refine List.nodup_range.map ?_
  intro i j hij
  exact congrArg CommandId.index hij

theorem command_eq_get (hc : schema.Issued c) :
    schema.command c = schema.commands.get ⟨c.index, hc⟩ := by
  simp only [command, List.getD_eq_getElem?_getD, List.getElem?_eq_getElem hc, Option.getD_some]
  rfl

theorem command_of_not_issued (hc : ¬schema.Issued c) : schema.command c = { name := "" } := by
  simp only [Issued, Nat.not_lt] at hc
  simp only [command, List.getD_eq_getElem?_getD, List.getElem?_eq_none hc, Option.getD_none]

/-- Only numbers that were given out have a command with parameters. -/
theorem issued_of_mem_parameters {p : Parameter} (hp : p ∈ (schema.command c).parameters) :
    schema.Issued c := by
  by_contra hc
  rw [command_of_not_issued hc] at hp
  exact List.not_mem_nil hp

theorem mem_children :
    d ∈ schema.children c ↔ schema.Issued d ∧ (schema.command d).parent = some c := by
  simp only [children, List.mem_filter, mem_commandIds, decide_eq_true_eq]

theorem nodup_children (schema : Schema) (c : CommandId) : (schema.children c).Nodup :=
  (nodup_commandIds schema).filter _

theorem mem_children_of_child? {name : String} (h : schema.child? c name = some d) :
    d ∈ schema.children c :=
  List.mem_of_find?_eq_some h

/-! ## Parameters -/

/-- The numbers of a command's parameters. -/
def idsOf (schema : Schema) (c : CommandId) : List ParameterId :=
  (schema.command c).parameters.map (·.id)

/-- The numbers of all parameters. -/
def ids (schema : Schema) : List ParameterId := schema.parameters.map (·.id)

/-- No number is listed twice. -/
def NodupIds (schema : Schema) : Prop := schema.ids.Nodup

theorem mem_idsOf {p : ParameterId} :
    p ∈ schema.idsOf c ↔ ∃ q ∈ (schema.command c).parameters, q.id = p :=
  List.mem_map

theorem mem_parameters {p : Parameter} :
    p ∈ schema.parameters ↔ ∃ c, p ∈ (schema.command c).parameters := by
  simp only [parameters, List.mem_flatMap]
  constructor
  · rintro ⟨command, hmem, hp⟩
    obtain ⟨i, hi, rfl⟩ := List.getElem_of_mem hmem
    exact ⟨⟨i⟩, by rwa [command_eq_get (c := ⟨i⟩) hi]⟩
  · rintro ⟨c, hp⟩
    have hc := issued_of_mem_parameters hp
    rw [command_eq_get hc] at hp
    exact ⟨_, List.getElem_mem hc, hp⟩

theorem ids_eq_flatMap (schema : Schema) :
    schema.ids = schema.commands.flatMap fun command => command.parameters.map (·.id) :=
  List.map_flatMap

theorem NodupIds.idsOf (h : schema.NodupIds) (c : CommandId) : (schema.idsOf c).Nodup := by
  by_cases hc : schema.Issued c
  · rw [NodupIds, ids_eq_flatMap, List.nodup_flatMap] at h
    rw [Schema.idsOf, command_eq_get hc]
    exact h.1 _ (List.getElem_mem hc)
  · rw [Schema.idsOf, command_of_not_issued hc]
    exact List.nodup_nil

/-- A number tells the command that lists it, and the parameter. -/
theorem NodupIds.unique (h : schema.NodupIds) {p q : Parameter}
    (hp : p ∈ (schema.command c).parameters) (hq : q ∈ (schema.command d).parameters)
    (hpq : p.id = q.id) : c = d ∧ p = q := by
  have hsame : p = q :=
    List.inj_on_of_nodup_map h (mem_parameters.mpr ⟨c, hp⟩) (mem_parameters.mpr ⟨d, hq⟩) hpq
  refine ⟨?_, hsame⟩
  have hc := issued_of_mem_parameters hp
  have hd := issued_of_mem_parameters hq
  rw [NodupIds, ids_eq_flatMap, List.nodup_flatMap] at h
  by_contra hcd
  have hne : c.index ≠ d.index := fun heq => hcd (by cases c; cases d; cases heq; rfl)
  have hdisj := List.pairwise_iff_getElem.mp h.2
  rw [command_eq_get hc] at hp
  rw [command_eq_get hd] at hq
  have hpmem : p.id ∈ (schema.commands.get ⟨c.index, hc⟩).parameters.map (·.id) :=
    List.mem_map_of_mem hp
  have hqmem : p.id ∈ (schema.commands.get ⟨d.index, hd⟩).parameters.map (·.id) :=
    hpq ▸ List.mem_map_of_mem hq
  rcases Nat.lt_or_gt_of_ne hne with hlt | hlt
  · exact hdisj _ _ hc hd hlt hpmem hqmem
  · exact hdisj _ _ hd hc hlt hqmem hpmem

theorem NodupIds.parameter?_eq (h : schema.NodupIds) {p : Parameter}
    (hp : p ∈ (schema.command c).parameters) : schema.parameter? p.id = some p := by
  refine find?_eq_some_of_unique (mem_parameters.mpr ⟨c, hp⟩) (by simp) ?_
  intro q hq heq
  exact List.inj_on_of_nodup_map h hq (mem_parameters.mpr ⟨c, hp⟩) (of_decide_eq_true heq)

theorem NodupIds.owner?_eq (h : schema.NodupIds) {p : Parameter}
    (hp : p ∈ (schema.command c).parameters) : schema.owner? p.id = some c := by
  refine find?_eq_some_of_unique (mem_commandIds.mpr (issued_of_mem_parameters hp)) ?_ ?_
  · exact List.any_eq_true.mpr ⟨p, hp, by simp⟩
  · intro d _ hany
    obtain ⟨q, hq, heq⟩ := List.any_eq_true.mp hany
    exact (h.unique hq hp (of_decide_eq_true heq)).1

/-- Whatever is found is listed. -/
theorem exists_of_parameter? {p : ParameterId} {q : Parameter}
    (h : schema.parameter? p = some q) :
    q.id = p ∧ ∃ c, q ∈ (schema.command c).parameters :=
  ⟨of_decide_eq_true (List.find?_some (p := fun q : Parameter => decide (q.id = p)) h),
    mem_parameters.mp (List.mem_of_find?_eq_some h)⟩

theorem mem_idsOf_of_owner? {p : ParameterId} (h : schema.owner? p = some c) :
    p ∈ schema.idsOf c := by
  have hany := List.find?_some
    (p := fun c => (schema.command c).parameters.any fun q => decide (q.id = p)) h
  obtain ⟨q, hq, heq⟩ := List.any_eq_true.mp hany
  exact mem_idsOf.mpr ⟨q, hq, of_decide_eq_true heq⟩

/-- A parameter sees those of its own command and of the commands above. -/
theorem exists_of_sees {p q : ParameterId} (h : schema.sees p q = true) :
    ∃ c d, p ∈ schema.idsOf c ∧ q ∈ schema.idsOf d ∧ d ∈ c :: (schema.command c).ancestors := by
  unfold sees at h
  split at h
  · next c d hc hd =>
      refine ⟨c, d, mem_idsOf_of_owner? hc, mem_idsOf_of_owner? hd, ?_⟩
      simpa [isAbove] using h
  · cases h

end Schema

end CommandLine
