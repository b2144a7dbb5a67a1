import CommandLine.Proofs.Gathering

/-!
# What a configuration file adds

Each item of a configuration file leads to a parameter of an active
command, to a command that was not entered, or nowhere. A file that is
accepted adds to each open parameter the inputs of the items that lead to
it (`Schema.of_layerConfig`). No file, nor the environment after it,
adds anything to other parameters (`Schema.LayersKeep`). Items that
stray, since they are addressed to a command off the active path, might
as well not be there (`Schema.DropsStrays.layerConfig_eq`).
-/

namespace CommandLine

namespace Schema

variable {schema : Schema} {path : List CommandId} {given b after : Bindings}
  {items : List ConfigItem} {item : ConfigItem} {c d : CommandId} {p : ParameterId}

/-! ## The configuration file -/

def leadsTo (schema : Schema) (path : List CommandId) (p : ParameterId) (item : ConfigItem) :
    Bool :=
  match schema.route path item with
  | .parameter q => q.id = p
  | .inactive | .unknown _ => false

/-- What the items say about the parameter, one invocation for each item that leads to it. -/
def inputsFor (schema : Schema) (path : List CommandId) (items : List ConfigItem)
    (p : ParameterId) : List (List String) :=
  (items.filter (schema.leadsTo path p)).map (·.inputs)

/-- The items of the configuration file that is to be read, if it can be. -/
def fileItems (schema : Schema) (format : ConfigFormat) (files : FileStore) (b : Bindings) :
    List ConfigItem :=
  match schema.configFile? b with
  | none => []
  | some (file, _) => ((files.readText? file).map format.read).getD []

theorem inputsFor_cons (item : ConfigItem) (items : List ConfigItem) :
    schema.inputsFor path (item :: items) p =
      schema.inputsFor path [item] p ++ schema.inputsFor path items p := by
  rw [inputsFor, ← List.singleton_append, List.filter_append, List.map_append]
  rfl

/-- An item is accepted if it leads to a command off the path, nowhere in a command that allows
this, or to a parameter that may be configured. Only there does it add anything, and only if the
command line has not given the parameter values. -/
theorem addItem_eq_ok :
    schema.addItem path given item b = .ok after ↔
      (schema.route path item = .inactive ∧ b = after) ∨
      (∃ c, schema.route path item = .unknown c ∧
        (schema.command c).settings.allowConfigExtras = true ∧ b = after) ∨
      ∃ q, schema.route path item = .parameter q ∧ q.configurable = true ∧
        (given.invoked q.id = true ∧ b = after ∨
          given.invoked q.id = false ∧ (q.nargs.isFlag = true → item.inputs.length = 1) ∧
            b.push q.id item.inputs = after) := by
  unfold addItem
  cases schema.route path item with
  | inactive => simp
  | unknown c =>
      by_cases hallowed : (schema.command c).settings.allowConfigExtras <;> simp [hallowed]
  | parameter q =>
      by_cases hconfigurable : q.configurable
      · by_cases hgiven : given.invoked q.id
        · simp [hconfigurable, hgiven]
        · cases hflag : q.nargs.isFlag with
          | false => simp [hconfigurable, hgiven, hflag]
          | true =>
              by_cases hsingle : item.inputs.length = 1 <;>
                simp [hconfigurable, hgiven, hflag, hsingle]
      · simp [hconfigurable]

/-- An item that is accepted adds its inputs to the parameter that it leads to, unless the
command line has given it values. -/
theorem of_addItem (h : schema.addItem path given item b = .ok after) :
    after.of p = b.of p ++ if given.invoked p then [] else schema.inputsFor path [item] p := by
  obtain ⟨hroute, rfl⟩ | ⟨c, hroute, -, rfl⟩ | ⟨q, hroute, -, hadded⟩ := addItem_eq_ok.mp h
  · simp [inputsFor, leadsTo, hroute]
  · simp [inputsFor, leadsTo, hroute]
  · have hleads : schema.inputsFor path [item] p = if q.id = p then [item.inputs] else [] := by
      by_cases hq : q.id = p <;> simp [inputsFor, leadsTo, hroute, hq]
    by_cases hq : q.id = p
    · subst hq
      obtain ⟨hgiven, rfl⟩ | ⟨hgiven, -, rfl⟩ := hadded <;> simp [hleads, hgiven]
    · obtain ⟨-, rfl⟩ | ⟨-, -, rfl⟩ := hadded <;> simp [hleads, hq]

theorem of_addItems (h : schema.addItems path given items b = (after, .ok ())) :
    after.of p = b.of p ++ if given.invoked p then [] else schema.inputsFor path items p := by
  -- `given` stays what the command line gave, while `b` takes in one item after the other.
  induction items generalizing b with
  | nil =>
      cases h
      simp [inputsFor]
  | cons item items ih =>
      rw [addItems, Attempt.each] at h
      obtain ⟨between, hitem, hitems⟩ := Attempt.andThen_eq_ok.mp h
      have hadded : schema.addItem path given item b = .ok between := by
        cases hadd : schema.addItem path given item b with
        | error error => simp [hadd] at hitem
        | ok added =>
            simp only [hadd, Prod.mk.injEq, and_true] at hitem
            rw [hitem]
      rw [ih hitems, of_addItem hadded, inputsFor_cons item items]
      split
      · rw [List.append_nil]
      · rw [List.append_assoc]

theorem of_layerConfig {format : ConfigFormat} {files : FileStore}
    (h : schema.layerConfig format files path b = (after, .ok ())) :
    after.of p =
      b.of p ++ if b.invoked p then [] else
        schema.inputsFor path (schema.fileItems format files b) p := by
  unfold layerConfig at h
  cases hfile : schema.configFile? b with
  | none =>
      rw [hfile] at h
      cases h
      simp [fileItems, hfile, inputsFor]
  | some source =>
      obtain ⟨file, needed⟩ := source
      rw [hfile] at h
      cases htext : files.readText? file with
      | none =>
          simp only [htext] at h
          split at h
          · cases h
          · cases h
            simp [fileItems, hfile, htext, inputsFor]
      | some text =>
          simp only [htext] at h
          rw [of_addItems h]
          simp [fileItems, hfile, htext]

/-! ## Routes -/

/-- A route from an active command ends at an active one. -/
theorem exists_of_routeFrom {name : String} {parents : List String} {q : Parameter}
    (hc : c ∈ path) (h : schema.routeFrom path name c parents = .parameter q) :
    ∃ d ∈ path, q ∈ (schema.command d).parameters := by
  induction parents generalizing c with
  | nil =>
      rw [routeFrom] at h
      split at h
      · next hnamed =>
          cases h
          exact ⟨c, hc, Command.mem_of_named? hnamed⟩
      · cases h
  | cons parent parents ih =>
      rw [routeFrom] at h
      split at h
      · split at h
        · next hchild => exact ih (List.contains_iff_mem.mp hchild) h
        · cases h
      · cases h

/-! ## What the layers keep -/

/-- What is kept when a parameter of the path gets an invocation, which has one value if the
parameter is a flag. -/
def LayersKeep (schema : Schema) (path : List CommandId) (motive : Bindings → Prop) : Prop :=
  ∀ c ∈ path, ∀ p ∈ (schema.command c).parameters, ∀ b (values : List String),
    (p.nargs.isFlag = true → values.length = 1) → motive b → motive (b.push p.id values)

section LayersKeep

variable {motive : Bindings → Prop} (hkeep : schema.LayersKeep path motive)
include hkeep

/-- An item for a flag is accepted with one input only. -/
theorem LayersKeep.addItem (hroot : .root ∈ path) (h : motive b)
    (hitem : schema.addItem path given item b = .ok after) : motive after := by
  obtain ⟨-, rfl⟩ | ⟨-, -, -, rfl⟩ | ⟨q, hroute, -, ⟨-, rfl⟩ | ⟨-, hsingle, rfl⟩⟩ :=
    addItem_eq_ok.mp hitem
  · exact h
  · exact h
  · exact h
  · obtain ⟨d, hd, hq⟩ := exists_of_routeFrom hroot hroute
    exact hkeep d hd q hq b item.inputs hsingle h

/-- This goes for a file that is refused too, up to the item it is refused for. -/
theorem LayersKeep.layerConfig (hroot : .root ∈ path) (h : motive b) (format : ConfigFormat)
    (files : FileStore) : motive (schema.layerConfig format files path b).1 := by
  have hitems : ∀ items, motive (schema.addItems path b items b).1 := fun items => by
    refine Attempt.each_rel (R := fun b more => motive b → motive more) (fun _ h => h)
      (fun _ _ _ hfirst hsecond h => hsecond (hfirst h)) (fun item _ b h => ?_) b h
    split
    · next hitem => exact hkeep.addItem hroot h hitem
    · exact h
  unfold Schema.layerConfig
  split
  · exact h
  · split
    · exact hitems _
    · split <;> exact h

theorem LayersKeep.layerEnvironment (h : motive b) (world : World) :
    motive (schema.layerEnvironment world path b) := by
  rw [Schema.layerEnvironment]
  refine List.foldlRecOn _ _ h fun b hb p hp => ?_
  obtain ⟨c, hc, hp⟩ := List.mem_flatMap.mp hp
  unfold Bindings.addVariable
  split
  · exact hb
  · split
    · exact hkeep c hc p hp b _ (fun _ => rfl) hb
    · exact hb

end LayersKeep

theorem inputsFor_of_inactive (hroot : .root ∈ path) (hp : p ∉ schema.idsOn path) :
    schema.inputsFor path items p = [] := by
  rw [inputsFor, List.map_eq_nil_iff, List.filter_eq_nil_iff]
  intro item _ hleads
  unfold leadsTo at hleads
  split at hleads
  · next q hroute =>
      obtain ⟨d, hd, hq⟩ := exists_of_routeFrom hroot hroute
      exact hp (mem_idsOn.mpr ⟨d, hd, mem_idsOf.mpr ⟨q, hq, of_decide_eq_true hleads⟩⟩)
  · cases hleads
  · cases hleads

/-- The command that names of sub-commands lead to. -/
def follow? (schema : Schema) (c : CommandId) (names : List String) : Option CommandId :=
  names.foldlM schema.child? c

/-- A route ends where it leaves the path, whatever comes then. -/
theorem routeFrom_of_unselected {name : String} {lead below : List String} (hc : c ∈ path)
    (hlead : schema.follow? c lead = some d) (hd : d ∉ path) :
    schema.routeFrom path name c (lead ++ below) = .inactive := by
  induction lead generalizing c with
  | nil =>
      cases hlead
      exact absurd hc hd
  | cons parent lead ih =>
      obtain ⟨child, hchild, hfollow⟩ := Option.bind_eq_some_iff.mp hlead
      rw [List.cons_append, routeFrom, hchild]
      dsimp only
      split
      · next hmem => exact ih (List.contains_iff_mem.mp hmem) hfollow
      · rfl

/-- The item is addressed to a sub-command that was not entered, or to something below it. -/
def Strays (schema : Schema) (path : List CommandId) (item : ConfigItem) : Prop :=
  ∃ lead below d, item.parents = lead ++ below ∧ schema.follow? .root lead = some d ∧ d ∉ path

theorem Strays.route_eq (h : schema.Strays path item) (hroot : .root ∈ path) :
    schema.route path item = .inactive := by
  obtain ⟨lead, below, d, hparents, hlead, hd⟩ := h
  rw [route, hparents]
  exact routeFrom_of_unselected hroot hlead hd

/-- Items that stray might as well not be there. -/
theorem addItems_filter {keep : ConfigItem → Bool} (hroot : .root ∈ path)
    (hkeep : ∀ item ∈ items, keep item = false → schema.Strays path item) :
    schema.addItems path given (items.filter keep) = schema.addItems path given items := by
  induction items with
  | nil => rfl
  | cons item items ih =>
      obtain ⟨hitem, hitems⟩ := List.forall_mem_cons.mp hkeep
      have hrest := ih hitems
      cases hkept : keep item with
      | true =>
          rw [List.filter_cons_of_pos hkept]
          simp only [addItems, Attempt.each] at hrest ⊢
          rw [hrest]
      | false =>
          rw [List.filter_cons_of_neg (by simp [hkept]), hrest]
          funext b
          simp only [addItems, Attempt.each, Attempt.andThen, addItem,
            (hitem hkept).route_eq hroot]

/-- The other format reads the same items from every text, but for some that stray. -/
def DropsStrays (schema : Schema) (path : List CommandId) (format other : ConfigFormat) : Prop :=
  ∀ text, ∃ keep : ConfigItem → Bool, other.read text = (format.read text).filter keep ∧
    ∀ item ∈ format.read text, keep item = false → schema.Strays path item

theorem DropsStrays.layerConfig_eq {format other : ConfigFormat}
    (h : schema.DropsStrays path format other) (hroot : .root ∈ path) (files : FileStore) :
    schema.layerConfig other files path = schema.layerConfig format files path := by
  funext b
  unfold layerConfig
  cases schema.configFile? b with
  | none => rfl
  | some source =>
      obtain ⟨file, needed⟩ := source
      dsimp only
      cases files.readText? file with
      | none => rfl
      | some text =>
          obtain ⟨keep, hread, hkeep⟩ := h text
          dsimp only
          rw [hread, addItems_filter hroot hkeep]

end Schema

namespace Parser

/-- An item is written for each parameter that can be configured and has invocations. -/
theorem configItem?_eq_some {parser : Parser} {parents : List String} {p : Parameter}
    {item : ConfigItem} :
    parser.configItem? parents p = some item ↔
      (p.configurable = true ∧ parser.scan.bindings.invoked p.id = true) ∧
        item = ⟨parents, configName p.names,
          if p.nargs.isFlag then [flagInput (parser.scan.bindings.values p.id)]
          else parser.scan.bindings.values p.id⟩ := by
  rw [configItem?, Option.ite_none_right_eq_some, Bool.and_eq_true, Option.some.injEq,
    @eq_comm _ item]

end Parser

end CommandLine
