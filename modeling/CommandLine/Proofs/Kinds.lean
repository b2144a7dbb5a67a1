import CommandLine.Proofs.Delivering

/-!
# The kinds of variables

A variable is bound when its parameter is declared, and says how many
values the parameter takes. No later call changes that, although parses
write to the variable and the parameter may be removed
(`Reachable.fits`).
-/

namespace CommandLine

namespace Field

variable {α : Type} {view : Field → α} {field : Field}

/-- What `view` sees of a variable stays as it is when the variable is written to. -/
structure Steady (view : Field → α) : Prop where
  put : ∀ value field, view (put value field) = view field
  mentionTimes : ∀ n field, view (mentionTimes n field) = view field

theorem Steady.store (h : Steady view) {text : String} {after : Field}
    (hstore : field.store text = .ok after) : view after = view field := by
  cases htype : field.type? with
  | some type =>
      obtain ⟨value, -, rfl⟩ := (store_eq_ok htype).mp hstore
      exact h.put value field
  | none =>
      cases field with
      | switch | counter =>
          cases hstore
          rfl
      | scalar | optional | collection => cases htype

theorem Steady.storeAll (h : Steady view) (texts : List String) (field : Field) :
    view (storeAll texts field).1 = view field := by
  refine Attempt.each_rel (R := fun field after => view after = view field) (fun _ => rfl)
    (fun a b c (hab : view b = view a) (hbc : view c = view b) => hbc.trans hab)
    (fun text _ field => ?_) field
  cases hstore : field.store text with
  | error fault => rfl
  | ok after => exact h.store hstore

/-- Of the flags, only a switch and a counter have a content that mentions change. -/
theorem Steady.of_put (hput : ∀ value field, view (Field.put value field) = view field)
    (hswitch : ∀ old new target, view (switch old target) = view (switch new target))
    (hcounter : ∀ old new, view (counter old) = view (counter new)) : Steady view where
  put := hput
  mentionTimes n field := by
    cases field with
    | counter old => exact hcounter _ old
    | switch old target =>
        simp only [Field.mentionTimes]
        split
        · exact hswitch target old target
        · rfl
    | scalar | optional | collection =>
        simp only [Field.mentionTimes]
        split <;> rfl

theorem steady_nargs : Steady nargs :=
  .of_put (fun _ field => by cases field <;> rfl) (fun _ _ _ => rfl) fun _ _ => rfl

theorem steady_type? : Steady type? :=
  .of_put (fun value field => type?_put field value) (fun _ _ _ => rfl) fun _ _ => rfl

end Field

namespace Variables

variable {vs after : Variables} {schema grown : Schema} {c : CommandId}

/-- The same variables are bound, and each takes as many values as before. -/
def SameKinds (vs after : Variables) : Prop :=
  ∀ q, (after.find? q).map Field.nargs = (vs.find? q).map Field.nargs

/-- The same variables are bound, and `view` sees of each what it did before. -/
def SameBy {α : Type} (view : Field → α) (vs after : Variables) : Prop :=
  ∀ q, (after.find? q).map view = (vs.find? q).map view

section Steady

variable {α : Type} {view : Field → α}

theorem SameBy.refl (vs : Variables) : vs.SameBy view vs := fun _ => rfl

theorem SameBy.trans {between : Variables} (h : vs.SameBy view between)
    (hrest : between.SameBy view after) : vs.SameBy view after :=
  fun q => (hrest q).trans (h q)

theorem sameBy_set {p : ParameterId} {field new : Field} (hfield : vs.find? p = some field)
    (hview : view new = view field) : vs.SameBy view (vs.set p new) := by
  intro q
  by_cases hq : q = p
  · subst hq
    rw [find?_set_self, hfield, Option.map_some, Option.map_some, Option.map_some, hview]
  · rw [find?_set_of_ne hq]

theorem sameBy_deliver (h : Field.Steady view) (files : FileStore) (p : Parameter)
    (d : Delivery) : d.vars.SameBy view (p.deliver files d).1.vars := by
  have hwriteFlag : ∀ n, d.vars.SameBy view (p.writeFlag n d.vars) := by
    intro n
    rw [Parameter.writeFlag]
    split
    · exact .refl _
    · next hfield => exact sameBy_set hfield (h.mentionTimes n _)
  have hwrite : ∀ texts, d.vars.SameBy view (p.write texts d.vars).1 := by
    intro texts
    rw [Parameter.write]
    split
    · exact .refl _
    · next hfield => exact sameBy_set hfield (h.storeAll texts _)
  rw [Parameter.deliver]
  split
  · exact .refl _
  · split
    · rw [Parameter.deliverFlag]
      split
      · exact hwriteFlag _
      · exact .refl _
    · rw [Parameter.deliverValues]
      dsimp only
      split
      · exact .refl _
      · split
        · exact .refl _
        · exact hwrite _

theorem sameBy_each {ι : Type} {f : ι → Attempt Delivery ParseError}
    (hf : ∀ i (d : Delivery), d.vars.SameBy view (f i d).1.vars) (l : List ι) (d : Delivery) :
    d.vars.SameBy view (Attempt.each f l d).1.vars :=
  Attempt.each_rel (R := fun d e => d.vars.SameBy view e.vars) (fun _ => .refl _)
    (fun _ _ _ hde hef => hde.trans hef) (fun i _ => hf i) d

theorem sameBy_deliverFrame (h : Field.Steady view) (schema : Schema) (files : FileStore)
    (frame : Frame) (innermost : Bool) (d : Delivery) :
    d.vars.SameBy view (schema.deliverFrame files frame innermost d).1.vars := by
  rw [Schema.fst_deliverFrame]
  exact sameBy_each (sameBy_deliver h files) _ d

end Steady

/-- Every variable is bound to a number that has been given out, and takes as many values as the
parameter of that number, if it is still there. -/
structure Fits (vs : Variables) (schema : Schema) : Prop where
  issued : ∀ p field, vs.find? p = some field → p.number < schema.nextParameter
  nargs : ∀ c, ∀ p ∈ (schema.command c).parameters, ∀ field, vs.find? p.id = some field →
    field.nargs = p.nargs

theorem Fits.edit (h : vs.Fits schema) (hedit : Schema.Edit schema grown) : vs.Fits grown := by
  refine ⟨fun p field hfield => (h.issued p field hfield).trans_le hedit.nextParameter_le, ?_⟩
  intro c p hp field hfield
  rcases hedit.parameter_cases hp with ⟨old, hold, hid, -, hnargs⟩ | ⟨hid, -⟩
  · rw [hnargs]
    exact h.nargs c old hold field (hid ▸ hfield)
  · -- Nothing is bound to a number that was not given out.
    have hissued := h.issued p.id field hfield
    rw [hid] at hissued
    exact absurd hissued (Nat.lt_irrefl _)

theorem Fits.edits (h : vs.Fits schema) (hedits : Schema.Edits schema grown) : vs.Fits grown := by
  induction hedits with
  | refl => exact h
  | tail _ hlast ih => exact ih.edit hlast

theorem Fits.sameKinds (h : vs.Fits schema) (hsame : vs.SameKinds after) : after.Fits schema := by
  have hbound : ∀ p field, after.find? p = some field →
      ∃ old, vs.find? p = some old ∧ old.nargs = field.nargs := by
    intro p field hfield
    have hnargs := hsame p
    rw [hfield, Option.map_some] at hnargs
    exact Option.map_eq_some_iff.mp hnargs.symm
  refine ⟨fun p field hfield => ?_, fun c p hp field hfield => ?_⟩
  · obtain ⟨old, hold, -⟩ := hbound p field hfield
    exact h.issued p old hold
  · obtain ⟨old, hold, hnargs⟩ := hbound p.id field hfield
    rw [← hnargs]
    exact h.nargs c p hp old hold

theorem find?_insert (vs : Variables) (p q : ParameterId) (field : Field) :
    (vs.insert p field).find? q = (vs.find? q).or (if q = p then some field else none) := by
  simp only [insert, find?, List.lookup_append]
  congr 1
  by_cases hq : q = p
  · simp [hq]
  · simp [List.lookup_cons, hq, beq_eq_false_iff_ne.mpr hq]

theorem Fits.insert (h : vs.Fits schema) {p : ParameterId} {field : Field}
    (hp : p.number < schema.nextParameter)
    (hnargs : ∀ c, ∀ q ∈ (schema.command c).parameters, q.id = p → field.nargs = q.nargs) :
    (vs.insert p field).Fits schema := by
  have hbound : ∀ q bound, (vs.insert p field).find? q = some bound →
      vs.find? q = some bound ∨ q = p ∧ bound = field := by
    intro q bound hq
    rw [find?_insert, Option.or_eq_some_iff] at hq
    rcases hq with hold | ⟨-, hnew⟩
    · exact Or.inl hold
    · split at hnew
      · next heq =>
          cases hnew
          exact Or.inr ⟨heq, rfl⟩
      · cases hnew
  refine ⟨fun q bound hq => ?_, fun c q hmem bound hq => ?_⟩
  · rcases hbound q bound hq with hold | ⟨rfl, -⟩
    · exact h.issued q bound hold
    · exact hp
  · rcases hbound q.id bound hq with hold | ⟨hid, rfl⟩
    · exact h.nargs c q hmem bound hold
    · exact hnargs c q hmem hid

end Variables

namespace Parser

variable {parser next : Parser} {world : World} {tokens : List String} {scan : Scan}
  {c : CommandId}

theorem nargs_of_field? {declaration : Declaration} {field : Field}
    (h : declaration.field? = some field) : field.nargs = declaration.nargs := by
  unfold Declaration.field? at h
  unfold Declaration.nargs
  cases hbinding : declaration.binding with
  | option | argument =>
      rw [hbinding] at h
      cases h
      rfl
  | values =>
      rw [hbinding] at h
      cases h

theorem fits_add (hwf : parser.schema.WellFormed) (h : parser.vars.Fits parser.schema)
    (hc : parser.schema.Issued c) (declaration : Declaration) :
    (parser.add c declaration).1.vars.Fits (parser.add c declaration).1.schema := by
  rw [add]
  cases hadd : parser.schema.addParameter c declaration with
  | error error => exact h
  | ok added =>
      obtain ⟨p, grown⟩ := added
      have hedit := Schema.addParameter_edit hc hadd
      have hnodup := (hwf.edit hedit).nodup
      obtain ⟨names, -, -, -, rfl, rfl⟩ := Schema.addParameter_eq_ok.mp hadd
      cases hfield : declaration.field? with
      | none => exact h.edit hedit
      | some field =>
          refine (h.edit hedit).insert (Nat.lt_succ_self _) fun d q hq hid => ?_
          -- The number belongs to the new parameter and to no other one.
          have hnew : declaration.toParameter ⟨parser.schema.nextParameter⟩ names ∈
              ((parser.schema.withParameter c
                (declaration.toParameter ⟨parser.schema.nextParameter⟩ names)).command
                  c).parameters := by
            rw [Schema.command_withParameter_self hc]
            exact List.mem_append_right _ (List.mem_singleton.mpr rfl)
          rw [(hnodup.unique hq hnew hid).2]
          exact nargs_of_field? hfield

theorem vars_commit (outcome : Except DeclarationError Schema) :
    (parser.commit outcome).1.vars = parser.vars := by
  cases outcome <;> rfl

theorem sameBy_parse {α : Type} {view : Field → α} (h : Field.Steady view)
    (hwf : parser.schema.WellFormed) (world : World) (tokens : List String) :
    parser.vars.SameBy view (parser.parse world tokens).1.vars := by
  rcases parser.gathers_or_unfinished world tokens with ⟨scan, hgathers⟩ | ⟨hvars, -⟩
  · rw [hgathers.parse_eq, vars_finish, Schema.deliver_eq_each (hgathers.nodup_frames hwf)]
    exact Variables.sameBy_each
      (fun frame => Variables.sameBy_deliverFrame h parser.schema world.files frame _) _ _
  · rw [hvars]
    exact .refl _

theorem Next.fits (hwf : parser.schema.WellFormed) (hnext : Next parser next)
    (h : parser.vars.Fits parser.schema) : next.vars.Fits next.schema := by
  have hedits := hnext.edits hwf.root
  obtain ⟨call, hc⟩ := hnext
  cases call with
  | add c declaration => exact fits_add hwf h (hc c rfl) declaration
  | parse world tokens =>
      rw [after, schema_parse]
      exact h.sameKinds (sameBy_parse Field.steady_nargs hwf world tokens)
  | set | relate | remove =>
      show (parser.commit _).1.vars.Fits _
      rw [vars_commit]
      exact h.edits hedits
  | addSubcommand | replaceHelp | replaceConfig => exact h.edits hedits
  | setAbout | setFooter | onComplete | useFormat | useFormatter | reset => exact h.edits hedits

theorem Reachable.fits (h : Reachable parser) : parser.vars.Fits parser.schema := by
  obtain ⟨program, hleads⟩ := h
  induction hleads with
  | refl => exact ⟨fun _ _ hfield => (by cases hfield), fun _ _ _ _ hfield => (by cases hfield)⟩
  | tail hleads hnext ih => exact hnext.fits (Reachable.wellFormed ⟨program, hleads⟩) ih

end Parser

end CommandLine
