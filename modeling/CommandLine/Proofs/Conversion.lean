import CommandLine.Delivery.Deliver
import Mathlib.Algebra.Ring.Int.Defs
import Mathlib.Data.List.Forall2
import Mathlib.Logic.Relation

/-!
# From invocations to a variable

What it takes to deliver one parameter, stage by stage. All checks accept
a list of values exactly if each value passes one check after the other
(`runChecks_eq_none`), the texts are stored exactly if each of them can be
read (`Field.storeAll_eq_ok`), and the mentions of a flag are added up, on
64 bits (`mentionSum_eq_ok`). `Parameter.deliver_eq_ok_of_flag` and
`Parameter.deliver_eq_ok_of_values` put the stages together and say what
has become of the parameter.
-/

namespace CommandLine

/-! ## Variables -/

namespace Variables

variable {vs : Variables} {p q : ParameterId} {field : Field}

theorem find?_set_self :
    (vs.set p field).find? p = (vs.find? p).map fun _ => field := by
  obtain ⟨entries⟩ := vs
  simp only [set, find?]
  induction entries with
  | nil => rfl
  | cons entry entries ih =>
      obtain ⟨key, content⟩ := entry
      by_cases hkey : key = p
      · simp [hkey]
      · simp [List.lookup_cons, hkey, beq_eq_false_iff_ne.mpr (Ne.symm hkey), ih]

theorem find?_set_of_ne (h : q ≠ p) : (vs.set p field).find? q = vs.find? q := by
  obtain ⟨entries⟩ := vs
  simp only [set, find?]
  induction entries with
  | nil => rfl
  | cons entry entries ih =>
      obtain ⟨key, content⟩ := entry
      by_cases hkey : key = p
      · simp [List.lookup_cons, hkey, beq_eq_false_iff_ne.mpr h, ih]
      · simp [List.lookup_cons, hkey, ih]

end Variables

/-! ## Checks -/

theorem forall₂_comp {α β γ : Type} {R : α → β → Prop} {S : β → γ → Prop} :
    List.Forall₂ (Relation.Comp R S) = Relation.Comp (List.Forall₂ R) (List.Forall₂ S) := by
  funext l n
  refine propext ⟨fun h => ?_, ?_⟩
  · induction h with
    | nil => exact ⟨[], .nil, .nil⟩
    | cons hac _ ih =>
        obtain ⟨b, hab, hbc⟩ := hac
        obtain ⟨m, hlm, hmn⟩ := ih
        exact ⟨b :: m, .cons hab hlm, .cons hbc hmn⟩
  · rintro ⟨m, hlm, hmn⟩
    induction hmn generalizing l with
    | nil =>
        cases hlm
        exact .nil
    | cons hbc _ ih =>
        cases hlm with
        | cons hab hlm => exact .cons ⟨_, hab, hbc⟩ (ih _ hlm)

/-- Every element is related to something exactly if there is a list of what they are related to. -/
theorem exists_forall₂ {α β : Type} {R : α → β → Prop} {l : List α} :
    (∃ m, List.Forall₂ R l m) ↔ ∀ a ∈ l, ∃ b, R a b := by
  induction l with
  | nil => exact ⟨fun _ _ h => absurd h List.not_mem_nil, fun _ => ⟨[], .nil⟩⟩
  | cons a l ih =>
      rw [List.forall_mem_cons, ← ih]
      constructor
      · rintro ⟨_, hm⟩
        cases hm with
        | cons hab hlm => exact ⟨⟨_, hab⟩, _, hlm⟩
      · rintro ⟨⟨b, hab⟩, m, hlm⟩
        exact ⟨b :: m, .cons hab hlm⟩

/-- What the checks make of a value, each of what the one before has made of it. -/
def checkValue (files : FileStore) (checks : List Check) (value : String) : Except String String :=
  checks.foldlM (fun value check => check.run files value) value

/-- The checks accept all values of the invocations, and make the others of them. -/
def Passes (files : FileStore) (checks : List Check) : (before after : List (List String)) → Prop :=
  List.Forall₂ (List.Forall₂ fun value result => checkValue files checks value = .ok result)

variable {files : FileStore} {check : Check} {checks : List Check} {values results : List String}
  {invocations checked : List (List String)}

theorem overValues_eq_none :
    check.overValues files values = (results, none) ↔
      List.Forall₂ (fun value result => check.run files value = .ok result) values results := by
  induction values generalizing results with
  | nil => simp [Check.overValues, eq_comm]
  | cons value values ih =>
      rw [Check.overValues]
      rcases happly : check.apply files value with ⟨left, message | ⟨⟨⟩⟩⟩
      · refine ⟨fun h => (by cases h), fun h => ?_⟩
        cases h with
        | cons hvalue _ => rw [Check.run_eq_ok, happly] at hvalue; cases hvalue
      · rcases hrest : check.overValues files values with ⟨rest, rejection⟩
        constructor
        · intro h
          cases h
          exact .cons (Check.run_eq_ok.mpr happly) (ih.mp hrest)
        · intro h
          cases h with
          | cons hvalue hvalues =>
              rw [Check.run_eq_ok, happly] at hvalue
              cases hvalue
              have heq := ih.mpr hvalues
              rw [hrest] at heq
              cases heq
              rfl

theorem overInvocations_eq_none :
    check.overInvocations files invocations = (checked, none) ↔
      List.Forall₂ (List.Forall₂ fun value result => check.run files value = .ok result)
        invocations checked := by
  induction invocations generalizing checked with
  | nil => simp [Check.overInvocations, eq_comm]
  | cons values invocations ih =>
      rw [Check.overInvocations]
      rcases hvalues : check.overValues files values with ⟨results, _ | message⟩
      · rcases hrest : check.overInvocations files invocations with ⟨rest, rejection⟩
        constructor
        · intro h
          cases h
          exact .cons (overValues_eq_none.mp hvalues) (ih.mp hrest)
        · intro h
          cases h with
          | cons hfirst hothers =>
              have hfirst := overValues_eq_none.mpr hfirst
              have hothers := ih.mpr hothers
              rw [hvalues] at hfirst
              rw [hrest] at hothers
              cases hfirst
              cases hothers
              rfl
      · refine ⟨fun h => (by cases h), fun h => ?_⟩
        cases h with
        | cons hfirst _ =>
            have hfirst := overValues_eq_none.mpr hfirst
            rw [hvalues] at hfirst
            cases hfirst

/-- To run each check on all values is to run all checks on each value. -/
theorem runChecks_eq_none :
    runChecks files checks invocations = (checked, none) ↔
      Passes files checks invocations checked := by
  induction checks generalizing invocations with
  | nil =>
      have hsame : (fun value result : String => checkValue files [] value = .ok result) = Eq := by
        funext value result
        exact propext ⟨fun h => Except.ok.inj h, congrArg _⟩
      rw [Passes, hsame, List.forall₂_eq_eq_eq, List.forall₂_eq_eq_eq, runChecks]
      simp
  | cons check checks ih =>
      -- The first check has seen all values before the second sees any: the two orders agree
      -- because `Forall₂` of a composition is the composition of two `Forall₂`.
      have hchain : (fun value result => checkValue files (check :: checks) value = .ok result) =
          Relation.Comp (fun value result => check.run files value = .ok result)
            fun value result => checkValue files checks value = .ok result := by
        funext value result
        rw [checkValue, List.foldlM_cons]
        cases hrun : check.run files value with
        | error message =>
            refine propext ⟨fun h => (by cases h), ?_⟩
            rintro ⟨between, hfirst, -⟩
            rw [hrun] at hfirst
            cases hfirst
        | ok accepted =>
            refine propext ⟨fun h => ⟨accepted, hrun, h⟩, ?_⟩
            rintro ⟨between, hfirst, hrest⟩
            rw [hrun] at hfirst
            cases hfirst
            exact hrest
      rw [Passes, hchain, forall₂_comp, forall₂_comp, runChecks]
      constructor
      · intro h
        rcases hover : check.overInvocations files invocations with ⟨between, _ | message⟩
        · rw [hover] at h
          exact ⟨between, overInvocations_eq_none.mp hover, ih.mp h⟩
        · rw [hover] at h
          cases h
      · rintro ⟨between, hfirst, hrest⟩
        rw [overInvocations_eq_none.mpr hfirst]
        exact ih.mpr hrest

theorem length_overInvocations (check : Check) (files : FileStore)
    (invocations : List (List String)) :
    (check.overInvocations files invocations).1.length = invocations.length := by
  induction invocations with
  | nil => rfl
  | cons values invocations ih =>
      rw [Check.overInvocations]
      split
      · rfl
      · exact congrArg (· + 1) ih

theorem length_runChecks (files : FileStore) (checks : List Check)
    (invocations : List (List String)) :
    (runChecks files checks invocations).1.length = invocations.length := by
  induction checks generalizing invocations with
  | nil => rfl
  | cons check checks ih =>
      have hover := length_overInvocations check files invocations
      rw [runChecks]
      split
      · next heq =>
          rw [heq] at hover
          exact hover
      · next heq =>
          rw [heq] at hover
          rw [ih, hover]

/-! ## Storing -/

/-- The texts are read as these values, one by one. -/
def ValueType.Reads (type : ValueType) : List String → List Value → Prop :=
  List.Forall₂ fun text value => type.read? text = some value

namespace Field

variable {field after : Field} {type : ValueType} {text : String} {texts : List String}

/-- The type of what the variable of a parameter with values holds. A flag's has none. -/
def type? : Field → Option ValueType
  | scalar type _ | optional type _ | collection type .. => some type
  | switch .. | counter _ => none

/-- The variable with one more value. -/
def put (value : Value) : Field → Field
  | scalar type _ => scalar type value
  | optional type _ => optional type (some value)
  | collection type container nargs values =>
    collection type container nargs (container.insert value values)
  | flag => flag

@[simp] theorem type?_put (field : Field) (value : Value) :
    (field.put value).type? = field.type? := by
  cases field <;> rfl

theorem store_eq_ok (htype : field.type? = some type) :
    field.store text = .ok after ↔
      ∃ value, type.read? text = some value ∧ field.put value = after := by
  cases field with
  | switch | counter => cases htype
  | scalar | optional | collection =>
      cases htype
      rw [store, store.convert]
      cases type.read? text <;> simp [Except.map, put]

theorem storeAll_eq_ok (htype : field.type? = some type) :
    storeAll texts field = (after, .ok ()) ↔
      ∃ values, type.Reads texts values ∧
        values.foldl (fun field value => field.put value) field = after := by
  induction texts generalizing field with
  | nil => simp [storeAll, Attempt.each, ValueType.Reads]
  | cons text texts ih =>
      rw [storeAll, Attempt.each, Attempt.andThen_eq_ok]
      constructor
      · rintro ⟨between, hfirst, hrest⟩
        have hstore : field.store text = .ok between := by
          cases hstore : field.store text with
          | error fault => simp [hstore] at hfirst
          | ok stored =>
              simp only [hstore, Prod.mk.injEq, and_true] at hfirst
              rw [hfirst]
        obtain ⟨value, hread, rfl⟩ := (store_eq_ok htype).mp hstore
        obtain ⟨values, hvalues, hfold⟩ := (ih ((type?_put _ _).trans htype)).mp hrest
        exact ⟨value :: values, .cons hread hvalues, hfold⟩
      · rintro ⟨values, hvalues, hfold⟩
        cases hvalues with
        | @cons _ value _ values hread hvalues =>
            have hstore := (store_eq_ok htype).mpr ⟨value, hread, rfl⟩
            refine ⟨field.put value, by rw [hstore], ?_⟩
            exact (ih ((type?_put _ _).trans htype)).mpr ⟨values, hvalues, hfold⟩

theorem storeAll_of_flag (htype : field.type? = none) (texts : List String) :
    storeAll texts field = (field, .ok ()) := by
  have hstore : ∀ text, field.store text = .ok field := by
    cases field with
    | switch | counter => exact fun _ => rfl
    | scalar | optional | collection => cases htype
  induction texts with
  | nil => rfl
  | cons text texts ih =>
      rw [storeAll, Attempt.each, Attempt.andThen, hstore]
      exact ih

end Field

/-! ## Mentions -/

/-- The sum of the numbers on 64 bits with a sign. -/
def signedSum (counts : List Int) : Int := (Int64.ofInt counts.sum).toInt

/-- A sum that fits is exact, however far it was from fitting on the way. -/
theorem signedSum_of_holds {counts : List Int} (h : IntegerType.i64.holds counts.sum = true) :
    signedSum counts = counts.sum := by
  rw [IntegerType.holds, Bool.and_eq_true, decide_eq_true_eq, decide_eq_true_eq] at h
  obtain ⟨hmin, hmax⟩ := h
  exact Int64.toInt_ofInt_of_le hmin (Int.lt_of_le_sub_one hmax)

example : signedSum [9223372036854775807, 1] = -9223372036854775808 := by decide

/-- A single value stands for a number that fits. -/
theorem holds_of_mentions {value : String} {n : Int} (h : mentions value = .ok n) :
    IntegerType.i64.holds n = true := by
  unfold mentions FlagText.count at h
  dsimp only at h
  split at h
  · cases h
    decide
  · split at h
    · cases h
      decide
    · split at h
      · cases h
        decide
      · split at h
        · next hread =>
            cases h
            exact (Option.filter_eq_some_iff.mp hread).2
        · cases h

theorem mentionSum_cons_eq_ok {value : String} {n : Int64} :
    mentionSum (value :: values) = .ok n ↔
      ∃ first more, mentions value = .ok first ∧ mentionSum values = .ok more ∧
        n = Int64.ofInt first + more := by
  rw [mentionSum]
  cases mentions value with
  | error fault => simp
  | ok first =>
      cases mentionSum values with
      | error fault => simp [Except.map]
      | ok more => simp [Except.map, eq_comm]

/-- The mentions of a flag can be added up if each value stands for a number of them. To wrap round
at every step comes to the same as to do it in the end. -/
theorem mentionSum_eq_ok {n : Int64} :
    mentionSum values = .ok n ↔
      ∃ counts, List.Forall₂ (fun value count => mentions value = .ok count) values counts ∧
        Int64.ofInt counts.sum = n := by
  induction values generalizing n with
  | nil => simp [mentionSum]
  | cons value values ih =>
      rw [mentionSum_cons_eq_ok]
      constructor
      · rintro ⟨first, more, hfirst, hmore, rfl⟩
        obtain ⟨counts, hcounts, rfl⟩ := ih.mp hmore
        exact ⟨first :: counts, .cons hfirst hcounts, by rw [List.sum_cons, Int64.ofInt_add]⟩
      · rintro ⟨_, hcounts, rfl⟩
        cases hcounts with
        | cons hfirst hothers =>
            exact ⟨_, _, hfirst, ih.mpr ⟨_, hothers, rfl⟩,
              by rw [List.sum_cons, Int64.ofInt_add]⟩

/-- The sum of one value is what the value stands for. -/
theorem mentionSum_singleton {value : String} {n : Int} (h : mentions value = .ok n) :
    ∃ total, mentionSum [value] = .ok total ∧ total.toInt = n := by
  have hone : [n].sum = n := List.sum_singleton
  refine ⟨Int64.ofInt [n].sum, mentionSum_eq_ok.mpr ⟨[n], .cons h .nil, rfl⟩, ?_⟩
  calc signedSum [n] = [n].sum := signedSum_of_holds (by rw [hone]; exact holds_of_mentions h)
    _ = n := hone

/-! ## One parameter -/

namespace Parameter

variable {p : Parameter} {d e : Delivery} {vs after : Variables}

/-- A policy only ever finds fault with the number of values. -/
theorem mismatch_of_finalValues {error : ParseError}
    (h : p.finalValues invocations = .error error) :
    ∃ expected received, error = .argumentMismatch p.label expected received := by
  unfold finalValues at h
  dsimp only at h
  split at h
  · cases h
    exact ⟨_, _, rfl⟩
  · split at h
    · cases h
    · split at h
      · split at h <;> cases h
        exact ⟨_, _, rfl⟩
      · split at h <;> cases h
        exact ⟨_, _, rfl⟩
    · cases h
    · cases h
    · cases h

/-- Only a conversion keeps values from being written. -/
theorem conversion_of_write {error : ParseError} (h : (p.write values vs).2 = .error error) :
    ∃ text fault, error = .conversion p.label text fault := by
  unfold write at h
  split at h
  · cases h
  · next field _ =>
      rcases hstored : Field.storeAll values field with ⟨new, fault | ⟨⟨⟩⟩⟩ <;>
        simp only [hstored, Except.mapError] at h <;> cases h
      exact ⟨_, _, rfl⟩

theorem write_eq_ok :
    p.write values vs = (after, .ok ()) ↔
      (vs.find? p.id = none ∧ vs = after) ∨
        ∃ field new, vs.find? p.id = some field ∧
          Field.storeAll values field = (new, .ok ()) ∧ vs.set p.id new = after := by
  rw [write]
  cases vs.find? p.id with
  | none => simp
  | some field =>
      rcases hstored : Field.storeAll values field with ⟨new, error | ⟨⟨⟩⟩⟩ <;>
        simp [hstored, Except.mapError]

theorem deliver_of_not_invoked (h : d.bindings.invoked p.id = false) :
    p.deliver files d = (d, .ok ()) := by
  rw [deliver, h]
  rfl

/-- A flag is delivered: its mentions add up, and its variable has been told the sum. -/
theorem deliver_eq_ok_of_flag (hinvoked : d.bindings.invoked p.id = true)
    (hflag : p.nargs.isFlag = true) :
    p.deliver files d = (e, .ok ()) ↔
      ∃ n, mentionSum (d.bindings.values p.id) = .ok n ∧
        { d with vars := p.writeFlag n.toInt d.vars } = e := by
  rw [deliver, hinvoked, hflag]
  simp only [Bool.not_true, Bool.false_eq_true, if_false, if_true, deliverFlag]
  cases mentionSum (d.bindings.values p.id) <;> simp

/-- A parameter that is no flag is delivered: its values pass the checks, can be reduced, and
have all been written to its variable. -/
theorem deliver_eq_ok_of_values (hinvoked : d.bindings.invoked p.id = true)
    (hflag : p.nargs.isFlag = false) :
    p.deliver files d = (e, .ok ()) ↔
      ∃ checked texts vars, Passes files p.checks (d.bindings.of p.id) checked ∧
        p.finalValues checked = .ok texts ∧ p.write texts d.vars = (vars, .ok ()) ∧
        ⟨d.bindings.set p.id checked, vars⟩ = e := by
  rw [deliver, hinvoked, hflag]
  simp only [Bool.not_true, Bool.false_eq_true, if_false, deliverValues, ← runChecks_eq_none]
  rcases runChecks files p.checks (d.bindings.of p.id) with ⟨checked, _ | message⟩
  · cases hfinal : p.finalValues checked with
    | error error => simp [hfinal]
    | ok texts =>
        simp only [Prod.mk.injEq, and_true]
        constructor
        · rintro ⟨rfl, houtcome⟩
          exact ⟨checked, texts, _, rfl, hfinal, Prod.ext rfl houtcome, rfl⟩
        · rintro ⟨_, _, _, rfl, hother, hwrite, rfl⟩
          rw [hfinal] at hother
          cases hother
          rw [hwrite]
          exact ⟨rfl, rfl⟩
  · simp

end Parameter

end CommandLine
