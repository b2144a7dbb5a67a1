/-!
# Changes that can fail half way

An `Attempt` changes a state and may fail while doing so; what it had
changed until then stays changed. `Attempt.each` makes one attempt after
the other, up to the first that fails.
-/

namespace CommandLine

/-- The state afterwards, and whether all went well. -/
abbrev Attempt (σ ε : Type) := σ → σ × Except ε Unit

namespace Attempt

/-- Changes nothing and fails if there is an error. -/
def failIf {σ ε : Type} (error : Option ε) : Attempt σ ε := fun s =>
  match error with
  | some e => (s, .error e)
  | none => (s, .ok ())

/-- Makes the second attempt if the first goes well. -/
def andThen {σ ε : Type} (first second : Attempt σ ε) : Attempt σ ε := fun s =>
  match first s with
  | (s, .ok _) => second s
  | (s, .error e) => (s, .error e)

/-- Attempts `f` for each element in turn. -/
def each {α σ ε : Type} (f : α → Attempt σ ε) : List α → Attempt σ ε
  | [] => fun s => (s, .ok ())
  | a :: rest => (f a).andThen (each f rest)

variable {α σ ε : Type} {f : α → Attempt σ ε} {first second : Attempt σ ε} {s t : σ}

theorem ok_iff {f : Attempt σ ε} : (f s).2 = .ok () ↔ ∃ t, f s = (t, .ok ()) :=
  ⟨fun h => ⟨_, Prod.ext rfl h⟩, fun ⟨_, h⟩ => congrArg Prod.snd h⟩

theorem andThen_eq_ok :
    first.andThen second s = (t, .ok ()) ↔
      ∃ u, first s = (u, .ok ()) ∧ second u = (t, .ok ()) := by
  unfold andThen
  rcases first s with ⟨u, _ | ⟨⟨⟩⟩⟩ <;> simp

theorem andThen_assoc (first second third : Attempt σ ε) :
    (first.andThen second).andThen third = first.andThen (second.andThen third) := by
  funext s
  unfold andThen
  rcases first s with ⟨u, _ | ⟨⟨⟩⟩⟩ <;> rfl

theorem each_append (l m : List α) : each f (l ++ m) = (each f l).andThen (each f m) := by
  induction l with
  | nil => rfl
  | cons a l ih => rw [List.cons_append, each, each, ih, andThen_assoc]

theorem each_congr {g : α → Attempt σ ε} {l : List α} (h : ∀ a ∈ l, f a = g a) :
    each f l = each g l := by
  induction l with
  | nil => rfl
  | cons a l ih =>
      obtain ⟨ha, hl⟩ := List.forall_mem_cons.mp h
      rw [each, each, ha, ih hl]

theorem andThen_ok :
    (first.andThen second s).2 = .ok () ↔
      (first s).2 = .ok () ∧ (second (first s).1).2 = .ok () := by
  unfold andThen
  rcases first s with ⟨u, _ | ⟨⟨⟩⟩⟩ <;> simp

/-- All goes well exactly if each attempt would go well at the start, where none decides about
another one. -/
theorem each_ok {ok : α → σ → Prop} {l : List α}
    (hf : ∀ a ∈ l, ∀ s, (f a s).2 = .ok () ↔ ok a s)
    (hl : l.Pairwise fun a b => ∀ s, ok b (f a s).1 ↔ ok b s) (s : σ) :
    (each f l s).2 = .ok () ↔ ∀ a ∈ l, ok a s := by
  induction l generalizing s with
  | nil => simp [each]
  | cons a l ih =>
      obtain ⟨hhead, htail⟩ := List.forall_mem_cons.mp hf
      obtain ⟨hapart, hrest⟩ := List.pairwise_cons.mp hl
      rw [each, andThen_ok, hhead, ih htail hrest, List.forall_mem_cons]
      exact and_congr_right fun _ => forall_congr' fun b => forall_congr' fun hb => hapart b hb s

/-- What each attempt does to the state is done by all of them, whether they go well or not. -/
theorem each_rel {R : σ → σ → Prop} {l : List α} (hrefl : ∀ s, R s s)
    (htrans : ∀ s t u, R s t → R t u → R s u) (hf : ∀ a ∈ l, ∀ s, R s (f a s).1) (s : σ) :
    R s (each f l s).1 := by
  induction l generalizing s with
  | nil => exact hrefl s
  | cons a l ih =>
      obtain ⟨hhead, htail⟩ := List.forall_mem_cons.mp hf
      have ha := hhead s
      rw [each]
      unfold andThen
      rcases hfa : f a s with ⟨t, _ | ⟨⟨⟩⟩⟩
      · rwa [hfa] at ha
      · rw [hfa] at ha
        exact htrans _ _ _ ha (ih htail t)

/-- From related states two attempts come to the same end and to related states. -/
def Lockstep {σ τ ε : Type} (R : σ → τ → Prop) (first : Attempt σ ε) (second : Attempt τ ε) : Prop :=
  ∀ s t, R s t → R (first s).1 (second t).1 ∧ (first s).2 = (second t).2

section Lockstep

variable {τ : Type} {R : σ → τ → Prop} {first' second' : Attempt τ ε} {f' : α → Attempt τ ε}

theorem lockstep_failIf (error : Option ε) : Lockstep R (failIf error) (failIf error) := by
  intro s t h
  cases error <;> exact ⟨h, rfl⟩

theorem Lockstep.andThen (hfirst : Lockstep R first first') (hsecond : Lockstep R second second') :
    Lockstep R (first.andThen second) (first'.andThen second') := by
  intro s t h
  have ⟨hstates, hends⟩ := hfirst s t h
  unfold Attempt.andThen
  rcases hs : first s with ⟨u, error | ⟨⟨⟩⟩⟩ <;> rcases ht : first' t with ⟨v, error' | ⟨⟨⟩⟩⟩ <;>
    rw [hs, ht] at hstates hends <;> cases hends
  · exact ⟨hstates, rfl⟩
  · exact hsecond u v hstates

theorem lockstep_each {l : List α} (h : ∀ a ∈ l, Lockstep R (f a) (f' a)) :
    Lockstep R (each f l) (each f' l) := by
  induction l with
  | nil => exact fun _ _ h => ⟨h, rfl⟩
  | cons a l ih =>
      obtain ⟨ha, hl⟩ := List.forall_mem_cons.mp h
      exact ha.andThen (ih hl)

end Lockstep

/-- Where all goes well, each single attempt has gone well in between. -/
theorem each_eq_ok_of_mid {before behind : List α} {a : α}
    (h : each f (before ++ a :: behind) s = (t, .ok ())) :
    ∃ u v, each f before s = (u, .ok ()) ∧ f a u = (v, .ok ()) ∧ each f behind v = (t, .ok ()) := by
  rw [each_append] at h
  obtain ⟨u, hbefore, hrest⟩ := andThen_eq_ok.mp h
  obtain ⟨v, ha, hbehind⟩ := andThen_eq_ok.mp hrest
  exact ⟨u, v, hbefore, ha, hbehind⟩

/-- Where not all goes well, the first attempt that fails is the last one. -/
theorem exists_of_each_fails {l : List α} (h : (each f l s).2 ≠ .ok ()) :
    ∃ before a behind t, l = before ++ a :: behind ∧ each f before s = (t, .ok ()) ∧
      (f a t).2 ≠ .ok () := by
  induction l generalizing s with
  | nil => exact absurd rfl h
  | cons a l ih =>
      rcases hfa : f a s with ⟨t, error | ⟨⟨⟩⟩⟩
      · exact ⟨[], a, l, s, rfl, rfl, by simp [hfa]⟩
      · rw [each, andThen, hfa] at h
        obtain ⟨before, b, behind, u, rfl, hbefore, hb⟩ := ih h
        exact ⟨a :: before, b, behind, u, rfl, andThen_eq_ok.mpr ⟨t, hfa, hbefore⟩, hb⟩

/-- Attempts that go well lead up to the next one. -/
theorem each_of_before {before behind : List α} {a : α} (hbefore : each f before s = (t, .ok ())) :
    each f (before ++ a :: behind) s = (f a).andThen (each f behind) t := by
  rw [each_append, andThen, hbefore]
  rfl

theorem each_eq_of_fails {before behind : List α} {a : α} (hbefore : each f before s = (t, .ok ()))
    (ha : (f a t).2 ≠ .ok ()) : each f (before ++ a :: behind) s = f a t := by
  rw [each_of_before hbefore]
  unfold andThen
  rcases hfa : f a t with ⟨u, error | ⟨⟨⟩⟩⟩
  · rfl
  · rw [hfa] at ha
    exact absurd rfl ha

/-- What the second attempt leaves alone is as the first one has left it. -/
theorem proj_andThen {β : Type} (proj : σ → β) (h : ∀ s, proj (second s).1 = proj s) (s : σ) :
    proj (first.andThen second s).1 = proj (first s).1 := by
  unfold andThen
  rcases first s with ⟨t, error | ⟨⟨⟩⟩⟩
  · rfl
  · exact h t

/-- What one attempt only can touch is as it was, or as that one has left it. -/
theorem proj_each {β : Type} (proj : σ → β) {before behind : List α} {a : α}
    (hbefore : ∀ s, proj (each f before s).1 = proj s)
    (hbehind : ∀ s, proj (each f behind s).1 = proj s) (s : σ) :
    proj (each f (before ++ a :: behind) s).1 = proj s ∨
      ∃ u, proj u = proj s ∧ proj (each f (before ++ a :: behind) s).1 = proj (f a u).1 := by
  have hfirst := hbefore s
  rcases hrun : each f before s with ⟨u, error | ⟨⟨⟩⟩⟩ <;> rw [hrun] at hfirst
  · rw [each_append, andThen, hrun]
    exact Or.inl hfirst
  · rw [each_of_before hrun]
    exact Or.inr ⟨u, hfirst, proj_andThen proj hbehind u⟩

end Attempt

end CommandLine
