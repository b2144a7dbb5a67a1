import CommandLine.Proofs.History
import CommandLine.Proofs.Move
import CommandLine.Proofs.Placing
import CommandLine.Proofs.WellFormed
import Mathlib.Data.List.Chain

/-!
# The active path

The commands that a parse has entered lie under each other: around the
innermost one stand exactly its ancestors (`Scan.Descends`). Reading
keeps this because only a sub-command of the innermost command is ever
entered, and no later declaration moves a command that is there
(`Reachable.descends`).
-/

namespace CommandLine

/-- Around the innermost command stand its ancestors. -/
def Scan.Descends (scan : Scan) (schema : Schema) : Prop :=
  schema.Issued scan.current.command ∧
    scan.outer.map (·.command) = (schema.command scan.current.command).ancestors

namespace Scan

variable {scan : Scan}

theorem selectedAfter_append {before behind : List CommandId} {c child : CommandId}
    (hc : c ∉ before) : selectedAfter c (before ++ c :: child :: behind) = some child := by
  induction before with
  | nil => simp [selectedAfter]
  | cons d before ih =>
      obtain ⟨hne, hbefore⟩ := List.ne_and_not_mem_of_not_mem_cons hc
      obtain ⟨e, rest, heq⟩ : ∃ e rest, before ++ c :: child :: behind = e :: rest :=
        List.exists_cons_of_ne_nil (by simp)
      rw [List.cons_append, heq, selectedAfter, if_neg (Ne.symm hne), ← heq]
      exact ih hbefore

/-- The command within another one is the one that was entered from there. -/
theorem selected?_of_frames {inner frame : Frame} {below above : List Frame}
    (hframes : scan.frames = below ++ inner :: frame :: above)
    (hnodup : (scan.frames.map (·.command)).Nodup) :
    scan.selected? frame.command = some inner.command := by
  have hpath : scan.path = (above.map (·.command)).reverse ++
      frame.command :: inner.command :: (below.map (·.command)).reverse := by
    rw [path, hframes]
    simp
  rw [selected?, hpath]
  refine selectedAfter_append ?_
  rw [hframes, List.map_append, List.map_cons, List.map_cons] at hnodup
  have hinner := (List.nodup_append.mp hnodup).2.1
  rw [List.mem_reverse]
  exact (List.nodup_cons.mp (List.nodup_cons.mp hinner).2).1

end Scan

namespace Schema

variable {schema grown : Schema} {scan after : Scan} {c d : CommandId}

/-! ## Ancestors -/

/-- An edit leaves the commands that are there where they are, under their names. -/
theorem Edit.placed (h : Edit schema grown) (hc : schema.Issued c) :
    (grown.command c).name = (schema.command c).name ∧
      (grown.command c).ancestors = (schema.command c).ancestors := by
  cases h with
  | parameter | settings | noHelp | help =>
      exact ⟨proj_modifyCommand Command.name fun _ => rfl,
        proj_modifyCommand Command.ancestors fun _ => rfl⟩
  | removal p =>
      rw [command_without]
      exact ⟨rfl, rfl⟩
  | relation relation =>
      rw [command_withRelation]
      exact ⟨rfl, rfl⟩
  | note hf =>
      exact ⟨proj_modifyCommand Command.name hf.name,
        proj_modifyCommand Command.ancestors hf.ancestors⟩
  | config => exact ⟨rfl, rfl⟩
  | child =>
      rw [command_withChild_of_issued hc]
      exact ⟨rfl, rfl⟩

theorem Edits.placed (h : Edits schema grown) (hc : schema.Issued c) :
    (grown.command c).name = (schema.command c).name ∧
      (grown.command c).ancestors = (schema.command c).ancestors := by
  induction h with
  | refl => exact ⟨rfl, rfl⟩
  | tail hedits hedit ih =>
      obtain ⟨hname, hancestors⟩ := hedit.placed (Edits.issued hedits hc)
      exact ⟨hname.trans ih.1, hancestors.trans ih.2⟩

theorem WellFormed.parent_root (h : schema.WellFormed) : (schema.command .root).parent = none := by
  rw [Command.parent, h.root_ancestors]
  rfl

/-- A sub-command has its parent and what lies above that for ancestors. -/
theorem WellFormed.ancestors_of_mem_children (h : schema.WellFormed) (hd : d ∈ schema.children c) :
    (schema.command d).ancestors = c :: (schema.command c).ancestors := by
  obtain ⟨hissued, hparent⟩ := mem_children.mp hd
  have hroot : d ≠ .root := by
    rintro rfl
    rw [h.parent_root] at hparent
    cases hparent
  obtain ⟨above, -, heq⟩ := h.ancestors d hissued hroot
  rw [Command.parent, heq] at hparent
  cases hparent
  exact heq

theorem WellFormed.index_lt_of_mem_children (h : schema.WellFormed) (hd : d ∈ schema.children c) :
    c.index < d.index := by
  have hissued := (mem_children.mp hd).1
  have hancestors := h.ancestors_of_mem_children hd
  have hroot : d ≠ .root := by
    rintro rfl
    rw [h.root_ancestors] at hancestors
    cases hancestors
  obtain ⟨parent, hlt, heq⟩ := h.ancestors d hissued hroot
  rw [hancestors] at heq
  cases heq
  exact hlt

/-- Going up from a command, each one is the parent of the one before. -/
theorem WellFormed.chain_ancestors (h : schema.WellFormed) {c : CommandId}
    (hc : schema.Issued c) :
    List.IsChain (fun d e => d ∈ schema.children e) (c :: (schema.command c).ancestors) := by
  by_cases hroot : c = .root
  · subst hroot
    rw [h.root_ancestors]
    exact List.isChain_singleton _
  · obtain ⟨parent, hlt, heq⟩ := h.ancestors c hc hroot
    rw [heq]
    have hparent : c ∈ schema.children parent :=
      mem_children.mpr ⟨hc, by rw [Command.parent, heq]; rfl⟩
    exact List.isChain_cons_cons.mpr ⟨hparent, h.chain_ancestors (hlt.trans hc)⟩
termination_by c.index

/-- Going up from a command, one comes to the root. -/
theorem WellFormed.root_mem (h : schema.WellFormed) {c : CommandId} (hc : schema.Issued c) :
    .root ∈ c :: (schema.command c).ancestors := by
  by_cases hroot : c = .root
  · subst hroot
    exact List.mem_cons_self
  · obtain ⟨parent, hlt, heq⟩ := h.ancestors c hc hroot
    rw [heq]
    exact List.mem_cons_of_mem _ (h.root_mem (hlt.trans hc))
termination_by c.index

/-- The ancestors of an ancestor are those further up. -/
theorem WellFormed.ancestors_of_append (h : schema.WellFormed) (hc : schema.Issued c)
    {below above : List CommandId}
    (heq : c :: (schema.command c).ancestors = below ++ d :: above) :
    (schema.command d).ancestors = above := by
  induction below generalizing c with
  | nil =>
      cases heq
      rfl
  | cons e below ih =>
      obtain ⟨-, hrest⟩ := List.cons_eq_cons.mp heq
      have hroot : c ≠ .root := by
        rintro rfl
        rw [h.root_ancestors] at hrest
        simp at hrest
      obtain ⟨parent, hlt, hancestors⟩ := h.ancestors c hc hroot
      rw [hancestors] at hrest
      exact ih (hlt.trans hc) hrest

/-- A name that is left to the parent is looked up in the ancestors only. -/
theorem mem_ancestors_of_mem_reach (h : d ∈ schema.reach c) :
    d ∈ c :: (schema.command c).ancestors := by
  rw [reach] at h
  generalize (schema.command c).ancestors = above at h ⊢
  induction above generalizing c with
  | nil => exact h
  | cons parent rest ih =>
      rw [reachThrough] at h
      split at h
      · rcases List.mem_cons.mp h with rfl | h
        · exact List.mem_cons_self
        · exact List.mem_cons_of_mem _ (ih h)
      · rw [List.mem_singleton.mp h]
        exact List.mem_cons_self

theorem exists_of_meant? {name : Dashed} {p : Parameter} (h : schema.meant? c name = some p) :
    ∃ d ∈ c :: (schema.command c).ancestors, p ∈ (schema.command d).parameters := by
  cases name with
  | short | long =>
      obtain ⟨d, hd, hp⟩ := List.exists_of_findSome?_eq_some h
      exact ⟨d, mem_ancestors_of_mem_reach hd, List.mem_of_find?_eq_some hp⟩

/-! ## Reading and placing -/

theorem descends_start (h : schema.WellFormed) : Scan.start.Descends schema :=
  ⟨h.root, h.root_ancestors.symm⟩

theorem descends_move (hwf : schema.WellFormed) {text : String} {rest left : List String}
    (h : scan.Descends schema) (hmove : Move schema scan text rest after left) :
    after.Descends schema := by
  cases hmove with
  | mark | flag | values | aside | stop | wait => exact h
  | enter htoken =>
      have hchild := mem_children_of_child? (child?_of_token htoken)
      refine ⟨(mem_children.mp hchild).1, ?_⟩
      show scan.current.command :: scan.outer.map (·.command) = _
      rw [h.2]
      exact (hwf.ancestors_of_mem_children hchild).symm

theorem descends_read (hwf : schema.WellFormed) (h : scan.Descends schema)
    (tokens : List String) : (schema.read scan tokens).scan.Descends schema := by
  have hmove : ∀ scan text rest after left, scan.Descends schema →
      Move schema scan text rest after left → after.Descends schema :=
    fun _ _ _ _ _ h hmove => descends_move hwf h hmove
  obtain ⟨-, hread, -⟩ := read_invariant (motive := fun scan _ => scan.Descends schema) hmove h
  exact hread

theorem descends_place (h : scan.Descends schema) : (schema.place scan).Descends schema := by
  have hcommands := schema.commands_place scan
  rw [Scan.frames, Scan.frames, List.map_cons, List.map_cons, List.cons_eq_cons] at hcommands
  obtain ⟨hcurrent, houter⟩ := hcommands
  rw [Scan.Descends, hcurrent, houter]
  exact h

end Schema

namespace Parser

variable {parser next : Parser}

/-! ## Reachable parsers -/

theorem Reachable.wellFormed (h : Reachable parser) : parser.schema.WellFormed :=
  h.schema_induction Schema.wellFormed_bare fun _ _ => Schema.WellFormed.edit

theorem descends_finish (world : World) (h : parser.scan.Descends parser.schema) :
    (parser.finish world).1.scan.Descends parser.schema := by
  unfold finish
  dsimp only
  split <;> exact h

theorem descends_layer (world : World) (h : parser.scan.Descends parser.schema) :
    (parser.layer world).1.scan.Descends parser.schema := by
  unfold layer
  dsimp only
  split
  · exact h
  · exact descends_finish world h

theorem descends_parse (hwf : parser.schema.WellFormed) (world : World) (tokens : List String) :
    (parser.parse world tokens).1.scan.Descends parser.schema := by
  have hread := Schema.descends_read hwf (Schema.descends_start hwf) tokens
  unfold parse
  dsimp only
  split
  · exact hread
  · split
    · exact hread
    · exact descends_layer world (Schema.descends_place hread)

theorem scan_add (c : CommandId) (declaration : Declaration) :
    (parser.add c declaration).1.scan = parser.scan := by
  unfold add
  split <;> rfl

theorem scan_commit (outcome : Except DeclarationError Schema) :
    (parser.commit outcome).1.scan = parser.scan := by
  cases outcome <;> rfl

/-- A call forgets the last parse, makes another one, or leaves it alone. -/
theorem Next.scan_cases (h : Next parser next) :
    next.scan = parser.scan ∨ next.scan = .start ∨
      ∃ world tokens, next = (parser.parse world tokens).1 := by
  obtain ⟨call, -⟩ := h
  cases call with
  | add c declaration => exact Or.inl (scan_add c declaration)
  | set | relate | remove => exact Or.inl (scan_commit _)
  | addSubcommand | replaceHelp | replaceConfig => exact Or.inl rfl
  | setAbout | setFooter | onComplete | useFormat | useFormatter => exact Or.inl rfl
  | parse world tokens => exact Or.inr (Or.inr ⟨world, tokens, rfl⟩)
  | reset => exact Or.inr (Or.inl rfl)

theorem Next.descends (hwf : parser.schema.WellFormed) (hnext : Next parser next)
    (hwfNext : next.schema.WellFormed) (h : parser.scan.Descends parser.schema) :
    next.scan.Descends next.schema := by
  rcases hnext.scan_cases with hsame | hstart | ⟨world, tokens, rfl⟩
  · have hedits := hnext.edits hwf.root
    rw [hsame]
    exact ⟨hedits.issued h.1, by rw [(hedits.placed h.1).2, h.2]⟩
  · rw [hstart]
    exact Schema.descends_start hwfNext
  · rw [schema_parse]
    exact descends_parse hwf world tokens

theorem Reachable.descends (h : Reachable parser) : parser.scan.Descends parser.schema := by
  obtain ⟨program, hleads⟩ := h
  induction hleads with
  | refl => exact Schema.descends_start (Reachable.wellFormed ⟨program, .refl⟩)
  | tail hleads hnext ih =>
      have hwf := Reachable.wellFormed ⟨program, hleads⟩
      have hwfNext := Reachable.wellFormed ⟨program, hleads.tail hnext⟩
      exact hnext.descends hwf hwfNext ih

end Parser

end CommandLine
