import CommandLine.Proofs.Path

/-!
# References of a parser

What `WellFormed` and the active path come to for someone who uses the
look-ups of a parser (`Parser.Intact`): every number that a parser holds
is found, and found where it belongs. This is so after any history, with
calls that fail and parses among them.
-/

namespace CommandLine

/-- All numbers that a parser holds are found, each in its place. -/
structure Parser.Intact (parser : Parser) : Prop where
  /-- What a command lists is live, and its own. -/
  listed : ∀ c, ∀ p ∈ (parser.schema.command c).parameters,
    parser.schema.parameter? p.id = some p ∧ parser.schema.owner? p.id = some c
  /-- What is live is listed once, by its owner and by no other command. -/
  live : ∀ p parameter, parser.schema.parameter? p = some parameter → ∃ c,
    parser.schema.owner? p = some c ∧ parameter ∈ (parser.schema.command c).parameters ∧
      (parser.schema.idsOf c).count p = 1 ∧ ∀ d, d ≠ c → p ∉ parser.schema.idsOf d
  help : ∀ c p, (parser.schema.command c).help = some p → parser.schema.owner? p = some c ∧
    ∃ flag, parser.schema.parameter? p = some flag ∧ flag.nargs.isFlag = true
  config : ∀ source, parser.schema.config = some source →
    (parser.schema.parameter? source.parameter).isSome = true ∧
      parser.schema.owner? source.parameter = some .root
  related : ∀ p parameter, parser.schema.parameter? p = some parameter → ∀ relation,
    (parameter.related relation).Nodup ∧ ∀ target ∈ parameter.related relation,
      target ≠ p ∧ (parser.schema.parameter? target).isSome = true ∧
        parser.schema.sees p target = true
  parent_root : (parser.schema.command .root).parent = none
  parent : ∀ c, parser.schema.Issued c → c ≠ .root → ∃ parent : CommandId,
    (parser.schema.command c).parent = some parent ∧ parent.index < c.index ∧
      (parser.schema.children parent).count c = 1
  selected : ∀ c child, parser.selected? c = some child → child ∈ parser.schema.children c

namespace Schema

variable {schema : Schema} {c d : CommandId} {p : ParameterId}

theorem WellFormed.isSome_parameter? (h : schema.WellFormed) (hp : p ∈ schema.idsOf c) :
    (schema.parameter? p).isSome = true := by
  obtain ⟨parameter, hparameter, rfl⟩ := mem_idsOf.mp hp
  rw [h.nodup.parameter?_eq hparameter]
  rfl

theorem WellFormed.owner?_of_mem (h : schema.WellFormed) (hp : p ∈ schema.idsOf c) :
    schema.owner? p = some c := by
  obtain ⟨parameter, hparameter, rfl⟩ := mem_idsOf.mp hp
  exact h.nodup.owner?_eq hparameter

theorem WellFormed.sees_of_mem {q : ParameterId} (h : schema.WellFormed)
    (hp : p ∈ schema.idsOf c) (hq : q ∈ schema.idsOf d)
    (hd : d ∈ c :: (schema.command c).ancestors) : schema.sees p q = true := by
  unfold sees
  rw [h.owner?_of_mem hp, h.owner?_of_mem hq]
  simpa [isAbove] using hd

end Schema

namespace Scan

variable {scan : Scan} {schema : Schema} {c child : CommandId}

/-- The command after `c` on a path stands to it as neighbours on the path do. -/
theorem rel_of_selectedAfter {R : CommandId → CommandId → Prop} {path : List CommandId}
    (hchain : path.IsChain R) (h : selectedAfter c path = some child) : R c child := by
  induction path with
  | nil => cases h
  | cons d rest ih =>
      cases rest with
      | nil => cases h
      | cons e rest =>
          obtain ⟨hde, hrest⟩ := List.isChain_cons_cons.mp hchain
          rw [selectedAfter] at h
          split at h
          · next heq =>
              cases h
              exact heq ▸ hde
          · exact ih hrest h

theorem Descends.chain_path (h : scan.Descends schema) (hwf : schema.WellFormed) :
    scan.path.IsChain fun c d => d ∈ schema.children c := by
  have hframes : scan.frames.map (·.command) =
      scan.current.command :: (schema.command scan.current.command).ancestors := by
    rw [← h.2]
    rfl
  rw [path, hframes, List.isChain_reverse]
  exact hwf.chain_ancestors h.1

end Scan

namespace Parser

variable {parser : Parser}

/-- After any calls, in any order and with any outcome, no reference is dangling. -/
theorem Reachable.intact (h : Reachable parser) : parser.Intact := by
  have hwf := h.wellFormed
  refine ⟨?_, ?_, ?_, ?_, ?_, hwf.parent_root, ?_, ?_⟩
  · intro c p hp
    exact ⟨hwf.nodup.parameter?_eq hp, hwf.nodup.owner?_eq hp⟩
  · intro p parameter hfound
    obtain ⟨rfl, c, hc⟩ := Schema.exists_of_parameter? hfound
    refine ⟨c, hwf.nodup.owner?_eq hc, hc, ?_, ?_⟩
    · exact List.count_eq_one_of_mem (hwf.nodup.idsOf c) (List.mem_map_of_mem hc)
    · intro d hdc hd
      obtain ⟨other, hother, hid⟩ := Schema.mem_idsOf.mp hd
      exact hdc (hwf.nodup.unique hother hc hid).1
  · intro c p hp
    obtain ⟨flag, hflag, rfl, hnargs⟩ := hwf.help c p hp
    exact ⟨hwf.nodup.owner?_eq hflag, flag, hwf.nodup.parameter?_eq hflag, hnargs⟩
  · intro source hsource
    have hroot := hwf.config source hsource
    exact ⟨hwf.isSome_parameter? hroot, hwf.owner?_of_mem hroot⟩
  · intro p parameter hfound relation
    obtain ⟨rfl, c, hc⟩ := Schema.exists_of_parameter? hfound
    obtain ⟨hnodup, hall⟩ := hwf.related c parameter hc relation
    refine ⟨hnodup, fun target htarget => ?_⟩
    obtain ⟨hne, d, hd, hmem⟩ := hall target htarget
    exact ⟨hne, hwf.isSome_parameter? hmem,
      hwf.sees_of_mem (List.mem_map_of_mem hc) hmem hd⟩
  · intro c hc hroot
    obtain ⟨parent, hlt, heq⟩ := hwf.ancestors c hc hroot
    have hparent : (parser.schema.command c).parent = some parent := by
      rw [Command.parent, heq]
      rfl
    exact ⟨parent, hparent, hlt, List.count_eq_one_of_mem (Schema.nodup_children _ _)
      (Schema.mem_children.mpr ⟨hc, hparent⟩)⟩
  · intro c child hselected
    exact Scan.rel_of_selectedAfter (h.descends.chain_path hwf) hselected

theorem intact_mixedCalls :
    Reachable ((ofProgram "tool").afterAll mixedCalls) ∧
      ((ofProgram "tool").afterAll mixedCalls).selected? .root = some ⟨1⟩ ∧
      ((ofProgram "tool").afterAll mixedCalls).Intact :=
  ⟨reachable_mixedCalls, by decide +kernel, reachable_mixedCalls.intact⟩

end Parser

end CommandLine
