import CommandLine.Proofs.History
import CommandLine.Proofs.Move

/-!
# Behind the mark

The mark itself leaves no trace but that all tokens behind it are plain
values, whatever they look like. Each of them waits in the command that
read the mark. Only a command with `prefixCommand` ends this, when its
positional parameters have no room for more: from then on it keeps the
tokens as they are. How many wait is known in advance (`Schema.vacancy`),
as nothing is bound any more that would take up room.
-/

namespace CommandLine

namespace Schema

variable {schema : Schema} {scan : Scan}

/-- How many more plain values may wait in the innermost command before one of them ends the
reading. There is no number where none does. -/
def vacancy (schema : Schema) (scan : Scan) : Option Nat :=
  if (schema.reader scan).settings.prefixCommand then
    (scan.bindings.room (schema.reader scan).positionals).map (· - scan.current.pending.length)
  else none

theorem vacancy_addPending (schema : Schema) (scan : Scan) (text : String) :
    schema.vacancy (scan.addPending text) = (schema.vacancy scan).map (· - 1) := by
  have hreader : schema.reader (scan.addPending text) = schema.reader scan := rfl
  rw [vacancy, vacancy, hreader]
  split
  · rw [Option.map_map]
    congr 1
    funext room
    simp only [Scan.addPending, Function.comp_apply, List.length_append, List.length_singleton]
    omega
  · rfl

/-- A plain value ends the reading where there is no vacancy. -/
theorem stops_iff_vacancy :
    ((schema.reader scan).settings.prefixCommand && schema.isFull scan) = true ↔
      schema.vacancy scan = some 0 := by
  rw [vacancy, isFull, Bool.and_eq_true]
  cases (schema.reader scan).settings.prefixCommand with
  | false => simp
  | true =>
      cases scan.bindings.room (schema.reader scan).positionals with
      | none => simp
      | some room => simp [Nat.sub_eq_zero_iff_le]

/-- Tokens that are all plain values wait one after the other, up to the vacancy. -/
theorem read_plain (hmark : scan.positionalOnly = true) (tokens : List String) :
    ∃ waiting kept, tokens = waiting ++ kept ∧
      kept = (schema.vacancy scan).elim [] (tokens.drop ·) ∧
      schema.read scan tokens = ⟨{ scan with current := { scan.current with
        pending := scan.current.pending ++ waiting
        missing := scan.current.missing ++ kept } }, [], none⟩ := by
  induction tokens generalizing scan with
  | nil =>
      refine ⟨[], [], rfl, ?_, ?_⟩
      · cases schema.vacancy scan <;> simp
      · rw [read_nil, List.append_nil, List.append_nil]
  | cons text tokens ih =>
      have htoken : schema.token scan text = .plain := by rw [token, if_pos hmark]
      by_cases hfull : schema.vacancy scan = some 0
      · have hstep : schema.step scan text tokens =
            .next (scan.addMissing (text :: tokens)) [] := by
          rw [step, htoken]
          exact if_pos (stops_iff_vacancy.mpr hfull)
        refine ⟨[], text :: tokens, rfl, by rw [hfull]; rfl, ?_⟩
        rw [read_of_next hstep, read_nil, Scan.addMissing, List.append_nil]
      · have hstep : schema.step scan text tokens = .next (scan.addPending text) tokens := by
          rw [step, htoken]
          exact if_neg (mt stops_iff_vacancy.mp hfull)
        obtain ⟨waiting, kept, htokens, hkept, hread⟩ := @ih (scan.addPending text) hmark
        refine ⟨text :: waiting, kept, by rw [htokens]; rfl, ?_, ?_⟩
        · rw [hkept, vacancy_addPending]
          cases hvacancy : schema.vacancy scan with
          | none => rfl
          | some n =>
              cases n with
              | zero => exact absurd hvacancy hfull
              | succ n => rfl
        · rw [read_of_next hstep, hread, Scan.addPending, List.append_assoc]
          rfl

theorem step_mark (hoff : scan.positionalOnly = false) (tokens : List String) :
    schema.step scan positionalMark tokens =
      .next { scan with positionalOnly := true } tokens := by
  have htoken : schema.token scan positionalMark = .mark := by simp [token, hoff]
  rw [step, htoken]

/-- All tokens behind the mark are taken for plain values. They wait in the command that read it, in
their order and as they are, and those that it has no room for are kept by it in the same way,
which happens with `prefixCommand` only. Nothing else changes. -/
theorem read_mark (hoff : scan.positionalOnly = false) (tokens : List String) :
    ∃ waiting kept, tokens = waiting ++ kept ∧
      schema.read scan (positionalMark :: tokens) =
        ⟨{ scan with
            positionalOnly := true
            current := { scan.current with
              pending := scan.current.pending ++ waiting
              missing := scan.current.missing ++ kept } }, [], none⟩ ∧
      kept = (schema.vacancy scan).elim [] (tokens.drop ·) ∧
      (kept ≠ [] → (schema.reader scan).settings.prefixCommand = true) := by
  obtain ⟨waiting, kept, htokens, hkept, hread⟩ :=
    @read_plain schema { scan with positionalOnly := true } rfl tokens
  have hkept : kept = (schema.vacancy scan).elim [] (tokens.drop ·) := hkept
  refine ⟨waiting, kept, htokens, (read_of_next (step_mark hoff tokens)).trans hread, hkept,
    fun hne => ?_⟩
  by_contra hsetting
  rw [hkept, vacancy, if_neg hsetting] at hne
  exact hne rfl

end Schema

namespace Parser

/-- A wrapper of other commands, with a flag, a file and a sub-command of its own. -/
def markedCalls : List Call :=
  [.set .root .prefixCommand true, .add .root { names := "-v", binding := .values (.exactly 0) },
    .add .root { names := "FILE", binding := .values (.exactly 2) }, .addSubcommand .root "run"]

end Parser

/-- What looks like a flag waits, as one more value has already, and the sub-command's name and the
second mark are kept. -/
theorem Schema.read_mark_wrapped :
    let schema := ((Parser.ofProgram "tool").afterAll Parser.markedCalls).schema
    let scan := Scan.start.addPending "first"
    ∃ waiting kept, ["-v", "run", "--"] = waiting ++ kept ∧ waiting = ["-v"] ∧
      schema.read scan ["--", "-v", "run", "--"] = ⟨{ scan with
        positionalOnly := true
        current := { scan.current with
          pending := "first" :: waiting
          missing := kept } }, [], none⟩ := by
  intro schema scan
  have hvacancy : schema.vacancy scan = some 1 := by decide +kernel
  obtain ⟨waiting, kept, htokens, hread, hkept, -⟩ :=
    @Schema.read_mark schema scan rfl ["-v", "run", "--"]
  rw [hvacancy] at hkept
  refine ⟨waiting, kept, htokens, ?_, hread⟩
  have hkept : kept = ["run", "--"] := hkept
  rw [hkept] at htokens
  exact (List.append_cancel_right (show ["-v"] ++ ["run", "--"] = waiting ++ _ from htokens)).symm

end CommandLine
