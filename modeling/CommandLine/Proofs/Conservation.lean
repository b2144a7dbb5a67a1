import CommandLine.Proofs.Path
import Mathlib.Algebra.BigOperators.Group.List.Basic
import Mathlib.Algebra.GroupWithZero.Nat

/-!
# No value is lost

A text that can only be a value (`Ordinary`) is read once and ends up in
one place, whatever way it takes: bound by name or by position, waiting
in a command, handed on to the parent, or set aside. `Scan.held` counts
it over all these places. Every move of the reader takes from the
command line what it adds to that count (`Ordinary.held_move`), placing
moves the values that wait and leaves none (`held_place`,
`pending_place`), and the numbers of the parameters tell all bound
values apart (`sum_count_values`).
-/

namespace CommandLine

/-! ## Counting -/

/-- How often the text is bound. -/
def Bindings.held (b : Bindings) (s : String) : Nat := (b.entries.map (·.2.count s)).sum

/-- How often the text waits or was set aside in the command. -/
def Frame.held (frame : Frame) (s : String) : Nat :=
  frame.pending.count s + frame.missing.count s + frame.overflow.count s

def Scan.held (scan : Scan) (s : String) : Nat :=
  scan.bindings.held s + (scan.frames.map (·.held s)).sum

/-- Only these parameters have values. -/
def Bindings.Within (b : Bindings) (ids : List ParameterId) : Prop :=
  ∀ entry ∈ b.entries, entry.1 ∈ ids

namespace Bindings

variable {b : Bindings} {ids : List ParameterId} {p : ParameterId} {s : String}

theorem held_push (values : List String) :
    (b.push p values).held s = b.held s + values.count s := by
  simp only [held, push, List.map_append, List.sum_append, List.map_singleton, List.sum_singleton]

theorem held_pushEach (values : List String) :
    (b.pushEach p values).held s = b.held s + values.count s := by
  simp only [held, pushEach, List.map_append, List.sum_append, List.map_map]
  congr 1
  induction values with
  | nil => rfl
  | cons value values ih =>
      rw [List.map_cons, List.sum_cons, ih, ← List.singleton_append, List.count_append]
      rfl

theorem Within.push (h : b.Within ids) (hp : p ∈ ids) (values : List String) :
    (b.push p values).Within ids := by
  intro entry hentry
  rcases List.mem_append.mp hentry with hold | hnew
  · exact h entry hold
  · rwa [List.mem_singleton.mp hnew]

theorem Within.pushEach (h : b.Within ids) (hp : p ∈ ids) (values : List String) :
    (b.pushEach p values).Within ids := by
  intro entry hentry
  rcases List.mem_append.mp hentry with hold | hnew
  · exact h entry hold
  · obtain ⟨value, -, rfl⟩ := List.mem_map.mp hnew
    exact hp

/-- Summed up over all parameters, each bound value is counted once. -/
theorem sum_count_values (hnodup : ids.Nodup) (h : b.Within ids) :
    (ids.map fun p => (b.values p).count s).sum = b.held s := by
  obtain ⟨entries⟩ := b
  induction entries with
  | nil =>
      exact List.sum_eq_zero fun n hn => by
        obtain ⟨p, -, rfl⟩ := List.mem_map.mp hn
        rfl
  | cons entry entries ih =>
      obtain ⟨hentry, hrest⟩ := List.forall_mem_cons.mp h
      have hvalues : ∀ p, ((⟨entry :: entries⟩ : Bindings).values p).count s =
          (if p = entry.1 then entry.2.count s else 0) +
            ((⟨entries⟩ : Bindings).values p).count s := by
        intro p
        by_cases hp : p = entry.1
        · simp [values, of, hp]
        · simp [values, of, hp, Ne.symm hp]
      have hone : (ids.map fun p => if p = entry.1 then entry.2.count s else 0).sum =
          entry.2.count s := by
        rw [List.sum_map_eq_nsmul_single entry.1 _ fun p hp _ => if_neg hp,
          List.count_eq_one_of_mem hnodup hentry, one_nsmul, if_pos rfl]
      rw [List.map_congr_left fun p _ => hvalues p, List.sum_map_add, hone, ih hrest]
      rfl

end Bindings

namespace Scan

variable {scan : Scan} {s : String}

theorem held_record (p : ParameterId) (values : List String) :
    (scan.record p values).held s = scan.held s + values.count s := by
  have hpush := scan.bindings.held_push (p := p) (s := s) values
  simp only [held, record, frames, List.map_cons, List.sum_cons] at hpush ⊢
  omega

theorem held_enter (child : CommandId) : (scan.enter child).held s = scan.held s := by
  simp only [held, enter, frames, List.map_cons, List.sum_cons, Frame.held, List.count_nil]
  omega

theorem held_addMissing (tokens : List String) :
    (scan.addMissing tokens).held s = scan.held s + tokens.count s := by
  simp only [held, addMissing, frames, List.map_cons, List.sum_cons, Frame.held,
    List.count_append]
  omega

theorem held_addPending (token : String) :
    (scan.addPending token).held s = scan.held s + [token].count s := by
  simp only [held, addPending, frames, List.map_cons, List.sum_cons, Frame.held,
    List.count_append]
  omega

end Scan

namespace Schema

variable {schema : Schema} {scan after : Scan} {s text : String} {rest left tokens : List String}

/-! ## Reading -/

/-- A text that is a value wherever it occurs among the tokens: no name, and no part of
a longer token. -/
structure Ordinary (schema : Schema) (s : String) (tokens : List String) : Prop where
  undashed : s.toList.head? ≠ some '-'
  unnamed : ∀ child ∈ schema.commandIds, ∀ c ∈ (schema.command child).parent,
    (schema.command c).settings.sameName (schema.command child).name s = false
  whole : ∀ t ∈ tokens, s.toList <:+: t.toList → t = s

namespace Ordinary

/-- No part of a dashed token is such a text. -/
theorem not_infix (h : schema.Ordinary s (text :: rest)) {body : List Char}
    (hdash : text.toList = '-' :: body) : ¬s.toList <:+: text.toList := by
  intro hinfix
  refine h.undashed ?_
  rw [← h.whole text (List.mem_cons_self ..) hinfix, hdash]
  rfl

theorem count_dashed (h : schema.Ordinary s (text :: rest)) {body : List Char}
    (hdash : text.toList = '-' :: body) : (text :: rest).count s = rest.count s := by
  refine List.count_cons_of_ne fun heq => ?_
  subst heq
  exact h.not_infix hdash List.infix_rfl

theorem of_subset (h : schema.Ordinary s tokens) (hsub : left ⊆ tokens) :
    schema.Ordinary s left :=
  ⟨h.undashed, h.unnamed, fun t ht => h.whole t (hsub ht)⟩

/-- The value that is written along with a name is another text. -/
theorem ne_value (h : schema.Ordinary s (text :: rest)) {name : Dashed} {value : String}
    (hname : Dashed.ofChars? text.toList = some name) (hvalue : name.value? = some value) :
    value ≠ s := by
  obtain ⟨body, hdash, hsuffix⟩ := Dashed.suffix_of_value? hname hvalue
  rintro rfl
  refine h.not_infix hdash ?_
  rw [hdash]
  exact (hsuffix.trans (List.suffix_cons '-' body)).isInfix

theorem ne_empty (h : schema.Ordinary s (text :: rest)) {name : Dashed}
    (hname : Dashed.ofChars? text.toList = some name) : "" ≠ s := by
  obtain ⟨body, hdash⟩ := Dashed.exists_of_ofChars? hname
  rintro rfl
  exact h.not_infix hdash List.nil_infix

theorem count_value (h : schema.Ordinary s (text :: rest)) {name : Dashed}
    (hname : Dashed.ofChars? text.toList = some name) : name.value?.toList.count s = 0 := by
  cases hvalue : name.value? with
  | none => rfl
  | some value =>
      rw [Option.toList_some, List.count_eq_zero, List.mem_singleton]
      exact (h.ne_value hname hvalue).symm

theorem count_flagValue (h : schema.Ordinary s (text :: rest)) {name : Dashed}
    (hname : Dashed.ofChars? text.toList = some name) : [name.flagValue].count s = 0 := by
  rw [List.count_eq_zero, List.mem_singleton]
  cases name with
  | short => exact (h.ne_empty hname).symm
  | long long value =>
      cases value with
      | none => exact (h.ne_empty hname).symm
      | some value => exact (h.ne_value hname rfl).symm

/-- What is read again in place of a dashed token is dashed too, and a part of it. -/
theorem pushedBack (h : schema.Ordinary s (text :: rest)) {name : Dashed}
    (hname : Dashed.ofChars? text.toList = some name) :
    (name.pushedBack ++ rest).count s = rest.count s ∧
      schema.Ordinary s (name.pushedBack ++ rest) := by
  have hrest : schema.Ordinary s rest := h.of_subset (List.subset_cons_self text rest)
  cases name with
  | long => exact ⟨rfl, hrest⟩
  | short name attached =>
      cases attached with
      | nil => exact ⟨rfl, hrest⟩
      | cons c attached =>
          have hdash := Dashed.eq_of_ofChars?_short hname
          have hback : Ordinary schema s (String.ofList ('-' :: c :: attached) :: rest) := by
            refine ⟨h.undashed, h.unnamed, List.forall_mem_cons.mpr ⟨?_, hrest.whole⟩⟩
            intro hinfix
            rw [String.toList_ofList] at hinfix
            refine absurd ?_ (h.not_infix hdash)
            rw [hdash]
            rcases List.infix_cons_iff.mp hinfix with hstart | hbehind
            · cases hs : s.toList with
              | nil => exact List.nil_infix
              | cons first more =>
                  rw [hs, List.cons_prefix_cons] at hstart
                  refine absurd ?_ h.undashed
                  rw [hs, hstart.1]
                  rfl
            · exact hbehind.trans (List.infix_cons (List.suffix_cons name _).isInfix)
          exact ⟨hback.count_dashed (String.toList_ofList ..), hback⟩

theorem ne_name (h : schema.Ordinary s tokens) {child : CommandId}
    (hchild : schema.child? scan.current.command text = some child) : text ≠ s := by
  rintro rfl
  have hsame := List.find?_some (p := fun child =>
    (schema.command scan.current.command).settings.sameName (schema.command child).name text) hchild
  obtain ⟨hissued, hparent⟩ := mem_children.mp (mem_children_of_child? hchild)
  rw [h.unnamed child (mem_commandIds.mpr hissued) _ hparent] at hsame
  cases hsame

/-- What a move takes from the tokens is held after it. -/
theorem held_move (h : schema.Ordinary s (text :: rest))
    (hmove : Move schema scan text rest after left) :
    after.held s + left.count s = scan.held s + (text :: rest).count s ∧
      schema.Ordinary s left := by
  have hrest : schema.Ordinary s rest := h.of_subset (List.subset_cons_self text rest)
  have hcons : (text :: rest).count s = [text].count s + rest.count s := by
    rw [← List.count_append]
    rfl
  cases hmove with
  | mark htoken =>
      have hdash : text.toList = '-' :: ['-'] := by
        rw [eq_of_token_mark htoken]
        rfl
      rw [h.count_dashed hdash]
      exact ⟨rfl, hrest⟩
  | enter htoken =>
      rw [Scan.held_enter, List.count_cons_of_ne (h.ne_name (child?_of_token htoken))]
      exact ⟨rfl, hrest⟩
  | flag htoken =>
      have hname := ofChars?_of_token htoken
      obtain ⟨body, hdash⟩ := Dashed.exists_of_ofChars? hname
      obtain ⟨hcount, hback⟩ := h.pushedBack hname
      rw [Scan.held_record, h.count_flagValue hname, hcount, h.count_dashed hdash]
      exact ⟨rfl, hback⟩
  | @values name p taken _ htoken _ _ hsplit =>
      have hname := ofChars?_of_token htoken
      obtain ⟨body, hdash⟩ := Dashed.exists_of_ofChars? hname
      rw [Scan.held_record, List.count_append, h.count_value hname, h.count_dashed hdash, hsplit,
        List.count_append]
      refine ⟨by omega, hrest.of_subset ?_⟩
      rw [hsplit]
      exact List.subset_append_right taken left
  | aside =>
      rw [Scan.held_addMissing, hcons]
      exact ⟨by omega, hrest⟩
  | stop =>
      rw [Scan.held_addMissing]
      exact ⟨rfl, h.of_subset (List.nil_subset _)⟩
  | wait =>
      rw [Scan.held_addPending, hcons]
      exact ⟨by omega, hrest⟩

end Ordinary

theorem mem_ids_of_meant? {c : CommandId} {name : Dashed} {p : Parameter}
    (h : schema.meant? c name = some p) : p.id ∈ schema.ids := by
  obtain ⟨d, -, hp⟩ := exists_of_meant? h
  exact List.mem_map_of_mem (mem_parameters.mpr ⟨d, hp⟩)

theorem within_move (h : scan.bindings.Within schema.ids)
    (hmove : Move schema scan text rest after left) : after.bindings.Within schema.ids := by
  cases hmove with
  | mark | enter | aside | stop | wait => exact h
  | flag _ hp | values _ hp => exact h.push (mem_ids_of_meant? hp) _

/-- Of `n` occurrences of the text each is either held or still to be read. -/
structure Tracks (schema : Schema) (s : String) (n : Nat) (scan : Scan) (unread : List String) :
    Prop where
  held : scan.held s + unread.count s = n
  ordinary : schema.Ordinary s unread
  within : scan.bindings.Within schema.ids

theorem Tracks.start (hs : schema.Ordinary s tokens) :
    schema.Tracks s (tokens.count s) .start tokens :=
  ⟨Nat.zero_add _, hs, fun _ hentry => absurd hentry List.not_mem_nil⟩

theorem Tracks.move {n : Nat} (h : schema.Tracks s n scan (text :: rest))
    (hmove : Move schema scan text rest after left) : schema.Tracks s n after left := by
  obtain ⟨hkept, hleft⟩ := h.ordinary.held_move hmove
  exact ⟨hkept.trans h.held, hleft, within_move h.within hmove⟩

/-- Where the whole command line is read, all of it is held. -/
theorem tracks_read (hs : schema.Ordinary s tokens)
    (hread : (schema.read .start tokens).failure = none) :
    schema.Tracks s (tokens.count s) (schema.read .start tokens).scan [] := by
  obtain ⟨unread, htracks, hnil⟩ := read_invariant (motive := schema.Tracks s (tokens.count s))
    (fun _ _ _ _ _ => Tracks.move) (Tracks.start hs)
  rwa [hnil hread] at htracks

/-! ## Placing -/

theorem held_fill (b : Bindings) (parameters : List Parameter) (values : List String) :
    (b.fill parameters values).1.held s + (b.fill parameters values).2.count s =
      b.held s + values.count s := by
  induction parameters generalizing b values with
  | nil => rfl
  | cons p parameters ih =>
      simp only [Bindings.fill]
      rw [ih, Bindings.held_pushEach, Nat.add_assoc, ← List.count_append, List.take_append_drop]

theorem mem_ids_of_positionals {c : CommandId} {p : Parameter}
    (hp : p ∈ (schema.command c).positionals) : p.id ∈ schema.ids :=
  List.mem_map_of_mem (mem_parameters.mpr ⟨c, List.mem_of_mem_filter hp⟩)

theorem held_placeFrame (schema : Schema) (b : Bindings) (frame : Frame) (isRoot : Bool)
    (handedOn : List String) :
    (schema.placeFrame b frame isRoot handedOn).bindings.held s +
        (schema.placeFrame b frame isRoot handedOn).frame.held s +
        (schema.placeFrame b frame isRoot handedOn).handedOn.count s =
      b.held s + frame.held s + handedOn.count s := by
  obtain ⟨filled, left, hfilled, ⟨-, heq⟩ | heq | heq⟩ :=
    schema.placeFrame_cases b frame isRoot handedOn
  all_goals
    have hfill := held_fill (s := s) b (schema.command frame.command).positionals
      (frame.pending ++ handedOn)
    rw [hfilled] at hfill
    rw [heq]
    simp only [Frame.held, List.count_nil, List.count_append] at hfill ⊢
    omega

/-- What is handed on to no one would be lost, so the outermost frame must not. -/
theorem held_placeOuter (schema : Schema) (b : Bindings) (handedOn : List String)
    (outer : List Frame) (hroot : outer = [] → handedOn = []) :
    (schema.placeOuter b handedOn outer).2.held s +
        ((schema.placeOuter b handedOn outer).1.map (·.held s)).sum =
      b.held s + (outer.map (·.held s)).sum + handedOn.count s := by
  induction outer generalizing b handedOn with
  | nil =>
      rw [hroot rfl]
      rfl
  | cons frame outer ih =>
      have hplaced := held_placeFrame (s := s) schema b frame outer.isEmpty handedOn
      have hnext : outer = [] →
          (schema.placeFrame b frame outer.isEmpty handedOn).handedOn = [] := by
        rintro rfl
        exact handedOn_placeFrame b frame handedOn
      have hrest := ih (schema.placeFrame b frame outer.isEmpty handedOn).bindings _ hnext
      simp only [placeOuter, List.map_cons, List.sum_cons]
      omega

theorem held_place (schema : Schema) (scan : Scan) :
    (schema.place scan).held s = scan.held s := by
  have houter := held_placeOuter (s := s) schema scan.bindings [] scan.frames fun _ => rfl
  rw [placeOuter_frames, List.count_nil] at houter
  exact houter

theorem within_place (h : scan.bindings.Within schema.ids) :
    (schema.place scan).bindings.Within schema.ids :=
  place_invariant (motive := fun b => b.Within schema.ids)
    (fun _ _ _ hp _ values hb => hb.pushEach (mem_ids_of_positionals hp) values) h

end Schema

/-! ## The whole way -/

/-- The state after all tokens are read and all values placed. -/
def Schema.settle (schema : Schema) (tokens : List String) : Scan :=
  schema.place (schema.read .start tokens).scan

/-- How often the text is a value of a parameter. -/
def Schema.boundCount (schema : Schema) (scan : Scan) (s : String) : Nat :=
  (schema.parameters.map fun p => (scan.bindings.values p.id).count s).sum

/-- How often the text was set aside, as missing or as too much. -/
def Scan.asideCount (scan : Scan) (s : String) : Nat :=
  (scan.frames.map fun frame => frame.missing.count s + frame.overflow.count s).sum

theorem Schema.boundCount_eq {schema : Schema} {scan : Scan} {s : String}
    (hnodup : schema.NodupIds) (h : scan.bindings.Within schema.ids) :
    schema.boundCount scan s = scan.bindings.held s := by
  rw [← Bindings.sum_count_values hnodup h, Schema.ids, List.map_map]
  rfl

theorem Scan.asideCount_eq {scan : Scan} {s : String}
    (h : ∀ frame ∈ scan.frames, frame.pending = []) :
    scan.asideCount s = (scan.frames.map (·.held s)).sum := by
  refine congrArg List.sum (List.map_congr_left fun frame hframe => ?_)
  rw [Frame.held, h frame hframe, List.count_nil, Nat.zero_add]

namespace Parser

variable {parser : Parser}

/-- Each occurrence of a value on a command line that could be read is bound once, or set
aside once, and nothing is left waiting. -/
theorem Reachable.values_conserved (h : Reachable parser) {tokens : List String} {s : String}
    (hs : parser.schema.Ordinary s tokens)
    (hread : (parser.schema.read .start tokens).failure = none) :
    parser.schema.boundCount (parser.schema.settle tokens) s +
        (parser.schema.settle tokens).asideCount s = tokens.count s ∧
      ∀ frame ∈ (parser.schema.settle tokens).frames, frame.pending = [] := by
  have htracks := Schema.tracks_read hs hread
  have hwithin : (parser.schema.settle tokens).bindings.Within parser.schema.ids :=
    Schema.within_place htracks.within
  have hpending : ∀ frame ∈ (parser.schema.settle tokens).frames, frame.pending = [] :=
    Schema.pending_place _ _
  refine ⟨?_, hpending⟩
  calc parser.schema.boundCount (parser.schema.settle tokens) s +
        (parser.schema.settle tokens).asideCount s
      = (parser.schema.settle tokens).held s := by
        rw [Schema.boundCount_eq h.wellFormed.nodup hwithin, Scan.asideCount_eq hpending, Scan.held]
    _ = (parser.schema.read .start tokens).scan.held s := Schema.held_place _ _
    _ = tokens.count s := htracks.held

/-- A sub-command that leaves to the root what it does not know. -/
def leakyCalls : List Call :=
  [.add .root { names := "dest", binding := .values (.exactly 1) },
    .add .root { names := "-x", binding := .values .any }, .set .root .allowExtras true,
    .addSubcommand .root "run", .set ⟨1⟩ .fallthrough true,
    .add ⟨1⟩ { names := "-f", binding := .values (.exactly 0) },
    .add ⟨1⟩ { names := "-o", binding := .values (.exactly 2) }]

/-- The text is bound by `-o` behind the flag `-f`, by the root's `-x` and `dest`, and is left
over twice. -/
def leakyTokens : List String :=
  ["val", "run", "val", "-fo", "-f", "val", "-x", "val", "val", "--", "val", "-q"]

theorem values_conserved_leaky :
    ((ofProgram "tool").afterAll leakyCalls).schema.boundCount
        (((ofProgram "tool").afterAll leakyCalls).schema.settle leakyTokens) "val" +
      (((ofProgram "tool").afterAll leakyCalls).schema.settle leakyTokens).asideCount "val" =
        leakyTokens.count "val" ∧
    (((ofProgram "tool").afterAll leakyCalls).schema.settle leakyTokens).asideCount "val" = 2 := by
  have hreachable : Reachable ((ofProgram "tool").afterAll leakyCalls) :=
    (reachable_ofProgram "tool").afterAll (by decide +kernel)
  have hordinary : ((ofProgram "tool").afterAll leakyCalls).schema.Ordinary "val" leakyTokens :=
    ⟨by decide +kernel, by decide +kernel, by decide +kernel⟩
  obtain ⟨hcount, -⟩ := hreachable.values_conserved hordinary (by decide +kernel)
  exact ⟨hcount, by decide +kernel⟩

end Parser

end CommandLine
