import Munch.Proofs.Listing
import Munch.Proofs.MaximalMunch

/-!
# Frames tile the text

The matches of a pass and the characters that it skipped make up its text, in order and with
nothing left over; a pass inside a match does so with the text of the match. `Family.Tiles` says
this for a whole stream of frames, together with the position of every frame: it is the one
behind all that precedes the frame in the outermost text, at whatever depth the frame is. A
character counts as skipped only where the family offers nothing, so a stream that drops
characters at will does not tile.

## Main definitions

* `Family.Skips`: a stretch at none of whose characters anything is offered.
* `Family.Tiles`: a stream of frames over a text that follows other text.
* `Scanner.results_tile`: the frames of a run over a text tile it.
-/

namespace Munch

namespace Family

/-- Nothing is offered at any of the characters of a stretch, with `rest` behind it. -/
inductive Skips (f : Family Automaton) : Bool → List Char → List Char → Prop where
  | nil (fresh : Bool) (rest : List Char) : Skips f fresh [] rest
  | cons {fresh : Bool} {c : Char} {cs rest : List Char} :
    (∀ d, ¬f.Offers fresh true (c :: (cs ++ rest)) d) → Skips f false cs rest →
    Skips f fresh (c :: cs) rest

/-- The frames of one pass over `text`, with those of the passes inside its matches. The text
`before` stands between the beginning of the outermost text and the pass. -/
inductive Tiles : Family Automaton → Bool → List Char → List Char → Nat → List Frame → Prop where
  | ending {f : Family Automaton} {fresh : Bool} {before text : List Char} {depth : Nat} :
    f.Skips fresh text [] →
    Tiles f fresh before text depth [.ending (Position.visitAll {} (before ++ text)) depth]
  | plain {f : Family Automaton} {fresh : Bool} {before skipped matched rest : List Char}
    {depth i : Nat} {frames : List Frame} :
    f.Skips fresh skipped (matched ++ rest) → matched ≠ [] → f.inner? i = none →
    Tiles f false (before ++ skipped ++ matched) rest depth frames →
    Tiles f fresh before (skipped ++ (matched ++ rest)) depth
      (⟨some i, String.ofList matched, Position.visitAll {} (before ++ skipped), depth⟩ :: frames)
  | nesting {f g : Family Automaton} {fresh : Bool} {before skipped matched rest : List Char}
    {depth i : Nat} {inner frames : List Frame} :
    f.Skips fresh skipped (matched ++ rest) → matched ≠ [] → f.inner? i = some g →
    Tiles g true (before ++ skipped) matched (depth + 1) inner →
    Tiles f false (before ++ skipped ++ matched) rest depth frames →
    Tiles f fresh before (skipped ++ (matched ++ rest)) depth
      (⟨some i, String.ofList matched, Position.visitAll {} (before ++ skipped), depth⟩ ::
        (inner ++ frames))

/-- The last frame is the end of the pass, behind its text: for a pass inside a match, behind the
match. -/
theorem Tiles.ends {f : Family Automaton} {fresh : Bool} {before text : List Char} {depth : Nat}
    {frames : List Frame} (h : Tiles f fresh before text depth frames) :
    frames.getLast? = some (.ending (Position.visitAll {} (before ++ text)) depth) := by
  induction h with
  | ending => rfl
  | plain _ _ _ _ ih => simp [List.getLast?_cons, ih]
  | nesting _ _ _ _ _ _ ih => simp [List.getLast?_cons, List.getLast?_append, ih]

/-- The frames are those of a whole pass, with whole passes inside. -/
theorem Tiles.bracketed {f : Family Automaton} {fresh : Bool} {before text : List Char}
    {depth : Nat} {frames : List Frame} (h : Tiles f fresh before text depth frames) :
    Frame.Bracketed depth frames := by
  induction h with
  | ending => exact .ending _ _
  | plain _ _ _ _ ih => exact .plain ih
  | nesting _ _ _ _ _ inner ih => exact .nesting inner ih

/-- Every frame stands where its text stands in the outermost text. -/
theorem Tiles.pos_of_mem {f : Family Automaton} {fresh : Bool} {before text : List Char}
    {depth : Nat} {frames : List Frame} (h : Tiles f fresh before text depth frames) :
    ∀ frame ∈ frames, ∃ u v, before ++ text = u ++ (frame.text.toList ++ v) ∧
      frame.pos = Position.visitAll {} u := by
  induction h with
  | @ending f fresh before text depth _ =>
    intro frame hf
    obtain rfl := List.mem_singleton.1 hf
    exact ⟨before ++ text, [], by simp [Frame.ending], rfl⟩
  | @plain f fresh before skipped matched rest depth i frames _ _ _ _ ih =>
    intro frame hf
    rcases List.mem_cons.1 hf with rfl | hf
    · exact ⟨before ++ skipped, rest, by simp, rfl⟩
    · obtain ⟨u, v, split, pos⟩ := ih frame hf
      exact ⟨u, v, by simpa using split, pos⟩
  | @nesting f g fresh before skipped matched rest depth i inner frames _ _ _ _ _ ih₁ ih₂ =>
    intro frame hf
    rcases List.mem_cons.1 hf with rfl | hf
    · exact ⟨before ++ skipped, rest, by simp, rfl⟩
    rcases List.mem_append.1 hf with hf | hf
    · obtain ⟨u, v, split, pos⟩ := ih₁ frame hf
      refine ⟨u, v ++ rest, ?_, pos⟩
      rw [← List.append_assoc frame.text.toList, ← List.append_assoc u, ← split]
      simp
    · obtain ⟨u, v, split, pos⟩ := ih₂ frame hf
      exact ⟨u, v, by simpa using split, pos⟩

end Family

/-- What a scan makes of a text: a stretch that is skipped, and a match unless that is all. The
pass behind the match has the rest of the text to scan. -/
inductive Family.Parts (f : Family Automaton) (fresh : Bool) (pos : Position) :
    List Char → Outcome → Prop where
  | found {skipped rest : List Char} {m : Match} : m.text ≠ [] →
    f.Skips fresh skipped (m.text ++ rest) → m.pos = pos.visitAll skipped →
    Parts f fresh pos (skipped ++ (m.text ++ rest)) (.found m {
      family := f, buffer := rest, ended := true, fresh := false,
      pos := pos.visitAll (skipped ++ m.text) })
  | exhausted {text : List Char} : f.Skips fresh text [] →
    Parts f fresh pos text (.exhausted (pos.visitAll text))

/-- A match at the front of the text skips nothing. -/
theorem Family.Parts.front {f : Family Automaton} {fresh : Bool} {pos : Position}
    {text : List Char} {i n : Nat} (nonempty : text.take n ≠ []) :
    f.Parts fresh pos text (.found ⟨i, text.take n, pos⟩ {
      family := f, buffer := text.drop n, ended := true, fresh := false,
      pos := pos.visitAll (text.take n) }) := by
  let m : Match := ⟨i, text.take n, pos⟩
  have parts := @Family.Parts.found f fresh pos [] (text.drop n) m nonempty (.nil _ _) rfl
  rwa [List.nil_append, List.take_append_drop] at parts

/-- A character at which nothing is offered comes in front. -/
theorem Family.Parts.skip {f : Family Automaton} {fresh : Bool} {pos : Position} {c : Char}
    {cs : List Char} {o : Outcome} (h : f.Parts false (pos.visit c) cs o)
    (none : ∀ d, ¬f.Offers fresh true (c :: cs) d) : f.Parts fresh pos (c :: cs) o := by
  cases h with
  | @found skipped rest m nonempty skips hm =>
    have skips' : f.Skips fresh (c :: skipped) (m.text ++ rest) := .cons none skips
    exact .found nonempty skips' hm
  | exhausted skips =>
    exact .exhausted (.cons (by simpa using none) skips)

namespace Pass

variable {p : Pass} {input : Input}

/-- While no read fails, a scan parts what is ahead. -/
theorem parts_outcome (agrees : p.Agrees input) (readable : input.failure = none) :
    p.family.Parts p.fresh p.pos (p.ahead input) (p.outcome input) := by
  induction p, input, agrees using scan_induction with
  | ending p input agrees o left attempted =>
    have best := p.isBest_overview input
    rw [outcome_of_ending attempted]
    cases tries_of_attempt agrees attempted with
    | @found b q _ _ chosen _ _ settled =>
      rw [chosen] at best
      rw [Outcome.settle, settled]
      exact .front best.1.take_ne_nil
    | exhausted _ _ _ nothing =>
      rw [nothing]
      exact .exhausted (.nil _ _)
    | failed _ failure =>
      rw [readable] at failure
      cases failure
  | skip p input agrees q left agreed attempted ih =>
    have best := p.isBest_overview input
    rw [outcome_of_skipping attempted]
    cases tries_of_attempt agrees attempted with
    | @skipped c cs _ _ leads chosen _ first _ settled =>
      rw [chosen] at best
      have none : ∀ d, ¬p.family.Offers p.fresh true (c :: cs) d := first ▸ best
      have parts := ih (leads.failure.trans readable)
      simp only [settle, mk.injEq] at settled
      obtain ⟨family, ahead, pos, -, fresh⟩ := settled
      rw [family, ahead, pos, fresh] at parts
      rw [first]
      exact parts.skip none

/-- The frames of a pass that owns its text tile the text, if the pass counts its position from
the beginning of the outermost text. -/
theorem tiles_frames (p : Pass) (ended : p.ended = true) (before : List Char)
    (pos : p.pos = Position.visitAll {} before) (depth : Nat) :
    p.family.Tiles p.fresh before p.buffer depth (p.frames depth) := by
  -- Inner passes have a family of less height, the pass behind a match has less text.
  generalize hh : p.family.height = height
  generalize hn : p.buffer.length = n
  induction height using Nat.strongRecOn generalizing p before depth n with
  | ind height inside =>
    induction n using Nat.strongRecOn generalizing p before with
    | ind n behind =>
      have parts := parts_outcome p.agrees_empty rfl
      have scanned := scan_settle p.agrees_empty rfl .empty
      rw [settle_of_ended ended] at scanned
      rw [show p.ahead .empty = p.buffer from List.append_nil _] at parts
      generalize p.buffer = text, p.outcome .empty = o at parts scanned hn
      cases parts with
      | exhausted skips =>
        rw [frames_of_exhausted scanned, pos, ← Position.visitAll_append]
        exact .ending skips
      | @found skipped rest m nonempty skips hm =>
        have start : m.pos = Position.visitAll {} (before ++ skipped) := by
          rw [hm, pos, Position.visitAll_append]
        have shorter : rest.length < n := by
          have := List.length_pos_iff.2 nonempty
          simp only [← hn, List.length_append]
          omega
        have after := behind rest.length shorter
          { family := p.family, buffer := rest, ended := true, fresh := false,
            pos := p.pos.visitAll (skipped ++ m.text) }
          rfl (before ++ skipped ++ m.text) (by simp [pos]) hh rfl
        rw [frames_of_found scanned, start]
        cases inner : p.family.inner? m.index with
        | none =>
          rw [Family.inside_of_none inner, List.nil_append]
          exact .plain skips nonempty inner after
        | some g =>
          have within := inside g.height (hh ▸ Family.height_lt_of_inner? inner)
            (.inner g m) rfl (before ++ skipped) start (depth + 1) rfl _ rfl
          rw [Family.inside_of_some inner, Family.listing_eq_frames]
          exact .nesting skips nonempty inner within after

end Pass

/-- The frames of a run over a text tile it, the last is the end of the outermost pass at the end
of the text, and each frame stands where its text stands. -/
theorem Scanner.results_tile (family : Family Automaton) (text : String) :
    ∃ frames, (start family (.ofString text)).results = frames.map .ok ∧
      family.Tiles true [] text.toList 0 frames ∧
      frames.getLast? = some (.ending (Position.visitAll {} text.toList) 0) ∧
      ∀ f ∈ frames, ∃ u v, text.toList = u ++ (f.text.toList ++ v) ∧
        f.pos = Position.visitAll {} u := by
  have tiles := Pass.tiles_frames
    { family, buffer := text.toList, ended := true } rfl [] rfl 0
  rw [← Family.listing_eq_frames] at tiles
  refine ⟨family.listing text.toList {} 0, ?_, tiles, tiles.ends, tiles.pos_of_mem⟩
  rw [results_eq_pending (sound_start family _) rfl, pending_start]

end Munch
