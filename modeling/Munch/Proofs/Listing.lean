import Munch.Proofs.Scanner
import Munch.Scanner.Listing

/-!
# The stack of passes agrees with the recursion

The scanner suspends a pass to scan inside a match and resumes it when the inner pass is
exhausted. `Scanner.pending` reads the frames still to come off the stack, with the recursion:
those of the innermost pass, then those of the passes around it, each behind what it has
consumed. A call hands out the first pending frame and leaves the others pending, so a whole
run hands out `Family.listing`.

## Main definitions

* `Pass.frames`, `Scanner.pending`: the frames that a pass, a scanner has still to give.
* `Frame.Bracketed`: every match frame that opens a pass comes with the end of that pass.
* `Scanner.results_eq_listing`: a run over a text is the recursion over it.
-/

namespace Munch

/-- The frames of the inner family over a match, if the member that matched has one. -/
def Family.inside (f : Family Automaton) (m : Match) (depth : Nat) : List Frame :=
  match f.inner? m.index with
  | some g => g.listing m.text m.pos depth
  | none => []

theorem Family.inside_of_none {f : Family Automaton} {m : Match} (h : f.inner? m.index = none)
    (depth : Nat) : f.inside m depth = [] := by
  rw [inside, h]

theorem Family.inside_of_some {f g : Family Automaton} {m : Match}
    (h : f.inner? m.index = some g) (depth : Nat) :
    f.inside m depth = g.listing m.text m.pos depth := by
  rw [inside, h]

namespace Pass

variable {p q : Pass} {m : Match} {left : Input}

/-- The frames that a pass has still to give over the text at hand. -/
def frames (p : Pass) (depth : Nat) : List Frame :=
  p.matches.1.flatMap (fun m =>
    ⟨some m.index, String.ofList m.text, m.pos, depth⟩ :: p.family.inside m (depth + 1))
    ++ [.ending p.matches.2 depth]

theorem matches_of_found (h : p.scan .empty = (.found m q, left)) :
    p.matches = (m :: q.matches.1, q.matches.2) := by
  rw [Pass.matches]
  split <;> simp_all

theorem matches_of_exhausted {pos : Position} (h : p.scan .empty = (.exhausted pos, left)) :
    p.matches = ([], pos) := by
  rw [Pass.matches]
  split <;> simp_all

theorem frames_of_found (h : p.scan .empty = (.found m q, left)) (depth : Nat) :
    p.frames depth = ⟨some m.index, String.ofList m.text, m.pos, depth⟩ ::
      (p.family.inside m (depth + 1) ++ q.frames depth) := by
  obtain ⟨-, -, -, -, -, family, -⟩ := tiles_of_scan h
  simp [frames, matches_of_found h, family]

theorem frames_of_exhausted {pos : Position} (h : p.scan .empty = (.exhausted pos, left))
    (depth : Nat) : p.frames depth = [.ending pos depth] := by
  simp [frames, matches_of_exhausted h]

end Pass

/-- A listing is what a pass gives that owns the text. -/
theorem Family.listing_eq_frames (f : Family Automaton) (text : List Char) (pos : Position)
    (depth : Nat) : f.listing text pos depth =
      ({ family := f, buffer := text, pos, ended := true } : Pass).frames depth := by
  rw [Family.listing, Pass.frames]
  rcases Pass.matches _ with ⟨found, last⟩
  dsimp only
  congr 2
  funext m
  rw [Family.inside]
  congr 1
  split <;> simp_all

namespace Scanner

variable {s t : Scanner} {p q : Pass} {m : Match} {around : List Pass} {input left : Input}

/-- The frames that passes over an input have still to give, each at its depth. -/
def pendingOf (input : Input) : List Pass → List Frame
  | [] => []
  | p :: around => (p.settle (sourceOf around input)).frames around.length ++ pendingOf input around

/-- The frames that a scanner has still to give. -/
def pending (s : Scanner) : List Frame := pendingOf s.input s.passes

theorem pendingOf_around {o : Outcome} (h : scanInnermost p around input = (o, left)) :
    pendingOf left around = pendingOf input around := by
  cases around with
  | nil => rfl
  | cons r around => rw [input_of_scanInnermost h]

/-- With everything ahead in the buffer the innermost pass comes to the same. -/
theorem settled_scan {o : Outcome} (agrees : p.Agrees (sourceOf around input))
    (readable : (sourceOf around input).failure = none)
    (h : scanInnermost p around input = (o, left)) :
    (p.settle (sourceOf around input)).scan .empty = (o.settle (sourceOf around left), .empty) := by
  rw [Pass.scan_settle agrees readable, Pass.outcome, scan_of_scanInnermost h]
  cases around with
  | nil =>
    rw [scanInnermost_eq] at h
    cases h
    rfl
  | cons r around =>
    -- An inner pass may take note of the end of its empty input, which has nothing to settle.
    have nothing := (Pass.leads_of_scan p.agrees_empty).suffix
    cases o with
    | found m q =>
      simp only [Outcome.settle]
      congr 2
      exact Pass.settle_congr (List.suffix_nil.1 nothing) q
    | exhausted pos => rfl
    | failed e pos => rfl

theorem readable_sourceOf (around : List Pass) (readable : input.failure = none) :
    (sourceOf around input).failure = none := by
  by_cases outermost : around.isEmpty <;> simp [sourceOf, outermost, readable, Input.empty]

/-- A pass that a match opens has the frames of the inner family to give, before those of the
pass behind the match. -/
theorem pendingOf_opened (q : Pass) (m : Match) (around : List Pass) (input : Input) :
    pendingOf input (opened q m ++ q :: around) =
      q.family.inside m (around.length + 1) ++ pendingOf input (q :: around) := by
  cases hm : q.family.inner? m.index with
  | none => simp [opened, hm, Family.inside_of_none hm]
  | some g =>
    have settled : (Pass.inner g m).settle (sourceOf (q :: around) input) = .inner g m :=
      Pass.settle_of_ended rfl
    simp only [opened, hm, Option.toList_some, List.map_cons, List.map_nil, List.cons_append,
      List.nil_append, pendingOf, settled, List.length_cons, Family.inside_of_some hm,
      Family.listing_eq_frames]
    rfl

/-- A call without a request to stop hands out the first pending frame. -/
theorem pending_next (sound : s.Sound) (readable : s.input.failure = none) :
    s.next false = (none, s) ∧ s.pending = [] ∨
      ∃ f t, s.next false = (some (.ok f), t) ∧ s.pending = f :: t.pending := by
  obtain ⟨input, passes⟩ := s
  cases passes with
  | nil => exact .inl ⟨rfl, rfl⟩
  | cons p around =>
    right
    rcases scanned : scanInnermost p around input with ⟨⟨m, q⟩ | pos | ⟨e, pos⟩, left⟩ <;>
      have settled := settled_scan (agrees_sourceOf sound) (readable_sourceOf around readable) scanned
    · refine ⟨_, _, by simp only [next, scanned]; rfl, ?_⟩
      obtain ⟨-, family, -⟩ := scanInnermost_found scanned
      have frames := Pass.frames_of_found settled around.length
      simp only [pending, pendingOf_opened]
      simp only [pendingOf, frames, pendingOf_around scanned, family, List.cons_append,
        List.append_assoc]
      rfl
    · refine ⟨_, _, by simp only [next, scanned]; rfl, ?_⟩
      have frames := Pass.frames_of_exhausted settled around.length
      simp only [pending, pendingOf, frames, pendingOf_around scanned, List.cons_append,
        List.nil_append]
    · have failure := Pass.failure_of_scan_failed (agrees_sourceOf sound)
        (scan_of_scanInnermost scanned)
      rw [readable_sourceOf around readable] at failure
      cases failure

theorem results_of_none (h : s.next false = (none, t)) : s.results = [] := by
  rw [results]
  split <;> simp_all

theorem results_of_ended (ended : s.passes = []) : s.results = [] :=
  results_of_none (next_of_finished ended false)

theorem results_of_frame {f : Frame} (h : s.next false = (some (.ok f), t)) :
    s.results = .ok f :: t.results := by
  rw [results]
  split <;> simp_all

/-- Over a text, a run from any state of the stack hands out what is pending. -/
theorem results_eq_pending (sound : s.Sound) (readable : s.input.failure = none) :
    s.results = s.pending.map .ok := by
  generalize hn : s.supply = n
  induction n using Nat.strongRecOn generalizing s with
  | ind n ih =>
    obtain ⟨none, nothing⟩ | ⟨f, t, handed, first⟩ := pending_next sound readable
    · rw [results_of_none none, nothing]
      rfl
    · obtain ⟨sound', kept⟩ := sound_next sound false
      rw [handed] at sound' kept
      rw [results_of_frame handed, first, List.map_cons,
        ih t.supply (hn ▸ supply_next_lt handed) sound' (kept.trans readable) rfl]

/-- At the beginning of a text the recursion over the whole text is pending. -/
theorem pending_start (family : Family Automaton) (text : String) :
    (start family (.ofString text)).pending = family.listing text.toList {} 0 := by
  simp [pending, pendingOf, start, sourceOf, Family.listing_eq_frames, Pass.settle, Pass.ahead,
    Pass.outer, Input.ofString]

end Scanner

namespace Frame

/-- The frames of one pass at a depth: match frames, each with or without the frames of a whole
pass one level deeper behind it, and at last the end frame. -/
inductive Bracketed : Nat → List Frame → Prop where
  | ending (pos : Position) (depth : Nat) : Bracketed depth [.ending pos depth]
  | plain {i : Nat} {text : String} {pos : Position} {depth : Nat} {rest : List Frame} :
    Bracketed depth rest → Bracketed depth (⟨some i, text, pos, depth⟩ :: rest)
  | nesting {i : Nat} {text : String} {pos : Position} {depth : Nat} {inner rest : List Frame} :
    Bracketed (depth + 1) inner → Bracketed depth rest →
    Bracketed depth (⟨some i, text, pos, depth⟩ :: (inner ++ rest))

/-- No frame belongs to a pass around. -/
theorem Bracketed.depth_le {depth : Nat} {frames : List Frame} (h : Bracketed depth frames) :
    ∀ f ∈ frames, depth ≤ f.depth := by
  induction h with
  | ending pos depth =>
    intro f hf
    rw [List.mem_singleton.1 hf]
    exact Nat.le_refl depth
  | plain _ ih =>
    intro f hf
    rcases List.mem_cons.1 hf with rfl | hf
    · exact Nat.le_refl _
    · exact ih f hf
  | nesting _ _ inside behind =>
    intro f hf
    rcases List.mem_cons.1 hf with rfl | hf
    · exact Nat.le_refl _
    rcases List.mem_append.1 hf with hf | hf
    · exact Nat.le_of_succ_le (inside f hf)
    · exact behind f hf

end Frame

theorem Family.bracketed_listing (f : Family Automaton) (text : List Char) (pos : Position)
    (depth : Nat) : Frame.Bracketed depth (f.listing text pos depth) := by
  generalize hn : f.height = n
  induction n using Nat.strongRecOn generalizing f text pos depth with
  | ind n ih =>
    rw [Family.listing_eq_frames, Pass.frames]
    generalize Pass.matches _ = found
    obtain ⟨found, last⟩ := found
    induction found with
    | nil => exact .ending last depth
    | cons m found rest =>
      cases hm : f.inner? m.index with
      | none =>
        simp only [List.flatMap_cons, inside_of_none hm, List.cons_append, List.nil_append]
        exact .plain rest
      | some g =>
        have inner := ih g.height (hn ▸ height_lt_of_inner? hm) g m.text m.pos (depth + 1) rfl
        simp only [List.flatMap_cons, inside_of_some hm, List.cons_append, List.append_assoc]
        exact .nesting inner rest

/-- The frames that a scanner hands out over a text are those of the recursion, and every match
that opens a pass is followed at once by all of that pass. -/
theorem Scanner.results_eq_listing (family : Family Automaton) (text : String) :
    (start family (.ofString text)).results = (family.listing text.toList {} 0).map .ok ∧
      Frame.Bracketed 0 (family.listing text.toList {} 0) := by
  refine ⟨?_, family.bracketed_listing text.toList {} 0⟩
  rw [results_eq_pending (sound_start family _) rfl, pending_start]

end Munch
