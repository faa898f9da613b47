import Munch.Proofs.Continuing
import Munch.Proofs.Stream
import Munch.Proofs.Tiling

/-!
# A read failure truncates the stream

Where the input fails, the attempt that needs the next character cannot be decided. Everything
before it was: an attempt that came to a result has no run left that could look any further. So
what a scanner hands out before the failure is what it would hand out over every text that goes on
where the input fails, and the error stands where the undecided attempt begins. Inner passes never
read, so none of them is open then.

## Main definitions

* `Scanner.Hands`: calls hand out frames on the way from one state to another.
* `Family.Covers`: the frames and skipped characters that a pass has left behind.
* `Scanner.FailsBehind`: the way of the outermost pass to the failure.
* `Scanner.failure_truncates`: a run over an input that fails beside the runs over longer texts.
-/

namespace Munch

/-- The input with a text in the place of its failure. -/
def Input.followedBy (i : Input) (t : List Char) : Input :=
  { i with rest := i.rest ++ t, failure := none }

namespace Pass

variable {p q : Pass} {input left : Input} {e : ReadError} {t : List Char}

@[simp] theorem ahead_followedBy (p : Pass) (input : Input) (t : List Char) :
    p.ahead (input.followedBy t) = p.ahead input ++ t := by
  simp [ahead, Input.followedBy]

/-- An attempt without live runs looks no further. -/
theorem overview_followedBy (dead : (p.overview input).live = []) (t : List Char) :
    p.overview (input.followedBy t) = p.overview input := by
  rw [overview, ahead_followedBy, Attempt.feed_append]
  exact Attempt.feed_of_dead (List.isEmpty_iff.2 dead) t

/-- A match behind which the input fails is found whatever text takes the place of the failure. -/
theorem scan_followedBy (agrees : p.Agrees input) (failing : input.failure = some e) {m : Match}
    (h : p.scan input = (.found m q, left)) (t : List Char) :
    (p.settle (input.followedBy t)).scan .empty =
      (.found m (q.settle (left.followedBy t)), .empty) := by
  -- Over an input that fails no pass has come to the end.
  have agrees' : p.Agrees (input.followedBy t) := by
    intro ended
    obtain ⟨-, readable⟩ := agrees ended
    rw [failing] at readable
    cases readable
  have goesOn : Input.GoesOn e { rest := t } input (input.followedBy t) := ⟨failing, rfl⟩
  obtain ⟨pos, failed⟩ | ⟨_, scanned, -, rfl⟩ := (p.scan_goesOn goesOn).of_eq h
  · cases failed
  · rw [scan_settle agrees' rfl, outcome, scanned]
    rfl

/-! ## Where a scan fails -/

/-- Runs of the attempt over everything ahead are live only if members survive it. -/
theorem survives_of_live (live : (p.overview input).live ≠ []) :
    p.family.Survives p.fresh (p.ahead input) := by
  obtain ⟨u, v, split, behind, done | dead⟩ :=
    (Attempt.behind_start p.family p.fresh).feed (p.ahead input)
  · subst done
    rw [split, List.append_nil]
    exact behind.survives_iff.2 live
  · exact absurd dead live

theorem live_of_survey_error (h : p.survey input = (.error e, left)) :
    (p.overview input).live ≠ [] := by
  rw [survey] at h
  split at h
  · cases h
  · split at h
    · cases h
    · next hr =>
      have halts := Attempt.halts_readOn p.atHand #[] input
      rw [hr] at halts
      cases halts with
      | failed _ _ live =>
        rwa [overview, ahead, Attempt.feed_append]

theorem ahead_of_refill_error (h : q.refill input = (.error e, left)) : q.ahead input = [] := by
  rw [refill] at h
  split at h
  · next empty =>
    split at h
    · cases h
    · cases h
    · next hr =>
      have buffer : q.buffer = [] := by simp_all
      rw [ahead, buffer, (Input.failure_of_read_error hr).1, List.append_nil]
  · cases h

/-- A read fails only where a run looks beyond everything ahead, or where nothing is ahead. -/
theorem undecided_of_attempt_failed {pos : Position}
    (h : p.attempt input = (.inl (.failed e pos), left)) :
    p.ahead input = [] ∨ p.family.Survives p.fresh (p.ahead input) := by
  rw [attempt] at h
  rcases surveyed : p.survey input with ⟨e | ⟨best | best, q⟩, middle⟩ <;> rw [surveyed] at h
  · exact .inr (survives_of_live (live_of_survey_error surveyed))
  · rcases refilled : q.refill middle with ⟨e | r, rest⟩ <;> simp only [refilled] at h
    · left
      have nothing := ahead_of_refill_error refilled
      rwa [ahead, survey_conserves surveyed] at nothing
    · split at h <;> cases h
  · cases h

end Pass

/-- What a scan over an input that fails makes of what is ahead: a stretch that is skipped, then a
match or a rest that no attempt can decide. It does not matter which text `t` goes on where the
input fails. -/
inductive Family.Cuts (f : Family Automaton) (e : ReadError) (fresh : Bool) (pos : Position) :
    List Char → Outcome → Prop where
  | found {skipped rest : List Char} {m : Match} : m.text ≠ [] →
    (∀ t, f.Skips fresh skipped (m.text ++ (rest ++ t))) → m.pos = pos.visitAll skipped →
    Cuts f e fresh pos (skipped ++ (m.text ++ rest)) (.found m {
      family := f, buffer := rest, ended := true, fresh := false,
      pos := pos.visitAll (skipped ++ m.text) })
  | failed {skipped rest : List Char} : (∀ t, f.Skips fresh skipped (rest ++ t)) →
    (rest = [] ∨ f.Survives (fresh && skipped.isEmpty) rest) →
    Cuts f e fresh pos (skipped ++ rest) (.failed e (pos.visitAll skipped))

/-- A character at which nothing is offered comes in front. -/
theorem Family.Cuts.skip {f : Family Automaton} {e : ReadError} {fresh : Bool} {pos : Position}
    {c : Char} {cs : List Char} {o : Outcome} (h : f.Cuts e false (pos.visit c) cs o)
    (none : ∀ t d, ¬f.Offers fresh true (c :: (cs ++ t)) d) : f.Cuts e fresh pos (c :: cs) o := by
  cases h with
  | @found skipped rest m nonempty skips hm =>
    have skips' : ∀ t, f.Skips fresh (c :: skipped) (m.text ++ (rest ++ t)) :=
      fun t => .cons (by simpa using none t) (skips t)
    exact .found nonempty skips' hm
  | @failed skipped rest skips undecided =>
    have skips' : ∀ t, f.Skips fresh (c :: skipped) (rest ++ t) :=
      fun t => .cons (by simpa using none t) (skips t)
    exact .failed skips' (by simpa using undecided)

namespace Pass

variable {p q : Pass} {input left : Input} {e : ReadError}

/-- What is offered to an attempt without live runs is offered whatever follows. -/
theorem isBest_followedBy (dead : (p.overview input).live = []) (t : List Char) :
    Candidate.IsBest (p.family.Offers p.fresh true (p.ahead input ++ t))
      (p.overview input).close.best := by
  have best := p.isBest_overview (input.followedBy t)
  rw [overview_followedBy dead] at best
  refine best.congr fun d => ?_
  rw [Offers, ahead_followedBy]

/-- Over an input that fails, a scan comes to a match or to the failure. -/
theorem cuts_outcome (agrees : p.Agrees input) (failing : input.failure = some e) :
    p.family.Cuts e p.fresh p.pos (p.ahead input) (p.outcome input) := by
  induction p, input, agrees using scan_induction with
  | ending p input agrees o left attempted =>
    rw [outcome_of_ending attempted]
    cases tries_of_attempt agrees attempted with
    | @found b q _ _ chosen _ _ settled =>
      have best := p.isBest_overview input
      rw [chosen] at best
      have nonempty := best.1.take_ne_nil
      let m : Match := ⟨b.index, (p.ahead input).take b.length, p.pos⟩
      have cuts := @Family.Cuts.found p.family e p.fresh p.pos [] ((p.ahead input).drop b.length)
        m nonempty (fun _ => .nil _ _) rfl
      rw [List.nil_append, List.take_append_drop] at cuts
      rw [Outcome.settle, settled]
      exact cuts
    | exhausted _ _ readable =>
      rw [failing] at readable
      cases readable
    | failed _ failure =>
      rw [failing] at failure
      cases failure
      have cuts := @Family.Cuts.failed p.family e p.fresh p.pos [] (p.ahead input)
        (fun _ => .nil _ _) (by simpa using undecided_of_attempt_failed attempted)
      exact cuts
  | skip p input agrees q left agreed attempted ih =>
    rw [outcome_of_skipping attempted]
    cases tries_of_attempt agrees attempted with
    | @skipped c cs _ _ leads chosen dead first _ settled =>
      obtain readable | dead := dead
      · rw [failing] at readable
        cases readable
      have none : ∀ t d, ¬p.family.Offers p.fresh true (c :: (cs ++ t)) d := by
        intro t
        have best := isBest_followedBy dead t
        rwa [chosen, first] at best
      have cuts := ih (leads.failure.trans failing)
      simp only [settle, mk.injEq] at settled
      obtain ⟨family, ahead, pos, -, fresh⟩ := settled
      rw [family, ahead, pos, fresh] at cuts
      rw [first]
      exact cuts.skip none

end Pass

namespace Scanner

variable {s t u : Scanner} {frames more : List Frame}

/-- Calls without a request to stop hand out frames in order and lead to a state. -/
inductive Hands : Scanner → List Frame → Scanner → Prop where
  | nil (s : Scanner) : Hands s [] s
  | cons {s t u : Scanner} {f : Frame} {frames : List Frame} :
    s.next false = (some (.ok f), t) → Hands t frames u → Hands s (f :: frames) u

theorem Hands.trans (h : Hands s frames t) (h' : Hands t more u) :
    Hands s (frames ++ more) u := by
  induction h with
  | nil s => exact h'
  | cons handed _ ih => exact .cons handed (ih h')

theorem Hands.calls (h : Hands s frames t) :
    s.calls (List.replicate frames.length false) = frames.map (some ∘ .ok) ∧
      s.afterCalls (List.replicate frames.length false) = t := by
  induction h with
  | nil s => exact ⟨rfl, rfl⟩
  | cons handed _ ih =>
    simp only [List.length_cons, List.replicate_succ, Scanner.calls, afterCalls, handed, ih]
    exact ⟨rfl, trivial⟩

/-- The frames inside a match are those of the pass that it opens. -/
theorem inside_eq_frames {f g : Family Automaton} {m : Match} (h : f.inner? m.index = some g)
    (depth : Nat) : f.inside m depth = ((Pass.inner g m).settle .empty).frames depth := by
  rw [Family.inside_of_some h, Family.listing_eq_frames, Pass.settle_of_ended rfl]
  rfl

/-- The frames of an inner pass are handed out before the pass around it goes on, which has not
read on in the meantime. -/
theorem hands_inner (p r : Pass) (around : List Pass) (input : Input) :
    Hands ⟨input, p :: r :: around⟩ ((p.settle .empty).frames (around.length + 1))
      ⟨input, r :: around⟩ := by
  generalize hn : supplyOf input (p :: r :: around) = n
  induction n using Nat.strongRecOn generalizing p r around with
  | ind n ih =>
    rcases scanned : scanInnermost p (r :: around) input with ⟨⟨m, q⟩ | pos | ⟨e, pos⟩, left⟩ <;>
      obtain rfl := input_of_scanInnermost scanned <;>
      have settled := settled_scan p.agrees_empty rfl scanned
    · obtain ⟨-, family, -⟩ := scanInnermost_found scanned
      have less := hn ▸ supplyOf_found scanned
      have frames : (p.settle .empty).frames (around.length + 1) =
          ⟨some m.index, String.ofList m.text, m.pos, around.length + 1⟩ ::
            (q.family.inside m (around.length + 2) ++
              (q.settle .empty).frames (around.length + 1)) := by
        rw [family]
        exact Pass.frames_of_found settled _
      rw [frames]
      refine .cons (next_of_found scanned) ?_
      cases inner : q.family.inner? m.index with
      | none =>
        have opens : opened q m = [] := by simp [opened, inner]
        rw [opens] at less ⊢
        rw [Family.inside_of_none inner]
        exact ih _ less q r around rfl
      | some g =>
        have opens : opened q m = [.inner g m] := by simp [opened, inner]
        rw [opens] at less ⊢
        rw [inside_eq_frames inner]
        have behind : supplyOf left (q :: r :: around) < n := by
          simp only [List.singleton_append, supplyOf] at less ⊢
          omega
        exact (ih _ less (.inner g m) q (r :: around) rfl).trans (ih _ behind q r around rfl)
    · have frames : (p.settle .empty).frames (around.length + 1) = _ :=
        Pass.frames_of_exhausted settled _
      rw [frames]
      exact .cons (next_of_exhausted scanned) (.nil _)
    · have failure := Pass.failure_of_scan_failed p.agrees_empty (scan_of_scanInnermost scanned)
      cases failure

/-- The frames inside a match are handed out before the pass behind the match goes on. -/
theorem hands_opened (q : Pass) (m : Match) (around : List Pass) (input : Input) :
    Hands ⟨input, opened q m ++ q :: around⟩ (q.family.inside m (around.length + 1))
      ⟨input, q :: around⟩ := by
  cases inner : q.family.inner? m.index with
  | none =>
    have opens : opened q m = [] := by simp [opened, inner]
    rw [opens, Family.inside_of_none inner]
    exact .nil _
  | some g =>
    have opens : opened q m = [.inner g m] := by simp [opened, inner]
    rw [opens, inside_eq_frames inner]
    exact hands_inner (.inner g m) q around input

end Scanner

/-- The frames of an outermost pass that is under way, with those of the passes inside its
matches. The pass has consumed `text`, which follows `before`, and has `behind` still to scan. -/
inductive Family.Covers (f : Family Automaton) :
    Bool → List Char → List Char → List Char → List Frame → Prop where
  | skipped {fresh : Bool} {before text behind : List Char} :
    f.Skips fresh text behind → Covers f fresh before text behind []
  | plain {fresh : Bool} {before skipped matched rest behind : List Char} {i : Nat}
    {frames : List Frame} :
    f.Skips fresh skipped (matched ++ (rest ++ behind)) → matched ≠ [] → f.inner? i = none →
    Covers f false (before ++ skipped ++ matched) rest behind frames →
    Covers f fresh before (skipped ++ (matched ++ rest)) behind
      (⟨some i, String.ofList matched, Position.visitAll {} (before ++ skipped), 0⟩ :: frames)
  | nesting {g : Family Automaton} {fresh : Bool} {before skipped matched rest behind : List Char}
    {i : Nat} {inner frames : List Frame} :
    f.Skips fresh skipped (matched ++ (rest ++ behind)) → matched ≠ [] → f.inner? i = some g →
    g.Tiles true (before ++ skipped) matched 1 inner →
    Covers f false (before ++ skipped ++ matched) rest behind frames →
    Covers f fresh before (skipped ++ (matched ++ rest)) behind
      (⟨some i, String.ofList matched, Position.visitAll {} (before ++ skipped), 0⟩ ::
        (inner ++ frames))

namespace Family

variable {f : Family Automaton} {fresh : Bool} {before text behind : List Char}
  {frames : List Frame}

/-- A match with the frames inside it comes in front. -/
theorem Covers.found {skipped rest : List Char} {m : Match}
    (h : f.Covers false (before ++ skipped ++ m.text) rest behind frames)
    (start : m.pos = Position.visitAll {} (before ++ skipped)) (nonempty : m.text ≠ [])
    (skips : f.Skips fresh skipped (m.text ++ (rest ++ behind))) :
    f.Covers fresh before (skipped ++ (m.text ++ rest)) behind
      (⟨some m.index, String.ofList m.text, m.pos, 0⟩ :: (f.inside m 1 ++ frames)) := by
  cases inner : f.inner? m.index with
  | none =>
    rw [inside_of_none inner, start]
    exact .plain skips nonempty inner h
  | some g =>
    have within := Pass.tiles_frames (.inner g m) rfl (before ++ skipped) start 1
    have covers := Covers.nesting skips nonempty inner within h
    rw [← start] at covers
    rw [inside_of_some inner, listing_eq_frames]
    exact covers

/-- With the sentinel behind them the frames are those of a whole pass. -/
theorem Covers.bracketed (h : f.Covers fresh before text behind frames) (pos : Position) :
    Frame.Bracketed 0 (frames ++ [.ending pos 0]) := by
  induction h with
  | skipped => exact .ending pos 0
  | plain _ _ _ _ ih => exact .plain ih
  | nesting _ _ _ inner _ ih =>
    rw [List.cons_append, List.append_assoc]
    exact .nesting inner.bracketed ih

/-- The pass was not closed. -/
theorem Covers.not_sentinel (h : f.Covers fresh before text behind frames) :
    ∀ frame ∈ frames, frame.isSentinel = false := by
  induction h with
  | skipped => simp
  | plain _ _ _ _ ih =>
    intro frame hf
    rcases List.mem_cons.1 hf with rfl | hf
    · rfl
    · exact ih frame hf
  | nesting _ _ _ inner _ ih =>
    intro frame hf
    rcases List.mem_cons.1 hf with rfl | hf
    · rfl
    rcases List.mem_append.1 hf with hf | hf
    · have deep := inner.bracketed.depth_le frame hf
      have depth : (frame.depth == 0) = false := by
        rw [beq_eq_false_iff_ne]
        omega
      rw [Frame.isSentinel, depth, Bool.and_false]
    · exact ih frame hf

end Family

namespace Scanner

variable {p : Pass} {input : Input} {e : ReadError}

/-- The outermost pass hands out frames up to the attempt that a read fails in, which begins behind
what the pass has consumed. Up to there it does not matter which text `t` goes on where the input
fails. -/
structure FailsBehind (e : ReadError) (p : Pass) (input : Input) (before : List Char)
    (frames : List Frame) (consumed undecided : List Char) : Prop where
  ahead : p.ahead input = consumed ++ undecided
  hands : ∃ s last, Hands ⟨input, [p]⟩ frames s ∧
    s.next false = (some (.error ⟨e, Position.visitAll {} (before ++ consumed)⟩), ⟨last, []⟩)
  open_end : undecided = [] ∨ p.family.Survives (p.fresh && consumed.isEmpty) undecided
  covers : ∀ t, p.family.Covers p.fresh before consumed (undecided ++ t) frames
  first : ∀ t, frames <+: (p.settle (input.followedBy t)).frames 0

theorem FailsBehind.here {before skipped rest : List Char} {last : Input}
    (scanned : p.scan input = (.failed e (Position.visitAll {} (before ++ skipped)), last))
    (ahead : p.ahead input = skipped ++ rest)
    (skips : ∀ t, p.family.Skips p.fresh skipped (rest ++ t))
    (undecided : rest = [] ∨ p.family.Survives (p.fresh && skipped.isEmpty) rest) :
    FailsBehind e p input before [] skipped rest where
  ahead := ahead
  hands := by
    have scanned : scanInnermost p [] input = _ := scanned
    exact ⟨_, last, .nil _, next_of_failed scanned false⟩
  open_end := undecided
  covers t := .skipped (skips t)
  first _ := List.nil_prefix

/-- A match with the frames inside it comes in front. -/
theorem FailsBehind.found {q : Pass} {m : Match} {left : Input}
    {before skipped consumed undecided : List Char} {frames : List Frame}
    (h : FailsBehind e q left (before ++ skipped ++ m.text) frames consumed undecided)
    (agrees : p.Agrees input) (failing : input.failure = some e)
    (scanned : p.scan input = (.found m q, left)) (family : q.family = p.family)
    (used : q.fresh = false) (ahead : p.ahead input = skipped ++ (m.text ++ q.ahead left))
    (start : m.pos = Position.visitAll {} (before ++ skipped)) (nonempty : m.text ≠ [])
    (skips : ∀ t, p.family.Skips p.fresh skipped (m.text ++ (q.ahead left ++ t))) :
    FailsBehind e p input before
      (⟨some m.index, String.ofList m.text, m.pos, 0⟩ :: (p.family.inside m 1 ++ frames))
      (skipped ++ (m.text ++ consumed)) undecided where
  ahead := by rw [ahead, h.ahead, List.append_assoc, List.append_assoc]
  hands := by
    obtain ⟨s, last, hands, failed⟩ := h.hands
    have within := hands_opened q m [] left
    rw [family] at within
    refine ⟨s, last, .cons (next_of_found scanned) (within.trans hands), ?_⟩
    simpa using failed
  open_end := by
    have open_end := h.open_end
    have matched : (skipped ++ (m.text ++ consumed)).isEmpty = false := by simp [nonempty]
    rw [family, used] at open_end
    rwa [matched, Bool.and_false]
  covers t := by
    have covers := h.covers t
    rw [family, used] at covers
    refine covers.found start nonempty ?_
    simpa [h.ahead] using skips t
  first t := by
    rw [Pass.frames_of_found (Pass.scan_followedBy agrees failing scanned t)]
    exact List.cons_prefix_cons.2 ⟨rfl, (List.prefix_append_right_inj _).2 (h.first t)⟩

/-- Over an input that fails the outermost pass comes to the failure. -/
theorem exists_failsBehind (agrees : p.Agrees input) (failing : input.failure = some e)
    (before : List Char) (pos : p.pos = Position.visitAll {} before) :
    ∃ frames consumed undecided, FailsBehind e p input before frames consumed undecided := by
  -- The pass behind a match has less text ahead.
  generalize hn : (p.ahead input).length = n
  induction n using Nat.strongRecOn generalizing p input before with
  | ind n ih =>
    have cuts := Pass.cuts_outcome agrees failing
    rcases scanned : p.scan input with ⟨⟨m, q⟩ | _ | ⟨e', pos'⟩, left⟩ <;>
      rw [Pass.outcome, scanned] at cuts <;>
      generalize ahead : p.ahead input = text at cuts hn
    · rw [Outcome.settle] at cuts
      generalize settled : q.settle left = r at cuts
      cases cuts with
      | @found skipped rest m nonempty skips hm =>
        simp only [Pass.settle, Pass.mk.injEq] at settled
        obtain ⟨family, rfl, pos_q, -, used⟩ := settled
        have start : m.pos = Position.visitAll {} (before ++ skipped) := by
          rw [hm, pos, Position.visitAll_append]
        have behind : q.pos = Position.visitAll {} (before ++ skipped ++ m.text) := by
          rw [pos_q, pos, List.append_assoc, Position.visitAll_append _ before]
        have shorter : (q.ahead left).length < n := by
          have := List.length_pos_iff.2 nonempty
          simp only [← hn, List.length_append]
          omega
        have still : left.failure = some e := by
          have leads := (Pass.leads_of_scan agrees).failure
          rw [scanned] at leads
          exact leads.trans failing
        obtain ⟨frames, consumed, undecided, fails⟩ :=
          ih _ shorter (Pass.agrees_of_scan agrees scanned) still _ behind rfl
        exact ⟨_, _, _, fails.found agrees failing scanned family used ahead start nonempty skips⟩
    · cases cuts
    · cases cuts with
      | @failed skipped rest skips undecided =>
        rw [pos, ← Position.visitAll_append] at scanned
        exact ⟨_, _, _, .here scanned ahead skips undecided⟩

/-- Over an input that fails behind a text the scanner hands out frames, then the failure, and
then nothing, without another read. The frames close every pass that they open, but not the
outermost one; with the skipped characters they cover the text up to where the error stands, which
is where an attempt needs more than the rest of the text. They come first over every text `t` that
goes on where the input fails. -/
theorem failure_truncates (family : Family Automaton) (text : String) (e : ReadError) :
    let s := start family { rest := text.toList, failure := some e }
    ∃ (frames : List Frame) (consumed left : List Char), text.toList = consumed ++ left ∧
      (∀ n, s.calls (List.replicate (frames.length + (n + 1)) false) =
          frames.map (some ∘ .ok) ++ some (.error ⟨e, Position.visitAll {} consumed⟩) ::
            List.replicate n none ∧
        (s.afterCalls (List.replicate (frames.length + (n + 1)) false)).input =
          (s.afterCalls (List.replicate (frames.length + 1) false)).input) ∧
      Frame.Bracketed 0 (frames ++ [.ending (Position.visitAll {} consumed) 0]) ∧
      (∀ f ∈ frames, f.isSentinel = false) ∧
      (left = [] ∨ family.Survives consumed.isEmpty left) ∧
      ∀ t : String, family.Covers true [] consumed (left ++ t.toList) frames ∧
        frames.map .ok <+: (start family (.ofString (text ++ t))).results := by
  intro s
  let input : Input := { rest := text.toList, failure := some e }
  obtain ⟨frames, consumed, left, fails⟩ :=
    exists_failsBehind (Pass.agrees_outer family input) rfl [] rfl
  obtain ⟨stuck, last, hands, failed⟩ := fails.hands
  obtain ⟨handed, reached⟩ : s.calls (List.replicate frames.length false) = _ ∧
    s.afterCalls (List.replicate frames.length false) = stuck := hands.calls
  have finished (n : Nat) : s.afterCalls (List.replicate (frames.length + (n + 1)) false) =
      ⟨last, []⟩ := by
    rw [← List.replicate_append_replicate, afterCalls_append, reached, List.replicate_succ,
      afterCalls, failed, afterCalls_of_finished rfl]
  refine ⟨frames, consumed, left, fails.ahead, fun n => ⟨?_, ?_⟩, (fails.covers []).bracketed _,
    (fails.covers []).not_sentinel, fails.open_end, fun t => ⟨fails.covers t.toList, ?_⟩⟩
  · rw [← List.replicate_append_replicate, calls_append, handed, reached, List.replicate_succ,
      calls, failed, calls_of_finished rfl, List.length_replicate]
    rfl
  · rw [finished n, finished 0]
  · have more := fails.first t.toList
    have whole : ((Pass.outer family).settle (input.followedBy t.toList)).frames 0 =
        family.listing (text ++ t).toList {} 0 := by
      rw [Family.listing_eq_frames]
      simp [Pass.settle, Pass.ahead, Pass.outer, Input.followedBy, input]
    rw [whole] at more
    rw [results_eq_pending (sound_start family _) rfl, pending_start]
    exact more.map _

end Scanner
end Munch
