import Mathlib.Data.List.Forall2
import Munch.Lexer.Pulls
import Munch.Proofs.MaximalMunch

/-!
# Open grammars and open passes

A lexer that pulls frames from the scanner of its own grammar keeps its open grammars in step with
the passes of the scanner. A match that opens a pass also opens the inner grammar of its rule, and
the end of a pass closes the grammar of that pass. So the grammar in which a frame is looked up is
the one whose automata the pass of the frame scans with, and the index in the frame finds the rule
of the automaton that matched.

## Main definitions

* `Lexer.InStep`: the open grammars belong to the passes, level by level.
* `Lexer.MadeBy`: what becomes of a frame is what the rule of its automaton says.
* `Lexer.scopes_follow_passes`: every pull of every run finds grammars and passes in step.
-/

namespace Munch

/-- A match is a text that a member of the family accepts, under the index of the member. -/
theorem Pass.member_of_scan {p q : Pass} {input left : Input} {m : Match}
    (agrees : p.Agrees input) (h : p.scan input = (.found m q, left)) :
    ∃ a fresh, p.family.members[m.index]? = some a ∧
      (a.Accepts fresh m.text ∨ a.AcceptsAtEnd fresh m.text) := by
  induction p, input, agrees using Pass.scan_induction with
  | ending p input agrees o left attempted =>
    rw [Pass.scan_of_ending attempted] at h
    cases h
    have best := p.isBest_overview input
    cases Pass.tries_of_attempt agrees attempted with
    | found _ chosen =>
      rw [chosen] at best
      obtain ⟨a, member, accepts⟩ := best.1.accepts
      refine ⟨a, p.fresh, member, ?_⟩
      obtain accepts | ⟨-, whole, accepts⟩ := accepts
      · exact .inl accepts
      · exact .inr (by rwa [whole, List.take_length])
  | skip p input agrees r rest agreed attempted ih =>
    rw [Pass.scan_of_skipping attempted] at h
    cases Pass.tries_of_attempt agrees attempted with
    | skipped _ _ _ _ _ settled =>
      have family : (r.settle rest).family = p.family := by rw [settled]
      rw [← family]
      exact ih h

namespace Scanner

/-- A frame is a match of the innermost pass or its end. -/
theorem passes_of_next_frame {s t : Scanner} {stop : Bool} {f : Frame}
    (h : s.next stop = (some (.ok f), t)) : ∃ p around, s.passes = p :: around ∧
      ((∃ m q left, scanInnermost p around s.input = (.found m q, left) ∧
          f = ⟨some m.index, String.ofList m.text, m.pos, around.length⟩ ∧
          t.passes = opened q m ++ q :: around) ∨
        ∃ pos, f = .ending pos around.length ∧ t.passes = around) := by
  obtain ⟨input, passes⟩ := s
  cases passes with
  | nil => cases h
  | cons p around =>
    refine ⟨p, around, rfl, ?_⟩
    rcases scanned : scanInnermost p around input with ⟨⟨m, q⟩ | pos | ⟨e, pos⟩, left⟩ <;>
      simp only [next, scanned] at h
    · split at h <;> cases h
      exact .inl ⟨m, q, left, rfl, rfl, rfl⟩
    · split at h <;> cases h
      exact .inr ⟨pos, rfl, rfl⟩
    · cases h

end Scanner

namespace Inline

variable {s t : Inline}

theorem frame_of_pull {f : Frame} (h : FrameSource.pull s = (.ok (some f), t)) :
    ∃ scanner, s.scanner.next s.raised = (some (.ok f), scanner) ∧ t = { s with scanner } := by
  simp only [FrameSource.pull, pull] at h
  split at h <;> cases h
  exact ⟨_, ‹_›, rfl⟩

theorem error_of_pull {e : LexError} (h : FrameSource.pull s = (.error e, t)) :
    ∃ failure, e = .scan failure := by
  simp only [FrameSource.pull, pull] at h
  split at h <;> cases h
  exact ⟨_, rfl⟩

end Inline

namespace Lexer

variable {K : Type} {l m : Lexer Inline K} {entry : Entry K}

/-- The pass scans with the automata of the grammar. -/
def Scans (p : Pass) (g : Grammar K) : Prop := p.family = g.automata

theorem Scans.get? {p : Pass} {g : Grammar K} (h : Scans p g) (i : Nat) :
    p.family.get? i = (g.get? i).map fun r => (r.1.automaton, r.2.map Grammar.automata) := by
  rw [h, Grammar.automata, Family.get?_map]
  rfl

/-- The passes of the scanner and the open grammars belong together, level by level. The scanner
has the innermost pass first, the lexer has its grammar last. -/
def InStep (l : Lexer Inline K) : Prop :=
  List.Forall₂ Scans l.source.scanner.passes l.scopes.reverse

/-- The frame of an entry comes from the innermost pass. For a match the rule with its index in the
grammar of that pass says what becomes of it, and the automaton of that rule accepts its text. -/
inductive MadeBy (l : Lexer Inline K) : Entry K → Prop where
  | matched {p q : Pass} {around : List Pass} {m : Match} {left : Input} {g : Grammar K}
    {rule : Rule K} {inner : Option (Grammar K)} {fresh : Bool} :
    l.source.scanner.passes = p :: around →
    Scanner.scanInnermost p around l.source.scanner.input = (.found m q, left) →
    l.scopes[around.length]? = some g → Scans p g → g.get? m.index = some (rule, inner) →
    rule.automaton.Accepts fresh m.text ∨ rule.automaton.AcceptsAtEnd fresh m.text →
    MadeBy l ⟨⟨some m.index, String.ofList m.text, m.pos, around.length⟩, some rule.action⟩
  | ending {p : Pass} {around : List Pass} {pos : Position} :
    l.source.scanner.passes = p :: around → MadeBy l ⟨.ending pos around.length, none⟩

/-- Errors that pulling from a scanner ends with. -/
inductive PullError : LexError → Prop where
  | scan (failure : ScanError) : PullError (.scan failure)
  | overflow (capacity : Nat) : PullError (.lookaheadOverflow capacity)

/-- While frames are pulled, the scanner is right about its input, and the open grammars are in
step with its passes. -/
def Coherent (l : Lexer Inline K) : Prop :=
  l.status = .running → l.source.scanner.Sound ∧ l.InStep

theorem coherent_start (g : Grammar K) (input : Input) (capacity : Nat) :
    (start g ⟨Scanner.start g.automata input, false⟩ capacity).Coherent :=
  fun _ => ⟨Scanner.sound_start _ _, .cons rfl .nil⟩

theorem keeps_coherent : Keeps (Coherent (K := K)) where
  shift l h running := by
    rw [InStep, source_shift, scopes_shift]
    exact h (by simpa using running)
  consume _ h := h
  pop _ h := h
  stop l h running := by
    rw [Lexer.stop] at running
    split at running
    · cases running
    · next halted => exact absurd running halted
  fail _ _ := nofun

/-- The grammar of the innermost pass is the last one open. -/
theorem InStep.innermost (h : l.InStep) {p : Pass} {around : List Pass}
    (passes : l.source.scanner.passes = p :: around) :
    ∃ g outer, l.scopes = outer ++ [g] ∧ outer.length = around.length ∧ Scans p g ∧
      List.Forall₂ Scans around outer.reverse := by
  rw [InStep, passes] at h
  obtain ⟨g, outer, same, rest, scopes⟩ := List.forall₂_cons_left_iff.1 h
  rw [List.reverse_eq_cons_iff] at scopes
  exact ⟨g, outer.reverse, scopes, by rw [List.length_reverse, rest.length_eq], same,
    by rwa [List.reverse_reverse]⟩

/-- A match finds the rule of the automaton that matched. With the pass that it opens the inner
grammar of the rule is opened. -/
theorem InStep.resolve_found (h : l.InStep) (sound : l.source.scanner.Sound) {p q : Pass}
    {around : List Pass} {m : Match} {left : Input}
    (passes : l.source.scanner.passes = p :: around)
    (scanned : Scanner.scanInnermost p around l.source.scanner.input = (.found m q, left)) :
    ∃ action scopes,
      resolve? l.scopes ⟨some m.index, String.ofList m.text, m.pos, around.length⟩ =
        some (action, scopes) ∧
      l.MadeBy ⟨⟨some m.index, String.ofList m.text, m.pos, around.length⟩, action⟩ ∧
      List.Forall₂ Scans (Scanner.opened q m ++ q :: around) scopes.reverse := by
  obtain ⟨g, outer, scopes, length, same, rest⟩ := h.innermost passes
  have sound : Scanner.Sound ⟨l.source.scanner.input, p :: around⟩ := by rwa [← passes]
  obtain ⟨a, fresh, member, accepts⟩ := Pass.member_of_scan (Scanner.agrees_sourceOf sound)
    (Scanner.scan_of_scanInnermost scanned)
  obtain ⟨-, family, -⟩ := Scanner.scanInnermost_found scanned
  have here : l.scopes[around.length]? = some g := by simp [scopes, ← length]
  obtain ⟨⟨rule, inner⟩, found, rfl⟩ : ∃ r, g.get? m.index = some r ∧ r.1.automaton = a := by
    rw [Family.getElem?_members, same.get?] at member
    simpa using member
  refine ⟨some rule.action, l.scopes ++ inner.toList, ?_,
    .matched passes scanned here same found accepts, ?_⟩
  · have all : l.scopes.take (around.length + 1) = l.scopes :=
      List.take_of_length_le (by simp [scopes, length])
    simp [resolve?, here, found, all]
  · have inside : q.family.inner? m.index = inner.map Grammar.automata := by
      rw [family, Family.inner?, same.get?, found]
      rfl
    have outside : List.Forall₂ Scans (q :: around) l.scopes.reverse := by
      rw [scopes, List.reverse_concat]
      exact .cons (family.trans same) rest
    rw [Scanner.opened, inside]
    cases inner with
    | none => simpa using outside
    | some inner =>
      rw [Option.toList_some, List.reverse_concat]
      exact .cons rfl outside

/-- The end of an inner pass closes its grammar. -/
theorem InStep.resolve_ending (h : l.InStep) {p : Pass} {around : List Pass}
    (passes : l.source.scanner.passes = p :: around) (pos : Position)
    (inner : (Frame.ending pos around.length).isSentinel = false) :
    List.Forall₂ Scans around (l.scopes.take (max around.length 1)).reverse := by
  obtain ⟨g, outer, scopes, length, -, rest⟩ := h.innermost passes
  have deep : around.length ≠ 0 := by
    simpa [Frame.isSentinel, Frame.isEnd, Frame.ending] using inner
  have closing : l.scopes.take (max around.length 1) = outer := by
    rw [Nat.max_eq_left (by omega), scopes, ← length, List.take_left]
  rwa [closing]

/-- A frame of the scanner finds its rule, and leaves grammars and passes in step unless it is the
sentinel. -/
theorem Coherent.resolve (h : l.Coherent) (running : l.status = .running) {f : Frame}
    {s : Scanner} (handed : l.source.scanner.next l.source.raised = (some (.ok f), s)) :
    ∃ action scopes, resolve? l.scopes f = some (action, scopes) ∧ l.MadeBy ⟨f, action⟩ ∧
      (f.isSentinel = false → List.Forall₂ Scans s.passes scopes.reverse) := by
  obtain ⟨sound, inStep⟩ := h running
  obtain ⟨p, around, passes, ⟨m, q, left, scanned, rfl, opened⟩ | ⟨pos, rfl, closed⟩⟩ :=
    Scanner.passes_of_next_frame handed
  · obtain ⟨action, scopes, rule, made, follows⟩ := inStep.resolve_found sound passes scanned
    exact ⟨action, scopes, rule, made, fun _ => opened ▸ follows⟩
  · rw [closed]
    exact ⟨none, _, resolve?_of_end rfl _, .ending passes, inStep.resolve_ending passes pos⟩

/-- A pull while grammars and passes are in step. -/
theorem Coherent.pull (h : l.Coherent) : l.pull.2.Coherent ∧
    (∀ e, l.pull.1 = .error e → ∃ failure, e = .scan failure) ∧
    ∀ entry, l.pull.1 = .ok (some entry) →
      l.InStep ∧ l.MadeBy entry ∧ (entry.frame.isSentinel = false → l.pull.2.InStep) := by
  have answers := answers_pull l
  generalize l.pull = answer at answers ⊢
  cases answers with
  | halted => exact ⟨h, nofun, nofun⟩
  | failed _ pulled =>
    refine ⟨nofun, fun e he => ?_, nofun⟩
    cases he
    exact Inline.error_of_pull pulled
  | ended => exact ⟨nofun, nofun, nofun⟩
  | @frame f _ _ _ running pulled rule =>
    obtain ⟨s, handed, rfl⟩ := Inline.frame_of_pull pulled
    obtain ⟨action, scopes, rule', made, inStep⟩ := h.resolve running handed
    rw [rule] at rule'
    cases rule'
    refine ⟨fun going => ?_, nofun, fun entry same => ?_⟩
    · have sound := (Scanner.sound_next (h running).1 l.source.raised).1
      rw [handed] at sound
      cases last : f.isSentinel with
      | true => simp [last] at going
      | false => exact ⟨sound, inStep last⟩
    · cases same
      exact ⟨(h running).2, made, inStep⟩
  | unknown running pulled missing =>
    obtain ⟨s, handed, rfl⟩ := Inline.frame_of_pull pulled
    obtain ⟨action, scopes, rule, -⟩ := h.resolve running handed
    rw [missing] at rule
    cases rule

theorem Coherent.extend (h : l.Coherent) : l.extend.2.Coherent := by
  have kept := h.pull.1
  rw [Lexer.extend]
  split
  · next pulled => rwa [pulled] at kept
  · next pulled => rwa [pulled] at kept
  · next pulled =>
    rw [pulled] at kept
    split
    · exact kept
    · exact keeps_coherent.fail _ kept

/-- Pulling onto the stack fails only where a read fails or the stack is full. -/
theorem Coherent.pullError (h : l.Coherent) {e : LexError} (failed : l.extend.1 = .error e) :
    PullError e := by
  obtain failed | ⟨capacity, rfl⟩ := error_of_extend failed
  · obtain ⟨failure, rfl⟩ := h.pull.2.1 e failed
    exact .scan failure
  · exact .overflow capacity

/-- A lexer over the scanner of its grammar pulls only while grammars and passes are in step. What
its calls reply stems from the entries that these pulls give, or from their errors. -/
theorem coherent_of_runs (g : Grammar K) (input : Input) (capacity : Nat)
    {run : List (Call × Reply K)} {last : Lexer Inline K}
    (runs : Runs (start g ⟨Scanner.start g.automata input, false⟩ capacity) run last) :
    let first := start g ⟨Scanner.start g.automata input, false⟩ capacity
    last.Coherent ∧ (∀ m, PulledIn first run m → m.Coherent) ∧
      ∀ c r, (c, r) ∈ run → r.StemsFrom (first.Gains run) PullError := by
  intro first
  have keeps := (keeps_coherent (K := K)).and (keeps_stack (first.Gains run))
  have begins : first.Coherent ∧ ∀ e ∈ first.stack, first.Gains run e :=
    ⟨coherent_start g input capacity, nofun⟩
  have pull (n : Lexer Inline K) (pulled : PulledIn first run n)
      (h : n.Coherent ∧ ∀ e ∈ n.stack, first.Gains run e) :
      Extends (fun l => l.Coherent ∧ ∀ e ∈ l.stack, first.Gains run e) PullError n := by
    refine ⟨⟨h.1.extend, fun e he => ?_⟩, fun e => h.1.pullError⟩
    rcases stack_extend he with he | ⟨m, answer⟩
    · exact h.2 e he
    · exact ⟨n, m, pulled, answer⟩
  obtain ⟨kept, visited, stems⟩ := keeps.runs (fun _ h => h.2) runs begins pull
  exact ⟨kept.1, fun m pulled => (visited m pulled).1, stems⟩

/-- All calls of a lexer over the scanner of its grammar return, whatever the input. In every run
the source is pulled only while grammars and passes are in step. Every frame that it gives is then
classified by the rule whose automaton matched, and leaves them in step unless it ends the stream.
What the calls reply comes from these frames, or from a failed read or a stack that is full; so no
rule is ever missing. -/
theorem scopes_follow_passes (g : Grammar K) (input : Input) (capacity : Nat) :
    let first := start g ⟨Scanner.start g.automata input, false⟩ capacity
    (∀ calls, ∃ run last, Runs first run last ∧ run.map (·.1) = calls) ∧
    ∀ run last, Runs first run last →
      (∀ m entry n, PulledIn first run m → m.pull = (.ok (some entry), n) →
        m.InStep ∧ m.MadeBy entry ∧ (entry.frame.isSentinel = false → n.InStep)) ∧
      (last.status = .running → last.InStep) ∧
      (∀ c r, (c, r) ∈ run → r.StemsFrom (first.Gains run) PullError) ∧
      ∀ c r, (c, r) ∈ run → ∀ automaton depth pos,
        r.error? ≠ some (.unknownRule automaton depth pos) := by
  intro first
  refine ⟨exists_runs first, fun run last runs => ?_⟩
  obtain ⟨kept, visited, stems⟩ := coherent_of_runs g input capacity runs
  refine ⟨fun m entry n pulled answer => ?_, fun running => (kept running).2, stems,
    fun c r called automaton depth pos he => ?_⟩
  · have told := (visited m pulled).pull.2.2 entry
    rw [answer] at told
    exact told rfl
  · obtain error | ⟨_, error⟩ | ⟨_, _, _, error⟩ := (stems c r called).error he <;> cases error

end Lexer

/-- The matches of the outer rule are taken apart by an inner grammar with the same automaton. -/
def Grammar.twofold : Grammar String :=
  .nesting ⟨.aOrAbc, .skip⟩ (.plain ⟨.aOrAbc, .pass id⟩ .nil) .nil

/-- The frame inside the first match is looked at and dropped before the lexer comes to it. -/
theorem Lexer.scopes_follow_passes_past_pop :
    let first :=
      start .twofold ⟨Scanner.start (Grammar.automata .twofold) (.ofString "aabc"), false⟩ 2
    let run : List (Call × Reply String) := [(.peek 1, .peeked (.ok (some ⟨some 0, "a", {}, 1⟩))),
      (.pop, .popped (some ⟨some 0, "a", {}, 1⟩)), (.lex, .token (some (.ok ⟨"abc", ⟨0, 1⟩⟩)))]
    ∃ last, Runs first run last ∧ last.InStep ∧ ∀ m entry n, PulledIn first run m →
      m.pull = (.ok (some entry), n) →
        m.InStep ∧ m.MadeBy entry ∧ (entry.frame.isSentinel = false → n.InStep) := by
  intro first run
  have peeked : (first.peek 1).1 = .ok (some ⟨some 0, "a", {}, 1⟩) := by decide +kernel
  have popped : (first.peek 1).2.pop.1 = some ⟨some 0, "a", {}, 1⟩ := by decide +kernel
  have lexed : (first.peek 1).2.pop.2.lex.1 = some (.ok ⟨"abc", ⟨0, 1⟩⟩) := by decide +kernel
  have running : (first.peek 1).2.pop.2.lex.2.status = .running := by decide +kernel
  have runs : Runs first [(.peek 1, .peeked (first.peek 1).1), (.pop, .popped
      (first.peek 1).2.pop.1), (.lex, .token (first.peek 1).2.pop.2.lex.1)] _ :=
    .cons (.peek first 1) (.cons (.pop _) (.cons (.lex (lexes_iff.2 rfl)) (.nil _)))
  rw [peeked, popped, lexed] at runs
  have follow := (scopes_follow_passes .twofold (.ofString "aabc") 2).2 _ _ runs
  exact ⟨_, runs, follow.2.1 running, follow.1⟩

end Munch
