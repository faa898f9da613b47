import Munch.Lexer.Pulls
import Munch.Proofs.Accounts
import Munch.Proofs.Ending
import Munch.Proofs.Lookahead

/-!
# The rule of a frame by looking back

A source may give frames of any depth in any order. The lexer keeps a list of open grammars, which
every frame cuts and some lengthen. Which rule belongs to a frame can be said without that list. At
depth zero the grammar of the lexer decides. Deeper, one looks back for the last frame that settles
what is open there: a match further out, or the end of a pass that is no deeper. The frame has a
rule only if that is a match just around it, whose own rule carries a grammar with the index of the
frame. So a grammar is not used any more once a frame has closed its pass or opened another one in
its place.

## Main definitions

* `Frame.Settles`: the frame settles what is open at a depth.
* `Lexer.RuledBy`: the rule of a frame behind other frames.
* `Lexer.LooksBack`: the open grammars are those that one finds by looking back.
* `Lexer.rules_by_looking_back`: every pull of every run over every source.
-/

namespace Munch

/-- The frame settles what is open at a depth: it is a match further out, or the end of a pass that
is no deeper. -/
def Frame.Settles (f : Frame) (depth : Nat) : Prop :=
  if f.isEnd then f.depth ≤ depth else f.depth < depth

theorem Frame.settles_of_match {f : Frame} {i depth : Nat} (h : f.automaton = some i) :
    f.Settles depth ↔ f.depth < depth := by
  simp [Settles, isEnd, h]

theorem Frame.settles_of_end {f : Frame} {depth : Nat} (h : f.automaton = none) :
    f.Settles depth ↔ f.depth ≤ depth := by
  simp [Settles, isEnd, h]

namespace Lexer

variable {σ K : Type} {g inner : Grammar K} {before : List Frame} {f : Frame} {d : Nat}
  {rule : Rule K}

/-- A frame behind other frames belongs to a rule, with its inner grammar if it has one. At depth
zero the grammar `g` decides; deeper, it is the inner grammar of the last match further out, which
lies just around the frame, and no frame behind that match settles anything at the depth. -/
inductive RuledBy (g : Grammar K) : List Frame → Frame → Rule K → Option (Grammar K) → Prop where
  | outermost {before : List Frame} {f : Frame} {i : Nat} {rule : Rule K}
    {inner : Option (Grammar K)} :
    f.automaton = some i → f.depth = 0 → g.get? i = some (rule, inner) →
    RuledBy g before f rule inner
  | inside {earlier later : List Frame} {opener f : Frame} {outer rule : Rule K}
    {own : Grammar K} {i : Nat} {inner : Option (Grammar K)} :
    f.automaton = some i → f.depth = opener.depth + 1 → RuledBy g earlier opener outer (some own) →
    (∀ x ∈ later, ¬x.Settles f.depth) → own.get? i = some (rule, inner) →
    RuledBy g (earlier ++ opener :: later) f rule inner

/-- The frames leave a grammar open inside the matches of a depth: the last frame that settles
anything there is a match whose rule carries the grammar. -/
def Opened (g : Grammar K) (before : List Frame) (d : Nat) (inner : Grammar K) : Prop :=
  ∃ earlier opener later rule, before = earlier ++ opener :: later ∧ opener.depth = d ∧
    RuledBy g earlier opener rule (some inner) ∧ ∀ x ∈ later, ¬x.Settles (d + 1)

theorem RuledBy.exists_automaton {inner : Option (Grammar K)} (h : RuledBy g before f rule inner) :
    ∃ i, f.automaton = some i := by
  cases h with
  | outermost index => exact ⟨_, index⟩
  | inside index => exact ⟨_, index⟩

/-- The rule is looked up in the grammar that is open at the depth of the frame. -/
theorem ruledBy_iff {i : Nat} {inner : Option (Grammar K)} (index : f.automaton = some i) :
    RuledBy g before f rule inner ↔
      (f.depth = 0 ∧ g.get? i = some (rule, inner)) ∨
      ∃ d own, f.depth = d + 1 ∧ Opened g before d own ∧ own.get? i = some (rule, inner) := by
  constructor
  · intro h
    cases h with
    | outermost index' top found =>
      obtain rfl := Option.some.inj (index.symm.trans index')
      exact .inl ⟨top, found⟩
    | inside index' deep opener calm found =>
      obtain rfl := Option.some.inj (index.symm.trans index')
      exact .inr ⟨_, _, deep, ⟨_, _, _, _, rfl, rfl, opener, deep ▸ calm⟩, found⟩
  · rintro (⟨top, found⟩ | ⟨_, own, deep, ⟨_, _, _, _, rfl, rfl, opener, calm⟩, found⟩)
    · exact .outermost index top found
    · exact .inside index deep opener (deep ▸ calm) found

/-- One frame more opens a grammar itself, or it leaves open what it does not settle. -/
theorem opened_concat :
    Opened g (before ++ [f]) d inner ↔
      (f.depth = d ∧ ∃ rule, RuledBy g before f rule (some inner)) ∨
      (¬f.Settles (d + 1) ∧ Opened g before d inner) := by
  constructor
  · rintro ⟨earlier, opener, later, rule, split, depth, ruled, calm⟩
    rcases List.eq_nil_or_concat later with rfl | ⟨later, last, rfl⟩
    · obtain ⟨rfl, same⟩ := List.append_inj' split rfl
      cases same
      exact .inl ⟨depth, rule, ruled⟩
    · rw [List.concat_eq_append, ← List.cons_append, ← List.append_assoc] at split
      obtain ⟨rfl, same⟩ := List.append_inj' split rfl
      cases same
      refine .inr ⟨calm _ (by simp), earlier, opener, later, rule, rfl, depth, ruled, ?_⟩
      exact fun x hx => calm x (by simp [hx])
  · rintro (⟨depth, rule, ruled⟩ | ⟨still, earlier, opener, later, rule, rfl, depth, ruled, calm⟩)
    · exact ⟨before, f, [], rule, rfl, depth, ruled, nofun⟩
    · refine ⟨earlier, opener, later ++ [f], rule, by simp, depth, ruled, ?_⟩
      intro x hx
      obtain hx | hx := List.mem_append.1 hx
      · exact calm x hx
      · obtain rfl := List.mem_singleton.1 hx
        exact still

/-! ## The open grammars -/

/-- The open grammars are those that one finds by looking back. -/
structure LooksBack (g : Grammar K) (before : List Frame) (scopes : List (Grammar K)) : Prop where
  outermost : scopes[0]? = some g
  inside : ∀ d inner, scopes[d + 1]? = some inner ↔ Opened g before d inner

variable {scopes : List (Grammar K)}

theorem looksBack_start (g : Grammar K) : LooksBack g [] [g] where
  outermost := rfl
  inside d inner := by
    refine iff_of_false nofun ?_
    rintro ⟨earlier, opener, later, -, split, -⟩
    exact List.append_ne_nil_of_right_ne_nil _ (List.cons_ne_nil _ _) split.symm

/-- The rule of a frame is the one that the open grammar at its depth has for its index. -/
theorem LooksBack.ruledBy_iff (h : LooksBack g before scopes) {i : Nat} {inner : Option (Grammar K)}
    (index : f.automaton = some i) :
    RuledBy g before f rule inner ↔
      ∃ own, scopes[f.depth]? = some own ∧ own.get? i = some (rule, inner) := by
  rw [Lexer.ruledBy_iff index]
  cases depth : f.depth with
  | zero => simp [h.outermost]
  | succ d => simp [← h.inside]

/-- An end frame closes what it settles. -/
theorem LooksBack.ending (h : LooksBack g before scopes) (ends : f.automaton = none) :
    LooksBack g (before ++ [f]) (scopes.take (max f.depth 1)) where
  outermost := by rw [List.getElem?_take_of_lt (by omega), h.outermost]
  inside d inner := by
    have unruled : ¬∃ rule, RuledBy g before f rule (some inner) := by
      rintro ⟨rule, ruled⟩
      obtain ⟨i, index⟩ := ruled.exists_automaton
      rw [ends] at index
      cases index
    rw [opened_concat, Frame.settles_of_end ends, ← h.inside]
    simp only [unruled, and_false, false_or, List.getElem?_take]
    split
    · next kept => simp [show ¬f.depth ≤ d + 1 by omega]
    · next gone => simp [show f.depth ≤ d + 1 by omega]

/-- Cutting behind a depth that is open leaves the grammars up to it. -/
theorem length_take_of_open {own : Grammar K} (here : scopes[d]? = some own) :
    (scopes.take (d + 1)).length = d + 1 :=
  List.length_take_of_le (List.getElem?_eq_some_iff.1 here).1

/-- A match closes what it settles, and opens the inner grammar of its rule. -/
theorem LooksBack.matched (h : LooksBack g before scopes) {i : Nat} (index : f.automaton = some i)
    {own : Grammar K} {inner : Option (Grammar K)} (here : scopes[f.depth]? = some own)
    (found : own.get? i = some (rule, inner)) :
    LooksBack g (before ++ [f]) (scopes.take (f.depth + 1) ++ inner.toList) where
  outermost := by
    have nonempty : 0 < (scopes.take (f.depth + 1)).length := by
      rw [length_take_of_open here]
      exact Nat.succ_pos _
    rw [List.getElem?_append_left nonempty, List.getElem?_take_of_lt (Nat.succ_pos _), h.outermost]
  inside d other := by
    have length := length_take_of_open here
    have rules : (∃ rule, RuledBy g before f rule (some other)) ↔ inner = some other := by
      simp [h.ruledBy_iff index, here, found]
    rw [opened_concat, rules, Frame.settles_of_match index, ← h.inside]
    rcases Nat.lt_trichotomy d f.depth with shallow | rfl | deep
    · rw [List.getElem?_append_left (by omega), List.getElem?_take_of_lt (by omega)]
      simp [show f.depth ≠ d by omega, show ¬f.depth < d + 1 by omega]
    · rw [List.getElem?_append_right (by omega), length, Nat.sub_self]
      cases inner <;> simp
    · rw [List.getElem?_eq_none (by cases inner <;> simp [length] <;> omega)]
      simp [show f.depth ≠ d by omega, show f.depth < d + 1 by omega]

/-- Looking back stays right when a frame finds what becomes of it. -/
theorem LooksBack.resolve (h : LooksBack g before scopes) {action : Option (Action K)}
    {after : List (Grammar K)} (found : resolve? scopes f = some (action, after)) :
    LooksBack g (before ++ [f]) after := by
  rw [resolve?] at found
  split at found
  · next ends =>
    cases found
    exact h.ending ends
  · next i index =>
    obtain ⟨own, here, found⟩ := Option.bind_eq_some_iff.1 found
    obtain ⟨⟨rule, inner⟩, rule_found, found⟩ := Option.bind_eq_some_iff.1 found
    cases found
    exact h.matched index here rule_found

/-- What becomes of a match is what its rule says, and the inner grammar of the rule is open behind
it. -/
theorem LooksBack.resolve_of_ruled (h : LooksBack g before scopes) {inner : Option (Grammar K)}
    (ruled : RuledBy g before f rule inner) :
    ∃ after, resolve? scopes f = some (some rule.action, after) ∧ after[f.depth + 1]? = inner := by
  obtain ⟨i, index⟩ := ruled.exists_automaton
  obtain ⟨own, here, found⟩ := (h.ruledBy_iff index).1 ruled
  refine ⟨scopes.take (f.depth + 1) ++ inner.toList, by simp [resolve?, index, here, found], ?_⟩
  have length := length_take_of_open here
  rw [List.getElem?_append_right (Nat.le_of_eq length), length, Nat.sub_self]
  cases inner <;> rfl

/-- A match without a rule is lost. -/
theorem LooksBack.resolve_of_unruled (h : LooksBack g before scopes) {i : Nat}
    (index : f.automaton = some i) (unruled : ¬∃ rule inner, RuledBy g before f rule inner) :
    resolve? scopes f = none := by
  cases found : resolve? scopes f with
  | none => rfl
  | some p =>
    simp only [resolve?, index, Option.bind_eq_bind, Option.bind_eq_some_iff] at found
    obtain ⟨own, here, ⟨rule, inner⟩, rule_found, -⟩ := found
    exact absurd ⟨rule, inner, (h.ruledBy_iff index).2 ⟨own, here, rule_found⟩⟩ unruled

/-! ## A property at all times -/

section Moves

variable [FrameSource σ] {P : Lexer σ K → Prop} {l m : Lexer σ K}

theorem Keeps.behind_classify (keeps : Keeps P) (h : P l) (e : Entry K) : P (l.classify e).2 := by
  have consumed := keeps.consume l h
  rw [classify_eq]
  split
  · exact consumed
  · exact keeps.fail _ consumed
  · exact consumed

/-- What every pull preserves holds after any moves. -/
theorem Keeps.moves (keeps : Keeps P) (pull : ∀ l, P l → P l.extend.2) (h : P l)
    (ms : List Move) : P (l.moves ms) := by
  apply moves_induction _ h
  intro l a h
  cases a with
  | shift => exact keeps.shift l h
  | extend => exact pull l h
  | take =>
    rw [move, take]
    split
    · exact keeps.behind_classify (keeps.shift l h) _
    · exact keeps.shift l h
  | look => exact h
  | pop => exact keeps.pop l h
  | stop => exact keeps.stop l h

/-- A call pulls the source between moves. -/
theorem Pulls.exists_moves {c : Call} (h : Pulls l c m) : ∃ ms, l.moves ms = m := by
  induction h with
  | lex => exact ⟨[.shift], rfl⟩
  | @skip l k m turned _ ih =>
    obtain ⟨ms, rfl⟩ := ih
    exact ⟨l.turnMoves ++ ms, by rw [moves_append, moves_turn, turned]⟩
  | peek => exact ⟨[], rfl⟩
  | deepen _ _ extended _ ih =>
    obtain ⟨ms, rfl⟩ := ih
    exact ⟨.extend :: ms, by rw [moves_cons, move, extended]⟩

theorem PulledIn.exists_moves {run : List (Call × Reply K)} (h : PulledIn l run m) :
    ∃ ms, l.moves ms = m := by
  induction h with
  | here pulls => exact pulls.exists_moves
  | later performs _ ih =>
    obtain ⟨first, makes⟩ := Lexer.exists_makes performs
    obtain ⟨ms, rfl⟩ := ih
    exact ⟨first ++ ms, by rw [moves_append, makes.moves_eq]⟩

end Moves

/-! ## Every pull -/

section Pull

variable [FrameSource σ] {l m : Lexer (Recorded σ) K} {t : Recorded σ}

/-- As long as the lexer is running, its open grammars are those found by looking back. -/
def Remembers (g : Grammar K) (l : Lexer (Recorded σ) K) : Prop :=
  l.status = .running → LooksBack g l.source.frames l.scopes

omit [FrameSource σ] in
theorem remembers_start (g : Grammar K) (source : σ) (capacity : Nat) :
    Remembers g (start g ({ source } : Recorded σ) capacity) :=
  fun _ => looksBack_start g

theorem keeps_remembers (g : Grammar K) : Keeps (Remembers g : Lexer (Recorded σ) K → Prop) where
  shift l h := by
    rw [Remembers, status_shift, source_shift, scopes_shift]
    exact h
  consume _ h := h
  pop _ h := h
  stop l h running := absurd running (spent_stop l).halted
  fail _ _ := nofun

theorem Remembers.extend (h : Remembers g l) : Remembers g l.extend.2 := by
  have extended := extended_extend l
  generalize l.extend = result at extended ⊢
  cases extended with
  | halted => exact h
  | ended => exact nofun
  | pushed running pulled found =>
    intro _
    rw [Recorded.frames_of_frame pulled]
    exact (h running).resolve found
  | lost => exact nofun

theorem Remembers.pulledIn (h : Remembers g l) {run : List (Call × Reply K)}
    (pulled : PulledIn l run m) : Remembers g m := by
  obtain ⟨ms, rfl⟩ := pulled.exists_moves
  exact (keeps_remembers g).moves (fun _ => Remembers.extend) h ms

theorem pull_of_frame (running : l.status = .running)
    (given : FrameSource.pull l.source = (.ok (some f), t)) {action : Option (Action K)}
    {after : List (Grammar K)} (found : resolve? l.scopes f = some (action, after)) :
    l.pull.1 = .ok (some ⟨f, action⟩) ∧ l.pull.2.scopes = after := by
  simp [Lexer.pull, running, given, found]

/-- Over every source, whatever the indices and depths of its frames, and in every state in which a
run pulls it: a match is classified by the rule that one finds by looking back over the frames
pulled before, and the inner grammar of that rule is open behind it. If there is no such rule, the
pull fails with the index, depth and position of the frame. -/
theorem rules_by_looking_back (g : Grammar K) (source : σ) (capacity : Nat)
    {run : List (Call × Reply K)} (pulled : PulledIn (start g { source } capacity) run m)
    (running : m.status = .running) (given : FrameSource.pull m.source = (.ok (some f), t)) :
    (f.automaton = none → m.pull.1 = .ok (some ⟨f, none⟩)) ∧
    ∀ i, f.automaton = some i →
      (∀ rule inner, RuledBy g m.source.frames f rule inner →
        m.pull.1 = .ok (some ⟨f, some rule.action⟩) ∧
          m.pull.2.scopes[f.depth + 1]? = inner) ∧
      ((¬∃ rule inner, RuledBy g m.source.frames f rule inner) →
        m.pull.1 = .error (.unknownRule i f.depth f.pos)) := by
  have looks := (remembers_start g source capacity).pulledIn pulled running
  refine ⟨fun ends => ?_, fun i index => ⟨fun rule inner ruled => ?_, fun unruled => ?_⟩⟩
  · have found := resolve?_of_end (f := f) (by simp [Frame.isEnd, ends]) m.scopes
    exact (pull_of_frame running given found).1
  · obtain ⟨after, found, inside⟩ := looks.resolve_of_ruled ruled
    obtain ⟨answer, scopes⟩ := pull_of_frame running given found
    exact ⟨answer, scopes ▸ inside⟩
  · have lost := looks.resolve_of_unruled index unruled
    simp [Lexer.pull, running, given, lost, index]

end Pull

end Lexer

/-- Frames that do not nest: the end at depth two closes nothing, and the last match lies inside a
pass that was closed. -/
def Script.misnested : Script where
  answers := [.ok (some ⟨some 2, "(xy)", ⟨0, 0⟩, 0⟩), .ok (some ⟨some 0, "x", ⟨0, 1⟩, 1⟩),
    .ok (some (.ending ⟨0, 2⟩ 2)), .ok (some ⟨some 0, "y", ⟨0, 2⟩, 1⟩),
    .ok (some (.ending ⟨0, 4⟩ 1)), .ok (some ⟨some 0, "z", ⟨0, 4⟩, 1⟩)]

/-- The rule of the fourth frame is found by looking back over two frames that settle nothing. The
sixth has none, although the first opened a grammar at its depth. -/
theorem Lexer.rules_by_looking_back_past_end :
    let first : Lexer (Recorded Script) String := start .bracketed { source := .misnested } 8
    let m := (first.peek 2).2
    let n := (first.peek 4).2
    (∃ rule inner, RuledBy .bracketed m.source.frames ⟨some 0, "y", ⟨0, 2⟩, 1⟩ rule inner ∧
      m.pull.1 = .ok (some ⟨⟨some 0, "y", ⟨0, 2⟩, 1⟩, some rule.action⟩)) ∧
    n.pull.1 = .error (.unknownRule 0 1 ⟨0, 4⟩) := by
  intro first m n
  have frames : m.source.frames =
      [] ++ ⟨some 2, "(xy)", ⟨0, 0⟩, 0⟩ :: [⟨some 0, "x", ⟨0, 1⟩, 1⟩, .ending ⟨0, 2⟩ 2] := by
    decide +kernel
  have ruled : RuledBy .bracketed m.source.frames ⟨some 0, "y", ⟨0, 2⟩, 1⟩ ⟨.character, .pass id⟩
      none := by
    rw [frames]
    refine .inside rfl rfl (.outermost rfl rfl rfl) ?_ rfl
    simp [Frame.Settles, Frame.isEnd, Frame.ending]
  have unruled : ¬∃ rule inner,
      RuledBy .bracketed n.source.frames ⟨some 0, "z", ⟨0, 4⟩, 1⟩ rule inner := by
    have frames : n.source.frames = n.source.frames.dropLast ++ [.ending ⟨0, 4⟩ 1] := by
      decide +kernel
    rintro ⟨rule, inner, ruled⟩
    rw [frames, ruledBy_iff rfl] at ruled
    obtain ⟨top, -⟩ | ⟨_, own, deep, opened, -⟩ := ruled
    · cases top
    · cases deep
      rw [opened_concat] at opened
      simp [Frame.Settles, Frame.isEnd, Frame.ending] at opened
  have pulled : PulledIn first [(.peek 2, .peeked (first.peek 2).1), (.peek 3, .stopped)] m :=
    .later (.peek first 2) (.here (.peek (by decide +kernel) (by decide +kernel)))
  have pulled' : PulledIn first [(.peek 4, .peeked (first.peek 4).1), (.peek 5, .stopped)] n :=
    .later (.peek first 4) (.here (.peek (by decide +kernel) (by decide +kernel)))
  obtain ⟨-, rules⟩ := rules_by_looking_back .bracketed Script.misnested 8 pulled
    (by decide +kernel) rfl
  obtain ⟨-, rules'⟩ := rules_by_looking_back .bracketed Script.misnested 8 pulled'
    (by decide +kernel) rfl
  exact ⟨⟨_, _, ruled, ((rules 0 rfl).1 _ _ ruled).1⟩, (rules' 0 rfl).2 unruled⟩

end Munch
