import Munch.Attempt
import Munch.Offer

/-!
# An attempt finds the preferred offer

An attempt keeps a list of live runs and one best candidate. Here both are tied to the language
of the family: behind a text the live runs are exactly the runs that survive it, and the best
candidate is the offer that no other offer beats. The invariant is `Attempt.Behind`; it holds
at the start, and a character preserves it. Once no run is live no longer text is accepted, so
an attempt that stops early misses nothing.

## Main definitions

* `Candidate.IsBest`: the best of the candidates with a property, if there is any.
* `Attempt.Behind`: the state of an attempt behind a text, in terms of the language.
* `Attempt.isBest_close_feed`: the result of an attempt over a whole text.
-/

namespace Munch

namespace Candidate

variable {P Q : Candidate → Prop} {best : Option Candidate}

/-- Nothing has the property, or the candidate has it and beats all others that do. -/
def IsBest (P : Candidate → Prop) : Option Candidate → Prop
  | none => ∀ c, ¬P c
  | some b => P b ∧ ∀ c, P c → c = b ∨ b.Beats c

theorem IsBest.congr (h : IsBest P best) (iff : ∀ c, P c ↔ Q c) : IsBest Q best := by
  obtain rfl : P = Q := funext fun c => propext (iff c)
  exact h

theorem better_of_zero {c : Candidate} (zero : c.length = 0) : better best c = best := by
  simp [Candidate.better, zero]

/-- Another candidate competes. -/
theorem IsBest.better (h : IsBest P best) {c : Candidate} (pos : 0 < c.length) :
    IsBest (fun d => P d ∨ d = c) (better best c) := by
  unfold Candidate.better
  rw [if_neg (by omega)]
  cases best with
  | none =>
    refine ⟨.inr rfl, ?_⟩
    rintro d (hd | rfl)
    · exact absurd hd (h d)
    · exact .inl rfl
  | some b =>
    obtain ⟨hb, beats⟩ := h
    by_cases hc : c.Beats b
    · simp only [if_pos hc]
      refine ⟨.inr rfl, ?_⟩
      rintro d (hd | rfl)
      · rcases beats d hd with rfl | hbd
        · exact .inr hc
        · exact .inr (hc.trans hbd)
      · exact .inl rfl
    · simp only [if_neg hc]
      refine ⟨.inl hb, ?_⟩
      rintro d (hd | rfl)
      · exact beats d hd
      · rcases beats_or_eq_or_beats b d with hbd | rfl | hdb
        · exact .inr hbd
        · exact .inl rfl
        · exact absurd hdb hc

end Candidate

open Candidate (IsBest)

namespace Attempt

variable {f : Family Automaton} {fresh final : Bool} {w : List Char} {a : Attempt}

/-- Runs that accept a nonempty text compete. -/
theorem isBest_contend {P : Candidate → Prop} {best : Option Candidate} (h : IsBest P best)
    {n : Nat} (pos : 0 < n) (runs : List Run) :
    IsBest (fun d => P d ∨ ∃ r ∈ runs, d = ⟨r.index, n⟩) (contend best n runs) := by
  rw [contend]
  induction runs generalizing P best with
  | nil => exact h.congr (by simp)
  | cons r runs ih =>
    have first : IsBest _ (Candidate.better best ⟨r.index, n⟩) := h.better pos
    exact (ih first).congr (by simp [or_assoc])

/-- Nothing competes before the first character. -/
theorem contend_zero (best : Option Candidate) (runs : List Run) : contend best 0 runs = best := by
  rw [contend]
  induction runs with
  | nil => rfl
  | cons r runs ih =>
    rw [List.foldl_cons, Candidate.better_of_zero rfl]
    exact ih

/-- Where an attempt stands behind a text: the live runs are those that survive the text, and
the best candidate is the best offer inside it. -/
structure Behind (f : Family Automaton) (fresh : Bool) (w : List Char) (a : Attempt) : Prop where
  length : a.length = w.length
  live : ∀ r, r ∈ a.live ↔ f.members[r.index]? = some r.automaton ∧
    ∃ q ∈ r.automaton.starts fresh, r.automaton.run q w = some r.state
  best : IsBest (f.Offers fresh false w) a.best

theorem behind_start (f : Family Automaton) (fresh : Bool) : Behind f fresh [] (start f fresh) where
  length := rfl
  live r := by
    obtain ⟨i, m, q⟩ := r
    simp only [start, List.mem_flatMap, Prod.exists, List.mem_zipIdx_iff_getElem?, List.mem_map,
      Run.mk.injEq, Automaton.run_nil, Option.some.injEq]
    constructor
    · rintro ⟨m, i, hm, q, hq, rfl, rfl, rfl⟩
      exact ⟨hm, q, hq, rfl⟩
    · rintro ⟨hm, p, hp, rfl⟩
      exact ⟨m, i, hm, p, hp, rfl, rfl, rfl⟩
  best := by
    intro c offered
    have := offered.pos
    have := offered.le
    simp only [List.length_nil] at this
    omega

/-- An offer one character further on is an old one, or a member accepts all of the text. -/
theorem offers_snoc (f : Family Automaton) (fresh : Bool) (w : List Char) (c : Char)
    (d : Candidate) : f.Offers fresh false (w ++ [c]) d ↔ f.Offers fresh false w d ∨
      d.length = w.length + 1 ∧
        ∃ m, f.members[d.index]? = some m ∧ m.Accepts fresh (w ++ [c]) := by
  by_cases short : d.length ≤ w.length
  · constructor
    · rintro ⟨pos, -, m, hm, accepts | ⟨final, -⟩⟩
      · rw [List.take_append_of_le_length short] at accepts
        exact .inl ⟨pos, short, m, hm, .inl accepts⟩
      · cases final
    · rintro (⟨pos, le, m, hm, accepts | ⟨final, -⟩⟩ | ⟨long, -⟩)
      · refine ⟨pos, by simp; omega, m, hm, .inl ?_⟩
        rwa [List.take_append_of_le_length short]
      · cases final
      · omega
  · constructor
    · rintro ⟨-, le, m, hm, accepts | ⟨final, -⟩⟩
      · have all : d.length = w.length + 1 := by
          rw [List.length_append, List.length_singleton] at le
          omega
        rw [List.take_of_length_le (by simp [all])] at accepts
        exact .inr ⟨all, m, hm, accepts⟩
      · cases final
    · rintro (⟨-, le, -⟩ | ⟨all, m, hm, accepts⟩)
      · exact absurd le short
      · refine ⟨by omega, by simp [all], m, hm, .inl ?_⟩
        rwa [List.take_of_length_le (by simp [all])]

/-- A character preserves where the attempt stands. -/
theorem Behind.take (h : Behind f fresh w a) (c : Char) : Behind f fresh (w ++ [c]) (a.take c) := by
  have live : ∀ r, r ∈ (a.take c).live ↔ f.members[r.index]? = some r.automaton ∧
      ∃ q ∈ r.automaton.starts fresh, r.automaton.run q (w ++ [c]) = some r.state := by
    intro r
    obtain ⟨i, m, q⟩ := r
    simp only [Attempt.take, List.mem_filterMap, Run.step, Option.map_eq_some_iff,
      Automaton.run_append, Option.bind_eq_some_iff, Automaton.run_cons, Automaton.run_nil]
    constructor
    · rintro ⟨⟨j, n, p⟩, hr, s, hs, heq⟩
      obtain ⟨hm, o, ho, hp⟩ := (h.live _).1 hr
      cases heq
      exact ⟨hm, o, ho, p, hp, q, hs, rfl⟩
    · rintro ⟨hm, o, ho, p, hp, s, hs, heq⟩
      cases heq
      exact ⟨⟨i, m, p⟩, (h.live _).2 ⟨hm, o, ho, hp⟩, q, hs, rfl⟩
  have length : (a.take c).length = w.length + 1 := by simp [Attempt.take, h.length]
  refine ⟨by simpa using length, live, ?_⟩
  have best := isBest_contend h.best (Nat.succ_pos a.length)
    ((a.take c).live.filter (·.accepts))
  refine best.congr fun d => ?_
  rw [offers_snoc]
  refine or_congr_right ?_
  constructor
  · rintro ⟨r, hr, rfl⟩
    obtain ⟨hr, accepts⟩ := List.mem_filter.1 hr
    obtain ⟨hm, q, hq, hrun⟩ := (live r).1 hr
    exact ⟨by simp [h.length], r.automaton, hm, q, hq, r.state, hrun, accepts⟩
  · rintro ⟨hd, m, hm, q, hq, s, hrun, accepts⟩
    refine ⟨⟨d.index, m, s⟩, List.mem_filter.2 ⟨(live _).2 ⟨hm, q, hq, hrun⟩, accepts⟩, ?_⟩
    rw [h.length, Nat.succ_eq_add_one, ← hd]

/-- Behind characters at hand some of them may be left, but only if no run is live. -/
theorem Behind.feed (h : Behind f fresh w a) (cs : List Char) :
    ∃ u v, cs = u ++ v ∧ Behind f fresh (w ++ u) (a.feed cs) ∧
      (v = [] ∨ (a.feed cs).live = []) := by
  induction cs generalizing w a with
  | nil => exact ⟨[], [], rfl, by simpa [Attempt.feed] using h, .inl rfl⟩
  | cons c cs ih =>
    by_cases dead : a.live.isEmpty
    · rw [Attempt.feed, if_pos dead]
      exact ⟨[], c :: cs, rfl, by simpa using h, .inr (List.isEmpty_iff.1 dead)⟩
    · rw [Attempt.feed, if_neg dead]
      obtain ⟨u, v, rfl, behind, left⟩ := ih (h.take c)
      exact ⟨c :: u, v, rfl, by simpa using behind, left⟩

/-- No run survives the text. -/
theorem Behind.not_survives (h : Behind f fresh w a) (dead : a.live = []) {i : Nat}
    {m : Automaton} (hm : f.members[i]? = some m) {q : Nat} (hq : q ∈ m.starts fresh) :
    m.run q w = none := by
  cases hrun : m.run q w with
  | none => rfl
  | some s =>
    have : (⟨i, m, s⟩ : Run) ∈ a.live := (h.live _).2 ⟨hm, q, hq, hrun⟩
    simp [dead] at this

/-- Runs are live exactly if members survive the text. -/
theorem Behind.survives_iff (h : Behind f fresh w a) : f.Survives fresh w ↔ a.live ≠ [] := by
  constructor
  · rintro ⟨m, member, q, start, live⟩ dead
    obtain ⟨i, hm⟩ := List.mem_iff_getElem?.1 member
    rw [h.not_survives dead hm start] at live
    cases live
  · intro live
    obtain ⟨r, hr⟩ := List.exists_mem_of_ne_nil _ live
    obtain ⟨member, q, start, run⟩ := (h.live r).1 hr
    exact ⟨r.automaton, List.mem_of_getElem? member, q, start, by rw [run]; rfl⟩

/-- Where no run is live, what follows cannot change what is offered. -/
theorem Behind.offers_of_dead (h : Behind f fresh w a) (dead : a.live = []) (v : List Char)
    (d : Candidate) : f.Offers fresh final (w ++ v) d ↔ f.Offers fresh false w d := by
  have never : ∀ {i : Nat} {m : Automaton} {x : List Char}, f.members[i]? = some m →
      ∀ q ∈ m.starts fresh, m.run q (w ++ x) = none := by
    intro i m x hm q hq
    rw [Automaton.run_append, h.not_survives dead hm hq]
    rfl
  constructor
  · rintro ⟨pos, le, m, hm, ⟨q, hq, s, hs, accepts⟩ | ⟨-, -, q, hq, s, hs, -⟩⟩
    · -- A candidate that reaches beyond the text would need a run that survives it.
      by_cases short : d.length ≤ w.length
      · rw [List.take_append_of_le_length short] at hs
        exact ⟨pos, short, m, hm, .inl ⟨q, hq, s, hs, accepts⟩⟩
      · rw [List.take_append, List.take_of_length_le (by omega), never hm q hq] at hs
        cases hs
    · rw [never hm q hq] at hs
      cases hs
  · rintro ⟨pos, le, m, hm, accepts | ⟨final, -⟩⟩
    · refine ⟨pos, by simp; omega, m, hm, .inl ?_⟩
      rwa [List.take_append_of_le_length le]
    · cases final

theorem close_of_dead (dead : a.live = []) : a.close.best = a.best := by
  simp [close, dead, contend]

/-- At the end of the text, the runs still live make their offers. -/
theorem Behind.isBest_close (h : Behind f fresh w a) :
    IsBest (f.Offers fresh true w) a.close.best := by
  by_cases empty : w = []
  · subst empty
    have : a.close.best = a.best := by simp [close, h.length, contend_zero]
    rw [this]
    refine h.best.congr fun d => ?_
    constructor <;> rintro ⟨pos, le, -⟩ <;> simp only [List.length_nil] at le <;> omega
  · have pos : 0 < a.length := by rw [h.length]; exact List.length_pos_iff.2 empty
    refine (isBest_contend h.best pos (a.live.filter (·.acceptsAtEnd))).congr fun d => ?_
    constructor
    · rintro (⟨pos, le, m, hm, accepts | ⟨final, -⟩⟩ | ⟨r, hr, rfl⟩)
      · exact ⟨pos, le, m, hm, .inl accepts⟩
      · cases final
      · obtain ⟨hr, ends⟩ := List.mem_filter.1 hr
        obtain ⟨hm, q, hq, hrun⟩ := (h.live r).1 hr
        obtain ⟨t, ht, accepts⟩ := List.any_eq_true.1 ends
        exact ⟨pos, Nat.le_of_eq h.length, r.automaton, hm,
          .inr ⟨rfl, h.length, q, hq, r.state, hrun, t, ht, accepts⟩⟩
    · rintro ⟨pos, le, m, hm, accepts | ⟨-, all, q, hq, s, hrun, t, ht, accepts⟩⟩
      · exact .inl ⟨pos, le, m, hm, .inl accepts⟩
      · refine .inr ⟨⟨d.index, m, s⟩, List.mem_filter.2 ⟨(h.live _).2 ⟨hm, q, hq, hrun⟩, ?_⟩, ?_⟩
        · exact List.any_eq_true.2 ⟨t, ht, accepts⟩
        · rw [h.length, ← all]

/-- The result of an attempt over a whole text is the best of what the family offers. -/
theorem isBest_close_feed (f : Family Automaton) (fresh : Bool) (text : List Char) :
    IsBest (f.Offers fresh true text) ((start f fresh).feed text).close.best := by
  obtain ⟨u, v, rfl, behind, rfl | dead⟩ := (behind_start f fresh).feed text
  · simpa using behind.isBest_close
  · rw [close_of_dead dead]
    exact behind.best.congr fun d => (behind.offers_of_dead dead v d).symm

end Attempt
end Munch
