import Munch.Proofs.Coverage
import Munch.Proofs.Recognizing

/-!
# The kinds of the tokens that a lexer makes

What a rule makes of a match depends on its text, which is one that the automaton of the rule
accepts. So a property of all kinds that the rules of a grammar make is a property of every token,
in whatever order the calls of the lexer come and whatever was looked at before: a token is made of
a frame that was pulled, and the rule that is asked is the one whose automaton matched.

## Main definitions

* `Rule.Makes`: the kinds that a rule makes have a property.
* `Lexer.kind_of_runs`: the tokens of a run.
-/

namespace Munch

variable {K : Type} {P : K → Prop}

/-- Of a text that its automaton accepts the rule makes only a kind with the property. -/
def Rule.Makes (P : K → Prop) (r : Rule K) : Prop :=
  ∀ fresh w, r.automaton.Accepts fresh w ∨ r.automaton.AcceptsAtEnd fresh w →
    ∀ (f : Frame) (t : Token K), f.text = String.ofList w →
      (Entry.mk f (some r.action)).result? = some (.ok t) → P t.kind

namespace Rule

variable (P) in
theorem makes_skip (a : Automaton) : Makes P ⟨a, .skip⟩ := by
  intro _ _ _ _ _ _ made
  cases made

theorem makes_pass {a : Automaton} {L : List Char → Prop} (recognizes : a.Recognizes L)
    {kind : String → K} (all : ∀ w, L w → P (kind (String.ofList w))) :
    Makes P ⟨a, .pass kind⟩ := by
  intro fresh w accepts f t text made
  cases made
  rw [text]
  exact all w ((recognizes.accepts fresh w).1 (accepts.resolve_right (recognizes.atEnd fresh w)))

theorem makes_lookup (a : Automaton) {table : Table K} (all : ∀ e ∈ table.entries, P e.2) :
    Makes P ⟨a, .lookup table⟩ := by
  intro _ _ _ f t _ made
  cases known : table.get? f.text with
  | none => simp [Entry.result?, known] at made
  | some kind =>
    obtain rfl : ⟨kind, f.pos⟩ = t := by simpa [Entry.result?, known] using made
    obtain ⟨before, after, entries, -⟩ := List.lookup_eq_some_iff.1 known
    exact all (f.text, kind) (by simp [entries])

end Rule

namespace Lexer

variable {l : Lexer Inline K} {e : Entry K} {t : Token K}

theorem MadeBy.kind (made : l.MadeBy e) (makes : ∀ g ∈ l.scopes, Family.All (Rule.Makes P) g)
    (token : e.result? = some (.ok t)) : P t.kind := by
  cases made with
  | matched _ _ here _ found accepts =>
    exact ((makes _ (List.mem_of_getElem? here)).get? found).1 _ _ accepts _ t rfl token
  | ending => cases token

section Scopes

variable {σ : Type} [FrameSource σ] {R : Rule K → Prop}

/-- Only a pull changes the open grammars. -/
theorem keeps_scopes (R : Rule K → Prop) :
    Keeps fun l : Lexer σ K => ∀ g ∈ l.scopes, Family.All R g where
  shift l h := by rwa [scopes_shift]
  consume _ h := h
  pop _ h := h
  stop l h := by
    rw [Lexer.stop]
    split <;> exact h
  fail _ h := h

theorem scopes_extend {l : Lexer σ K} (h : ∀ g ∈ l.scopes, Family.All R g) :
    ∀ g ∈ l.extend.2.scopes, Family.All R g := by
  have answers := answers_pull l
  rw [extend]
  generalize l.pull = answer at answers ⊢
  cases answers with
  | frame _ _ rule =>
    dsimp only
    split <;> exact all_of_resolve h rule
  | _ => exact h

/-- What is true of all rules of its grammar is true of the open grammars wherever a run pulls. -/
theorem scopes_of_runs {first last : Lexer σ K} {run : List (Call × Reply K)}
    (runs : Runs first run last) (h : ∀ g ∈ first.scopes, Family.All R g) :
    ∀ m, PulledIn first run m → ∀ g ∈ m.scopes, Family.All R g := by
  have held : ∀ l : Lexer σ K, (∀ g ∈ l.scopes, Family.All R g) → ∀ e ∈ l.stack, True :=
    fun _ _ _ _ => trivial
  have pull : ∀ n, PulledIn first run n → (∀ g ∈ n.scopes, Family.All R g) →
      Extends (fun l => ∀ g ∈ l.scopes, Family.All R g) (fun _ => True) n :=
    fun _ _ h => ⟨scopes_extend h, fun _ _ => trivial⟩
  exact ((keeps_scopes R).runs held runs h pull).2.1

end Scopes

/-- The kinds that the rules of its grammar make are those of all tokens that a lexer replies. -/
theorem kind_of_runs {g : Grammar K} (makes : Family.All (Rule.Makes P) g) (input : Input)
    (capacity : Nat) {run : List (Call × Reply K)} {last : Lexer Inline K}
    (runs : Runs (start g ⟨Scanner.start g.automata input, false⟩ capacity) run last) {c : Call}
    (given : (c, .token (some (.ok t))) ∈ run) : P t.kind := by
  obtain ⟨-, coherent, stems⟩ := coherent_of_runs g input capacity runs
  have begins : ∀ h ∈ [g], Family.All (Rule.Makes P) h := by simpa using makes
  cases stems c _ given with
  | result gained token =>
    obtain ⟨m, n, pulled, answer⟩ := gained
    have made := ((coherent m pulled).pull.2.2 _ (by rw [answer])).2.1
    exact made.kind (scopes_of_runs runs begins m pulled) token

end Lexer
end Munch
