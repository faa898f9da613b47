import Munch.Proofs.Accounting
import Munch.Shell.Site

/-!
# The sites of the tokens of a text

Every token comes from a piece that leads where the piece begins. So what a token tells about the
text around it is what the piece tells: which pieces lose against it there, and what follows.

## Main definitions

* `MadeAt`: which tokens a piece makes, and where.
* `Splits.exists_leads_of_mem`: the piece that a token comes from.
* `inOrder_sitesOf`: the tokens stand in the text one after another.
* `exists_sites`: the tokens of a text are those at the sites of its parts.
-/

namespace Munch.Shell

variable {before text : List Char} {parts : List Part} {s : Site}

/-- A piece that begins behind the text `u` makes a token at a site. -/
inductive MadeAt (u : List Char) : Piece → Site → Prop where
  | newline : MadeAt u .newline ⟨u, .newline⟩
  | number (ds : List Char) (o : Operator) (isNumber : IsNumber ds)
    (redirects : o.isRedirection = true) :
    MadeAt u (.redirection ds o isNumber redirects) ⟨u, .ioNumber (String.ofList ds)⟩
  | redirection (ds : List Char) (o : Operator) (isNumber : IsNumber ds)
    (redirects : o.isRedirection = true) :
    MadeAt u (.redirection ds o isNumber redirects) ⟨u ++ ds, .operator o⟩
  | operator (o : Operator) : MadeAt u (.operator o) ⟨u, .operator o⟩
  | reserved (r : Reserved) : MadeAt u (.reserved r) ⟨u, .reserved r⟩
  | word (w : List Char) (isWord : IsWord w) :
    MadeAt u (.word w isWord) ⟨u, .word (String.ofList w)⟩

theorem madeAt_of_mem {u : List Char} {p : Piece} (h : s ∈ sitesFrom u p.kinds) :
    MadeAt u p s := by
  cases p with
  | blanks | comment => simp [Piece.kinds, sitesFrom] at h
  | redirection ds o isNumber redirects =>
    simp only [Piece.kinds, sitesFrom, List.mem_cons, List.not_mem_nil, or_false] at h
    rcases h with rfl | rfl
    · exact .number ds o isNumber redirects
    · simpa [Kind.lexeme] using MadeAt.redirection ds o isNumber redirects
  | _ =>
    simp only [Piece.kinds, sitesFrom, List.mem_singleton] at h
    subst h
    constructor

/-- The tokens of a piece stand in it. -/
theorem MadeAt.through_prefix {u : List Char} {p : Piece} (h : MadeAt u p s) :
    s.through <+: u ++ p.text := by
  cases h <;> simp [Site.through, Kind.lexeme, Piece.text]

/-- The tokens of a part stand in it. -/
theorem Part.through_prefix {part : Part} (h : s ∈ sitesFrom before part.kinds) :
    s.through <+: before ++ part.text := by
  cases part with
  | stray c => simp [Part.kinds, sitesFrom] at h
  | piece p => exact MadeAt.through_prefix (madeAt_of_mem h)

/-- A token comes from a piece that leads where it begins. -/
theorem Splits.exists_leads_of_mem (h : Splits text parts) (among : s ∈ sitesOf before parts) :
    ∃ u p rest, before ++ text = u ++ (p.text ++ rest) ∧ Piece.Leads p (p.text ++ rest) ∧
      MadeAt u p s := by
  induction h generalizing before with
  | done => simp [sitesOf] at among
  | @piece p rest parts leads _ ih =>
    rcases List.mem_append.1 among with here | behind
    · exact ⟨before, p, rest, rfl, leads, madeAt_of_mem here⟩
    · obtain ⟨u, q, more, same, leads, made⟩ := ih behind
      rw [List.append_assoc] at same
      exact ⟨u, q, more, same, leads, made⟩
  | @stray c rest parts _ _ ih =>
    obtain ⟨u, q, more, same, leads, made⟩ := ih among
    rw [List.append_assoc] at same
    exact ⟨u, q, more, same, leads, made⟩

/-- Tokens whose texts follow one another do not overlap. -/
theorem pairwise_sitesFrom (before : List Char) (kinds : List Kind) :
    (sitesFrom before kinds).Pairwise fun s t => s.through <+: t.before := by
  induction kinds generalizing before with
  | nil => exact .nil
  | cons kind kinds ih =>
    refine List.pairwise_cons.2 ⟨fun t ht => ?_, ih _⟩
    exact before_prefix_of_mem_sitesFrom ht

theorem pairwise_sitesOf (before : List Char) (parts : List Part) :
    (sitesOf before parts).Pairwise fun s t => s.through <+: t.before := by
  induction parts generalizing before with
  | nil => exact .nil
  | cons part parts ih =>
    refine List.pairwise_append.2 ⟨pairwise_sitesFrom before part.kinds, ih _, ?_⟩
    intro s hs t ht
    exact (Part.through_prefix hs).trans (before_prefix_of_mem_sitesOf ht)

/-- The tokens of a text stand in it one after another. -/
theorem inOrder_sitesOf (h : Splits text parts) (before : List Char) :
    InOrder (before ++ text) (sitesOf before parts) := by
  refine ⟨fun s hs => ?_, pairwise_sitesOf before parts⟩
  obtain ⟨u, p, rest, same, -, made⟩ := h.exists_leads_of_mem hs
  rw [same, ← List.append_assoc]
  exact (MadeAt.through_prefix made).trans (List.prefix_append _ _)

/-- The tokens of a text are those at the sites of the parts that it falls into. -/
theorem exists_sites (text : String) {capacity : Nat} (room : 1 ≤ capacity) :
    ∃ parts, Splits text.toList parts ∧
      tokens (.ofString text) capacity = .ok ((sitesOf [] parts).map fun s => .ok s.token) := by
  obtain ⟨parts, splits⟩ := exists_splits text.toList
  refine ⟨parts, splits, ?_⟩
  have sites := map_token_sitesOf [] parts
  rw [tokens_of_splits room splits, ← Position.visitAll_nil {}, ← sites, List.map_map]
  rfl

end Munch.Shell
