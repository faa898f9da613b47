import Munch.Shell.Piece

/-!
# Where the tokens of a text stand

A position counts lines and columns and does not say how many characters precede a token. A site
does: it is a token kind together with the text in front of it. The sites of the parts that a text
falls into give its tokens, and two tokens touch just if the text in front of the second is that of
the first with its lexeme.

## Main definitions

* `Site`: a token kind with the text in front of it.
* `sitesOf`: the sites of parts that follow one another.
* `InOrder`: sites that stand in a text one after another.
-/

namespace Munch.Shell

/-- A token kind with the text in front of it. -/
structure Site where
  before : List Char
  kind : Kind

namespace Site

/-- The token at a site. -/
def token (s : Site) : Token Kind := ⟨s.kind, Position.visitAll {} s.before⟩

/-- The text up to the end of the token. -/
def through (s : Site) : List Char := s.before ++ s.kind.lexeme.toList

end Site

/-- The sites of tokens whose texts follow one another. -/
def sitesFrom (before : List Char) : List Kind → List Site
  | [] => []
  | kind :: kinds => ⟨before, kind⟩ :: sitesFrom (before ++ kind.lexeme.toList) kinds

/-- The sites of the tokens of parts that follow one another. -/
def sitesOf (before : List Char) : List Part → List Site
  | [] => []
  | part :: parts => sitesFrom before part.kinds ++ sitesOf (before ++ part.text) parts

/-- Every token stands where its site says, and none begins before the one in front of it ends. -/
structure InOrder (text : List Char) (sites : List Site) : Prop where
  stands : ∀ s ∈ sites, s.through <+: text
  apart : sites.Pairwise fun s t => s.through <+: t.before

theorem map_token_sitesFrom (before : List Char) (kinds : List Kind) :
    (sitesFrom before kinds).map Site.token = placed (Position.visitAll {} before) kinds := by
  induction kinds generalizing before with
  | nil => rfl
  | cons kind kinds ih => simp [sitesFrom, placed, Site.token, ih]

/-- The tokens of parts are those at their sites. -/
theorem map_token_sitesOf (before : List Char) (parts : List Part) :
    (sitesOf before parts).map Site.token = tokensOf (Position.visitAll {} before) parts := by
  induction parts generalizing before with
  | nil => rfl
  | cons part parts ih => simp [sitesOf, tokensOf, map_token_sitesFrom, ih]

/-- What precedes tokens precedes each of them. -/
theorem before_prefix_of_mem_sitesFrom {before : List Char} {kinds : List Kind} {s : Site}
    (h : s ∈ sitesFrom before kinds) : before <+: s.before := by
  induction kinds generalizing before with
  | nil => simp [sitesFrom] at h
  | cons kind kinds ih =>
    rcases List.mem_cons.1 h with rfl | h
    · exact List.prefix_rfl
    · exact (List.prefix_append _ _).trans (ih h)

theorem before_prefix_of_mem_sitesOf {before : List Char} {parts : List Part} {s : Site}
    (h : s ∈ sitesOf before parts) : before <+: s.before := by
  induction parts generalizing before with
  | nil => simp [sitesOf] at h
  | cons part parts ih =>
    rcases List.mem_append.1 h with h | h
    · exact before_prefix_of_mem_sitesFrom h
    · exact (List.prefix_append _ _).trans (ih h)

end Munch.Shell
