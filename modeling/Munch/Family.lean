/-!
# Families

A family lists members in order of priority: where several members fit equally well, the
first one counts. Each member may carry an inner family, which is applied to whatever the
member matched; families so nest to any depth. A family of automata drives a scanner, and a
family of rules is a grammar.

## Main definitions

* `Family.get?`: a member by its index, with its inner family.
* `Family.map`: the same nesting with other members.
* `Family.height`: how deep the nesting goes.
-/

namespace Munch

/-- Members in order of priority, each with or without an inner family. -/
inductive Family (α : Type) where
  | nil
  | plain (member : α) (rest : Family α)
  | nesting (member : α) (inner rest : Family α)

namespace Family

variable {α β : Type}

/-- The family of a list of members with their inner families. -/
def ofList : List (α × Option (Family α)) → Family α
  | [] => nil
  | (a, none) :: l => plain a (ofList l)
  | (a, some inner) :: l => nesting a inner (ofList l)

/-- The members in order. -/
def members : Family α → List α
  | nil => []
  | plain a rest => a :: members rest
  | nesting a _ rest => a :: members rest

/-- The member with an index, with its inner family if it has one. -/
def get? : Family α → Nat → Option (α × Option (Family α))
  | nil, _ => none
  | plain a _, 0 => some (a, none)
  | nesting a inner _, 0 => some (a, some inner)
  | plain _ rest, i + 1 => get? rest i
  | nesting _ _ rest, i + 1 => get? rest i

/-- The inner family of the member with an index. -/
def inner? (f : Family α) (i : Nat) : Option (Family α) := (f.get? i).bind (·.2)

/-- Zero without inner families, else one more than the greatest height of an inner one. -/
def height : Family α → Nat
  | nil => 0
  | plain _ rest => height rest
  | nesting _ inner rest => max (height inner + 1) (height rest)

/-- Replace every member, inner ones included, and keep the nesting. -/
def map (f : α → β) : Family α → Family β
  | nil => nil
  | plain a rest => plain (f a) (map f rest)
  | nesting a inner rest => nesting (f a) (map f inner) (map f rest)

@[simp] theorem get?_ofList (l : List (α × Option (Family α))) (i : Nat) :
    (ofList l).get? i = l[i]? := by
  induction l generalizing i with
  | nil => rfl
  | cons p l ih =>
    obtain ⟨a, inner⟩ := p
    cases inner <;> cases i <;> simp [ofList, get?, ih]

theorem getElem?_members (f : Family α) (i : Nat) :
    f.members[i]? = (f.get? i).map (·.1) := by
  induction f generalizing i with
  | nil => rfl
  | plain a rest ih => cases i <;> simp [members, get?, ih]
  | nesting a inner rest _ ih => cases i <;> simp [members, get?, ih]

@[simp] theorem get?_map (f : α → β) (g : Family α) (i : Nat) :
    (g.map f).get? i = (g.get? i).map fun p => (f p.1, p.2.map (map f)) := by
  induction g generalizing i with
  | nil => rfl
  | plain a rest ih => cases i <;> simp [map, get?, ih]
  | nesting a inner rest _ ih => cases i <;> simp [map, get?, ih]

@[simp] theorem members_map (f : α → β) (g : Family α) :
    (g.map f).members = g.members.map f := by
  induction g with
  | nil => rfl
  | plain a rest ih => simp [map, members, ih]
  | nesting a inner rest _ ih => simp [map, members, ih]

@[simp] theorem height_map (f : α → β) (g : Family α) : (g.map f).height = g.height := by
  induction g with
  | nil => rfl
  | plain a rest ih => simpa [map, height] using ih
  | nesting a inner rest ih₁ ih₂ => simp [map, height, ih₁, ih₂]

theorem height_lt_of_inner? {f inner : Family α} {i : Nat} (h : f.inner? i = some inner) :
    inner.height < f.height := by
  induction f generalizing i with
  | nil => simp [inner?, get?] at h
  | plain a rest ih =>
    cases i with
    | zero => simp [inner?, get?] at h
    | succ i => exact ih h
  | nesting a own rest _ ih =>
    cases i with
    | zero =>
      obtain rfl : own = inner := by simpa [inner?, get?] using h
      simp only [height]
      omega
    | succ i =>
      have := ih (i := i) h
      simp only [height]
      omega

end Family
end Munch
