/-!
# Durations as text

A duration is written in the greatest of the units s, ms, µs and ns that leaves a whole part,
with the exact fraction behind a point and no trailing zeros.
-/

namespace Munch

/-- A span of time, in whole nanoseconds. -/
structure Duration where
  nanoseconds : Nat
deriving DecidableEq

namespace Duration

/-- A number of microseconds. -/
def ofMicroseconds (n : Nat) : Duration := ⟨1000 * n⟩

/-- A unit of time: how many decimal places below it a nanosecond is, and its symbol. -/
structure Scale where
  places : Nat
  symbol : String

/-- The greatest unit that leaves a whole part; nanoseconds if none does. -/
def scale (d : Duration) : Scale :=
  if 1000000000 ≤ d.nanoseconds then ⟨9, "s"⟩
  else if 1000000 ≤ d.nanoseconds then ⟨6, "ms"⟩
  else if 1000 ≤ d.nanoseconds then ⟨3, "µs"⟩
  else ⟨0, "ns"⟩

/-- The decimal places of `n` parts of which `10 ^ places` make a whole, without trailing
zeros. -/
def fraction (n : Nat) : (places : Nat) → List Char
  | 0 => []
  | k + 1 =>
    if n = 0 then []
    else Nat.digitChar (n / Nat.pow 10 k) :: fraction (n % Nat.pow 10 k) k

/-- The text of a duration. -/
def text (d : Duration) : String :=
  let whole := d.nanoseconds / Nat.pow 10 d.scale.places
  let part := fraction (d.nanoseconds % Nat.pow 10 d.scale.places) d.scale.places
  toString whole ++ (if part.isEmpty then "" else "." ++ String.ofList part) ++ d.scale.symbol

end Duration
end Munch
