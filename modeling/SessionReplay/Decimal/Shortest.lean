/-!
The shortest decimal that reads back as a given double. A finite positive double is the fraction
`mantissa * 2 ^ exponent`, and a decimal reads back as it exactly when the decimal lies between
the two points half-way to the neighbouring doubles. On the grid of the multiples of one power of
ten only the two points next to the value can be nearest to it, so the search goes from coarse
grids to fine ones and stops at the first that has one of these two points in the interval.
All arithmetic is on whole numbers.
-/

namespace SessionReplay

/-- The number `digits * 10 ^ exponent`. -/
structure Decimal where
  digits : Nat
  exponent : Int
deriving DecidableEq, Repr

namespace Decimal

/-- A positive double as its bits give it: `mantissa * 2 ^ exponent`. -/
structure Binary where
  mantissa : Nat
  exponent : Int
deriving DecidableEq, Repr

/-- Reads the fields of a double and forgets its sign. With no exponent bits set the leading one
is not implied. -/
def Binary.ofBits (bits : UInt64) : Binary :=
  let fraction := bits.toNat % Nat.pow 2 52
  let biased : Nat := bits.toNat / Nat.pow 2 52 % Nat.pow 2 11
  if biased = 0 then ⟨fraction, -1074⟩ else ⟨Nat.pow 2 52 + fraction, (biased : Int) - 1075⟩

/-- The point half-way to the double below, in quarters of the last place. Below a power of two
the doubles lie twice as close, save at the bottom of the range. -/
def Binary.lowerQuarters (value : Binary) : Nat :=
  if value.mantissa = Nat.pow 2 52 ∧ value.exponent ≠ -1074 then 4 * value.mantissa - 1
  else 4 * value.mantissa - 2

def Binary.upperQuarters (value : Binary) : Nat := 4 * value.mantissa + 2

/-- Which of two equally near decimals is taken. -/
inductive Tie where
  | up
  | even
deriving DecidableEq, Repr

/-- Counts of quarters and of grid points become comparable when the first are multiplied by
`scale` and the second by `unit`. -/
def scale (value : Binary) (power : Int) : Nat :=
  Nat.pow 2 (value.exponent - 2).toNat * Nat.pow 10 (-power).toNat

def unit (value : Binary) (power : Int) : Nat :=
  Nat.pow 2 (2 - value.exponent).toNat * Nat.pow 10 power.toNat

/-- The half-way points themselves read back as the neighbour with the even mantissa. -/
def readsBack (value : Binary) (power : Int) (point : Nat) : Bool :=
  let lower := value.lowerQuarters * scale value power
  let upper := value.upperQuarters * scale value power
  let here := point * unit value power
  if value.mantissa % 2 = 0 then lower ≤ here ∧ here ≤ upper else lower < here ∧ here < upper

/-- Of the two grid points around the value, the nearest that reads back. -/
def onGrid (tie : Tie) (value : Binary) (power : Int) : Option Nat :=
  let exact := 4 * value.mantissa * scale value power
  let below := exact / unit value power
  let above := below + 1
  let twiceRest := 2 * (exact % unit value power)
  let nearest :=
    if twiceRest < unit value power then below
    else if unit value power < twiceRest then above
    else match tie with
      | .up => above
      | .even => if below % 2 = 0 then below else above
  match readsBack value power below, readsBack value power above with
  | true, true => some nearest
  | true, false => some below
  | false, true => some above
  | false, false => none

theorem readsBack_of_onGrid {tie : Tie} {value : Binary} {power : Int} {point : Nat}
    (found : onGrid tie value power = some point) : readsBack value power point = true := by
  simp only [onGrid] at found
  split at found
  case h_1 below above =>
    cases tie <;> simp only [Option.some.injEq] at found <;> grind
  all_goals simp_all

/-- Tries `grids` grids, each ten times as fine as the one before. -/
def search (tie : Tie) (value : Binary) : (grids : Nat) → (power : Int) → Decimal
  | 0, power => ⟨4 * value.mantissa * scale value power / unit value power, power⟩
  | grids + 1, power =>
      match onGrid tie value power with
      | some digits => ⟨digits, power⟩
      | none => search tie value grids (power - 1)

/-- A power of ten above the value, by `log10 2 < 0.30103`. -/
def topPower (value : Binary) : Int :=
  ((value.mantissa.log2 : Int) + 1 + value.exponent) * 30103 / 100000 + 1

/-- Seventeen significant digits always read back, so twenty grids are enough. -/
def shortest (tie : Tie) (value : Binary) : Decimal :=
  search tie value 20 (topPower value)

end Decimal

end SessionReplay
