import ControlFiles.Number.Binary64

/-!
# The shortest decimal of a double

`Binary64.shortest` gives the fewest decimal digits that lie closer to a double than to any other,
and of those the nearest. For 1, 2, … digits it looks at the two neighbours of the number on the
grid of decimals with so many digits; the first grid with a neighbour inside the interval of reals
that round to the number wins. Seventeen digits always suffice.

`Binary64.text` writes these digits: with a point for magnitudes between `10 ^ -5` and `10 ^ 16`,
with a signed exponent outside.
-/

namespace ControlFiles.Binary64

/-- The reals that round to a double, and the double itself, over one denominator. -/
structure Interval where
  low : Nat
  value : Nat
  high : Nat
  den : Nat
  /-- The two ends round to the double too. -/
  closed : Bool

/-- The interval of a positive finite double, in quarters of its unit in the last place. Below a
power of two the neighbour is half as far away as above. -/
def interval (x : Binary64) : Interval :=
  let (m, q) := x.significand
  let below := if m = hiddenBit && -1074 < q then 1 else 2
  let e := q - 2
  let scale := Nat.pow 2 e.toNat
  { low := (4 * m - below) * scale
    value := 4 * m * scale
    high := (4 * m + 2) * scale
    den := Nat.pow 2 (-e).toNat
    closed := m % 2 = 0 }

/-- The decimal `k * 10 ^ e` rounds to the double. -/
def Interval.holds (i : Interval) (k : Nat) (e : Int) : Bool :=
  let x := k * Nat.pow 10 e.toNat * i.den
  let scale := Nat.pow 10 (-e).toNat
  let low := i.low * scale
  let high := i.high * scale
  if i.closed then low ≤ x && x ≤ high else low < x && x < high

/-- The better of the two neighbours of the value among the multiples of `10 ^ e`, if one of them
rounds to the double. -/
def Interval.neighbour? (i : Interval) (e : Int) : Option Nat :=
  let step := Nat.pow 10 e.toNat * i.den
  let value := i.value * Nat.pow 10 (-e).toNat
  let k := value / step
  match i.holds k e, i.holds (k + 1) e with
  | true, true =>
    let rest := value % step
    some (if 2 * rest < step || (2 * rest = step && k % 2 = 0) then k else k + 1)
  | true, false => some k
  | false, true => some (k + 1)
  | false, false => none

/-- The `p` with `10 ^ (p - 1) ≤ value < 10 ^ p`, looked for among the decades a double can have. -/
def Interval.decade (i : Interval) : Int :=
  let reaches (p : Int) : Bool :=
    Nat.pow 10 p.toNat * i.den ≤ i.value * Nat.pow 10 (-p).toNat
  let p? := (List.range 640).find? fun (k : Nat) => !reaches ((k : Int) - 325)
  (p?.getD 634 : Nat) - 325

/-- A decimal without the zeros at its end. -/
def stripZeros : Nat → Nat → Int → Nat × Int
  | 0, k, e => (k, e)
  | fuel + 1, k, e => if k ≠ 0 && k % 10 = 0 then stripZeros fuel (k / 10) (e + 1) else (k, e)

/-- The digits `k` and the exponent `e` of the shortest decimal `k * 10 ^ e` of a positive finite
double. -/
def shortest (x : Binary64) : Nat × Int :=
  let i := x.interval
  let p := i.decade
  let found := (List.range 17).findSome? fun (n : Nat) =>
    let e := p - ((n : Int) + 1)
    (i.neighbour? e).map fun k => stripZeros 20 k e
  found.getD (0, 0)

/-- `n` zeros. -/
def zeros (n : Int) : Text := List.replicate n.toNat '0'

/-- The text of the decimal `k * 10 ^ e`. -/
def decimalText (k : Nat) (e : Int) : Text :=
  let digits := Text.decimal k
  let n : Int := digits.length
  let point := n + e
  if 0 ≤ e && point ≤ 16 then digits ++ zeros e ++ ".0"
  else if 0 < point && point ≤ 16 then digits.take point.toNat ++ "." ++ digits.drop point.toNat
  else if -5 < point && point ≤ 0 then "0." ++ zeros (-point) ++ digits
  else
    let power := point - 1
    let exponent := (if power < 0 then "-" else "+" : Text) ++ Text.decimal power.natAbs
    if n = 1 then digits ++ "e" ++ exponent
    else digits.take 1 ++ "." ++ digits.drop 1 ++ "e" ++ exponent

/-- The text of a finite double. -/
def text (x : Binary64) : Text :=
  let (k, e) := if x.magnitude = 0 then (0, 0) else x.shortest
  (if x.isNegative then "-" else "" : Text) ++ decimalText k e

end ControlFiles.Binary64
