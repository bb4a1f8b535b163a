import ControlFiles.Text.Basic

/-!
# Double-precision numbers

A value of a control file that reads as a number is kept as the double nearest to it. The rounding
is done on natural numbers: `Binary64.ofRatio` finds the binade of a quotient and rounds it there,
a tie going to the even neighbour, so nothing hangs on floating-point arithmetic.

The written forms are: an optional sign, then digits with an optional point and an optional
exponent, or one of `inf`, `infinity` and `nan` in any case.
-/

namespace ControlFiles

/-- A double-precision number, as its 64 bits. -/
structure Binary64 where
  bits : UInt64
  deriving DecidableEq, Repr

namespace Binary64

/-- The bits of positive infinity. -/
def infinityBits : Nat := 0x7ff0000000000000

/-- The bits of the quiet not-a-number. -/
def nanBits : Nat := 0x7ff8000000000000

/-- The bit of the sign. -/
def signBit : Nat := 0x8000000000000000

/-- The leading bit of a normal significand, which is not stored: 2 to the power of 52. -/
def hiddenBit : Nat := 0x10000000000000

/-- The whole number nearest to `num / den`; a tie goes to the even one. -/
def divEven (num den : Nat) : Nat :=
  let q := num / den
  let r := num % den
  if 2 * r < den then q else if den < 2 * r then q + 1 else q + q % 2

/-- The `e` with `2 ^ e ≤ num / den < 2 ^ (e + 1)`. -/
def floorLog2 (num den : Nat) : Int :=
  let e : Int := (Nat.log2 num : Int) - Nat.log2 den
  if num * Nat.pow 2 (-e).toNat < den * Nat.pow 2 e.toNat then e - 1 else e

/-- The bits of the double nearest to `num / den`. The significand is counted in units of
`2 ^ q`; below the normal range `q` stays at -1074, and adding the significand to `q + 1074`
in the exponent's place carries into the exponent exactly where it has to. -/
def ofRatio (num den : Nat) : Nat :=
  if num = 0 then 0
  else
    let q : Int := max (floorLog2 num den - 52) (-1074)
    let m := divEven (num * Nat.pow 2 (-q).toNat) (den * Nat.pow 2 q.toNat)
    min ((q + 1074).toNat * hiddenBit + m) infinityBits

/-- The bits of the double nearest to `digits * 10 ^ exponent`. Beyond 310 places before the
point all numbers are infinite, beyond 330 after it all are zero. -/
def ofDecimal (digits : Nat) (exponent : Int) : Nat :=
  let places : Int := (Text.decimal digits).length + exponent
  if digits = 0 || places < -330 then 0
  else if 310 < places then infinityBits
  else ofRatio (digits * Nat.pow 10 exponent.toNat) (Nat.pow 10 (-exponent).toNat)

/-- The number with these bits and sign. -/
def ofBits (negative : Bool) (bits : Nat) : Binary64 :=
  ⟨UInt64.ofNat (if negative then signBit + bits else bits)⟩

/-- A text with its sign taken off: `-` says that it is negative. -/
def unsigned : Text → Bool × Text
  | '-' :: rest => (true, rest)
  | '+' :: rest => (false, rest)
  | t => (false, t)

/-- The exponent written at the end of a number: nothing, or `e`, a sign and digits. -/
def exponent? : Text → Option Int
  | [] => some 0
  | c :: rest =>
    if c = 'e' || c = 'E' then
      let (negative, digits) := unsigned rest
      (Text.number? digits).map fun n => if negative then -(n : Int) else n
    else none

/-- The bits of an unsigned number: digits before or after an optional point, then an optional
exponent. -/
def magnitude? (t : Text) : Option Nat :=
  let whole := t.takeWhile Char.isDigit
  let rest := t.dropWhile Char.isDigit
  let (fraction, rest) :=
    match rest with
    | '.' :: after => (after.takeWhile Char.isDigit, after.dropWhile Char.isDigit)
    | _ => ([], rest)
  match Text.number? (whole ++ fraction), exponent? rest with
  | some digits, some e => some (ofDecimal digits (e - fraction.length))
  | _, _ => none

/-- The number a text denotes. -/
def read? (t : Text) : Option Binary64 :=
  let (negative, rest) := unsigned t
  let word := Text.lower rest
  if word = "inf" || word = "infinity" then some (ofBits negative infinityBits)
  else if word = "nan" then some (ofBits negative nanBits)
  else (magnitude? rest).map (ofBits negative)

/-- The bits without the sign. -/
def magnitude (x : Binary64) : Nat := x.bits.toNat % signBit

/-- The sign bit is set. -/
def isNegative (x : Binary64) : Bool := signBit ≤ x.bits.toNat

/-- Neither a number nor an infinity. -/
def isNaN (x : Binary64) : Bool := infinityBits < x.magnitude

/-- A number that is neither infinite nor not-a-number. -/
def isFinite (x : Binary64) : Bool := x.magnitude < infinityBits

/-- The least and exact form `m * 2 ^ q` of a finite magnitude. -/
def significand (x : Binary64) : Nat × Int :=
  let e : Nat := x.magnitude / hiddenBit
  let m : Nat := x.magnitude % hiddenBit
  if e = 0 then (m, -1074) else (m + hiddenBit, (e : Int) - 1075)

end Binary64

end ControlFiles
