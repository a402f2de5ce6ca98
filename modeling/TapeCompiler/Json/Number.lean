import TapeCompiler.Number

/-! # Numbers in JSON

A number is kept as it is written (`Numeral`) and read when its type is known: as an integer
(`Numeral.whole?`), as a natural number (`Numeral.nat?`) or as a binary64 number
(`Numeral.binary64?`). The last takes a significand of 64 bits and scales it by a power of ten, so
it is rounded **twice**. -/

namespace TapeCompiler.Json

/-- A number as it is written. -/
structure Numeral where
  negative : Bool
  /-- The digits before the point. -/
  whole : List Char
  /-- The digits behind the point; without a point there are none. -/
  places : List Char
  exponent : Option Int
  deriving DecidableEq, Repr

/-- A significand and the power of ten it is to be scaled by. -/
structure Significand where
  digits : Nat
  power : Int
  /-- Whether a digit did not fit. -/
  full : Bool
  deriving DecidableEq, Repr

/-- The significands of 64 bits end here. -/
def significandLimit : Nat := pow2 64

namespace Significand

/-- Takes a digit in; one that does not fit, or stands behind one that did not, is **dropped**. The
power changes by one amount for a digit taken and by another for one dropped. -/
def push (taken dropped : Int) (s : Significand) (digit : Char) : Significand :=
  let n := s.digits * 10 + (digitValue? digit).getD 0
  if s.full || n ≥ significandLimit then ⟨s.digits, s.power + dropped, true⟩
  else ⟨n, s.power + taken, false⟩

/-- The significand of the digits around a point. -/
def of (whole places : List Char) : Significand :=
  let front := whole.foldl (push 0 1) ⟨0, 0, false⟩
  places.foldl (push (-1) 0) { front with full := false }

end Significand

/-- A number times a power of ten, unless that is too large. A very small power is applied in
steps. -/
def scale (x : Binary64) (power : Int) : Option Binary64 :=
  let ten (n : Nat) : Binary64 := .ofDecimal false 1 n
  if x = .zero false then some x
  else if power > 308 then none
  else if power ≥ 0 then
    match x.mul (ten power.toNat) with
    | .infinite _ => none
    | y => some y
  else if power ≥ -308 then some (x.div (ten power.natAbs))
  else scale (x.div (ten 308)) (power + 308)
termination_by power.natAbs
decreasing_by omega

namespace Numeral

/-- Whether the number is written without point and exponent. -/
def isWhole (n : Numeral) : Bool := n.places.isEmpty && n.exponent.isNone

/-- The integer, if the number is written as one and fits 64 bits, with a sign or without; zero with
a sign is none. -/
def whole? (n : Numeral) : Option Int := do
  guard n.isWhole
  let value ← readDigits n.whole
  if n.negative then
    guard (0 < value ∧ value ≤ pow2 63)
    return -(value : Int)
  else
    guard (value < pow2 64)
    return value

/-- The natural number below a limit of at most `2 ^ 64`, if the number is written as one. -/
def nat? (n : Numeral) (limit : Nat) : Option Nat := do
  let value ← n.whole?
  guard (0 ≤ value ∧ value < limit)
  return value.toNat

/-- The binary64 number, unless it is too large. A whole zero keeps its sign only. -/
def binary64? (n : Numeral) : Option Binary64 := do
  let s := Significand.of n.whole n.places
  let magnitude ← scale (.ofNat s.digits) (s.power + n.exponent.getD 0)
  match magnitude with
  | .finite _ m e => return .finite n.negative m e
  | x => return x

end Numeral

end TapeCompiler.Json
