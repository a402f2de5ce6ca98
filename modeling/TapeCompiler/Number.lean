/-! # Numbers

Integers are read from decimal digits; a signed 64-bit integer is written as an optional sign and
such digits (`readInt64`).

A `Binary64` is zero or a sign, a mantissa below `2 ^ 53` and an exponent from `-1074` to `971`,
or an infinity, or no number. Every operation is computed exactly over the naturals and rounded
once, half to even (`ofRatio`); reading a decimal is `ofDecimal`. `text` writes the fewest digits
that read back, always positionally, and `fixed` a given number of places; `ofText?` reads what
`text` writes. -/

namespace TapeCompiler

/-! ### Powers and integers -/

/-- The power of two of an exponent. -/
def pow2 (n : Nat) : Nat := Nat.pow 2 n

/-- The power of ten of an exponent. -/
def pow10 (n : Nat) : Nat := Nat.pow 10 n

theorem pow2_pos (n : Nat) : 0 < pow2 n := Nat.pow_pos (by decide)

/-- The value of an ASCII decimal digit. -/
def digitValue? (c : Char) : Option Nat :=
  if '0' ≤ c ∧ c ≤ '9' then some (c.toNat - '0'.toNat) else none

/-- The number a nonempty run of ASCII digits writes. -/
def readDigits (cs : List Char) : Option Nat :=
  if cs.isEmpty then none
  else cs.foldl (fun n c => n.bind fun n => (digitValue? c).map fun d => 10 * n + d) (some 0)

/-- The integer of an optional sign and digits, if it fits 64 bits. -/
def readInt64 (cs : List Char) : Option Int64 :=
  match cs with
  | '-' :: r => (readDigits r).bind fun n =>
    if n ≤ pow2 63 then some (Int64.ofInt (-(n : Int))) else none
  | '+' :: r => (readDigits r).bind fun n =>
    if n < pow2 63 then some (Int64.ofInt n) else none
  | _ => (readDigits cs).bind fun n =>
    if n < pow2 63 then some (Int64.ofInt n) else none

/-! ### Binary floating-point numbers -/

/-- A binary64 number; a finite one is `± mantissa * 2 ^ exponent`. -/
inductive Binary64
  | finite (negative : Bool) (mantissa : Nat) (exponent : Int)
  | infinite (negative : Bool)
  | nan
  deriving DecidableEq, Repr

namespace Binary64

/-! ### Rounding -/

/-- The quotient rounded to nearest, **half to even**. -/
def roundDiv (num den : Nat) : Nat :=
  let q := num / den
  let r := num % den
  if 2 * r > den || (2 * r == den && q % 2 == 1) then q + 1 else q

/-- The least exponent of a finite number. -/
def minExponent : Int := -1074

/-- The greatest exponent of a finite number. -/
def maxExponent : Int := 971

/-- `num / (den * 2 ^ e)` as a fraction. -/
def scaled (num den : Nat) (e : Int) : Nat × Nat :=
  if e ≥ 0 then (num, den * pow2 e.toNat) else (num * pow2 (-e).toNat, den)

/-- The zero of a sign. -/
def zero (negative : Bool) : Binary64 := .finite negative 0 minExponent

/-- The number of `mantissa * 2 ^ exponent` where rounding may have carried past 53 bits. -/
def pack (negative : Bool) (mantissa : Nat) (exponent : Int) : Binary64 :=
  let (m, e) := if mantissa ≥ pow2 53 then (mantissa / 2, exponent + 1) else (mantissa, exponent)
  if e > maxExponent then .infinite negative else .finite negative m e

/-- The number nearest to `± num / den`. -/
def ofRatio (negative : Bool) (num den : Nat) : Binary64 :=
  if num = 0 then zero negative
  else
    let low : Int := max ((num.log2 : Int) - (den.log2 : Int) - 53) minExponent
    let (n, d) := scaled num den low
    let e := if n / d ≥ pow2 53 then low + 1 else low
    let (n, d) := scaled num den e
    pack negative (roundDiv n d) e

/-- The number nearest to `± digits * 10 ^ exponent`. -/
def ofDecimal (negative : Bool) (digits : Nat) (exponent : Int) : Binary64 :=
  let width : Int := (digits.log2 : Int) / 3 + 1
  if digits = 0 then zero negative
  else if exponent > 400 then .infinite negative
  else if exponent + width < -400 then zero negative
  else if exponent ≥ 0 then ofRatio negative (digits * pow10 exponent.toNat) 1
  else ofRatio negative digits (pow10 (-exponent).toNat)

/-- The number nearest to a natural number. -/
def ofNat (n : Nat) : Binary64 := ofRatio false n 1

/-! ### Arithmetic and order -/

/-- The magnitude as a fraction. -/
def fraction (mantissa : Nat) (exponent : Int) : Nat × Nat :=
  if exponent ≥ 0 then (mantissa * pow2 exponent.toNat, 1) else (mantissa, pow2 (-exponent).toNat)

/-- The rounded product of finite numbers; no other product is asked for. -/
def mul : Binary64 → Binary64 → Binary64
  | .finite s m e, .finite t n f =>
    let (a, b) := fraction m e
    let (c, d) := fraction n f
    ofRatio (s != t) (a * c) (b * d)
  | _, _ => .nan

/-- The rounded quotient of finite numbers by a number other than zero. -/
def div : Binary64 → Binary64 → Binary64
  | .finite s m e, .finite t n f =>
    let (a, b) := fraction m e
    let (c, d) := fraction n f
    if c = 0 then .nan else ofRatio (s != t) (a * d) (b * c)
  | _, _ => .nan

/-- The value in units of the least positive number; infinities lie beyond every finite value. -/
def units : Binary64 → Option Int
  | .finite s m e =>
    let n : Int := (m * pow2 (e - minExponent).toNat : Nat)
    some (if s then -n else n)
  | .infinite s => some (if s then -(pow2 2200 : Int) else pow2 2200)
  | .nan => none

/-- Strict order; `nan` is below and above nothing. -/
def lt (x y : Binary64) : Bool :=
  match x.units, y.units with
  | some a, some b => decide (a < b)
  | _, _ => false

/-- Order; `nan` is not even below itself. -/
def le (x y : Binary64) : Bool :=
  match x.units, y.units with
  | some a, some b => decide (a ≤ b)
  | _, _ => false

/-- Truncation toward zero, **saturating** at the bounds of 64 bits; `nan` gives zero. -/
def truncate : Binary64 → Int64
  | .finite s m e =>
    let (a, b) := fraction m e
    let n := a / b
    if s then Int64.ofInt (-(min n (pow2 63) : Nat)) else Int64.ofInt (min n (pow2 63 - 1) : Nat)
  | .infinite true => Int64.minValue
  | .infinite false => Int64.maxValue
  | .nan => 0

/-! ### Text -/

/-- The number of decimal digits of a positive number. -/
def digitCount (n : Nat) : Nat := (Nat.toDigits 10 n).length

/-- The exponent `p` with `10 ^ (p - 1) ≤ num / den < 10 ^ p`. -/
def magnitude (num den : Nat) : Int :=
  if num ≥ den then digitCount (num / den)
  else
    let p := digitCount (den / num)
    -- `den / num` has `p` digits, so `num / den` lies in `(10 ^ -p, 10 ^ (1 - p)]`
    if num * pow10 (p - 1) ≥ den then 2 - (p : Int) else 1 - (p : Int)

/-- `num / den` in units of `10 ^ p`, as a fraction. -/
def gridded (num den : Nat) (p : Int) : Nat × Nat :=
  if p ≥ 0 then (num, den * pow10 p.toNat) else (num * pow10 (-p).toNat, den)

/-- The halves of the gaps below and above a finite number, in quarters of `2 ^ exponent`. -/
def gaps (mantissa : Nat) (exponent : Int) : Nat × Nat :=
  (if mantissa = pow2 52 && exponent > minExponent then 1 else 2, 2)

/-- Whether `k * 10 ^ p` rounds to the number of this mantissa and exponent: it lies between the
middles of the gaps on both sides, the ends included when the mantissa is even. -/
def readsBack (mantissa : Nat) (exponent : Int) (k : Nat) (p : Int) : Bool :=
  let (below, above) := gaps mantissa exponent
  let (a, b) := fraction 1 (exponent - 2)
  let (c, d) := gridded a b p
  let lo := (4 * mantissa - below) * c
  let hi := (4 * mantissa + above) * c
  if mantissa % 2 = 0 then decide (lo ≤ k * d) && decide (k * d ≤ hi)
  else decide (lo < k * d) && decide (k * d < hi)

/-- The value's lower or upper neighbour on the grid of `10 ^ p`, if one reads back; of two the
nearer, and the upper one when both are equally near. -/
def onGrid (mantissa : Nat) (exponent : Int) (p : Int) : Option Nat :=
  let (a, b) := fraction mantissa exponent
  let (n, d) := gridded a b p
  let low := n / d
  let lowHit := decide (0 < low) && readsBack mantissa exponent low p
  let highHit := readsBack mantissa exponent (low + 1) p
  if n % d = 0 then some low
  else if lowHit && (!highHit || decide (2 * (n % d) < d)) then some low
  else if highHit then some (low + 1)
  else none

/-- The **fewest digits that read back**: digits `k` and exponent `p` of `k * 10 ^ p`, searched
from one digit up to seventeen. -/
def shortest (mantissa : Nat) (exponent : Int) : Nat × Int :=
  let (a, b) := fraction mantissa exponent
  let top := magnitude a b
  let hits := (List.range 17).filterMap fun i =>
    let p := top - (i + 1 : Nat)
    (onGrid mantissa exponent p).map fun k => (k, p)
  hits.headD (0, 0)

/-- The digits of `k * 10 ^ p` with a point where one is needed and no exponent. -/
def positional (k : Nat) (p : Int) : String :=
  let digits := Nat.toDigits 10 k
  if p ≥ 0 then String.ofList (digits ++ List.replicate p.toNat '0')
  else
    let places := (-p).toNat
    let padded := List.replicate (places + 1 - digits.length) '0' ++ digits
    let whole := padded.take (padded.length - places)
    let rest := padded.drop (padded.length - places)
    let rest := (rest.reverse.dropWhile (· == '0')).reverse
    String.ofList (if rest.isEmpty then whole else whole ++ '.' :: rest)

/-- The sign in front of a number. -/
def sign (negative : Bool) : String := if negative then "-" else ""

/-- The text of a number: the fewest digits that read back, **never with an exponent**. -/
def text : Binary64 → String
  | .finite s m e =>
    if m = 0 then sign s ++ "0"
    else
      let (k, p) := shortest m e
      sign s ++ positional k p
  | .infinite s => sign s ++ "inf"
  | .nan => "NaN"

/-- The digits of `n / 10 ^ places`, every place written. -/
def withPlaces (n places : Nat) : String :=
  let digits := Nat.toDigits 10 n
  let padded := List.replicate (places + 1 - digits.length) '0' ++ digits
  let whole := padded.length - places
  String.ofList (padded.take whole ++ '.' :: padded.drop whole)

/-- The text with a fixed number of places, the exact value rounded half to even. -/
def fixed (places : Nat) : Binary64 → String
  | .finite s m e =>
    let (a, b) := fraction m e
    sign s ++ withPlaces (roundDiv (a * pow10 places) b) places
  | .infinite s => sign s ++ "inf"
  | .nan => "NaN"

/-! ### Reading -/

/-- The number with these digits before and behind the point, **rounded once**. -/
def ofDigits? (negative : Bool) (whole places : List Char) : Option Binary64 :=
  (readDigits (whole ++ places)).map fun n => .ofDecimal negative n (-(places.length : Int))

/-- The number that a text without a sign writes. -/
def ofUnsigned? (negative : Bool) (cs : List Char) : Option Binary64 :=
  if cs = "inf".toList then some (.infinite negative)
  else if cs = "NaN".toList then some .nan
  else
    let whole := cs.takeWhile Char.isDigit
    match cs.dropWhile Char.isDigit with
    | [] => ofDigits? negative whole []
    | '.' :: places => ofDigits? negative whole places
    | _ => none

/-- The number that a text writes, with or without a minus sign. -/
def ofText? (text : String) : Option Binary64 :=
  match text.toList with
  | '-' :: cs => ofUnsigned? true cs
  | cs => ofUnsigned? false cs

end Binary64

end TapeCompiler
