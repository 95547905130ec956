import ProbeLang.Text.Digits

/-!
# Numbers of the binary64 format

A finite number is an integer mantissa below `2 ^ 53` times a power of two; the exponent is no
less than `-1074`, and above that the mantissa has its leading bit. A quotient of integers is
rounded to the nearest number, a tie to the even mantissa, and everything too large becomes
infinite. Products and quotients are the rounded exact ones.
-/

namespace ProbeLang

/-- A number of the binary64 format. -/
inductive Binary64
  | nan
  | infinite (negative : Bool)
  /-- The number `mantissa * 2 ^ exponent`. -/
  | finite (negative : Bool) (mantissa : Nat) (exponent : Int)
  deriving Repr, DecidableEq, Inhabited

namespace Binary64

/-- The bits of a mantissa. -/
def precision : Nat := 53

/-- The least exponent. -/
def minExponent : Int := -1074

/-- The greatest exponent. -/
def maxExponent : Int := 971

/-- The quotient rounded to the nearest integer, a tie to the even one. -/
def roundDiv (num den : Nat) : Nat :=
  let q := num / den
  let r := num % den
  if den < 2 * r || den = 2 * r && q % 2 = 1 then q + 1 else q

/-- The fraction `num / den` in units of `2 ^ e`, as a fraction. -/
def inUnits (num den : Nat) (e : Int) : Nat × Nat :=
  (num <<< (-e).toNat, den <<< e.toNat)

/-- The least exponent with which the mantissa of a positive fraction has no more bits than
there is room for. -/
def exponentOf (num den : Nat) : Int :=
  let e := (Nat.log2 num : Int) - (Nat.log2 den : Int) - precision
  let (n, d) := inUnits num den e
  max minExponent (if n / d < 1 <<< precision then e else e + 1)

/-- The number nearest to a fraction. -/
def ofRatio (negative : Bool) (num den : Nat) : Binary64 :=
  if num = 0 then .finite negative 0 minExponent
  else
    let e := exponentOf num den
    let (n, d) := inUnits num den e
    let m := roundDiv n d
    let (m, e) := if m = 1 <<< precision then (1 <<< (precision - 1), e + 1) else (m, e)
    if maxExponent < e then .infinite negative else .finite negative m e

/-- The number nearest to a natural number. -/
def ofNat (n : Nat) : Binary64 :=
  ofRatio false n 1

/-- The number nearest to `digits * 10 ^ exponent`. Where the exponent is far out of reach the
power is not computed. -/
def ofDecimal (negative : Bool) (digits : Nat) (exponent : Int) : Binary64 :=
  let size := ((Nat.toDigits 10 digits).length : Int) + exponent
  if digits = 0 || size < -400 then .finite negative 0 minExponent
  else if 400 < size then .infinite negative
  else ofRatio negative (digits * Nat.pow 10 exponent.toNat) (Nat.pow 10 (-exponent).toNat)

/-- Whether a number is zero, of either sign. -/
def isZero : Binary64 → Bool
  | .finite _ m _ => m == 0
  | _ => false

/-- Whether a number is finite. -/
def isFinite : Binary64 → Bool
  | .finite .. => true
  | _ => false

/-- The number with the other sign. -/
def neg : Binary64 → Binary64
  | .nan => .nan
  | .infinite s => .infinite !s
  | .finite s m e => .finite (!s) m e

/-- The product of two finite numbers, rounded; nothing else has one here. -/
def mul : Binary64 → Binary64 → Binary64
  | .finite s m e, .finite t n f =>
      let (num, den) := inUnits (m * n) 1 (-(e + f))
      ofRatio (s != t) num den
  | _, _ => .nan

/-- The quotient of two finite numbers, rounded; nothing else has one here. -/
def div : Binary64 → Binary64 → Binary64
  | .finite s m e, .finite t n f =>
      if n = 0 then .nan
      else
        let (num, den) := inUnits m n (f - e)
        ofRatio (s != t) num den
  | _, _ => .nan

/-! ## Numbers in digits

A number is written with the fewest decimal digits that read back as it, and of those the
nearest to it. All digits are written out, without an exponent. -/

/-- Four times the ends of the interval that rounds to `m * 2 ^ e`, in units of `2 ^ e`. Below a
power of two the interval is half as wide. -/
def roundingEnds (m : Nat) (e : Int) : Nat × Nat :=
  (if m = 1 <<< (precision - 1) && minExponent < e then 4 * m - 1 else 4 * m - 2, 4 * m + 2)

/-- A positive number in the fewest digits that read back: the digits as an integer, and the
power of ten that they are multiplied by. With one digit more at each step, the number lies
between two neighbours on the decimal grid, and a grid that has a point in the interval has one
of these in it. -/
def shortest (m : Nat) (e : Int) : Nat × Int :=
  let (low, high) := roundingEnds m e
  let two := 1 <<< e.toNat
  let half := 4 <<< (-e).toNat
  -- the number of digits before the point, which is negative for zeros behind it
  let point : Int := (Nat.toDigits 10 (m * two * 4 * Nat.pow 10 400 / half)).length - 400
  let inside (left right limit : Nat) : Bool :=
    if m % 2 = 0 then left ≤ right + limit else left < right + limit
  let step (found : Option (Nat × Int)) (n : Nat) : Option (Nat × Int) :=
    if found.isSome then found
    else
      let k := point - n
      let ten := Nat.pow 10 k.toNat
      let tenth := Nat.pow 10 (-k).toNat
      -- the number and the ends of the interval on one scale, on which a grid step is `unit`
      let value := 4 * m * two * tenth
      let unit := ten * half
      let c := value / unit
      let down := inside (low * two * tenth) (c * unit) 0
      let up := inside ((c + 1) * unit) (high * two * tenth) 0
      if down && (!up || value - c * unit < (c + 1) * unit - value) then some (c, k)
      else if up then some (c + 1, k)
      else none
  ((List.range 17).foldl (fun found i => step found (i + 1)) none).getD (m, e)

/-- Digits with a point behind the first `point` of them, and zeros where there are none. -/
def placePoint (digits : List Char) (point : Int) : List Char :=
  if point ≤ 0 then '0' :: '.' :: (List.replicate (-point).toNat '0' ++ digits)
  else if digits.length ≤ point.toNat then
    digits ++ List.replicate (point.toNat - digits.length) '0'
  else digits.take point.toNat ++ '.' :: digits.drop point.toNat

/-- A number in digits. -/
def toText : Binary64 → String
  | .nan => "NaN"
  | .infinite s => if s then "-inf" else "inf"
  | .finite s m e =>
      let sign := if s then "-" else ""
      if m = 0 then sign ++ "0"
      else
        let (digits, k) := shortest m e
        let digits := Nat.toDigits 10 digits
        let point := (digits.length : Int) + k
        let digits := (digits.reverse.dropWhile (· == '0')).reverse
        sign ++ String.ofList (placePoint digits point)

/-! ## Numbers in a text

A number is written as digits with an optional point among or around them and an optional
exponent, or as a word for infinity or for what is no number. Letters may be of either case, and
one sign may come first. -/

/-- Whether the sign in front of a text is a minus, and the text behind the sign. -/
def splitSign : List Char → Bool × List Char
  | '-' :: rest => (true, rest)
  | '+' :: rest => (false, rest)
  | cs => (false, cs)

/-- The value of an exponent, which may be left out. -/
def exponentValue? : List Char → Option Int
  | [] => some 0
  | e :: rest =>
      let (negative, digits) := splitSign rest
      if (e == 'e' || e == 'E') && !digits.isEmpty && digits.all Char.isDigit then
        let n : Int := Text.decimalValue digits
        some (if negative then -n else n)
      else none

/-- The number that digits with an optional point and exponent write. -/
def ofDigits? (negative : Bool) (cs : List Char) : Option Binary64 := do
  let whole := cs.takeWhile Char.isDigit
  let behind := cs.dropWhile Char.isDigit
  let (part, behind) :=
    match behind with
    | '.' :: rest => (rest.takeWhile Char.isDigit, rest.dropWhile Char.isDigit)
    | rest => ([], rest)
  let power ← exponentValue? behind
  if whole.isEmpty && part.isEmpty then none
  else some (ofDecimal negative (Text.decimalValue (whole ++ part)) (power - part.length))

/-- The number in a text. -/
def ofText? (cs : List Char) : Option Binary64 :=
  let (negative, rest) := splitSign cs
  match String.ofList (rest.map Char.toLower) with
  | "inf" | "infinity" => some (.infinite negative)
  | "nan" => some .nan
  | _ => ofDigits? negative rest

end Binary64

end ProbeLang
