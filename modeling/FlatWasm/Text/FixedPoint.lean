/-!
# Floating-point numbers with six decimals

The text of a floating-point number is computed from its bits in exact integer arithmetic. A finite number is
`significand * 2 ^ exponent`; its text has exactly six decimals, the exact value rounded to the nearest, a half
to the even neighbour. The sign is the sign bit, so a negative number that rounds to zero keeps its sign.
-/

namespace FlatWasm.Text

/-- A binary interchange format: the widths of its fraction and of its exponent. -/
structure FloatFormat where
  fractionBits : Nat
  exponentBits : Nat
deriving DecidableEq, Repr

namespace FloatFormat

def binary32 : FloatFormat := ⟨23, 8⟩
def binary64 : FloatFormat := ⟨52, 11⟩

end FloatFormat

/-- What bits stand for. -/
inductive FloatValue where
  | nan
  | infinite (negative : Bool)
  /-- `significand * 2 ^ exponent`. -/
  | finite (negative : Bool) (significand : Nat) (exponent : Int)
deriving DecidableEq, Repr

/-- The number that `bits` stand for in a format. -/
def FloatFormat.decode (fmt : FloatFormat) (bits : Nat) : FloatValue :=
  let fraction := bits % (1 <<< fmt.fractionBits)
  let exponent := (bits >>> fmt.fractionBits) % (1 <<< fmt.exponentBits)
  let negative := bits.testBit (fmt.fractionBits + fmt.exponentBits)
  -- The exponent of the lowest bit of the least numbers, which have no implicit leading bit.
  let least : Int := 2 - (1 <<< (fmt.exponentBits - 1) : Nat) - fmt.fractionBits
  if exponent = (1 <<< fmt.exponentBits) - 1 then
    if fraction = 0 then .infinite negative else .nan
  else if exponent = 0 then .finite negative fraction least
  else .finite negative ((1 <<< fmt.fractionBits) + fraction) (least + (exponent - 1 : Nat))

/-- The integer nearest to `num / den`, a half going to the even one. -/
def roundDiv (num den : Nat) : Nat :=
  let q := num / den
  let r := num % den
  if 2 * r < den then q
  else if 2 * r = den then q + q % 2
  else q + 1

/-- `significand * 2 ^ exponent` in units of `1 / 10 ^ places`, rounded. -/
def scaled (places significand : Nat) (exponent : Int) : Nat :=
  match exponent with
  | .ofNat e => (significand <<< e) * Nat.pow 10 places
  | .negSucc e => roundDiv (significand * Nat.pow 10 places) (1 <<< (e + 1))

/-- A number of units of `1 / 10 ^ places` with a point before the last `places` digits. -/
def withPoint (places units : Nat) : String :=
  let unit := Nat.pow 10 places
  let low := Nat.toDigits 10 (units % unit)
  let zeros := List.replicate (places - low.length) '0'
  s!"{units / unit}." ++ String.ofList (zeros ++ low)

/-- The text with six decimals. -/
def FloatValue.text : FloatValue → String
  | .nan => "NaN"
  | .infinite negative => if negative then "-Inf" else "+Inf"
  | .finite negative significand exponent =>
    let digits := withPoint 6 (scaled 6 significand exponent)
    if negative then "-" ++ digits else digits

end FlatWasm.Text
