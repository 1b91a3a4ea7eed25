/-!
# Hexadecimal text

Numbers in messages and listings are written in lower-case hexadecimal, either with the mark `0x` and as
few digits as they need, or padded with zeros to a width.
-/

namespace FlatWasm.Text

/-- The digits of `n` in base sixteen, lower case, at least one. -/
def hexDigits (n : Nat) : String :=
  String.ofList (Nat.toDigits 16 n)

/-- `0x` and the digits of `n`. -/
def hex (n : Nat) : String :=
  "0x" ++ hexDigits n

/-- The digits of `n`, with zeros in front up to `width` characters. -/
def hexPadded (width n : Nat) : String :=
  let digits := Nat.toDigits 16 n
  String.ofList (List.replicate (width - digits.length) '0' ++ digits)

end FlatWasm.Text
