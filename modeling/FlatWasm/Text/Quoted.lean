import FlatWasm.Text.Hex
import FlatWasm.Text.Printable

/-!
# Quoted text

Names in messages stand in double quotes. A quote or backslash is escaped by a backslash, printable characters
stand for themselves, the usual controls have their letters, and every other character is written by its code
point: in two digits below U+0080, in four below U+10000, else in eight.
-/

namespace FlatWasm.Text

/-- A code point that is not printable, as an escape. -/
def escapeCodePoint (n : Nat) : String :=
  if n < 0x20 ∨ n = 0x7f then "\\x" ++ hexPadded 2 n
  else if n < 0x10000 then "\\u" ++ hexPadded 4 n
  else "\\U" ++ hexPadded 8 n

/-- One character inside quotes. -/
def quoteChar (c : Char) : String :=
  if c = '"' then "\\\""
  else if c = '\\' then "\\\\"
  else if isPrintable c then c.toString
  else
    match c.toNat with
    | 0x07 => "\\a"
    | 0x08 => "\\b"
    | 0x09 => "\\t"
    | 0x0a => "\\n"
    | 0x0b => "\\v"
    | 0x0c => "\\f"
    | 0x0d => "\\r"
    | n => escapeCodePoint n

/-- The text in double quotes. -/
def quote (s : String) : String :=
  "\"" ++ String.join (s.toList.map quoteChar) ++ "\""

end FlatWasm.Text
