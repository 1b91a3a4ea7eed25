import FlatWasm.Text.Hex

/-!
# Strings in log fields

The fields of a log line are a JSON object. A string in it has its quotes, backslashes and control characters
escaped, and every other character as it is.
-/

namespace FlatWasm.Text

/-- A character inside a quoted string. -/
def escapeChar (c : Char) : String :=
  if c = '"' then "\\\""
  else if c = '\\' then "\\\\"
  else if c = '\n' then "\\n"
  else if c = '\r' then "\\r"
  else if c = '\t' then "\\t"
  else if c.toNat < 0x20 then "\\u" ++ hexPadded 4 c.toNat
  else c.toString

/-- A quoted string. -/
def jsonString (s : String) : String :=
  "\"" ++ String.join (s.toList.map escapeChar) ++ "\""

end FlatWasm.Text
