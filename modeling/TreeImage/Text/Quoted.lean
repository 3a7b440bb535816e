/-!
# Quoted names

How a name is shown inside a log line: between double quotes, with the characters that would
break the line escaped. Names are shown after they were found to be ASCII, so the rule covers
ASCII and leaves every other character as it is.
-/

namespace TreeImage.Text

/-- The digits of `n` in base sixteen, in lower case and without leading zeros. -/
def hexadecimal (n : Nat) : String := String.ofList (Nat.toDigits 16 n)

def quotedChar (c : Char) : String :=
  if c = '\x00' then "\\0"
  else if c = '\t' then "\\t"
  else if c = '\n' then "\\n"
  else if c = '\r' then "\\r"
  else if c = '"' then "\\\""
  else if c = '\\' then "\\\\"
  else if c.toNat < 0x20 ∨ c.toNat = 0x7F then "\\u\x7b" ++ hexadecimal c.toNat ++ "\x7d"
  else c.toString

def quoted (s : String) : String := "\"" ++ String.join (s.toList.map quotedChar) ++ "\""

end TreeImage.Text
