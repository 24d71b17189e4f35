/-!
# Escaped text

The text of a label between double quotes: quotes and backslashes follow a backslash, tab, line feed
and carriage return have a letter, printable ASCII stands for itself and every other character is
its code point in hexadecimal.
-/

namespace LRMachine.Text

/-- The characters that a character is written with. -/
def escapeChar (c : Char) : List Char :=
  if c = '\t' then ['\\', 't']
  else if c = '\r' then ['\\', 'r']
  else if c = '\n' then ['\\', 'n']
  else if c = '\'' || c = '"' || c = '\\' then ['\\', c]
  else if ' ' ≤ c && c ≤ '~' then [c]
  else ['\\', 'u', '\x7b'] ++ Nat.toDigits 16 c.toNat ++ ['\x7d']

/-- The escaped form of a text. -/
def escape (text : String) : String := String.ofList (text.toList.flatMap escapeChar)

example : escape "a 'b'\n\"é\"" = "a \\'b\\'\\n\\\"\\u\x7be9\x7d\\\"" := by decide +kernel

end LRMachine.Text
