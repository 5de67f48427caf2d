import TaggedMarkup.Text.Printable
/-!
# Quoted text in messages

A message quotes a text so that every character of it can be seen: quotes and backslashes are
escaped, and what does not print by itself is given by its code point.
-/
namespace TaggedMarkup.Text

def hexDigits (n : Nat) : String := String.ofList (Nat.toDigits 16 n)

/-- One character inside quotes; an extender would merge with its neighbour, so it is spelt out. -/
def quoteChar (c : Char) : String :=
  if c = Char.ofNat 0 then "\\0"
  else if c = '\t' then "\\t"
  else if c = '\r' then "\\r"
  else if c = '\n' then "\\n"
  else if c = '"' then "\\\""
  else if c = '\\' then "\\\\"
  else if isExtender c || !isPrintable c then "\\u\x7b" ++ hexDigits c.toNat ++ "\x7d"
  else c.toString

def quoted (text : String) : String :=
  "\"" ++ String.join (text.toList.map quoteChar) ++ "\""

end TaggedMarkup.Text
