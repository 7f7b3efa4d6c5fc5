import AlRefactor.Text.Invisible

/-!
# Texts in quotes, with escapes for what cannot be seen
-/

namespace AlRefactor.Text

def hex (n : Nat) : Text := Nat.toDigits 16 n

/-- A character in quotes: quotes, backslashes and invisible characters are escaped. -/
def escape (c : Char) : Text :=
  if c = '\x00' then "\\0"
  else if c = '\t' then "\\t"
  else if c = '\r' then "\\r"
  else if c = '\n' then "\\n"
  else if c = '\\' then "\\\\"
  else if c = '"' then "\\\""
  else if isInvisible c then "\\u\x7b" ++ hex c.toNat ++ "\x7d"
  else [c]

def quoted (t : Text) : Text := "\"" ++ t.flatMap escape ++ "\""

end AlRefactor.Text
