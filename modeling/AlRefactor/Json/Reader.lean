import AlRefactor.Json.Value
import AlRefactor.Text.Reader

/-!
# Reading JSON
-/

namespace AlRefactor.JsonValue

open Reader

def isBlank (c : Char) : Bool := c == ' ' || c == '\t' || c == '\n' || c == '\r'

def spaced {α : Type} (r : Reader α) : Reader α := run isBlank *> r <* run isBlank

def sign (c : Char) : Reader Unit := spaced (exact [c])

/-! ## Strings -/

/-- Characters after a backslash and what they stand for. -/
def escapes : List (Char × Char) :=
  [('"', '"'), ('\\', '\\'), ('/', '/'), ('b', '\x08'), ('f', '\x0c'), ('n', '\n'), ('r', '\r'),
   ('t', '\t')]

def isFirstHalf (n : Nat) : Bool := 0xD800 ≤ n && n < 0xDC00

def isSecondHalf (n : Nat) : Bool := 0xDC00 ≤ n && n < 0xE000

/-- One half of a surrogate pair by its number. -/
def codeUnit : Reader Nat := exact "\\u" *> digits 16 4

/-- A character by its number or by the numbers of a surrogate pair; half of a pair is none. -/
def numbered : Reader (Option Char) := do
  let n ← codeUnit
  if isFirstHalf n then
    (do
      let m ← codeUnit
      if isSecondHalf m then
        return some (Char.ofNat (0x10000 + (n - 0xD800) * 0x400 + (m - 0xDC00)))
      else failure) <|> pure none
  else if isSecondHalf n then pure none
  else return some (Char.ofNat n)

def character : Reader (Option Char) :=
  (some <$> next fun c => c != '"' && c != '\\' && 0x20 ≤ c.toNat) <|>
  numbered <|> (do
    exact "\\"
    let c ← next fun _ => true
    match escapes.lookup c with
    | some d => pure (some d)
    | none => failure)

def text : Reader (Option Text) := do
  exact "\""
  let cs ← many character
  exact "\""
  return cs.mapM id

/-! ## Numbers -/

def whole : Reader Text := (exact "0" *> pure ['0']) <|> do
  let c ← next fun c => c.isDigit && c != '0'
  return c :: (← run Char.isDigit)

def fraction : Reader Text := do
  exact "."
  return '.' :: (← someOf Char.isDigit)

def exponent : Reader Text := do
  let e ← next fun c => c == 'e' || c == 'E'
  let s ← maybe (next fun c => c == '+' || c == '-')
  return e :: s.toList ++ (← someOf Char.isDigit)

def numeral : Reader Text := do
  let minus ← maybe (next (· == '-'))
  let n ← whole
  let f ← maybe fraction
  let e ← maybe exponent
  return minus.toList ++ n ++ f.getD [] ++ e.getD []

/-! ## Values -/

def list {α : Type} (start stop : Char) (item : Reader α) : Reader (List α) := do
  sign start
  let items ← maybe (separated (sign ',') item)
  sign stop
  return items.getD []

def member {α : Type} (value : Reader α) : Reader (Option Text × α) := do
  let k ← text
  sign ':'
  return (k, ← value)

/-- A value with at most `n` brackets around its innermost parts. -/
def value (n : Nat) : Reader JsonValue :=
  (exact "null" *> pure .null) <|> (exact "true" *> pure (.bool true)) <|>
  (exact "false" *> pure (.bool false)) <|> (.number <$> numeral) <|> (.string <$> text) <|>
  match n with
  | 0 => failure
  | n + 1 => (.array <$> list '[' ']' (value n)) <|>
      (.object <$> list '\x7b' '\x7d' (member (value n)))

/-- The value that a text holds with nothing but blanks around it. -/
def read? (t : Text) : Option JsonValue := whole? (spaced (value t.length)) t

end AlRefactor.JsonValue
