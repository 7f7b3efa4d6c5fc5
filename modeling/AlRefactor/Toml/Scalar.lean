import AlRefactor.Text.Reader
import AlRefactor.Toml.Value

/-!
# Reading TOML strings, numbers, dates and times
-/

namespace AlRefactor.TomlValue

open Reader

/-! ## Blanks and comments -/

def isBlank (c : Char) : Bool := c == ' ' || c == '\t'

def blanks : Reader Unit := do let _ ← run isBlank

def newline : Reader Text := (exact "\n" *> pure ['\n']) <|> (exact "\r\n" *> pure ['\r', '\n'])

/-- Tabs are the only control characters that a text may hold as they are. -/
def isPlain (c : Char) : Bool := c == '\t' || (0x20 ≤ c.toNat && c.toNat != 0x7F)

def comment : Reader Unit := do
  exact "#"
  let _ ← run isPlain

def gaps : Reader Unit := do
  let _ ← many ((do let _ ← someOf isBlank) <|> (do let _ ← newline) <|>
    (do comment; let _ ← newline))

/-! ## Strings -/

/-- Characters after a backslash and what they stand for. -/
def escapes : List (Char × Char) :=
  [('b', '\x08'), ('t', '\t'), ('n', '\n'), ('f', '\x0c'), ('r', '\r'), ('e', '\x1b'), ('"', '"'),
   ('\\', '\\')]

def numbered (mark : Text) (count : Nat) : Reader Char := do
  exact mark
  let n ← digits 16 count
  match Text.charOf? n with
  | some c => pure c
  | none => failure

def escaped : Reader Char := do
  exact "\\"
  numbered "x" 2 <|> numbered "u" 4 <|> numbered "U" 8 <|> do
    let c ← next fun _ => true
    match escapes.lookup c with
    | some d => pure d
    | none => failure

def plainIn (quote : Char) : Reader Char :=
  next fun c => isPlain c && c != quote && (quote != '"' || c != '\\')

def escapedIn (quote : Char) : Reader Char := if quote = '"' then escaped else failure

/-- A string on one line. Only between double quotes are there escapes. -/
def line (quote : Char) : Reader Text := do
  exact [quote]
  let cs ← many (plainIn quote <|> escapedIn quote)
  exact [quote]
  return cs

/-- The longest run of a quote, if its length lies in a range. -/
def quotes (quote : Char) (least most : Nat) : Reader Text := do
  let qs ← run (· == quote)
  if least ≤ qs.length ∧ qs.length ≤ most then pure qs else failure

/-- A backslash at the end of a line, which hides all blanks and line breaks behind it. -/
def continuation : Reader Text := do
  exact "\\"
  blanks
  let _ ← newline
  let _ ← many ((do let _ ← someOf isBlank) <|> (do let _ ← newline))
  return []

/-- A string over several lines. It may hold one or two quotes in a row, also at its end. -/
def block (quote : Char) : Reader Text := do
  exact [quote, quote, quote]
  let _ ← maybe newline
  let ps ← many ((fun c => [c]) <$> (plainIn quote <|> escapedIn quote) <|> newline <|>
    quotes quote 1 2 <|> if quote = '"' then continuation else failure)
  let last ← quotes quote 3 5
  return ps.flatten ++ last.drop 3

def text : Reader Text := block '"' <|> block '\'' <|> line '"' <|> line '\''

/-! ## Numbers -/

def grouped (base : Nat) : Reader Text := do
  let c ← next (Text.isDigitOf base)
  return c :: (← many (maybe (exact "_") *> next (Text.isDigitOf base)))

def based (mark : Text) (base : Nat) : Reader TomlValue := do
  exact mark
  return .integer (Text.valueOf base (← grouped base))

def signed : Reader (Nat → Int) := do
  match ← maybe (next fun c => c == '+' || c == '-') with
  | some '-' => pure fun n => -(n : Int)
  | _ => pure fun n => (n : Int)

/-- An integer, or a number with a fraction or an exponent. -/
def decimalNumber : Reader TomlValue := do
  let sign ← signed
  let whole ← grouped 10
  if whole.head? == some '0' && whole.length != 1 then failure
  let fraction ← maybe (exact "." *> grouped 10)
  let exponent ← maybe do
    let _ ← next fun c => c == 'e' || c == 'E'
    let sign ← signed
    return sign (Text.valueOf 10 (← grouped 10))
  match fraction, exponent with
  | none, none => pure (.integer (sign (Text.valueOf 10 whole)))
  | f, e =>
    let f := f.getD []
    pure (.decimal (sign (Text.valueOf 10 (whole ++ f))) (e.getD 0 - f.length))

def specialNumber : Reader TomlValue := do
  let _ ← signed
  exact "inf" <|> exact "nan"
  return .special

def number : Reader TomlValue :=
  based "0x" 16 <|> based "0o" 8 <|> based "0b" 2 <|> decimalNumber <|> specialNumber

/-! ## Dates and times -/

def isLeapYear (year : Nat) : Bool := year % 4 == 0 && (year % 100 != 0 || year % 400 == 0)

def daysIn (year month : Nat) : Nat :=
  if month = 2 then (if isLeapYear year then 29 else 28)
  else if [4, 6, 9, 11].contains month then 30 else 31

def pair (least most : Nat) : Reader Unit := do
  let n ← digits 10 2
  if least ≤ n ∧ n ≤ most then pure () else failure

def date : Reader Unit := do
  let year ← digits 10 4
  exact "-"
  let month ← digits 10 2
  exact "-"
  if 1 ≤ month ∧ month ≤ 12 then pair 1 (daysIn year month) else failure

/-- Hours and minutes; a minute can have a leap second. -/
def time : Reader Unit := do
  pair 0 23
  exact ":"
  pair 0 59
  let _ ← maybe do
    exact ":"
    pair 0 60
    maybe (exact "." *> someOf Char.isDigit)

def zone : Reader Unit :=
  (do let _ ← next fun c => c == 'Z' || c == 'z') <|> do
    let _ ← next fun c => c == '+' || c == '-'
    pair 0 23
    exact ":"
    pair 0 59

def dateTime : Reader TomlValue :=
  (do
    date
    let _ ← maybe do
      let _ ← next fun c => c == 'T' || c == 't' || c == ' '
      time
      maybe zone
    return .moment) <|> (time *> pure .moment)

end AlRefactor.TomlValue
