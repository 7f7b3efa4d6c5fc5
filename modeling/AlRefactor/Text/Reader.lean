import AlRefactor.Text.Basic

/-!
# Readers of texts
-/

namespace AlRefactor

/-- Reads a beginning of a text and leaves the rest; there is no answer for a text that does not
begin that way. -/
abbrev Reader := StateT Text Option

namespace Reader

/-! ## Single characters and words -/

/-- The next character, if it is of a class. -/
def next (p : Char → Bool) : Reader Char
  | [] => none
  | c :: t => if p c then some (c, t) else none

def exact (word : Text) : Reader Unit := fun t => (Text.dropStart? word t).map fun r => ((), r)

def finish : Reader Unit
  | [] => some ((), [])
  | _ :: _ => none

/-! ## Combinations -/

def run (p : Char → Bool) : Reader Text := fun t => some (t.takeWhile p, t.dropWhile p)

/-- The longest run of characters of a class, which may not be empty. -/
def someOf (p : Char → Bool) : Reader Text := do
  let c ← next p
  return c :: (← run p)

/-- What a reader reads, if it can read it here. -/
def maybe {α : Type} (r : Reader α) : Reader (Option α) := (some <$> r) <|> pure none

/-- At most `n` times. -/
def upTo {α : Type} (n : Nat) (r : Reader α) : Reader (List α) :=
  match n with
  | 0 => pure []
  | n + 1 => (do
    let a ← r
    return a :: (← upTo n r)) <|> pure []

/-- As often as possible; the reader takes at least one character. -/
def many {α : Type} (r : Reader α) : Reader (List α) := fun t => upTo t.length r t

def separated {α : Type} (separator : Reader Unit) (r : Reader α) : Reader (List α) := do
  let first ← r
  return first :: (← many (separator *> r))

/-! ## Whole texts -/

/-- What a reader makes of a text, if it reads all of it. -/
def whole? {α : Type} (r : Reader α) (t : Text) : Option α := ((r <* finish) t).map (·.1)

end Reader

namespace Text

/-! ## Digits -/

/-- The value of a digit, with letters of both cases from ten on. -/
def digitValue? (base : Nat) (c : Char) : Option Nat :=
  let value :=
    if c.isDigit then c.toNat - '0'.toNat
    else if c.isLower then c.toNat - 'a'.toNat + 10
    else if c.isUpper then c.toNat - 'A'.toNat + 10
    else base
  if value < base then some value else none

def isDigitOf (base : Nat) (c : Char) : Bool := (digitValue? base c).isSome

/-- The number that digits write. -/
def valueOf (base : Nat) (digits : Text) : Nat :=
  digits.foldl (fun n c => n * base + (digitValue? base c).getD 0) 0

/-- The number that a text writes, with a plus sign or without, if it is below a bound. -/
def number? (bound : Nat) (t : Text) : Option Nat :=
  let ds := (dropStart? "+" t).getD t
  let n := valueOf 10 ds
  if !ds.isEmpty && ds.all Char.isDigit && n < bound then some n else none

def word32? (t : Text) : Option Nat := t.number? 0x100000000

def word64? (t : Text) : Option Nat := t.number? 0x10000000000000000

/-- A character by its number, if there is one of that number. -/
def charOf? (n : Nat) : Option Char := if n.isValidChar then some (Char.ofNat n) else none

end Text

namespace Reader

/-- The number that the next `n` digits write. -/
def digits (base n : Nat) : Reader Nat := fun t =>
  let ds := t.take n
  if ds.length = n ∧ ds.all (Text.isDigitOf base) then some (Text.valueOf base ds, t.drop n)
  else none

end Reader

end AlRefactor
