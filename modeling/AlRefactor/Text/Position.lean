import AlRefactor.Text.Basic

/-!
# Lines and columns

Columns count UTF-16 units, and `\r\n`, `\n` and a lone `\r` end a line.
-/

namespace AlRefactor

/-- A line and a column, both from zero. -/
structure Position where
  line : Nat
  column : Nat
deriving DecidableEq, Repr

namespace Text

/-- Number of UTF-16 units of a character. -/
def units (c : Char) : Nat := if c.toNat < 0x10000 then 1 else 2

/-- Number of UTF-16 units of a text. -/
def unitCount : Text → Nat
  | [] => 0
  | c :: t => units c + unitCount t

/-- Where the lines after the first start, for a text at an offset. -/
def laterLineStarts (offset : Nat) : Text → List Nat
  | [] => []
  | '\r' :: '\n' :: t => (offset + 2) :: laterLineStarts (offset + 2) t
  | c :: t =>
    if c = '\r' ∨ c = '\n' then (offset + 1) :: laterLineStarts (offset + 1) t
    else laterLineStarts (offset + c.utf8Size) t

def lineStarts (t : Text) : List Nat := 0 :: laterLineStarts 0 t

/-- Length in bytes of the start of a line that has at least the given number of units or ends at
the line break. -/
def columnLength (column : Nat) : Text → Nat
  | [] => 0
  | c :: t =>
    if column = 0 ∨ c = '\r' ∨ c = '\n' then 0
    else c.utf8Size + columnLength (column - units c) t

end Text

/-- The line starts of a text and its length. -/
structure LineTable where
  starts : List Nat
  size : Nat
deriving DecidableEq, Repr

namespace LineTable

def ofText (t : Text) : LineTable := ⟨t.lineStarts, t.size⟩

/-- Number of lines; behind a final line break there is an empty one. -/
def count (i : LineTable) : Nat := i.starts.length

def start? (i : LineTable) (line : Nat) : Option Nat := i.starts[line]?

/-- The line of an offset: the last one that does not start behind it. -/
def lineOf (i : LineTable) (offset : Nat) : Nat :=
  (i.starts.takeWhile (· ≤ offset)).length - 1

/-- Line and column of an offset; offsets behind the end stand for the end. There is none inside a
character. -/
def position? (i : LineTable) (t : Text) (offset : Nat) : Option Position :=
  let offset := min offset i.size
  let line := i.lineOf offset
  (t.slice? ⟨(i.start? line).getD 0, offset⟩).map fun before => ⟨line, before.unitCount⟩

/-- Offset of a position; a column behind the end of the line stands for its end. -/
def offset? (i : LineTable) (t : Text) (p : Position) : Option Nat :=
  (i.start? p.line).map fun start =>
    let stop := (i.start? (p.line + 1)).getD i.size
    start + (t.extract ⟨start, stop⟩).columnLength p.column

end LineTable

end AlRefactor
