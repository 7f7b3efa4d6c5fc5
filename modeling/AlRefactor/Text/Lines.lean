import AlRefactor.Text.Blank

/-!
# Lines and their indentation
-/

namespace AlRefactor.Text

/-! ## Habits of a text -/

/-- The line break a text uses: `\r\n` if it has any. -/
def newline (t : Text) : Text := if t.includes "\r\n" then "\r\n" else "\n"

/-- One more level of an indentation: a tab if there is one, otherwise four spaces. -/
def indentUnit (indent : Text) : Text := if indent.contains '\t' then "\t" else "    "

/-! ## Offsets in lines -/

def isBreak (c : Char) : Bool := c == '\n' || c == '\r'

def charAt? (t : Text) (offset : Nat) : Option Char := (t.drop? offset).bind List.head?

/-- End of the last line break before `offset`, in a text at `pos` in a line from `start` on. -/
def lineStartFrom (offset pos start : Nat) : Text → Nat
  | [] => start
  | c :: t =>
    if pos < offset then
      lineStartFrom offset (pos + c.utf8Size) (if isBreak c then pos + c.utf8Size else start) t
    else start

def lineStart (t : Text) (offset : Nat) : Nat := lineStartFrom offset 0 0 t

/-- Spaces and tabs at the start of the line of an offset. -/
def lineIndent (t : Text) (offset : Nat) : Text :=
  ((t.drop? (t.lineStart offset)).getD []).takeWhile isIndent

/-- Only spaces and tabs stand before the offset on its line. There is no answer for an offset that
is not in the text or inside a character. -/
def startsLine? (t : Text) (offset : Nat) : Option Bool :=
  (t.slice? ⟨t.lineStart offset, offset⟩).map (·.all isIndent)

def isLineStart (t : Text) (offset : Nat) : Bool :=
  offset == 0 || ((t.charAt? (offset - 1)).map isBreak).getD false

/-- Length of the blanks and the line break that follow, if nothing else stands on the line. -/
def lineRest? (t : Text) : Option Nat :=
  let blanks := t.takeWhile isIndent
  match t.dropWhile isIndent with
  | [] => some blanks.length
  | '\r' :: '\n' :: _ => some (blanks.length + 2)
  | c :: _ => if isBreak c then some (blanks.length + 1) else none

/-- Widens a range to whole lines. An end that shares its line with other text stays. -/
def wholeLines? (t : Text) (s : Span) : Option Span :=
  (t.startsLine? s.start).map fun first =>
    ⟨if first then t.lineStart s.start else s.start,
      s.stop + ((t.drop? s.stop).bind lineRest?).getD 0⟩

/-! ## Trimming -/

/-- The ranges of the characters of a text at an offset that are no ASCII white space. -/
def solidSpans (pos : Nat) : Text → List Span
  | [] => []
  | c :: t =>
    let rest := solidSpans (pos + c.utf8Size) t
    if isAsciiSpace c then rest else ⟨pos, pos + c.utf8Size⟩ :: rest

/-- The range without the white space at its ends, if anything is left. -/
def trimSpan? (t : Text) (s : Span) : Option Span :=
  let stop := min s.stop t.size
  if s.start < stop then
    let solid := (t.solidSpans 0).filter fun c => s.start < c.stop && c.start < stop
    match solid.head?, solid.getLast? with
    | some first, some last => some ⟨max first.start s.start, min last.stop stop⟩
    | _, _ => none
  else none

/-! ## Lines of a block -/

/-- A line feed ends a line, together with a carriage return before it. -/
def endLine (line : Text) : Text := (dropEnd? "\r" line).getD line

/-- The lines of a block without their ends; a line feed at the end starts no further line. -/
def linesFrom (line : Text) : Text → List Text
  | [] => if line.isEmpty then [] else [line.reverse]
  | c :: t => if c = '\n' then endLine line.reverse :: linesFrom [] t else linesFrom (c :: line) t

def lines (t : Text) : List Text := linesFrom [] t

/-- A line moved from one indentation to another; blank lines become empty. -/
def reindentLine (old new line : Text) : Text :=
  if line.isBlank then []
  else match dropStart? old line with
    | some rest => new ++ rest
    | none => new ++ line.trimStart

def reindent (t old new newline : Text) : Text :=
  join newline (t.lines.map (reindentLine old new))

end AlRefactor.Text
