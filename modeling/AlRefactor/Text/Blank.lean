import AlRefactor.Text.Basic

/-!
# White space
-/

namespace AlRefactor.Text

/-- White space of any script. -/
def isSpace (c : Char) : Bool :=
  let n := c.toNat
  (9 ≤ n && n ≤ 13) || n == 0x20 || n == 0x85 || n == 0xa0 || n == 0x1680 ||
    (0x2000 ≤ n && n ≤ 0x200a) || n == 0x2028 || n == 0x2029 || n == 0x202f || n == 0x205f ||
    n == 0x3000

def isAsciiSpace (c : Char) : Bool :=
  c == ' ' || c == '\t' || c == '\n' || c == '\x0c' || c == '\r'

def isIndent (c : Char) : Bool := c == ' ' || c == '\t'

/-- Without white space at the ends. -/
def trim (t : Text) : Text := trimWhere isSpace t

def trimStart (t : Text) : Text := t.dropWhile isSpace

def isBlank (t : Text) : Bool := t.all isSpace

end AlRefactor.Text
