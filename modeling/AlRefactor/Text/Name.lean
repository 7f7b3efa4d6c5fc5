import AlRefactor.Text.Basic
import AlRefactor.Token.Lexer

/-!
# Names
-/

namespace AlRefactor.Text

def unquote (name : Text) : Text := ((dropStart? "\"" name).bind (dropEnd? "\"")).getD name

/-- Names are equal up to the case of ASCII letters and the quotes around them. -/
def sameName (a b : Text) : Bool := sameLetters (unquote a) (unquote b)

def isIdentifier (t : Text) : Bool :=
  match Lexeme.lex t with
  | [l] => l.kind.isName
  | _ => false

/-- A letter written with the letters of plain identifiers; nothing for what cannot be part of
one. -/
def plainChar (c : Char) : Text :=
  match c with
  | 'ä' => "ae"
  | 'ö' => "oe"
  | 'ü' => "ue"
  | 'Ä' => "Ae"
  | 'Ö' => "Oe"
  | 'Ü' => "Ue"
  | 'ß' => "ss"
  | c => if c.isAlphanum || c == '_' then [c] else []

/-- The part of a text that can stand in a plain identifier. -/
def plain (t : Text) : Text := t.flatMap plainChar

/-- The base, or if that is taken, the base with the least number from 2 on that makes it free. More
numbers than there are taken names need not be tried. -/
def fresh (same : Text → Text → Bool) (taken : List Text) (base : Text) : Text :=
  let isTaken := fun name => taken.any (same · name)
  if isTaken base then
    (((List.range' 2 (taken.length + 1)).map fun n => base ++ ofNat n).find? (!isTaken ·)).getD base
  else base

end AlRefactor.Text
