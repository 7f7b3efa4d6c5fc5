/-!
# Texts, their length in bytes and their slices
-/

namespace AlRefactor

/-- A text is the list of its characters; lengths and offsets count the bytes of its UTF-8 form. -/
abbrev Text := List Char

instance : Coe String Text := ⟨String.toList⟩

/-- A half-open range of byte offsets. -/
structure Span where
  start : Nat
  stop : Nat
deriving DecidableEq, Repr, Inhabited

namespace Span

def empty (offset : Nat) : Span := ⟨offset, offset⟩

def isEmpty (s : Span) : Bool := s.start == s.stop

def length (s : Span) : Nat := s.stop - s.start

def contains (s : Span) (offset : Nat) : Bool := s.start ≤ offset && offset < s.stop

/-- The offset lies inside the range or at its end. -/
def touches (s : Span) (offset : Nat) : Bool := s.start ≤ offset && offset ≤ s.stop

/-- Every offset of the other range belongs to this one. -/
def covers (s other : Span) : Bool := s.start ≤ other.start && other.stop ≤ s.stop

/-- The smallest range around both. -/
def join (s other : Span) : Span := ⟨min s.start other.start, max s.stop other.stop⟩

/-- `a..b`, the way ranges are written in messages. -/
def describe (s : Span) : String := toString s.start ++ ".." ++ toString s.stop

end Span

namespace Text

/-! ## Bytes -/

/-- Length in bytes. -/
def size : Text → Nat
  | [] => 0
  | c :: t => c.utf8Size + size t

/-- What follows the first `n` bytes, if a character starts there. -/
def drop? : Text → Nat → Option Text
  | t, 0 => some t
  | [], _ + 1 => none
  | c :: t, n + 1 => if c.utf8Size ≤ n + 1 then drop? t (n + 1 - c.utf8Size) else none

/-- The first `n` bytes, if a character ends there. -/
def take? : Text → Nat → Option Text
  | _, 0 => some []
  | [], _ + 1 => none
  | c :: t, n + 1 =>
    if c.utf8Size ≤ n + 1 then (take? t (n + 1 - c.utf8Size)).map (c :: ·) else none

/-- The text of a range whose ends are in order, in the text and between characters. -/
def slice? (t : Text) (s : Span) : Option Text :=
  if s.start ≤ s.stop then (t.drop? s.start).bind (take? · s.length) else none

/-- The text of a range that is known to lie between characters. -/
def extract (t : Text) (s : Span) : Text := (t.slice? s).getD []

/-- The offset lies between two characters or at an end of the text. -/
def isBoundary (t : Text) (offset : Nat) : Bool := (t.drop? offset).isSome

/-! ## Letters without regard to case -/

/-- ASCII letters in lower case, all else as it is. -/
def lower (t : Text) : Text := t.map Char.toLower

/-- Equal up to the case of ASCII letters. -/
def sameLetters (a b : Text) : Bool := lower a == lower b

/-! ## Searching and cutting -/

def dropStart? : Text → Text → Option Text
  | [], t => some t
  | _ :: _, [] => none
  | b :: bs, c :: t => if b = c then dropStart? bs t else none

def dropEnd? (ending t : Text) : Option Text :=
  (dropStart? ending.reverse t.reverse).map List.reverse

def startsWith (t beginning : Text) : Bool := beginning.isPrefixOf t

def endsWith (t ending : Text) : Bool := ending.isSuffixOf t

def includes (t part : Text) : Bool :=
  match t with
  | [] => part.isEmpty
  | c :: r => part.isPrefixOf (c :: r) || includes r part

/-- What stands before and after the first occurrence of a character. -/
def cutAt? (c : Char) : Text → Option (Text × Text)
  | [] => none
  | d :: t => if d = c then some ([], t) else (cutAt? c t).map fun (a, b) => (d :: a, b)

/-- The pieces between the occurrences of a character. -/
def splitAt (c : Char) : Text → List Text
  | [] => [[]]
  | d :: t =>
    if d = c then [] :: splitAt c t
    else match splitAt c t with
      | [] => [[d]]
      | p :: ps => (d :: p) :: ps

/-- The pieces one after the other with a separator between neighbours. -/
def join (separator : Text) : List Text → Text
  | [] => []
  | [t] => t
  | t :: u :: ts => t ++ separator ++ join separator (u :: ts)

def trimWhere (p : Char → Bool) (t : Text) : Text :=
  ((t.dropWhile p).reverse.dropWhile p).reverse

def trimEndWhere (p : Char → Bool) (t : Text) : Text := (t.reverse.dropWhile p).reverse

def ofNat (n : Nat) : Text := (toString n).toList

end Text

end AlRefactor
