import AlRefactor.Text.Basic
import AlRefactor.Token.Kind

/-!
# Splitting a text into tokens
-/

namespace AlRefactor

/-- A piece of source text and what it is to the grammar. -/
structure Lexeme where
  kind : TokenKind
  text : Text
deriving DecidableEq, Repr, Inhabited

/-- A lexeme at its place in a text. -/
structure Token extends Lexeme where
  start : Nat
deriving DecidableEq, Repr, Inhabited

namespace Token

def stop (t : Token) : Nat := t.start + t.text.size

def span (t : Token) : Span := ⟨t.start, t.stop⟩

end Token

namespace Lexeme

def isSignificant (l : Lexeme) : Bool := !l.kind.isTrivia

/-! ## Character classes -/

/-- Space, tab, form feed and byte order mark. -/
def isBlank (c : Char) : Bool := c == ' ' || c == '\t' || c == '\x0c' || c == '\ufeff'

def isLineBreak (c : Char) : Bool := c == '\r' || c == '\n'

def isNameStart (c : Char) : Bool := c.isAlpha || c == '_'

def isNamePart (c : Char) : Bool := c.isAlphanum || c == '_'

/-! ## Words -/

/-- The reserved words in lower case. A word stands before the words that it begins with. -/
def keywords : List (String × TokenKind) :=
  [("procedure", .kwProcedure), ("trigger", .kwTrigger), ("local", .kwLocal),
   ("internal", .kwInternal), ("protected", .kwProtected), ("var", .kwVar),
   ("extends", .kwExtends), ("implements", .kwImplements), ("begin", .kwBegin), ("end", .kwEnd),
   ("if", .kwIf), ("then", .kwThen), ("else", .kwElse), ("case", .kwCase), ("of", .kwOf),
   ("while", .kwWhile), ("downto", .kwDownTo), ("do", .kwDo), ("repeat", .kwRepeat),
   ("until", .kwUntil), ("foreach", .kwForEach), ("for", .kwFor), ("to", .kwTo), ("in", .kwIn),
   ("with", .kwWith), ("exit", .kwExit), ("not", .kwNot), ("and", .kwAnd), ("or", .kwOr),
   ("xor", .kwXor), ("div", .kwDiv), ("mod", .kwMod), ("true", .kwTrue), ("false", .kwFalse)]

/-- The ASCII letter that a letter is a case of, and any other character as it is. Outside of ASCII
the long s and the Kelvin sign are cases of `s` and `k`. -/
def foldCase (c : Char) : Char :=
  if c == '\u017f' then 's' else if c == '\u212a' then 'k' else c.toLower

/-- The text starts with a word in lower case, in any case of its letters. -/
def startsWithWord : Text → Text → Bool
  | [], _ => true
  | _ :: _, [] => false
  | w :: ws, c :: t => foldCase c == w && startsWithWord ws t

/-- The longest keyword that a text starts with, and its length. -/
def keyword? (t : Text) : Option (TokenKind × Nat) :=
  (keywords.find? fun entry => startsWithWord entry.1.toList t).map fun entry =>
    (entry.2, entry.1.length)

/-- Kind and length of the word that a text starts with. The characters of a plain identifier are
ASCII, so a keyword with another letter in it can reach further than the identifier does. -/
def word (t : Text) : TokenKind × Nat :=
  let n := (t.takeWhile isNamePart).length
  match keyword? t with
  | some (k, m) => if n ≤ m then (k, m) else (.ident, n)
  | none => (.ident, n)

/-! ## Lengths of the longer tokens, in characters -/

def runLength (p : Char → Bool) (t : Text) : Nat := (t.takeWhile p).length

def lineLength (t : Text) : Nat := runLength (fun c => !isLineBreak c) t

/-- Up to and including the end of a block comment. -/
def commentLength? : Text → Option Nat
  | [] => none
  | '*' :: '/' :: _ => some 2
  | _ :: t => (commentLength? t).map (· + 1)

/-- Up to and including the last quote that can close a string literal: a doubled quote stands for
one of its characters as long as a closing quote follows on the line. -/
def stringLength? : Text → Option Nat
  | [] => none
  | '\'' :: '\'' :: t => some (((stringLength? t).map (· + 2)).getD 1)
  | '\'' :: _ => some 1
  | c :: t => if isLineBreak c then none else (stringLength? t).map (· + 1)

/-- Up to and including the quote that closes a quoted identifier. -/
def quotedLength? : Text → Option Nat
  | [] => none
  | c :: t =>
    if c = '"' then some 1 else if isLineBreak c then none else (quotedLength? t).map (· + 1)

/-- A number after its first digit: decimals have digits on both sides of the point; `D`, `T` and
`DT` make it a date, a time or both. -/
def number (t : Text) : TokenKind × Nat :=
  let n := runLength Char.isDigit t
  match t.drop n with
  | '.' :: r =>
    let m := runLength Char.isDigit r
    if m = 0 then (.intLiteral, n) else (.decimalLiteral, n + 1 + m)
  | c :: r =>
    if c.toLower = 'd' then
      match r with
      | d :: _ => if d.toLower = 't' then (.dateTimeLiteral, n + 2) else (.dateTimeLiteral, n + 1)
      | [] => (.dateTimeLiteral, n + 1)
    else if c.toLower = 't' then (.dateTimeLiteral, n + 1)
    else (.intLiteral, n)
  | [] => (.intLiteral, n)

/-! ## Tokens -/

/-- Kind of the token that starts with a character, and how many characters of the text behind it
belong to it. What no rule reads is an error: an unclosed literal runs to the end of its line, an
unclosed comment to the end of the text, and any other character stands alone. -/
def scan (c : Char) (t : Text) : TokenKind × Nat :=
  if isBlank c then (.whitespace, runLength isBlank t)
  else if isNameStart c then
    let w := word (c :: t)
    (w.1, w.2 - 1)
  else if c.isDigit then number t
  else match c, t with
    | '\r', '\n' :: _ => (.newline, 1)
    | '\r', _ => (.newline, 0)
    | '\n', _ => (.newline, 0)
    | '/', '/' :: r => (.lineComment, 1 + lineLength r)
    | '/', '*' :: r =>
      match commentLength? r with
      | some n => (.blockComment, 1 + n)
      | none => (.error, 1 + r.length)
    | '/', '=' :: _ => (.slashAssign, 1)
    | '/', _ => (.slash, 0)
    | '#', d :: r => if d.isAlpha then (.directive, 1 + lineLength r) else (.error, 0)
    | ';', _ => (.semicolon, 0)
    | ':', ':' :: _ => (.colonColon, 1)
    | ':', '=' :: _ => (.assign, 1)
    | ':', _ => (.colon, 0)
    | ',', _ => (.comma, 0)
    | '.', '.' :: _ => (.dotDot, 1)
    | '.', _ => (.dot, 0)
    | '(', _ => (.lParen, 0)
    | ')', _ => (.rParen, 0)
    | '[', _ => (.lBracket, 0)
    | ']', _ => (.rBracket, 0)
    | '\x7b', _ => (.lBrace, 0)
    | '\x7d', _ => (.rBrace, 0)
    | '@', _ => (.atSign, 0)
    | '+', '=' :: _ => (.plusAssign, 1)
    | '+', _ => (.plus, 0)
    | '-', '=' :: _ => (.minusAssign, 1)
    | '-', _ => (.minus, 0)
    | '*', '=' :: _ => (.starAssign, 1)
    | '*', _ => (.star, 0)
    | '=', _ => (.eq, 0)
    | '<', '>' :: _ => (.neq, 1)
    | '<', '=' :: _ => (.ltEq, 1)
    | '<', _ => (.lt, 0)
    | '>', '=' :: _ => (.gtEq, 1)
    | '>', _ => (.gt, 0)
    | '\'', _ =>
      match stringLength? t with
      | some n => (.stringLiteral, n)
      | none => (.error, lineLength t)
    | '"', _ =>
      match quotedLength? t with
      | some n => (.quotedIdent, n)
      | none => (.error, lineLength t)
    | _, _ => (.error, 0)

def lex : Text → List Lexeme
  | [] => []
  | c :: t =>
    let s := scan c t
    ⟨s.1, c :: t.take s.2⟩ :: lex (t.drop s.2)
termination_by t => t.length
decreasing_by simp only [List.length_drop, List.length_cons]; omega

/-- Lexemes at their places, the first one at a given offset. -/
def place : Nat → List Lexeme → List Token
  | _, [] => []
  | n, l :: ls => ⟨l, n⟩ :: place (n + l.text.size) ls

end Lexeme

def Text.tokens (t : Text) : List Token := Lexeme.place 0 (Lexeme.lex t)

def Text.significant (t : Text) : List Token := t.tokens.filter (·.isSignificant)

end AlRefactor
