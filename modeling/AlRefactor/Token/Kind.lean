/-!
# Kinds of tokens
-/

namespace AlRefactor

/-- What a piece of source text is to the grammar. -/
inductive TokenKind where
  | whitespace | newline | lineComment | blockComment | directive
  | semicolon | colon | colonColon | comma | dot | dotDot
  | lParen | rParen | lBracket | rBracket | lBrace | rBrace | atSign
  | assign | plusAssign | minusAssign | starAssign | slashAssign
  | eq | neq | lt | ltEq | gt | gtEq | plus | minus | star | slash
  | kwProcedure | kwTrigger | kwLocal | kwInternal | kwProtected | kwVar | kwExtends | kwImplements
  | kwBegin | kwEnd | kwIf | kwThen | kwElse | kwCase | kwOf | kwWhile | kwDo | kwRepeat | kwUntil
  | kwFor | kwTo | kwDownTo | kwForEach | kwIn | kwWith | kwExit
  | kwNot | kwAnd | kwOr | kwXor | kwDiv | kwMod | kwTrue | kwFalse
  | intLiteral | decimalLiteral | dateTimeLiteral | stringLiteral
  | ident | quotedIdent
  | error | eof
deriving DecidableEq, Repr, Inhabited

namespace TokenKind

def all : List TokenKind :=
  [.whitespace, .newline, .lineComment, .blockComment, .directive,
   .semicolon, .colon, .colonColon, .comma, .dot, .dotDot,
   .lParen, .rParen, .lBracket, .rBracket, .lBrace, .rBrace, .atSign,
   .assign, .plusAssign, .minusAssign, .starAssign, .slashAssign,
   .eq, .neq, .lt, .ltEq, .gt, .gtEq, .plus, .minus, .star, .slash,
   .kwProcedure, .kwTrigger, .kwLocal, .kwInternal, .kwProtected, .kwVar, .kwExtends, .kwImplements,
   .kwBegin, .kwEnd, .kwIf, .kwThen, .kwElse, .kwCase, .kwOf, .kwWhile, .kwDo, .kwRepeat, .kwUntil,
   .kwFor, .kwTo, .kwDownTo, .kwForEach, .kwIn, .kwWith, .kwExit,
   .kwNot, .kwAnd, .kwOr, .kwXor, .kwDiv, .kwMod, .kwTrue, .kwFalse,
   .intLiteral, .decimalLiteral, .dateTimeLiteral, .stringLiteral,
   .ident, .quotedIdent, .error, .eof]

def name : TokenKind → String
  | .whitespace => "Whitespace" | .newline => "Newline" | .lineComment => "LineComment"
  | .blockComment => "BlockComment" | .directive => "Directive"
  | .semicolon => "Semicolon" | .colon => "Colon" | .colonColon => "ColonColon"
  | .comma => "Comma" | .dot => "Dot" | .dotDot => "DotDot"
  | .lParen => "LParen" | .rParen => "RParen" | .lBracket => "LBracket" | .rBracket => "RBracket"
  | .lBrace => "LBrace" | .rBrace => "RBrace" | .atSign => "At"
  | .assign => "Assign" | .plusAssign => "PlusAssign" | .minusAssign => "MinusAssign"
  | .starAssign => "StarAssign" | .slashAssign => "SlashAssign"
  | .eq => "Eq" | .neq => "Neq" | .lt => "Lt" | .ltEq => "LtEq" | .gt => "Gt" | .gtEq => "GtEq"
  | .plus => "Plus" | .minus => "Minus" | .star => "Star" | .slash => "Slash"
  | .kwProcedure => "KwProcedure" | .kwTrigger => "KwTrigger" | .kwLocal => "KwLocal"
  | .kwInternal => "KwInternal" | .kwProtected => "KwProtected" | .kwVar => "KwVar"
  | .kwExtends => "KwExtends" | .kwImplements => "KwImplements"
  | .kwBegin => "KwBegin" | .kwEnd => "KwEnd" | .kwIf => "KwIf" | .kwThen => "KwThen"
  | .kwElse => "KwElse" | .kwCase => "KwCase" | .kwOf => "KwOf" | .kwWhile => "KwWhile"
  | .kwDo => "KwDo" | .kwRepeat => "KwRepeat" | .kwUntil => "KwUntil" | .kwFor => "KwFor"
  | .kwTo => "KwTo" | .kwDownTo => "KwDownTo" | .kwForEach => "KwForEach" | .kwIn => "KwIn"
  | .kwWith => "KwWith" | .kwExit => "KwExit" | .kwNot => "KwNot" | .kwAnd => "KwAnd"
  | .kwOr => "KwOr" | .kwXor => "KwXor" | .kwDiv => "KwDiv" | .kwMod => "KwMod"
  | .kwTrue => "KwTrue" | .kwFalse => "KwFalse"
  | .intLiteral => "IntLiteral" | .decimalLiteral => "DecimalLiteral"
  | .dateTimeLiteral => "DateTimeLiteral" | .stringLiteral => "StringLiteral"
  | .ident => "Ident" | .quotedIdent => "QuotedIdent" | .error => "Error" | .eof => "Eof"

/-! ## Classes of kinds -/

/-- Layout: blanks, line breaks, comments and directives. -/
def isTrivia : TokenKind → Bool
  | .whitespace | .newline | .lineComment | .blockComment | .directive => true
  | _ => false

def isKeyword : TokenKind → Bool
  | .kwProcedure | .kwTrigger | .kwLocal | .kwInternal | .kwProtected | .kwVar | .kwExtends
  | .kwImplements | .kwBegin | .kwEnd | .kwIf | .kwThen | .kwElse | .kwCase | .kwOf | .kwWhile
  | .kwDo | .kwRepeat | .kwUntil | .kwFor | .kwTo | .kwDownTo | .kwForEach | .kwIn | .kwWith
  | .kwExit | .kwNot | .kwAnd | .kwOr | .kwXor | .kwDiv | .kwMod | .kwTrue | .kwFalse => true
  | _ => false

/-- A plain or quoted identifier. -/
def isName : TokenKind → Bool
  | .ident | .quotedIdent => true
  | _ => false

def isLiteral : TokenKind → Bool
  | .intLiteral | .decimalLiteral | .dateTimeLiteral | .stringLiteral | .kwTrue | .kwFalse => true
  | _ => false

def canStartExpression (k : TokenKind) : Bool :=
  k.isName || k.isLiteral ||
    match k with
    | .kwNot | .lParen | .lBracket | .minus | .plus => true
    | _ => false

def canStartStatement (k : TokenKind) : Bool :=
  k.isName ||
    match k with
    | .kwBegin | .kwIf | .kwCase | .kwWhile | .kwRepeat | .kwFor | .kwForEach | .kwWith | .kwExit
    | .lParen | .semicolon => true
    | _ => false

/-- `:=` and the compound assignments. -/
def isAssignment : TokenKind → Bool
  | .assign | .plusAssign | .minusAssign | .starAssign | .slashAssign => true
  | _ => false

def isAccessModifier : TokenKind → Bool
  | .kwLocal | .kwInternal | .kwProtected => true
  | _ => false

/-! ## Binding powers -/

/-- Left and right power of a binary operator: ranges bind loosest, then comparisons, then the
additive and the multiplicative operators, to which `or` and `and` belong. -/
def powers? : TokenKind → Option (Nat × Nat)
  | .dotDot => some (1, 2)
  | .eq | .neq | .lt | .ltEq | .gt | .gtEq | .kwIn => some (3, 4)
  | .plus | .minus | .kwOr | .kwXor => some (5, 6)
  | .star | .slash | .kwDiv | .kwMod | .kwAnd => some (7, 8)
  | _ => none

def unaryPower? : TokenKind → Option Nat
  | .kwNot | .plus | .minus => some 9
  | _ => none

end TokenKind

end AlRefactor
