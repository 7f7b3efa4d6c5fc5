import AlRefactor.Grammar.Production

/-!
# Expressions: operands, what follows them, and operators by binding power
-/

namespace AlRefactor.Grammar

open Production

/-- An inner expression: whether `in` is an operator, and the least power of operators. -/
abbrev Inner := Bool → Nat → Production

def expressions (inner : Inner) : Production :=
  inner true 0 ++ whileAt (·.isAt .comma) (take ++ inner true 0)

def bracketed (inner : Inner) (close : TokenKind) : Production :=
  take ++ choose (·.isAt close) skip (expressions inner) ++ require close

def argumentList (inner : Inner) (close : TokenKind) : Production :=
  node NodeKind.argumentList (bracketed inner close)

/-- A name, which behind `.` and `::` may also be a keyword. -/
def selector (missing : Problem) : Production :=
  take ++ choose (fun c => c.kind.isName || c.kind.isKeyword) name (report missing)

/-- The node that what follows an operand makes of the two: a member, an option value, a call or an
element. -/
def follower (c : Cursor) : Option NodeKind :=
  match c.kind with
  | .dot => some .memberAccessExpression
  | .colonColon => some .optionAccessExpression
  | .lParen => some .invocationExpression
  | .lBracket => some .elementAccessExpression
  | _ => none

def suffix (inner : Inner) : Production := look fun c =>
  match c.kind with
  | .dot => selector .missingMemberName
  | .colonColon => selector .missingOptionValue
  | .lParen => argumentList inner .rParen
  | _ => argumentList inner .rBracket

/-- The node that the operator ahead makes of its operands, if it binds at least as tightly as
`power`. -/
def operator (allowIn : Bool) (power : Nat) (c : Cursor) : Option NodeKind :=
  if c.isAt .kwIn && !allowIn then none
  else match c.kind.powers? with
    | none => none
    | some (l, _) =>
      if l < power then none
      else some (if c.isAt .dotDot then .rangeExpression else .binaryExpression)

def rightOperand (inner : Inner) (allowIn : Bool) : Production := look fun c =>
  take ++ inner allowIn ((c.kind.powers?.map (·.2)).getD 0)

/-- Lexemes that an unreadable expression leaves to the constructs around it. -/
def atExpressionStop (c : Cursor) : Bool :=
  c.atEnd || c.atSync ||
    c.atAny [.kwThen, .kwDo, .kwOf, .kwElse, .kwTo, .kwDownTo, .rParen, .rBracket, .comma, .colon]

/-- A literal, a name, an expression in brackets or a set. -/
def primary (inner : Inner) : Production := look fun c =>
  if c.kind.isLiteral then node NodeKind.literalExpression take
  else if c.kind.isName then name
  else match c.kind with
    | .lParen =>
      node NodeKind.parenthesizedExpression (take ++ inner true 0 ++ require .rParen)
    | .lBracket => node NodeKind.setExpression (bracketed inner .rBracket)
    | _ => report .missingExpression ++ choose atExpressionStop skip take

/-- An operand: an operator in front of one, or a primary expression and what follows it. -/
def operand (inner : Inner) (allowIn : Bool) : Production := look fun c =>
  match c.kind.unaryPower? with
  | some r => node NodeKind.unaryExpression (take ++ inner allowIn r)
  | none => grow (primary inner) follower (suffix inner)

/-- An operand with everything that binds to it at least as tightly as `power`. -/
def expressionStep (inner : Inner) : Inner := fun allowIn power =>
  grow (operand inner allowIn) (operator allowIn power) (rightOperand inner allowIn)

/-- Expressions nested at most `n` deep. -/
def expressionUpTo : Nat → Inner
  | 0 => fun _ _ => skip
  | n + 1 => fun allowIn power => look fun _ => expressionStep (expressionUpTo n) allowIn power

/-- An expression. Every inner one starts behind a lexeme of the outer one, so the number of lexemes
bounds the nesting. -/
def expression : Production := look fun c => expressionUpTo (c.ahead.length + 1) true 0

/-- An expression in which `in` is no operator. -/
def expressionWithoutIn : Production := look fun c => expressionUpTo (c.ahead.length + 1) false 0

end AlRefactor.Grammar
