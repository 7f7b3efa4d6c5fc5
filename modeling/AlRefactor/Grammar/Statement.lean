import AlRefactor.Grammar.Expression

/-!
# Statements
-/

namespace AlRefactor.Grammar

open Production

/-! ## Separators -/

/-- Drops lexemes up to the next statement; a semicolon on the way is the last one dropped. -/
def recover : Production :=
  whileAt (fun c => !(c.atEnd || c.isAt .semicolon || c.atSync || c.kind.canStartStatement)) take ++
    takeIf .semicolon

/-- The semicolon behind a statement. It may be left out where no further statement can follow. -/
def separator : Production :=
  choose (·.isAt .semicolon) take <|
    choose (fun c => c.atEnd || c.atAny [.kwEnd, .kwElse, .kwUntil, .rBrace]) skip <|
      report (.missing .semicolon) ++
        choose (fun c => c.kind.canStartStatement || c.atSync) skip recover

/-! ## The forms of statements over an inner statement -/

def statements (inner : Production) (close : TokenKind) : Production :=
  whileAt (fun c => !(c.atEnd || c.isAt close || c.atMember)) inner

/-- The statement behind `then`, `else`, `do` or the values of a case line; it may be missing. -/
def controlled (inner : Production) : Production :=
  choose (fun c => c.atEnd || c.atAny [.kwElse, .kwEnd, .kwUntil] || c.atMember) skip inner

/-- `begin … end` -/
def blockBody (inner : Production) : Production :=
  take ++ statements inner .kwEnd ++ require .kwEnd

def ifStatement (inner : Production) : Production :=
  node NodeKind.ifStatement <|
    take ++ expression ++ require .kwThen ++ controlled inner ++
      choose (·.isAt .kwElse) (node NodeKind.elseClause (take ++ controlled inner)) skip

def caseLine (inner : Production) : Production :=
  node NodeKind.caseLine <|
    expression ++ whileAt (·.isAt .comma) (take ++ expression) ++ require .colon ++ controlled inner

def caseStatement (inner : Production) : Production :=
  node NodeKind.caseStatement <|
    take ++ expression ++ require .kwOf ++
      whileAt (fun c => !(c.atEnd || c.atAny [.kwEnd, .kwElse, .kwUntil] || c.atMember))
        (caseLine inner) ++
      choose (·.isAt .kwElse) (node NodeKind.caseElse (take ++ statements inner .kwEnd)) skip ++
      require .kwEnd ++ separator

/-- `while … do …` and `with … do …` -/
def guarded (kind : NodeKind) (inner : Production) : Production :=
  node kind (take ++ expression ++ require .kwDo ++ controlled inner)

def repeatStatement (inner : Production) : Production :=
  node NodeKind.repeatStatement <|
    take ++ statements inner .kwUntil ++ requireThen .kwUntil expression ++ separator

def forStatement (inner : Production) : Production :=
  node NodeKind.forStatement <|
    take ++ expression ++ requireThen .assign expression ++
      choose (·.atAny [.kwTo, .kwDownTo]) (take ++ expression) (report .missingToOrDownTo) ++
      require .kwDo ++ controlled inner

def forEachStatement (inner : Production) : Production :=
  node NodeKind.forEachStatement <|
    take ++ expressionWithoutIn ++ requireThen .kwIn expression ++ require .kwDo ++
      controlled inner

def exitStatement : Production :=
  node NodeKind.exitStatement <|
    take ++
      takeThen .lParen (choose (·.isAt .rParen) skip expression ++ require .rParen) ++
      separator

/-- An expression statement, or an assignment if an assignment operator follows the expression. -/
def assignmentOrCall : Production :=
  mark expression
    (fun c =>
      if c.isAt .assign then NodeKind.assignmentStatement
      else if c.kind.isAssignment then NodeKind.compoundAssignmentStatement
      else NodeKind.expressionStatement)
    (choose (·.kind.isAssignment) (take ++ expression) skip ++ separator)

def statementStep (inner : Production) : Production := look fun c =>
  match c.kind with
  | .kwBegin => node NodeKind.block (blockBody inner ++ separator)
  | .kwIf => ifStatement inner
  | .kwCase => caseStatement inner
  | .kwWhile => guarded .whileStatement inner
  | .kwWith => guarded .withStatement inner
  | .kwRepeat => repeatStatement inner
  | .kwFor => forStatement inner
  | .kwForEach => forEachStatement inner
  | .kwExit => exitStatement
  | .semicolon => node NodeKind.emptyStatement take
  | k => if k.canStartExpression then assignmentOrCall else report .missingStatement ++ take

/-- Statements nested at most `n` deep. -/
def statementUpTo : Nat → Production
  | 0 => skip
  | n + 1 => look fun _ => statementStep (statementUpTo n)

def statement : Production := look fun c => statementUpTo (c.ahead.length + 1)

/-- The body of a procedure or trigger; a semicolon behind it belongs to the member. -/
def block : Production := node NodeKind.block (blockBody statement)

end AlRefactor.Grammar
