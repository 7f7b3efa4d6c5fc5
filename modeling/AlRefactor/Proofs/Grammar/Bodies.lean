import AlRefactor.Grammar.File
import AlRefactor.Proofs.Grammar.Rules

/-!
# Trees of method bodies

The trees that expressions and statements are written down from: operators stand only between
operands that bind tightly enough, brackets are nodes of their own, what `then`, `else`, `do` and
the values of a case line control is a block, and every statement of a list has its semicolon.
-/

namespace AlRefactor

namespace Tree

/-! ## Signs and lists -/

def comma : Tree := .leaf ⟨.comma, [',']⟩

def semicolon : Tree := .leaf ⟨.semicolon, [';']⟩

/-- Trees with a comma in front of each. -/
def afterCommas (ts : List Tree) : List Tree := ts.flatMap fun t => [comma, t]

/-- Trees with commas between them. -/
def commaSeparated : List Tree → List Tree
  | [] => []
  | t :: ts => t :: afterCommas ts

/-- Arguments in round brackets. -/
def arguments (es : List Tree) : Tree :=
  .node NodeKind.argumentList (.leaf ⟨.lParen, ['(']⟩ :: commaSeparated es ++ [.leaf ⟨.rParen, [')']⟩])

/-- Expressions in square brackets, as a set or as the indices of an element. -/
def squared (k : NodeKind) (es : List Tree) : Tree :=
  .node k (.leaf ⟨.lBracket, ['[']⟩ :: commaSeparated es ++ [.leaf ⟨.rBracket, [']']⟩])

def identifier (l : Lexeme) : Tree := .node NodeKind.identifierName [.leaf l]

/-! ## Expressions -/

/-- The node that an operator makes of its operands. -/
def operation (k : TokenKind) : NodeKind :=
  if k = .dotDot then .rangeExpression else .binaryExpression

/-- Left power of the operator at the top that stands between two operands. -/
def power? : Tree → Option Nat
  | .node (.node .binaryExpression) [_, .leaf o, _]
  | .node (.node .rangeExpression) [_, .leaf o, _] => o.kind.powers?.map (·.1)
  | _ => none

/-- If an operator between two operands is at the top, its left power is at least `p`. -/
def Binds (p : Nat) (t : Tree) : Prop := ∀ q ∈ t.power?, p ≤ q

/-- A primary expression or one that ends in a member, an option value, arguments or indices. -/
def Receives (t : Tree) : Prop := ∃ k ∈ Pattern.receivers, t.kind = .node k

/-- The trees of expressions. -/
inductive Expression : Tree → Prop where
  | name {l : Lexeme} : l.kind.isName → Expression (identifier l)
  | literal {l : Lexeme} : l.kind.isLiteral → Expression (.node NodeKind.literalExpression [.leaf l])
  | unary {o : Lexeme} {x : Tree} : o.kind.unaryPower?.isSome → Expression x → x.power? = none →
      Expression (.node NodeKind.unaryExpression [.leaf o, x])
  | binary {o : Lexeme} {x y : Tree} {l r : Nat} : o.kind.powers? = some (l, r) →
      Expression x → x.Binds l → Expression y → y.Binds (l + 1) →
      Expression (.node (operation o.kind) [x, .leaf o, y])
  | parenthesized {x : Tree} : Expression x →
      Expression (.node NodeKind.parenthesizedExpression
        [.leaf ⟨.lParen, ['(']⟩, x, .leaf ⟨.rParen, [')']⟩])
  | set {es : List Tree} : (∀ e ∈ es, Expression e) → Expression (squared .setExpression es)
  | member {x : Tree} {l : Lexeme} : Expression x → x.Receives → l.kind.isName || l.kind.isKeyword →
      Expression (.node NodeKind.memberAccessExpression [x, .leaf ⟨.dot, ['.']⟩, .identifier l])
  | option {x : Tree} {l : Lexeme} : Expression x → x.Receives → l.kind.isName || l.kind.isKeyword →
      Expression (.node NodeKind.optionAccessExpression [x, .leaf ⟨.colonColon, [':', ':']⟩, .identifier l])
  | call {x : Tree} {es : List Tree} : Expression x → x.Receives → (∀ e ∈ es, Expression e) →
      Expression (.node NodeKind.invocationExpression [x, arguments es])
  | index {x : Tree} {es : List Tree} : Expression x → x.Receives → (∀ e ∈ es, Expression e) →
      Expression (.node NodeKind.elementAccessExpression [x, squared .argumentList es])

/-! ## Statements -/

/-- `begin … end` without a semicolon of its own. -/
def block (b : Text) (ss : List Tree) (e : Text) : Tree :=
  .node NodeKind.block (.leaf ⟨.kwBegin, b⟩ :: ss ++ [.leaf ⟨.kwEnd, e⟩])

/-- `begin … end;` -/
def separatedBlock (b : Text) (ss : List Tree) (e : Text) : Tree :=
  .node NodeKind.block (.leaf ⟨.kwBegin, b⟩ :: ss ++ [.leaf ⟨.kwEnd, e⟩, semicolon])

/-- The statement that an assignment operator makes. -/
def assignment (k : TokenKind) : NodeKind :=
  if k = .assign then .assignmentStatement else .compoundAssignmentStatement

/-- The values of a case line and what is done for them. -/
structure Case where
  value : Tree
  further : List Tree
  body : Tree

def Case.tree (c : Case) : Tree :=
  .node NodeKind.caseLine
    (commaSeparated (c.value :: c.further) ++ [.leaf ⟨.colon, [':']⟩, c.body])

/-- Everything of a case statement before its else list or its end. -/
def caseStart (c o : Text) (x : Tree) (cases : List Case) : List Tree :=
  .leaf ⟨.kwCase, c⟩ :: x :: .leaf ⟨.kwOf, o⟩ :: cases.map Case.tree

/-- The trees of statements. A statement that ends in a block leaves its semicolon to the block. -/
inductive Statement : Tree → Prop where
  | empty : Statement (.node NodeKind.emptyStatement [semicolon])
  | call {x : Tree} : Expression x → Statement (.node NodeKind.expressionStatement [x, semicolon])
  | assignment {o : Lexeme} {x y : Tree} : Expression x → o.kind.isAssignment → Expression y →
      Statement (.node (assignment o.kind) [x, .leaf o, y, semicolon])
  | exit {e : Text} : Statement (.node NodeKind.exitStatement [.leaf ⟨.kwExit, e⟩, semicolon])
  | exitWithout {e : Text} : Statement (.node NodeKind.exitStatement
      [.leaf ⟨.kwExit, e⟩, .leaf ⟨.lParen, ['(']⟩, .leaf ⟨.rParen, [')']⟩, semicolon])
  | exitWith {e : Text} {x : Tree} : Expression x → Statement (.node NodeKind.exitStatement
      [.leaf ⟨.kwExit, e⟩, .leaf ⟨.lParen, ['(']⟩, x, .leaf ⟨.rParen, [')']⟩, semicolon])
  | block {b e : Text} {ss : List Tree} : (∀ s ∈ ss, Statement s) → Statement (separatedBlock b ss e)
  | ifThen {i t : Text} {x d : Tree} : Expression x → Statement d → d.kind = NodeKind.block →
      Statement (.node NodeKind.ifStatement [.leaf ⟨.kwIf, i⟩, x, .leaf ⟨.kwThen, t⟩, d])
  | ifElse {i t b e l : Text} {x d : Tree} {ss : List Tree} : Expression x →
      (∀ s ∈ ss, Statement s) → Statement d → d.kind = NodeKind.block →
      Statement (.node NodeKind.ifStatement
        [.leaf ⟨.kwIf, i⟩, x, .leaf ⟨.kwThen, t⟩, .block b ss e,
          .node NodeKind.elseClause [.leaf ⟨.kwElse, l⟩, d]])
  | caseOf {c o e : Text} {x : Tree} {cases : List Case} : Expression x →
      (∀ c ∈ cases, Expression c.value) → (∀ c ∈ cases, ∀ v ∈ c.further, Expression v) →
      (∀ c ∈ cases, Statement c.body) → (∀ c ∈ cases, c.body.kind = NodeKind.block) →
      Statement (.node NodeKind.caseStatement
        (caseStart c o x cases ++ [.leaf ⟨.kwEnd, e⟩, semicolon]))
  | caseElse {c o l e : Text} {x : Tree} {cases : List Case} {ss : List Tree} : Expression x →
      (∀ c ∈ cases, Expression c.value) → (∀ c ∈ cases, ∀ v ∈ c.further, Expression v) →
      (∀ c ∈ cases, Statement c.body) → (∀ c ∈ cases, c.body.kind = NodeKind.block) →
      (∀ s ∈ ss, Statement s) →
      Statement (.node NodeKind.caseStatement
        (caseStart c o x cases ++
          [.node NodeKind.caseElse (.leaf ⟨.kwElse, l⟩ :: ss), .leaf ⟨.kwEnd, e⟩, semicolon]))
  | whileDo {w o : Text} {x d : Tree} : Expression x → Statement d → d.kind = NodeKind.block →
      Statement (.node NodeKind.whileStatement [.leaf ⟨.kwWhile, w⟩, x, .leaf ⟨.kwDo, o⟩, d])
  | withDo {w o : Text} {x d : Tree} : Expression x → Statement d → d.kind = NodeKind.block →
      Statement (.node NodeKind.withStatement [.leaf ⟨.kwWith, w⟩, x, .leaf ⟨.kwDo, o⟩, d])
  | repeatUntil {r u : Text} {ss : List Tree} {x : Tree} : (∀ s ∈ ss, Statement s) → Expression x →
      Statement (.node NodeKind.repeatStatement
        (.leaf ⟨.kwRepeat, r⟩ :: ss ++ [.leaf ⟨.kwUntil, u⟩, x, semicolon]))
  | forTo {f o : Text} {t : Lexeme} {x y z d : Tree} : Expression x → Expression y →
      t.kind = .kwTo ∨ t.kind = .kwDownTo → Expression z → Statement d → d.kind = NodeKind.block →
      Statement (.node NodeKind.forStatement
        [.leaf ⟨.kwFor, f⟩, x, .leaf ⟨.assign, [':', '=']⟩, y, .leaf t, z, .leaf ⟨.kwDo, o⟩, d])
  | forEach {f i o : Text} {l : Lexeme} {x d : Tree} : l.kind.isName → Expression x →
      Statement d → d.kind = NodeKind.block →
      Statement (.node NodeKind.forEachStatement
        [.leaf ⟨.kwForEach, f⟩, .identifier l, .leaf ⟨.kwIn, i⟩, x, .leaf ⟨.kwDo, o⟩, d])

/-! ## A file around a body -/

/-- A procedure that has a given body. -/
def procedure (ss : List Tree) : Tree :=
  .node NodeKind.methodDeclaration
    [.leaf ⟨.kwProcedure, "procedure".toList⟩, .identifier ⟨.ident, ['P']⟩,
      .node NodeKind.parameterList [.leaf ⟨.lParen, ['(']⟩, .leaf ⟨.rParen, [')']⟩],
      .block "begin".toList ss "end".toList, semicolon]

/-- A codeunit with this procedure. -/
def host (ss : List Tree) : Tree :=
  .node NodeKind.codeunitObject
    [.leaf ⟨.ident, "codeunit".toList⟩, .node NodeKind.objectId [.leaf ⟨.intLiteral, ['1']⟩],
      .identifier ⟨.ident, ['X']⟩, .leaf ⟨.lBrace, ['\x7b']⟩, procedure ss, .leaf ⟨.rBrace, ['\x7d']⟩]

end Tree

end AlRefactor
