import Mathlib.Computability.RegularExpressions
import AlRefactor.Syntax.Tree

/-!
# The rules of the grammar

For each kind of node, the children that a node of this kind may have, as a regular expression.
Where the kind of a child does not tell enough, a symbol of its own stands for it.
-/

namespace AlRefactor

/-- A child of a node, as the rules see it. -/
inductive Symbol where
  | token (kind : TokenKind)
  | node (kind : NodeKind)
  /-- A block with a semicolon of its own. -/
  | separatedBlock
  /-- Arguments in square brackets. -/
  | indices
deriving DecidableEq, Repr

namespace Symbol

def kind : Symbol → Kind
  | token k => k
  | node k => k
  | separatedBlock => NodeKind.block
  | indices => NodeKind.argumentList

/-- The symbol of a node of a kind above children of some kinds. -/
def ofNode (k : Kind) (below : List Kind) : Symbol :=
  match k with
  | .token k => token k
  | .node .block =>
    if below.getLast? = some TokenKind.semicolon then separatedBlock else node .block
  | .node .argumentList =>
    if below.head? = some TokenKind.lBracket then indices else node .argumentList
  | .node k => node k

theorem kind_ofNode (k : Kind) (below : List Kind) : (ofNode k below).kind = k := by
  unfold ofNode
  repeat' split
  all_goals rfl

end Symbol

def Tree.symbol : Tree → Symbol
  | .leaf l => .token l.kind
  | .node k ts => .ofNode k (ts.map Tree.kind)

theorem Tree.kind_symbol (t : Tree) : t.symbol.kind = t.kind := by
  cases t with
  | leaf l => rfl
  | node k ts => exact Symbol.kind_ofNode ..

/-! ## Patterns -/

/-- What the children of a node may be. -/
abbrev Pattern := RegularExpression Symbol

namespace Pattern

def token (k : TokenKind) : Pattern := .char (.token k)

def node (k : NodeKind) : Pattern := .char (.node k)

def oneOf (ss : List Symbol) : Pattern := ss.foldr (fun s r => .char s + r) 0

def tokens (ks : List TokenKind) : Pattern := oneOf (ks.map .token)

def nodes (ks : List NodeKind) : Pattern := oneOf (ks.map .node)

def optional (r : Pattern) : Pattern := r + 1

def anyToken : Pattern := tokens TokenKind.all

/-- A stretch in brackets. Round and square ones are not told apart where it ends. -/
def stretch (opening : TokenKind) : Pattern :=
  token opening * anyToken.star * tokens [.rParen, .rBracket]

/-! ### Expressions -/

/-- What can stand in front of `.`, `::`, and brackets. -/
def receivers : List NodeKind :=
  [.literalExpression, .identifierName, .parenthesizedExpression, .setExpression,
   .memberAccessExpression, .optionAccessExpression, .invocationExpression,
   .elementAccessExpression]

def receiver : Pattern := nodes receivers

/-- What an operator can stand in front of. -/
def operand : Pattern := nodes (.unaryExpression :: receivers)

def expression : Pattern :=
  nodes (.binaryExpression :: .rangeExpression :: .unaryExpression :: receivers)

/-- Expressions with commas between them. -/
def expressions : Pattern := expression * (token .comma * expression).star

def arguments (opening closing : TokenKind) : Pattern :=
  token opening * optional expressions * token closing

/-- The operators that stand between two operands, ranges apart. -/
def infixOperators : List TokenKind :=
  [.eq, .neq, .lt, .ltEq, .gt, .gtEq, .kwIn, .plus, .minus, .kwOr, .kwXor, .star, .slash, .kwDiv,
   .kwMod, .kwAnd]

/-! ### Statements -/

def separator : Pattern := optional (token .semicolon)

def statements : List Symbol :=
  [.node .block, .separatedBlock, .node .assignmentStatement,
    .node .compoundAssignmentStatement, .node .expressionStatement, .node .exitStatement,
    .node .ifStatement, .node .caseStatement, .node .whileStatement, .node .repeatStatement,
    .node .forStatement, .node .forEachStatement, .node .withStatement, .node .emptyStatement]

def statement : Pattern := oneOf statements

/-- The statement behind `then`, `else`, `do` or the values of a case line. -/
def controlled : Pattern := optional statement

def guarded (keyword : TokenKind) : Pattern :=
  token keyword * expression * token .kwDo * controlled

/-! ### Declarations -/

def attributes : Pattern := (node .memberAttribute).star

def typed : Pattern := token .colon * node .typeReference

def listedName : Pattern := node .variableDeclarationName

def variableList : Pattern := (nodes [.variableDeclaration, .variableListDeclaration]).star

def parameters : Pattern :=
  node .parameter * (token .semicolon * node .parameter).star * optional (token .semicolon)

def method (keyword : TokenKind) : Pattern :=
  attributes * (tokens [.kwLocal, .kwInternal, .kwProtected]).star *
    (token keyword *
      (node .identifierName * node .parameterList * optional (node .returnValue) *
        optional (token .semicolon) * optional (node .varSection) *
        optional (node .block * optional (token .semicolon))))

def members : List Symbol :=
  [.node .globalVarSection, .node .methodDeclaration, .node .triggerDeclaration,
    .token .semicolon, .node .propertyDeclaration, .node .sectionDeclaration]

def member : Pattern := oneOf members

def memberList : Pattern := token .lBrace * (member.star * token .rBrace)

def object : Pattern :=
  token .ident * optional (node .objectId) * node .identifierName *
    optional (node .extendsClause) * optional (node .implementsClause) * optional memberList

def directive : Pattern := token .ident * anyToken.star * token .semicolon

def declaration : Pattern :=
  nodes (.namespaceDeclaration :: .usingDirective :: NodeKind.objects)

end Pattern

/-! ## Rules -/

open Pattern in
/-- The children that a node of a kind has. -/
def NodeKind.production : NodeKind → Pattern
  | .compilationUnit => declaration.star
  | .namespaceDeclaration | .usingDirective => directive
  | .codeunitObject | .tableObject | .tableExtensionObject | .pageObject | .pageExtensionObject
  | .reportObject | .reportExtensionObject | .queryObject | .xmlPortObject | .enumObject
  | .enumExtensionObject | .interfaceObject | .permissionSetObject | .unknownObject => object
  | .objectId => token .intLiteral
  | .extendsClause => token .kwExtends * node .identifierName
  | .implementsClause =>
    token .kwImplements *
      (node .identifierName * (token .comma * node .identifierName).star)
  | .propertyDeclaration =>
    node .identifierName * token .eq * anyToken.star * token .semicolon
  | .sectionDeclaration =>
    node .identifierName * optional (node .sectionArguments) * (memberList + token .semicolon)
  | .sectionArguments => stretch .lParen
  | .globalVarSection => optional (token .kwProtected) * token .kwVar * variableList
  | .varSection => token .kwVar * variableList
  | .variableDeclaration => attributes * (node .identifierName * typed * token .semicolon)
  | .variableListDeclaration =>
    attributes *
      (listedName * (token .comma * listedName * (token .comma * listedName).star) * typed *
        token .semicolon)
  | .variableDeclarationName => node .identifierName
  | .memberAttribute => stretch .lBracket
  | .methodDeclaration => method .kwProcedure
  | .triggerDeclaration => method .kwTrigger
  | .parameterList => token .lParen * optional parameters * token .rParen
  | .parameter => optional (token .kwVar) * node .identifierName * typed
  | .returnValue => optional (node .identifierName) * token .colon * node .typeReference
  | .typeReference => tokens [.ident, .quotedIdent] * anyToken.star
  | .block => token .kwBegin * statement.star * token .kwEnd * separator
  | .assignmentStatement => expression * (token .assign * expression * separator)
  | .compoundAssignmentStatement =>
    expression *
      (tokens [.plusAssign, .minusAssign, .starAssign, .slashAssign] * expression * separator)
  | .expressionStatement => expression * separator
  | .exitStatement =>
    token .kwExit * optional (token .lParen * (optional expression * token .rParen)) * separator
  | .ifStatement =>
    token .kwIf * expression * token .kwThen * controlled * optional (node .elseClause)
  | .elseClause => token .kwElse * controlled
  | .caseStatement =>
    token .kwCase * expression * token .kwOf * (node .caseLine).star * optional (node .caseElse) *
      token .kwEnd * separator
  | .caseLine => expressions * token .colon * controlled
  | .caseElse => token .kwElse * statement.star
  | .whileStatement => guarded .kwWhile
  | .repeatStatement =>
    token .kwRepeat * statement.star * (token .kwUntil * expression) * separator
  | .forStatement =>
    token .kwFor * expression * (token .assign * expression) *
      (tokens [.kwTo, .kwDownTo] * expression) * token .kwDo * controlled
  | .forEachStatement =>
    token .kwForEach * expression * (token .kwIn * expression) * token .kwDo * controlled
  | .withStatement => guarded .kwWith
  | .emptyStatement => token .semicolon
  | .invocationExpression => receiver * node .argumentList
  | .argumentList => arguments .lParen .rParen + arguments .lBracket .rBracket
  | .memberAccessExpression => receiver * (token .dot * node .identifierName)
  | .optionAccessExpression => receiver * (token .colonColon * node .identifierName)
  | .elementAccessExpression => receiver * .char .indices
  | .identifierName => tokens (TokenKind.all.filter fun k => k.isName || k.isKeyword)
  | .literalExpression => tokens (TokenKind.all.filter (·.isLiteral))
  | .binaryExpression => expression * (tokens infixOperators * expression)
  | .unaryExpression => tokens [.kwNot, .plus, .minus] * operand
  | .parenthesizedExpression => token .lParen * expression * token .rParen
  | .rangeExpression => expression * (token .dotDot * expression)
  | .setExpression => arguments .lBracket .rBracket

end AlRefactor
