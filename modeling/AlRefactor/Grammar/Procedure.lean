import AlRefactor.Grammar.Statement

/-!
# Variables, parameters, types, procedures and triggers
-/

namespace AlRefactor.Grammar

open Production

/-- `[…]` in front of a declaration, any number of times. -/
def attributes : Production := whileAt (·.isAt .lBracket) (node NodeKind.memberAttribute balanced)

/-! ## Types -/

/-- Types that are followed by the name or number of an object. -/
def wordsBeforeObjects : List String :=
  ["record", "codeunit", "page", "report", "query", "xmlport", "enum", "interface", "dotnet",
   "testpage", "testrequestpage"]

/-- What may follow a type word: element types, the items of an option, the parts of a label, an
object and how its records are held. -/
def typeTail (word : Text) (element : Production) : Production :=
  if word == "array".toList then takeThen .kwOf element
  else if word == "list".toList || word == "dictionary".toList then
    takeThen .kwOf (choose (·.isAt .lBracket) balanced skip)
  else if word == "label".toList || word == "textconst".toList || word == "option".toList then
    clause
  else if wordsBeforeObjects.any (·.toList == word) then
    choose (fun c => c.kind.isName || c.isAt .intLiteral) take skip ++
      choose (·.atWord "temporary") take skip ++
      choose (·.atWord "securityfiltering") (take ++ choose (·.isAt .lParen) balanced skip) skip
  else skip

/-- A type with at most `n` element types inside each other. -/
def typeUpTo : Nat → Production
  | 0 => skip
  | n + 1 => look fun c =>
    if c.kind.isName then
      take ++ choose (·.isAt .lBracket) balanced skip ++ typeTail c.text.lower (typeUpTo n)
    else report .missingType

def typeReference : Production :=
  node NodeKind.typeReference (look fun c => typeUpTo (c.ahead.length + 1))

/-- `: Type` -/
def typed : Production := requireThen .colon typeReference

/-! ## Variables -/

/-- What follows the attributes ahead; at depth 0 outside of an attribute. -/
def afterAttributes (depth : Nat) : List Lexeme → List Lexeme
  | [] => []
  | l :: ls =>
    match depth, l.kind with
    | 0, .lBracket => afterAttributes 1 ls
    | 0, _ => l :: ls
    | d + 1, .lBracket | d + 1, .lParen => afterAttributes (d + 2) ls
    | d + 1, .rBracket | d + 1, .rParen => afterAttributes d ls
    | d + 1, _ => afterAttributes (d + 1) ls

/-- The attributes ahead belong to a variable, not to the next member. -/
def atVariable (c : Cursor) : Bool :=
  match afterAttributes 0 c.ahead with
  | l :: m :: _ => l.kind.isName && (m.kind == .colon || m.kind == .comma)
  | _ => false

def listedName : Production := node NodeKind.variableDeclarationName name

/-- Further names behind commas. A comma without a name behind it ends the list. -/
def furtherNames : Production :=
  whileAt (fun c => c.isAt .comma && (c.peek 1).isName) (take ++ listedName) ++
    takeThen .comma (report .missingVariableName)

def variableDeclaration : Production :=
  mark attributes
    (fun c =>
      if c.peek 1 == .comma then NodeKind.variableListDeclaration
      else NodeKind.variableDeclaration)
    (choose (·.peek 1 == .comma) (listedName ++ furtherNames) name ++ typed ++ require .semicolon)

def varSection (kind : NodeKind) : Production :=
  node kind (takeIf .kwProtected ++ take ++ whileAt atVariable variableDeclaration)

/-! ## Parameters and return values -/

def parameter : Production :=
  node NodeKind.parameter (takeIf .kwVar ++ nameOr .missingParameterName ++ typed)

def atParameter (c : Cursor) : Bool := c.isAt .kwVar || c.kind.isName

/-- Where a parameter is due, anything but the end of the list is a problem. -/
def noParameter : Production :=
  choose (fun c => c.isAt .rParen || c.atEnd) skip (report .missingParameter)

/-- Parameters with semicolons between them and perhaps behind the last one. -/
def parameters : Production :=
  parameter ++
    whileAt (fun c => c.isAt .semicolon && (c.peek 1 == .kwVar || (c.peek 1).isName))
      (take ++ parameter) ++
    takeThen .semicolon noParameter

def parameterList : Production :=
  node NodeKind.parameterList <|
    take ++ choose atParameter parameters noParameter ++ require .rParen

def returnValue : Production :=
  node NodeKind.returnValue (choose (·.kind.isName) name skip ++ take ++ typeReference)

/-! ## Procedures and triggers -/

def atReturnValue (c : Cursor) : Bool := c.isAt .colon || (c.kind.isName && c.peek 1 == .colon)

/-- Everything behind `procedure` or `trigger`. -/
def methodRest : Production :=
  nameOr .missingProcedureName ++
    choose (·.isAt .lParen) parameterList (report (.missing .lParen)) ++
    choose atReturnValue returnValue skip ++
    takeIf .semicolon ++
    choose (·.isAt .kwVar) (varSection .varSection) skip ++
    choose (·.isAt .kwBegin) (block ++ takeIf .semicolon) skip

/-- What stands in front of `procedure` or `trigger`. -/
def methodStart : Production := attributes ++ whileAt (·.kind.isAccessModifier) take

/-- `procedure` or `trigger` and everything behind it. -/
def methodTail : Production :=
  choose (·.atAny [.kwTrigger, .kwProcedure]) (take ++ methodRest)
    (report .missingProcedureOrTrigger)

/-- A procedure or trigger with its attributes. A member that turns out to be neither is kept under
the kind of unreadable tokens. -/
def method : Production :=
  mark methodStart
    (fun c =>
      if c.isAt .kwTrigger then NodeKind.triggerDeclaration
      else if c.isAt .kwProcedure then NodeKind.methodDeclaration
      else TokenKind.error)
    methodTail

end AlRefactor.Grammar
