import AlRefactor.Text.Basic
import AlRefactor.Token.Kind

/-!
# Kinds of tree nodes
-/

namespace AlRefactor

/-- What a composite node stands for. -/
inductive NodeKind where
  | compilationUnit | namespaceDeclaration | usingDirective
  | codeunitObject | tableObject | tableExtensionObject | pageObject | pageExtensionObject
  | reportObject | reportExtensionObject | queryObject | xmlPortObject | enumObject
  | enumExtensionObject | interfaceObject | permissionSetObject | unknownObject
  | objectId | extendsClause | implementsClause
  | propertyDeclaration | sectionDeclaration | sectionArguments
  | globalVarSection | varSection
  | variableDeclaration | variableListDeclaration | variableDeclarationName
  | memberAttribute | methodDeclaration | triggerDeclaration
  | parameterList | parameter | returnValue | typeReference
  | block | assignmentStatement | compoundAssignmentStatement | expressionStatement | exitStatement
  | ifStatement | elseClause | caseStatement | caseLine | caseElse
  | whileStatement | repeatStatement | forStatement | forEachStatement | withStatement
  | emptyStatement
  | invocationExpression | argumentList | memberAccessExpression | optionAccessExpression
  | elementAccessExpression | identifierName | literalExpression | binaryExpression
  | unaryExpression | parenthesizedExpression | rangeExpression | setExpression
deriving DecidableEq, Repr, Inhabited

namespace NodeKind

def all : List NodeKind :=
  [.compilationUnit, .namespaceDeclaration, .usingDirective,
   .codeunitObject, .tableObject, .tableExtensionObject, .pageObject, .pageExtensionObject,
   .reportObject, .reportExtensionObject, .queryObject, .xmlPortObject, .enumObject,
   .enumExtensionObject, .interfaceObject, .permissionSetObject, .unknownObject,
   .objectId, .extendsClause, .implementsClause,
   .propertyDeclaration, .sectionDeclaration, .sectionArguments,
   .globalVarSection, .varSection,
   .variableDeclaration, .variableListDeclaration, .variableDeclarationName,
   .memberAttribute, .methodDeclaration, .triggerDeclaration,
   .parameterList, .parameter, .returnValue, .typeReference,
   .block, .assignmentStatement, .compoundAssignmentStatement, .expressionStatement,
   .exitStatement, .ifStatement, .elseClause, .caseStatement, .caseLine, .caseElse,
   .whileStatement, .repeatStatement, .forStatement, .forEachStatement, .withStatement,
   .emptyStatement,
   .invocationExpression, .argumentList, .memberAccessExpression, .optionAccessExpression,
   .elementAccessExpression, .identifierName, .literalExpression, .binaryExpression,
   .unaryExpression, .parenthesizedExpression, .rangeExpression, .setExpression]

def name : NodeKind → String
  | .compilationUnit => "CompilationUnit"
  | .namespaceDeclaration => "NamespaceDeclaration"
  | .usingDirective => "UsingDirective"
  | .codeunitObject => "CodeunitObject"
  | .tableObject => "TableObject"
  | .tableExtensionObject => "TableExtensionObject"
  | .pageObject => "PageObject"
  | .pageExtensionObject => "PageExtensionObject"
  | .reportObject => "ReportObject"
  | .reportExtensionObject => "ReportExtensionObject"
  | .queryObject => "QueryObject"
  | .xmlPortObject => "XmlPortObject"
  | .enumObject => "EnumObject"
  | .enumExtensionObject => "EnumExtensionObject"
  | .interfaceObject => "InterfaceObject"
  | .permissionSetObject => "PermissionSetObject"
  | .unknownObject => "UnknownObject"
  | .objectId => "ObjectId"
  | .extendsClause => "ExtendsClause"
  | .implementsClause => "ImplementsClause"
  | .propertyDeclaration => "PropertyDeclaration"
  | .sectionDeclaration => "SectionDeclaration"
  | .sectionArguments => "SectionArguments"
  | .globalVarSection => "GlobalVarSection"
  | .varSection => "VarSection"
  | .variableDeclaration => "VariableDeclaration"
  | .variableListDeclaration => "VariableListDeclaration"
  | .variableDeclarationName => "VariableDeclarationName"
  | .memberAttribute => "MemberAttribute"
  | .methodDeclaration => "MethodDeclaration"
  | .triggerDeclaration => "TriggerDeclaration"
  | .parameterList => "ParameterList"
  | .parameter => "Parameter"
  | .returnValue => "ReturnValue"
  | .typeReference => "TypeReference"
  | .block => "Block"
  | .assignmentStatement => "AssignmentStatement"
  | .compoundAssignmentStatement => "CompoundAssignmentStatement"
  | .expressionStatement => "ExpressionStatement"
  | .exitStatement => "ExitStatement"
  | .ifStatement => "IfStatement"
  | .elseClause => "ElseClause"
  | .caseStatement => "CaseStatement"
  | .caseLine => "CaseLine"
  | .caseElse => "CaseElse"
  | .whileStatement => "WhileStatement"
  | .repeatStatement => "RepeatStatement"
  | .forStatement => "ForStatement"
  | .forEachStatement => "ForEachStatement"
  | .withStatement => "WithStatement"
  | .emptyStatement => "EmptyStatement"
  | .invocationExpression => "InvocationExpression"
  | .argumentList => "ArgumentList"
  | .memberAccessExpression => "MemberAccessExpression"
  | .optionAccessExpression => "OptionAccessExpression"
  | .elementAccessExpression => "ElementAccessExpression"
  | .identifierName => "IdentifierName"
  | .literalExpression => "LiteralExpression"
  | .binaryExpression => "BinaryExpression"
  | .unaryExpression => "UnaryExpression"
  | .parenthesizedExpression => "ParenthesizedExpression"
  | .rangeExpression => "RangeExpression"
  | .setExpression => "SetExpression"

/-! ## Classes of kinds -/

def objects : List NodeKind :=
  [.codeunitObject, .tableObject, .tableExtensionObject, .pageObject, .pageExtensionObject,
   .reportObject, .reportExtensionObject, .queryObject, .xmlPortObject, .enumObject,
   .enumExtensionObject, .interfaceObject, .permissionSetObject, .unknownObject]

def methods : List NodeKind := [.methodDeclaration, .triggerDeclaration]

def isObject (k : NodeKind) : Bool := objects.contains k

def isMethod (k : NodeKind) : Bool := methods.contains k

def isVarSection : NodeKind → Bool
  | .varSection | .globalVarSection => true
  | _ => false

def isStatement : NodeKind → Bool
  | .block | .assignmentStatement | .compoundAssignmentStatement | .expressionStatement
  | .exitStatement | .ifStatement | .caseStatement | .whileStatement | .repeatStatement
  | .forStatement | .forEachStatement | .withStatement | .emptyStatement => true
  | _ => false

def isExpression : NodeKind → Bool
  | .invocationExpression | .memberAccessExpression | .optionAccessExpression
  | .elementAccessExpression | .identifierName | .literalExpression | .binaryExpression
  | .unaryExpression | .parenthesizedExpression | .rangeExpression | .setExpression => true
  | _ => false

/-- The first name among the children of such a node names the node. -/
def isNamed (k : NodeKind) : Bool :=
  k.isObject ||
    match k with
    | .propertyDeclaration | .sectionDeclaration | .variableDeclaration
    | .variableDeclarationName | .methodDeclaration | .triggerDeclaration | .parameter
    | .returnValue => true
    | _ => false

/-! ## Object words -/

/-- The words that open an application object, in lower case. -/
def objectWords : List (String × NodeKind) :=
  [("codeunit", .codeunitObject), ("table", .tableObject),
   ("tableextension", .tableExtensionObject), ("page", .pageObject),
   ("pageextension", .pageExtensionObject), ("report", .reportObject),
   ("reportextension", .reportExtensionObject), ("query", .queryObject),
   ("xmlport", .xmlPortObject), ("enum", .enumObject),
   ("enumextension", .enumExtensionObject), ("interface", .interfaceObject),
   ("permissionset", .permissionSetObject), ("permissionsetextension", .unknownObject),
   ("profile", .unknownObject), ("profileextension", .unknownObject),
   ("controladdin", .unknownObject), ("entitlement", .unknownObject),
   ("dotnet", .unknownObject), ("pagecustomization", .unknownObject)]

def ofObjectWord? (word : Text) : Option NodeKind :=
  (objectWords.find? fun entry => entry.1.toList == word.lower).map (·.2)

end NodeKind

/-- The kind of any node of a tree. -/
inductive Kind where
  | token (kind : TokenKind)
  | node (kind : NodeKind)
deriving DecidableEq, Repr, Inhabited

instance : Coe TokenKind Kind := ⟨.token⟩
instance : Coe NodeKind Kind := ⟨.node⟩

namespace Kind

def name : Kind → String
  | .token k => k.name
  | .node k => k.name

def all : List Kind := TokenKind.all.map .token ++ NodeKind.all.map .node

def ofName? (name : String) : Option Kind := all.find? fun k => k.name == name

def isToken : Kind → Bool
  | .token _ => true
  | .node _ => false

def isTrivia : Kind → Bool
  | .token k => k.isTrivia
  | .node _ => false

def isNodeOf (p : NodeKind → Bool) : Kind → Bool
  | .token _ => false
  | .node k => p k

def isObject : Kind → Bool := isNodeOf NodeKind.isObject
def isMethod : Kind → Bool := isNodeOf NodeKind.isMethod
def isVarSection : Kind → Bool := isNodeOf NodeKind.isVarSection
def isStatement : Kind → Bool := isNodeOf NodeKind.isStatement
def isExpression : Kind → Bool := isNodeOf NodeKind.isExpression
def isNamed : Kind → Bool := isNodeOf NodeKind.isNamed

end Kind

end AlRefactor
