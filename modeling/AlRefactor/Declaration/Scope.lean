import AlRefactor.Declaration.Variable

/-!
# What can be named inside a procedure
-/

namespace AlRefactor

namespace Node

def object? (n : Node) : Option Node := n.ancestors.find? (·.kind.isObject)

/-- The procedure or trigger around a node, or the node itself. -/
def method? (n : Node) : Option Node := n.ancestors.find? (·.kind.isMethod)

/-! ## Declarations -/

/-- The declarations of a section: single ones and the names of lists. -/
def sectionDeclarations (n : Node) : List Node :=
  n.childNodes.flatMap fun m =>
    if m.is NodeKind.variableDeclaration then [m]
    else if m.is NodeKind.variableListDeclaration then m.childrenOf NodeKind.variableDeclarationName
    else []

def localDeclarations (n : Node) : List Node :=
  ((n.child? NodeKind.varSection).map sectionDeclarations).getD []

def globalDeclarations (n : Node) : List Node :=
  (n.childrenOf NodeKind.globalVarSection).flatMap sectionDeclarations

def locals (n : Node) : List Variable := n.localDeclarations.map toVariable

def globals (n : Node) : List Variable := n.globalDeclarations.map toVariable

def parameterNodes (n : Node) : List Node :=
  ((n.child? NodeKind.parameterList).map (·.childrenOf NodeKind.parameter)).getD []

def parameters (n : Node) : List Variable := n.parameterNodes.map toParameter

def returnValue? (n : Node) : Option ReturnValue :=
  (n.child? NodeKind.returnValue).map toReturnValue

def proceduresNamed (n : Node) (name : Text) : List Node :=
  (n.childrenOf NodeKind.methodDeclaration).filter fun m =>
    (m.name.map (·.sameName name)).getD false

def procedureNames (n : Node) : List Text :=
  (n.childrenOf NodeKind.methodDeclaration).filterMap (·.name)

end Node

/-! ## Names -/

/-- Names taken around a procedure. A named return value counts as a local. -/
structure TakenNames where
  locals : List Text
  parameters : List Text
  globals : List Text
deriving DecidableEq, Repr

namespace TakenNames

def all (s : TakenNames) : List Text := s.locals ++ s.parameters ++ s.globals

def contains (s : TakenNames) (name : Text) : Bool := s.all.any (·.sameName name)

def ofMethod (n : Node) : TakenNames where
  locals := n.locals.map (·.name) ++ (n.returnValue?.bind (·.name)).toList
  parameters := n.parameters.map (·.name)
  globals := ((n.object?.map (·.globals)).getD []).map (·.name)

end TakenNames

/-- Why a name cannot be given to something new. -/
inductive NameRefusal where
  | empty
  | notIdentifier (name : Text)
  | «local» (taken : Text)
  | parameter (taken : Text)
  | global (taken : Text)
deriving DecidableEq, Repr

namespace NameRefusal

def message : NameRefusal → Text
  | .empty => "the name must not be empty"
  | .notIdentifier n => "'" ++ n ++ "' is not a valid identifier"
  | .local n => "a local variable named '" ++ n ++ "' already exists"
  | .parameter n => "a parameter named '" ++ n ++ "' already exists"
  | .global n => "a global variable named '" ++ n ++ "' already exists"

end NameRefusal

/-- What speaks against a new name in a scope, if anything does. -/
def TakenNames.conflict? (s : TakenNames) (name : Text) : Option NameRefusal :=
  let find := fun names : List Text => names.find? (·.sameName name)
  if name.trim.isEmpty then some .empty
  else if !name.isIdentifier then some (.notIdentifier name)
  else
    ((find s.locals).map .local).or
      (((find s.parameters).map .parameter).or ((find s.globals).map .global))

end AlRefactor
