import AlRefactor.Fault
import AlRefactor.Syntax.Arena
import AlRefactor.Text.Blank
import AlRefactor.Text.Name

/-!
# Variables, return values and arguments

A type is kept as the text it is declared with; types are compared as texts and never resolved.
-/

namespace AlRefactor

/-! ## Types as texts -/

namespace Text

/-- The word a type starts with, without a length or the name of an object. -/
def typeWord (type : Text) : Text := type.trim.takeWhile fun c => c != '[' && !isSpace c

/-- Short type and object of a type that names an object. -/
def namedObject? (type : Text) : Option (Text × Text) :=
  let word := typeWord type
  match trimStart (type.trim.drop word.length) with
  | [] => none
  | '"' :: rest => (cutAt? '"' rest).map fun (name, _) => (word, '"' :: name ++ ['"'])
  | rest => some (word, rest.takeWhile fun c => !isSpace c)

end Text

/-! ## Variables -/

/-- A name bound to a type. -/
structure Variable where
  /-- The name as it is written, quotes included. -/
  name : Text
  type : Text
  /-- The procedure or trigger the variable belongs to. -/
  owner : Option Text
  byReference : Bool
  isLocal : Bool
  /-- The attributes in front of the declaration. -/
  attributes : List Text
deriving DecidableEq, Repr

namespace Variable

/-- A variable passed by value that belongs to no procedure. -/
def plain (name type : Text) : Variable := ⟨name, type, none, false, false, []⟩

def ownedBy (v : Variable) (owner : Text) : Variable :=
  { v with owner := some owner, isLocal := true }

def ownedBy? (v : Variable) (owner : Option Text) : Variable := (owner.map v.ownedBy).getD v

def withReference (v : Variable) (byReference : Bool) : Variable := { v with byReference }

def typeWord (v : Variable) : Text := v.type.typeWord

/-- Labels and text constants cannot be passed by reference. -/
def canBeReference (v : Variable) : Bool :=
  !(v.typeWord.sameLetters "label" || v.typeWord.sameLetters "textconst")

def isRecord (v : Variable) : Bool := v.typeWord.sameLetters "record"

/-- As a parameter: `name: Type` or `var name: Type`. -/
def declaration (v : Variable) : Text :=
  (if v.byReference then ("var " : Text) else []) ++ v.name ++ ": " ++ v.type

/-- As a line of a section of variables: `name: Type;` -/
def sectionLine (v : Variable) : Text := v.name ++ ": " ++ v.type ++ ";"

def parameterList (vs : List Variable) : Text := Text.join "; " (vs.map declaration)

end Variable

/-! ## Return values and arguments -/

/-- What a procedure returns. -/
structure ReturnValue where
  name : Option Text
  type : Text
  owner : Option Text
deriving DecidableEq, Repr

/-- The return value as a variable of a given name, otherwise of its own. -/
def ReturnValue.toVariable? (r : ReturnValue) (name : Option Text) : Option Variable :=
  (name.or r.name).map fun n => (Variable.plain n r.type).ownedBy? r.owner

/-- An argument of a call: the parameter it asks for, and whether it can be assigned to. -/
structure Argument where
  parameter : Variable
  expression : Text
  assignable : Bool
deriving DecidableEq, Repr

/-! ## Reading declarations -/

namespace Node

def owner? (n : Node) : Option Text :=
  (n.ancestorAmong? (NodeKind.methods.map .node)).bind (·.name)

def typeText (type : Option Node) : Text := (type.map (·.text)).getD []

/-- The variable that a single declaration or one name of a list declares. Names of a list share its
type and its attributes. -/
def toVariable (n : Node) : Variable :=
  let declaration := if n.is NodeKind.variableDeclarationName then n.parent.getD n else n
  let attributes := (declaration.childrenOf NodeKind.memberAttribute).map (·.text.trim)
  let type := typeText (declaration.lastChild? NodeKind.typeReference)
  { (Variable.plain (n.name.getD []) type).ownedBy? n.owner? with attributes }

def toParameter (n : Node) : Variable :=
  ((Variable.plain (n.name.getD []) (typeText (n.child? NodeKind.typeReference))).withReference
    (n.child? TokenKind.kwVar).isSome).ownedBy? n.owner?

def toReturnValue (n : Node) : ReturnValue :=
  ⟨n.name, typeText (n.child? NodeKind.typeReference), n.owner?⟩

/-- The variable of any node, unless the node declares none. -/
def variableOf (n : Node) : Except Fault Variable :=
  if n.isOneOf [.variableDeclaration, .variableDeclarationName] then .ok n.toVariable
  else .error (.notVariable n.kind)

def parameterOf (n : Node) : Except Fault Variable :=
  if n.is NodeKind.parameter then .ok n.toParameter else .error (.notParameter n.kind)

def returnValueOf (n : Node) : Except Fault ReturnValue :=
  if n.is NodeKind.returnValue then .ok n.toReturnValue else .error (.notReturnValue n.kind)

end Node

end AlRefactor
