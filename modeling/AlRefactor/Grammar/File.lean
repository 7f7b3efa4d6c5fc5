import AlRefactor.Grammar.Procedure

/-!
# Objects, their members, and source files
-/

namespace AlRefactor.Grammar

open Production

/-! ## Members -/

/-- `Name = value;` with the value as it is written. -/
def property : Production :=
  node NodeKind.propertyDeclaration (name ++ take ++ clause ++ require .semicolon)

def memberList (member : Production) : Production :=
  takeThen .lBrace (whileAt (fun c => !(c.isAt .rBrace || c.atEnd)) member ++ require .rBrace)

def sectionArguments : Production :=
  choose (·.isAt .lParen) (node NodeKind.sectionArguments balanced) skip

def sectionBody (member : Production) : Production :=
  choose (·.isAt .lBrace) (memberList member) (expect .semicolon .missingBodyOrSemicolon)

/-- `word(header) { members }` or `word(header);` -/
def sectionOf (member : Production) : Production :=
  node NodeKind.sectionDeclaration (name ++ sectionArguments ++ sectionBody member)

def memberStep (inner : Production) : Production := look fun c =>
  match c.kind with
  | .kwVar => varSection .globalVarSection
  | .lBracket | .kwProcedure | .kwTrigger | .kwLocal | .kwInternal => method
  | .kwProtected => if c.peek 1 == .kwVar then varSection .globalVarSection else method
  | .semicolon => take
  | k =>
    if k.isName && c.peek 1 == .eq then property
    else if k == .ident && (c.peek 1 == .lParen || c.peek 1 == .lBrace) then sectionOf inner
    else report .missingMember ++ take

/-- Members nested at most `n` deep. -/
def memberUpTo : Nat → Production
  | 0 => skip
  | n + 1 => look fun _ => memberStep (memberUpTo n)

def member : Production := look fun c => memberUpTo (c.ahead.length + 1)

/-! ## Objects -/

def atObject (c : Cursor) : Bool := c.isAt .ident && (NodeKind.ofObjectWord? c.text).isSome

def extendsClause : Production :=
  node NodeKind.extendsClause (take ++ nameOr .missingExtendedName)

def interfaces : Production :=
  name ++ whileAt (fun c => c.isAt .comma && (c.peek 1).isName) (take ++ name) ++
    takeThen .comma (report .missingInterfaceName)

def implementsClause : Production :=
  node NodeKind.implementsClause <|
    take ++ choose (·.kind.isName) interfaces (report .missingInterfaceName)

/-- Skips the words of a header that no rule reads. -/
def headerRest : Production :=
  choose (fun c => c.isAt .lBrace || c.atEnd) skip <|
    report (.missing .lBrace) ++
      whileAt (fun c => !(c.isAt .lBrace || c.atEnd || atObject c)) take

def header : Production :=
  take ++ choose (·.isAt .intLiteral) (node NodeKind.objectId take) skip ++
    nameOr .missingObjectName ++
    choose (·.isAt .kwExtends) extendsClause skip ++
    choose (·.isAt .kwImplements) implementsClause skip ++
    headerRest

def object (kind : NodeKind) : Production := node kind (header ++ memberList member)

/-! ## Files -/

/-- `namespace …;` and `using …;` -/
def directive (kind : NodeKind) : Production :=
  node kind (take ++ clause ++ require .semicolon)

/-- An object, a directive, or a lexeme that is out of place. -/
def declaration : Production := look fun c =>
  if c.atWord "namespace" then directive .namespaceDeclaration
  else if c.atWord "using" then directive .usingDirective
  else match if c.isAt .ident then NodeKind.ofObjectWord? c.text else none with
    | some kind => object kind
    | none => report .missingObject ++ take

def declarations : Production := whileAt (fun c => !c.atEnd) declaration

def file : Production := node NodeKind.compilationUnit declarations

/-- The events that significant lexemes give rise to, and the problems in the order they were
met. -/
def read (ls : List Lexeme) : List Event × List (Problem × Nat) :=
  let a := file.emit ⟨0, ls⟩
  (a.made, a.problems)

end AlRefactor.Grammar
